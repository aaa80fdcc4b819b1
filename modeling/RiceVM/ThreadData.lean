import RiceVM.HandOff
import RiceVM.Mspawn

/-!
The module data of threads. A new thread works on a copy of its creator's data. From then on
nobody else writes it: what a thread begins an instruction with is what its own previous
instruction left, whatever ran in between. The data of a loaded module that no call is inside lies in
the module's record, and that is one for all threads.
-/
namespace RiceVM
open Exec Ops Memory

/-- The module that executes, its data, and the data parked by the calls that lead to it. -/
def ThreadCtx.data (c : ThreadCtx) : Option Nat × List Byte × List (Nat × List Byte) :=
  (c.currentLoadedModule, c.mp, c.callerMpStack)

/-- A new thread has a copy of its creator's data, and the creator keeps its own. -/
def Copied (s t : VmState) : Prop :=
  ∃ child, t.threadQueue = s.threadQueue ++ [child] ∧ child.ctx.data = s.ctx.data ∧
    t.ctx.data = s.ctx.data ∧ t.history = .spawned child.thread child.ctx :: s.history

theorem copied_spawnThread {framePtr entryPc : Nat} {s t : VmState}
    (h : spawnThread framePtr entryPc s = .ok () t) : Copied s t := by
  obtain ⟨_, _, hget, h⟩ := bind_eq_ok.mp h
  cases hget
  obtain ⟨fs, u, hact, h⟩ := bind_eq_ok.mp h
  cases hfs : s.frames.activatePending framePtr (-1) with
  | error e => rw [hfs] at hact; cases hact
  | ok fs' =>
      rw [hfs] at hact
      cases hact
      obtain ⟨nextPid, v, hpid, h⟩ := bind_eq_ok.mp h
      have hv : v = s := by
        split at hpid <;> cases hpid
        rfl
      obtain ⟨heap, w, hretain, h⟩ := bind_eq_ok.mp h
      cases hheap : retainAll s.mp s.heap with
      | none => rw [hheap] at hretain; cases hretain
      | some heap' =>
          rw [hheap] at hretain
          cases hretain
          cases h
          exact ⟨_, rfl, rfl, rfl, rfl⟩

theorem copied_opSpawn {s t : VmState} (h : opSpawn s = .ok () t) : Copied s t := by
  rw [opSpawn, bind_ok (srcWord_apply s)] at h
  exact copied_spawnThread h

/-- The function of a main module reference gets a thread. -/
theorem copied_opMspawn {nested : Nested} {funcMap : FuncMap} {s t : VmState}
    (hkind : resolveModuleRef s (s.readWordAt s.dst s.immDst) = .ok (.main funcMap))
    (h : opMspawn nested s = .ok () t) : Copied s t := by
  rw [opMspawn, bind_ok (srcWord_apply s), bind_ok (midWord_apply s), bind_ok (dstPtr_apply s),
    bind_ok (get_apply s), hkind, bind_ok (ofExcept_ok _ s)] at h
  obtain ⟨entryPc, u, hpc, h⟩ := bind_eq_ok.mp h
  have hu : u = s := by
    cases hexport : exportPc s.module funcMap (s.readWordAt s.mid s.immMid).toNat "main" with
    | error e => rw [hexport] at hpc; cases hpc
    | ok pc => rw [hexport] at hpc; cases hpc; rfl
  subst hu
  exact copied_spawnThread h

/-- One of the steps in which the machine changes the thread it runs. -/
inductive Switched (s : VmState) : VmState → Prop
  | suspended {blockedOn : Option HeapId} {t : VmState} : suspendCurrent blockedOn s = .ok () t →
      Switched s t
  | resumed {more : Bool} {t : VmState} : resumeNextReadyThread s = .ok more t → Switched s t
  | handedOff (other : SuspendedThread) (idx : Nat) : Switched s (handOff other idx s)
  | switchedBack (reader : VmState) (blockedOn : Option HeapId) :
      Switched s (switchBack reader blockedOn s)

/-- The records of the loaded modules belong to no thread. -/
theorem Switched.loadedModules {s t : VmState} (h : Switched s t) :
    t.loadedModules = s.loadedModules := by
  cases h with
  | suspended hrun =>
      cases hrun
      rfl
  | @resumed more t hrun =>
      rw [resumeNextReadyThread, bind_ok (get_apply s)] at hrun
      cases hidx : s.threadQueue.findIdx? (·.blockedOn.isNone) with
      | none =>
          rw [hidx] at hrun
          cases hrun
          rfl
      | some idx =>
          rw [hidx] at hrun
          obtain ⟨th, u, hth, hrest⟩ := bind_eq_ok.mp hrun
          cases hget : s.threadQueue[idx]? with
          | none =>
              rw [hget] at hth
              cases hth
          | some th =>
              rw [hget] at hth
              cases hth
              cases hrest
              rfl
  | handedOff => rfl
  | switchedBack => rfl

/-- A call into a loaded module runs on what the module's record holds, and leaves what the function
left of it there. -/
theorem record_called {s : VmState} {idx : Nat} {lm : LoadedModule}
    (hlm : s.loadedModules[idx]? = some lm) (hne : some idx ≠ s.currentLoadedModule) (pc : Nat) :
    ∃ c, enterModule (some idx) pc s = .ok () c ∧ c.mp = lm.mp ∧ ∀ w, RanIn c w →
      ∀ lm', w.loadedModules[idx]? = some lm' →
        (leaveModule (VmState.saveCaller s (some idx)) (some idx) w).loadedModules[idx]? =
          some { lm' with mp := w.mp } := by
  have henter := enterModule_loaded hlm hne pc
  refine ⟨_, henter, rfl, fun w hran lm' hlm' => ?_⟩
  obtain ⟨_, parked, parent, hstack, _⟩ := ran_stack henter hne hran
  rw [leaveModule_loaded hstack hne]
  dsimp only
  rw [List.getElem?_modify, hlm']
  simp only [if_true, Option.map_eq_map, Option.map_some]

/-- Threads do not share the data they execute on. Every instruction of a thread begins with the
data the same thread was last left with, and a queued thread keeps it; a thread is created with a copy;
and an instruction of a nested loop that hands the host to another thread has its data back
afterwards. What is shared is the record of a loaded module: no switch of threads touches it, and a
call by any thread runs on it. -/
theorem threads_keep_data {vm : VmState} (h : Observed vm) :
    (∀ i pid halting due ctx older, .started i pid halting due ctx :: older <:+ vm.history →
      (lastLeft i older).map (·.data) = some ctx.data) ∧
    (∀ th ∈ vm.threadQueue, (lastLeft th.thread vm.history).map (·.data) = some th.ctx.data) ∧
    (∀ s t, opSpawn s = .ok () t → Copied s t) ∧
    (∀ nested funcMap s t,
      resolveModuleRef s (s.readWordAt s.dst s.immDst) = .ok (.main funcMap) →
      opMspawn nested s = .ok () t → Copied s t) ∧
    (∀ env fuel s, s.blockedChannel = none → wp (runOtherVmThread env (nestedAt env fuel))
      (fun _ t => t.ctx.data = s.ctx.data) (fun _ t => t.ctx.data = s.ctx.data) s) ∧
    (∀ s t, Switched s t → t.loadedModules = s.loadedModules) ∧
    ∀ s idx lm pc, s.loadedModules[idx]? = some lm → some idx ≠ s.currentLoadedModule →
      ∃ c, enterModule (some idx) pc s = .ok () c ∧ c.mp = lm.mp ∧ ∀ w, RanIn c w →
        ∀ lm', w.loadedModules[idx]? = some lm' →
          (leaveModule (VmState.saveCaller s (some idx)) (some idx) w).loadedModules[idx]? =
            some { lm' with mp := w.mp } := by
  have hqueued := queued_observed h
  refine ⟨fun i pid halting due ctx older hsuf => ?_, fun th hth => ?_,
    fun _ _ => copied_opSpawn, fun _ _ _ _ => copied_opMspawn, fun env fuel s hblocked => ?_,
    fun _ _ => Switched.loadedModules, fun _ _ _ pc hlm hne => record_called hlm hne pc⟩
  · rw [hqueued.resumed i pid halting due ctx older hsuf, Option.map_some]
  · rw [hqueued.left th hth, Option.map_some]
  · exact wp_mono (reader_restored env fuel hblocked)
      (fun _ t ht => congrArg ThreadCtx.data ht.ctx) fun _ t ht => congrArg ThreadCtx.data ht.ctx

/-- A thread that writes its data after it has spawned another, which reads it. -/
def writeAfterSpawn : Module :=
  .ofCode "m" [
    ⟨.frame, .imm 0, .unused, .fp 48⟩,
    ⟨.spawn, .fp 48, .unused, .imm 4⟩,
    ⟨.movw, .imm 7, .unused, .mp 0⟩,
    ⟨.exit, .unused, .unused, .unused⟩,
    ⟨.movw, .mp 0, .unused, .fp 32⟩,
    ⟨.exit, .unused, .unused, .unused⟩] 4

/-- The second thread has read 0 where the first wrote 7 before. -/
def readStale (s : VmState × Nat) : Bool :=
  match s.1.history with
  | .stopped 2 after :: .started 2 _ _ _ before :: older =>
    (lastLeft 1 older).map (readWord ·.mp 0) = some 7 &&
      decide (s.1.module.code[before.pc]? = some ⟨.movw, .mp 0, .unused, .fp 32⟩ ∧
        before.currentLoadedModule = none ∧ readWord before.mp 0 = 0 ∧
        readWord after.frames.data 48 = 0)
  | _ => false

theorem stale_read : (writeAfterSpawn.after .bare 1 6).any readStale = true := by decide +kernel

theorem threads_keep_data_writeAfterSpawn : ∃ vm : VmState, Observed vm ∧
    ∀ th ∈ vm.threadQueue, (lastLeft th.thread vm.history).map (·.data) = some th.ctx.data := by
  obtain ⟨s, hreach, _⟩ := Module.reachable_after rfl stale_read
  exact ⟨s.1, .top hreach, (threads_keep_data (.top hreach)).2.1⟩

/-- The first thread wrote 7 to the module data before the second thread read 0 there. -/
theorem data_not_shared : ∃ s after pid halting due before older, Reachable s ∧
    s.1.history = .stopped 2 after :: .started 2 pid halting due before :: older ∧
    (lastLeft 1 older).map (readWord ·.mp 0) = some 7 ∧
    s.1.module.code[before.pc]? = some ⟨.movw, .mp 0, .unused, .fp 32⟩ ∧
    before.currentLoadedModule = none ∧ readWord before.mp 0 = 0 ∧
    readWord after.frames.data 48 = 0 := by
  obtain ⟨s, hreach, htest⟩ := Module.reachable_after rfl stale_read
  unfold readStale at htest
  split at htest
  · next hist =>
      obtain ⟨hwritten, hread⟩ := Bool.and_eq_true_iff.mp htest
      exact ⟨s, _, _, _, _, _, _, hreach, hist, of_decide_eq_true hwritten, of_decide_eq_true hread⟩
  · cases htest

end RiceVM
