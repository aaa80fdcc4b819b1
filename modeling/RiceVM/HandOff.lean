import RiceVM.Exits

/-!
What a waiting read does to the thread it belongs to and to the thread it runs meanwhile. The
reader's context is kept on the host stack and restored; its pid is not put aside, and the other
thread runs under it.
-/
namespace RiceVM
open Exec Ops

/-- What belongs to the reading thread and to the program. -/
structure SameReader (s t : VmState) : Prop where
  thread : t.thread = s.thread
  pid : t.currentPid = s.currentPid
  module : t.module = s.module
  ctx : t.ctx = s.ctx
  nextPc : t.nextPc = s.nextPc
  halted : t.halted = s.halted
  blocked : t.blockedChannel = s.blockedChannel
  unwindFloor : t.unwindFloor = s.unwindFloor
  operands : (t.src, t.mid, t.dst, t.immSrc, t.immMid, t.immDst) =
    (s.src, s.mid, s.dst, s.immSrc, s.immMid, s.immDst)

theorem SameReader.refl (s : VmState) : SameReader s s := ⟨rfl, rfl, rfl, rfl, rfl, rfl, rfl, rfl, rfl⟩

/-- No instruction changes the pid that is current or the main module. -/
def SameOwner (s t : VmState) : Prop := t.currentPid = s.currentPid ∧ t.module = s.module

theorem SameOwner.trans {s t v : VmState} (a : SameOwner s t) (b : SameOwner t v) : SameOwner s v :=
  ⟨b.1.trans a.1, b.2.trans a.2⟩

theorem SameOwner.work {s t : VmState} (h : t.shared = s.shared) : SameOwner s t :=
  ⟨congrArg Shared.currentPid h, congrArg Shared.module h⟩

theorem ownerRules : Rules SameOwner (fun s t _ => SameOwner s t) where
  trans _ _ _ := .trans
  work _ _ w := .work w.shared
  call s _ w moduleIdx _ _ hu huw :=
    ((SameOwner.work hu.shared).trans huw).trans
      (.work (work_leaveModule (VmState.saveCaller s moduleIdx) moduleIdx w).shared)
  fresh _ _ _ _ _ _ _ := ⟨rfl, rfl⟩
  put _ _ _ _ _ := ⟨rfl, rfl⟩
  take _ _ _ _ _ := ⟨rfl, rfl⟩
  inject _ _ _ := ⟨rfl, rfl⟩
  spawn _ _ _ _ _ _ _ := ⟨rfl, rfl⟩
  nested _ _ := ⟨rfl, rfl⟩
  handOff _ _ _ _ _ _ _ _ _ h := ⟨h.1, h.2⟩
  sliceDone _ := ⟨rfl, rfl⟩
  sliceEnd _ _ := ⟨rfl, rfl⟩
  sliceStep _ _ _ _ _ _ hstep hrest := SameOwner.trans hstep hrest
  sliceFault _ _ _ _ hstep := hstep
  sliceBlock _ _ _ _ _ hbegun _ :=
    ⟨congrArg Shared.currentPid hbegun.shared, congrArg Shared.module hbegun.shared⟩

/-- Whatever the other thread does, the reader goes on with what it had. -/
theorem reader_restored (env : Env) (fuel : Nat) {s : VmState} (hblocked : s.blockedChannel = none) :
    wp (runOtherVmThread env (nestedAt env fuel)) (fun _ t => SameReader s t)
      (fun _ t => SameReader s t) s := by
  refine wp_ite (fun _ => .refl s) fun _ => ?_
  split
  · exact .refl s
  · next idx hidx =>
      rw [wp_bind]
      refine wp_unwrap fun other _ => ?_
      have hback : ∀ b u, SameOwner (RiceVM.handOff other idx s) u →
          SameReader s (switchBack s b u) := fun b u hu =>
        ⟨rfl, hu.1, hu.2, rfl, rfl, rfl, hblocked.symm, rfl, rfl⟩
      have hslice := ownerRules.runThreadSlice_spec (ownerRules.soundNested env fuel) env
        yieldQuantum (RiceVM.handOff other idx s)
      simp only [wp_bind, wp_modify, wp_attempt]
      refine wp_mono hslice (fun b u hu => ?_) fun e u hu => ?_
      · exact hback b u (hu hblocked)
      · exact hback none u (hu.1 hblocked)

/-- The queued thread a waiting read runs, with its place in the queue. -/
def VmState.nextOther (vm : VmState) : Option (Nat × SuspendedThread) :=
  if vm.yielding then none
  else do
    let idx ← vm.threadQueue.findIdx? (·.runnable)
    return (idx, ← vm.threadQueue[idx]?)

/-- A run that hands the host thread over has an outcome; the state it leaves. -/
def Left : Res VmState ExecError Bool → VmState → Prop
  | .ok _ t, u | .error _ t, u => t = u
  | .panic, _ | .diverge, _ => False

/-- Running another thread inside a read is transparent: the reader goes on with what it had,
the thread it runs has its own pid while it runs and when it is queued again, it leaves an exit
record if it finishes, and its faults are not the reader's. -/
structure Transparent (env : Env) (nested : Nested) (s : VmState) : Prop where
  reader : ∀ t, Left (runOtherVmThread env nested s) t → SameReader s t
  running : ∀ idx other, s.nextOther = some (idx, other) →
    (handOff other idx s).currentPid = other.thread
  queued : ∀ idx other t, s.nextOther = some (idx, other) →
    Left (runOtherVmThread env nested s) t →
    ∀ th ∈ t.threadQueue, th.thread = other.thread → th.pid = other.thread
  record : ∀ idx other t, s.nextOther = some (idx, other) →
    Left (runOtherVmThread env nested s) t →
    (∀ th ∈ t.threadQueue, th.thread ≠ other.thread) → .exited other.thread ∈ t.history
  fault : ∀ e t, runOtherVmThread env nested s ≠ .error e t

/-- Every thread has the pid it was given when it was created, and no two have the same. -/
structure OwnPids (s : VmState) : Prop where
  current : s.currentPid = s.thread
  apart : ∀ th ∈ s.threadQueue, th.thread ≠ s.thread

theorem runOther_none {s : VmState} (h : s.nextOther = none) (env : Env) (nested : Nested) :
    runOtherVmThread env nested s = .ok false s := by
  unfold VmState.nextOther at h
  rw [runOtherVmThread, bind_ok (get_apply s)]
  split
  · rfl
  · next hyield =>
      rw [if_neg hyield] at h
      cases hidx : s.threadQueue.findIdx? (·.runnable) with
      | none => rfl
      | some idx =>
          obtain ⟨hlt, _, _⟩ := List.findIdx?_eq_some_iff_getElem.mp hidx
          rw [hidx, Option.bind_eq_bind, Option.bind_some, List.getElem?_eq_getElem hlt] at h
          cases h

/-- A read that waits is transparent exactly when it runs no thread: while a hand-off is under
way, or when no queued thread is ready and has frames of its own. -/
theorem runOther_transparent_iff (env : Env) (nested : Nested) {s : VmState} (hs : OwnPids s) :
    Transparent env nested s ↔ s.nextOther = none := by
  constructor
  · intro h
    cases hnext : s.nextOther with
    | none => rfl
    | some next =>
        obtain ⟨idx, other⟩ := next
        have hmem : other ∈ s.threadQueue := by
          unfold VmState.nextOther at hnext
          split at hnext
          · cases hnext
          · obtain ⟨i, _, hnext⟩ := Option.bind_eq_some_iff.mp hnext
            obtain ⟨th, hget, hnext⟩ := Option.bind_eq_some_iff.mp hnext
            cases hnext
            exact List.mem_of_getElem? hget
        have hpid : s.currentPid = other.thread := h.running idx other hnext
        exact absurd (hpid.symm.trans hs.current) (hs.apart other hmem)
  · intro hnone
    have hrun := runOther_none hnone env nested
    refine ⟨fun t ht => ?_, ?_, ?_, ?_, ?_⟩
    · rw [hrun] at ht
      cases ht
      exact .refl s
    · intro idx other hnext
      rw [hnone] at hnext
      cases hnext
    · intro idx other t hnext
      rw [hnone] at hnext
      cases hnext
    · intro idx other t hnext
      rw [hnone] at hnext
      cases hnext
    · intro e t herror
      rw [hrun] at herror
      cases herror

/-- A read would hand the host thread to the child, which ends without an exit record. -/
def childUnrecorded (s : VmState × Nat) : Bool :=
  decide (s.1.currentPid = s.1.thread ∧ ∀ th ∈ s.1.threadQueue, th.thread ≠ s.1.thread) &&
    (s.1.nextOther.map fun p => p.2.thread) = some 2 &&
    match runOtherVmThread .bare (nestedAt .bare 1) s.1 with
    | .ok ran t => ran && t.threadQueue.isEmpty && t.waitRecords.isEmpty &&
        decide (.exited 2 ∉ t.history)
    | _ => false

theorem child_unrecorded : ∃ s, Reachable s ∧ childUnrecorded s = true :=
  Module.reachable_after rfl
    (by decide +kernel : (sendAndExit.after .bare 1 3).any childUnrecorded = true)

theorem ownPids_of_childUnrecorded {s : VmState × Nat} (h : childUnrecorded s = true) :
    OwnPids s.1 := by
  simp only [childUnrecorded, Bool.and_eq_true, decide_eq_true_eq] at h
  exact ⟨h.1.1.1, h.1.1.2⟩

/-- The child is ready and the reader has its own pid. -/
theorem runOther_transparent_iff_child : ∃ s : VmState × Nat, Reachable s ∧
    (Transparent .bare (nestedAt .bare 1) s.1 ↔ s.1.nextOther = none) := by
  obtain ⟨s, hreach, h⟩ := child_unrecorded
  exact ⟨s, hreach, runOther_transparent_iff .bare _ (ownPids_of_childUnrecorded h)⟩

/-- The child a read runs is a thread of its own, and its end leaves no exit record. -/
theorem handedOff_child_unrecorded : ∃ s : VmState × Nat, Reachable s ∧ OwnPids s.1 ∧
    ¬ Transparent .bare (nestedAt .bare 1) s.1 ∧
    ∃ t, runOtherVmThread .bare (nestedAt .bare 1) s.1 = .ok true t ∧ t.threadQueue = [] ∧
      t.waitRecords = [] ∧ .exited 2 ∉ t.history := by
  obtain ⟨s, hreach, h⟩ := child_unrecorded
  have hown := ownPids_of_childUnrecorded h
  simp only [childUnrecorded, Bool.and_eq_true, decide_eq_true_eq, Option.map_eq_some_iff] at h
  obtain ⟨⟨_, ⟨idx, other⟩, hnext, hother⟩, hrun⟩ := h
  have hother : other.thread = 2 := hother
  split at hrun
  · next ran t heq =>
      simp only [Bool.and_eq_true, List.isEmpty_iff, decide_eq_true_eq] at hrun
      obtain ⟨⟨⟨rfl, hqueue⟩, hrecords⟩, hexited⟩ := hrun
      refine ⟨s, hreach, hown, fun htrans => hexited ?_, t, heq, hqueue, hrecords, hexited⟩
      refine hother ▸ htrans.record idx other t hnext (by rw [heq]; rfl) fun th hth => ?_
      rw [hqueue] at hth
      exact absurd hth List.not_mem_nil
  · cases hrun

end RiceVM
