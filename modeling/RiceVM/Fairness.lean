import RiceVM.Programs
import RiceVM.Turns

/-!
How long a ready thread can be passed over. Whenever the main loop needs a thread it takes the
first ready one and puts those in front of it behind the rest, so the threads in front of a ready
thread only get fewer; between two such moments lies at most one quantum.
-/
namespace RiceVM
open Exec Ops

/-- The thread is in the queue and ready, with at most `k` threads in front of it. -/
def InLine (pid : Pid) (k : Nat) (s : VmState) : Prop :=
  ∃ before th after, s.threadQueue = before ++ th :: after ∧ th.thread = pid ∧ th.ready = true ∧
    before.length ≤ k

/-- How often a waiting read handed the host thread to the thread. -/
def VmState.handOffs (pid : Pid) (s : VmState) : Nat := s.history.count (.handedOff pid)

/-- The thread keeps its place, unless it is handed the host thread. -/
structure KeepsLine (pid : Pid) (s t : VmState) : Prop where
  handOffs : s.handOffs pid ≤ t.handOffs pid
  line : t.handOffs pid = s.handOffs pid → ∀ k, InLine pid k s → InLine pid k t

variable {pid : Pid} {k : Nat} {s t u : VmState}

/-! ### Instructions -/

theorem KeepsLine.trans (a : KeepsLine pid s t) (b : KeepsLine pid t u) : KeepsLine pid s u := by
  have hst := a.handOffs
  have htu := b.handOffs
  refine ⟨by omega, fun h k hk => ?_⟩
  exact b.line (by omega) k (a.line (by omega) k hk)

/-- Threads that join the queue stand behind those that are in it. -/
theorem InLine.append (h : InLine pid k s) {new : List SuspendedThread}
    (hqueue : t.threadQueue = s.threadQueue ++ new) : InLine pid k t := by
  obtain ⟨before, th, after, hs, hth⟩ := h
  exact ⟨before, th, after ++ new, by rw [hqueue, hs, List.append_assoc, List.cons_append], hth⟩

theorem InLine.map (h : InLine pid k s) {f : SuspendedThread → SuspendedThread}
    (hf : ∀ th, (f th).thread = th.thread) (hready : ∀ th, th.ready = true → (f th).ready = true)
    (hqueue : t.threadQueue = s.threadQueue.map f) : InLine pid k t := by
  obtain ⟨before, th, after, hs, hth, hr, hlen⟩ := h
  refine ⟨before.map f, f th, after.map f, ?_, (hf th).trans hth, hready th hr, ?_⟩
  · rw [hqueue, hs, List.map_append, List.map_cons]
  · rw [List.length_map]
    exact hlen

theorem KeepsLine.append {new : List SuspendedThread}
    (hqueue : t.threadQueue = s.threadQueue ++ new) (h : t.handOffs pid = s.handOffs pid) :
    KeepsLine pid s t :=
  ⟨Nat.le_of_eq h.symm, fun _ _ hk => hk.append hqueue⟩

theorem KeepsLine.same (hqueue : t.threadQueue = s.threadQueue)
    (h : t.handOffs pid = s.handOffs pid) : KeepsLine pid s t := by
  have hnone : t.threadQueue = s.threadQueue ++ [] := by rw [hqueue, List.append_nil]
  exact .append hnone h

theorem handOffs_record {e : Event} (he : e ≠ .handedOff pid) :
    (s.record e).handOffs pid = s.handOffs pid := List.count_cons_of_ne he

theorem SuspendedThread.thread_unblock (c : HeapId) (th : SuspendedThread) :
    (th.unblock c).thread = th.thread := by
  unfold unblock
  split
  · split <;> rfl
  · rfl

theorem SuspendedThread.ready_unblock (c : HeapId) {th : SuspendedThread} (h : th.ready = true) :
    (th.unblock c).ready = true := by
  unfold unblock
  split
  · split
    · rfl
    · exact h
  · exact h

theorem KeepsLine.of_shared (h : t.shared = s.shared) : KeepsLine pid s t :=
  .same (congrArg Shared.threadQueue h)
    (congrArg (fun shared : Shared => shared.history.count (Event.handedOff pid)) h)

theorem KeepsLine.started (s : VmState) (due : Bool) (inst : Instruction) :
    KeepsLine pid s (s.started due inst) := .same rfl (handOffs_record (by intro h; cases h))

theorem KeepsLine.exit (s : VmState) (entry : String) : KeepsLine pid s (s.exit entry) :=
  .same rfl (handOffs_record (s := { s with waitRecords := s.waitRecords ++ [entry] })
    (by intro h; cases h))

theorem KeepsLine.park (s : VmState) (blockedOn : Option HeapId) :
    KeepsLine pid s (s.park blockedOn) := .append rfl rfl

theorem KeepsLine.stopped (s : VmState) (pc : Nat) :
    KeepsLine pid s ({ s with pc := pc } : VmState).stopped :=
  .same rfl (handOffs_record (s := { s with pc := pc }) (by intro h; cases h))

/-- A transfer wakes threads; a thread that is ready stays so. -/
theorem KeepsLine.transfer (heap : Heap) {e : Event} (he : e ≠ .handedOff pid) (c : HeapId) :
    KeepsLine pid s ((({ s with heap := heap } : VmState).record e).unblockChannel c) :=
  ⟨Nat.le_of_eq (handOffs_record he).symm, fun _ _ hk =>
    hk.map (SuspendedThread.thread_unblock c) (fun _ => SuspendedThread.ready_unblock c) rfl⟩

/-- A read that waits takes one thread out of the queue. -/
theorem KeepsLine.handOff {idx : Nat} {other : SuspendedThread}
    (hother : s.threadQueue[idx]? = some other) : KeepsLine pid s (handOff other idx s) := by
  have hcount : (RiceVM.handOff other idx s).handOffs pid =
      s.handOffs pid + if other.thread = pid then 1 else 0 := by
    change List.count (.handedOff pid) (.handedOff other.thread :: s.history) = _
    rw [List.count_cons]
    by_cases heq : other.thread = pid <;> simp [heq, VmState.handOffs]
  refine ⟨by omega, fun h k hk => ?_⟩
  have hne : other.thread ≠ pid := fun heq => by
    rw [if_pos heq] at hcount
    omega
  obtain ⟨before, th, after, hqueue, hth, hready, hlen⟩ := hk
  have hsame : (RiceVM.handOff other idx s).threadQueue = s.threadQueue.eraseIdx idx := rfl
  rcases Nat.lt_trichotomy idx before.length with hlt | heq | hgt
  · refine ⟨before.eraseIdx idx, th, after, ?_, hth, hready, ?_⟩
    · rw [hsame, hqueue, List.eraseIdx_append_of_lt_length hlt]
    · have := List.length_eraseIdx_le before idx
      omega
  · rw [hqueue, List.getElem?_append_right (Nat.le_of_eq heq.symm), heq, Nat.sub_self] at hother
    cases hother
    exact absurd hth hne
  · refine ⟨before, th, after.eraseIdx (idx - before.length - 1), ?_, hth, hready, hlen⟩
    obtain ⟨j, rfl⟩ : ∃ j, idx = before.length + (j + 1) := ⟨idx - before.length - 1, by omega⟩
    rw [hsame, hqueue, List.eraseIdx_append_of_length_le (by omega), Nat.add_sub_cancel_left,
      List.eraseIdx_cons_succ, Nat.add_sub_cancel]

theorem KeepsLine.switchBack (reader : VmState) (b : Option HeapId) :
    KeepsLine pid u (switchBack reader b u) := by
  by_cases hhalt : u.halted = true
  · exact .same (if_pos hhalt) rfl
  · exact .append (if_neg hhalt) rfl

/-- No instruction lets another thread past a ready one, whatever runs nested. -/
theorem lineRules (pid : Pid) :
    Rules (KeepsLine pid) (fun s t _ => KeepsLine pid s t) where
  trans _ _ _ hst htu := hst.trans htu
  work _ _ h := .of_shared h.shared
  call s _ w moduleIdx _ _ hu huw :=
    ((KeepsLine.of_shared hu.shared).trans huw).trans
      (.of_shared (work_leaveModule (VmState.saveCaller s moduleIdx) moduleIdx w).shared)
  fresh _ _ _ _ _ _ _ := .same rfl rfl
  put s c v _ _ := .transfer _ (by intro h; cases h) c
  take s c v _ _ := .transfer _ (by intro h; cases h) c
  inject s c v := .transfer _ (by intro h; cases h) c
  spawn s frames heap childFrames entryPc _ _ :=
    .append rfl (List.count_cons_of_ne (by intro h; cases h))
  nested s halting := .same rfl (handOffs_record (by intro h; cases h))
  handOff s idx other u b _ _ hother _ hslice :=
    ((KeepsLine.handOff hother).trans hslice).trans (.switchBack s b)
  sliceDone s := .same rfl rfl
  sliceEnd s _ := .same rfl rfl
  sliceStep s inst u w b _ hu hw :=
    (KeepsLine.started s false inst).trans (hu.trans ((KeepsLine.stopped u u.nextPc).trans hw))
  sliceFault s inst u _ hu :=
    (KeepsLine.started s false inst).trans (hu.trans (.stopped u u.pc))
  sliceBlock s inst u c _ hu _ :=
    (KeepsLine.started s false inst).trans ((KeepsLine.of_shared hu.shared).trans (.stopped u u.pc))

/-! ### Turns -/

/-- The first ready thread is installed: the thread itself, or one from in front of it. -/
theorem InLine.resumes (h : InLine pid k s) (hr : Resumes s t) :
    t.thread = pid ∨ ∃ k' < k, InLine pid k' t := by
  obtain ⟨front, th, rest, hqueue, hth, hready, hlen⟩ := h
  cases hr with
  | @load before after next hsplit hunready hnext =>
      rw [hqueue] at hsplit
      rcases List.append_eq_append_iff.mp hsplit with ⟨mid, hbefore, hrest⟩ | ⟨mid, hfront, hrest⟩
      · cases mid with
        | nil =>
            cases hrest
            exact .inl hth
        | cons first mid =>
            cases hrest
            have hmem : th ∈ before := hbefore ▸ List.mem_append_right front List.mem_cons_self
            rw [hunready th hmem] at hready
            cases hready
      · cases mid with
        | nil =>
            cases hrest
            exact .inl hth
        | cons first mid =>
            cases hrest
            refine .inr ⟨mid.length, ?_, mid, th, rest ++ before, ?_, hth, hready, Nat.le_refl _⟩
            · rw [hfront, List.length_append, List.length_cons] at hlen
              omega
            · exact List.append_assoc mid (th :: rest) before

/-- The turns a thread can still be passed over for, with `k` threads in front of it. -/
def turnsLeft (k quantum : Nat) (s : VmState) : Nat :=
  k * (2 * threadQuantum + 2) + 2 * (threadQuantum - quantum) + if s.halted then 0 else 1

theorem turnsLeft_resumed {k' : Nat} (hk : k' < k) (quantum q : Nat) (s t : VmState) :
    turnsLeft k' quantum t < turnsLeft k q s := by
  have hmul : (k' + 1) * (2 * threadQuantum + 2) ≤ k * (2 * threadQuantum + 2) :=
    Nat.mul_le_mul_right _ hk
  have hhalt : (if t.halted then 0 else 1) ≤ 1 := by split <;> omega
  unfold turnsLeft
  rw [Nat.add_mul] at hmul
  omega

/-- A turn runs the thread, or brings its turn nearer. -/
theorem InLine.turn {q q' : Nat} (h : InLine pid k s)
    (hturn : TurnResult (KeepsLine pid) q s (some q') t) :
    t.thread = pid ∨ s.handOffs pid < t.handOffs pid ∨
      ∃ k', InLine pid k' t ∧ turnsLeft k' q' t < turnsLeft k q s := by
  have hresumed {v w x : VmState} {quantum : Nat} (hkeeps : KeepsLine pid s v) (hr : Resumes v w)
      (hshared : x.shared = w.shared) : x.thread = pid ∨ s.handOffs pid < x.handOffs pid ∨
        ∃ k', InLine pid k' x ∧ turnsLeft k' quantum x < turnsLeft k q s := by
    have hcount : w.handOffs pid = v.handOffs pid := by
      cases hr
      rfl
    have hthread : x.thread = w.thread := congrArg Shared.thread hshared
    have hx : KeepsLine pid w x := .of_shared hshared
    have hle := hx.handOffs
    rcases Nat.lt_or_eq_of_le (Nat.le_trans hkeeps.handOffs (hcount ▸ hle)) with hlt | heq
    · exact .inr (.inl hlt)
    · have hsame := hkeeps.handOffs
      rw [hthread]
      refine ((hkeeps.line (by omega) k h).resumes hr).imp_right fun hk => ?_
      obtain ⟨k', hk', hline⟩ := hk
      exact .inr ⟨k', hx.line (by omega) k' hline, turnsLeft_resumed hk' _ _ _ _⟩
  cases hturn with
  | exited entry hhalt hr => exact hresumed (.exit s entry) hr rfl
  | fell hhalt hfetch =>
      refine .inr (.inr ⟨k, h, ?_⟩)
      simp [turnsLeft, hhalt]
  | @wentOn inst w _ hhalt hfetch hw hdue ht hctx hh =>
      obtain ⟨u, hu, -, -, rfl⟩ := hw
      have hkeeps : KeepsLine pid s ({ u with pc := u.nextPc } : VmState).stopped :=
        (KeepsLine.started s _ inst).trans (hu.trans (.stopped u u.nextPc))
      have hwork : KeepsLine pid _ _ := .of_shared ht.shared
      rcases Nat.lt_or_eq_of_le (hkeeps.trans hwork).handOffs with hlt | heq
      · exact .inr (.inl hlt)
      · have hw := hkeeps.handOffs
        have hline := hkeeps.line (by have := hwork.handOffs; omega) k h
        refine .inr (.inr ⟨k, (hkeeps.trans hwork).line heq.symm k h, ?_⟩)
        -- The quantum goes on although threads are queued, so it is not used up.
        have hquantum : q + 1 < threadQuantum := by
          obtain ⟨before, th, after, hqueue, -⟩ := hline
          rw [quantumDue, hqueue] at hdue
          simpa using hdue
        have hhalt' : (if t.halted then 0 else 1) ≤ 1 := by split <;> omega
        simp only [turnsLeft, hhalt]
        simp only [Bool.false_eq_true, if_false]
        omega
  | @rotated inst w v _ hhalt hfetch hw hdue hr ht hctx hh =>
      obtain ⟨u, hu, -, -, rfl⟩ := hw
      have hkeeps : KeepsLine pid s ({ u with pc := u.nextPc } : VmState).stopped :=
        (KeepsLine.started s _ inst).trans (hu.trans (.stopped u u.nextPc))
      exact hresumed (hkeeps.trans (.park _ _)) hr ht.shared
  | @blocked inst w _ c hhalt hfetch hw hr =>
      obtain ⟨u, hu, -, -, rfl⟩ := hw
      have hkeeps : KeepsLine pid s u.stopped :=
        (KeepsLine.started s _ inst).trans ((KeepsLine.of_shared hu.shared).trans (.stopped u u.pc))
      exact hresumed (hkeeps.trans (.park _ _)) hr rfl

/-! ### Runs -/

/-- `n` turns in which the thread neither runs on the main loop nor is handed the host thread. -/
inductive PassedOver (pid : Pid) : VmState × Nat → Nat → VmState × Nat → Prop
  | nil (s : VmState × Nat) : PassedOver pid s 0 s
  | turn {s t u : VmState × Nat} {n : Nat} : Turn s t → t.1.thread ≠ pid →
      t.1.handOffs pid = s.1.handOffs pid → PassedOver pid t n u → PassedOver pid s (n + 1) u

theorem PassedOver.lt {s t : VmState × Nat} {n : Nat} (h : PassedOver pid s n t)
    (hs : Reachable s) (hline : InLine pid k s.1) : n ≤ turnsLeft k s.2 s.1 := by
  induction h generalizing k with
  | nil s => exact Nat.zero_le _
  | @turn s t u n hturn hother hsame _ ih =>
      have ht := Reachable.turn hs hturn
      obtain ⟨env, fuel, hrun⟩ := hturn
      have hblocked := ((lineRules pid).invariant (I := fun _ => True) (fun _ _ => trivial)
        (fun _ _ _ => trivial) hs).1
      have hresult := wp_ok ((lineRules pid).runIter_spec env fuel s.2 s.1) hrun hblocked
      rcases hline.turn hresult with hthread | hlt | ⟨k', hline', hless⟩
      · exact absurd hthread hother
      · omega
      · have := ih ht hline'
        omega

/-- A thread that is ready runs within a bounded number of turns of the main loop, about two
quanta for each thread in front of it, whatever the threads do: it is installed, or a read that
waits hands it the host thread. -/
theorem ready_thread_runs {s t : VmState × Nat} {th : SuspendedThread} {n : Nat} (hs : Reachable s)
    (hqueue : s.1.threadQueue[k]? = some th) (hready : th.blockedOn = none)
    (h : PassedOver th.thread s n t) : n < (k + 1) * (2 * threadQuantum + 2) := by
  have hline : InLine th.thread k s.1 := by
    obtain ⟨hlt, hget⟩ := List.getElem?_eq_some_iff.mp hqueue
    refine ⟨s.1.threadQueue.take k, th, s.1.threadQueue.drop (k + 1), ?_, rfl, ?_, ?_⟩
    · rw [← hget, List.getElem_cons_drop hlt, List.take_append_drop]
    · rw [SuspendedThread.ready, hready]
      rfl
    · exact List.length_take_le _ _
  have hle := h.lt hs hline
  have hhalt : (if s.1.halted then 0 else 1) ≤ 1 := by split <;> omega
  rw [turnsLeft] at hle
  rw [Nat.add_mul]
  omega

/-- A thread that spins beside one that waits for its turn. -/
def spinBeside : Module :=
  .ofCode "m" [
    ⟨.frame, .imm 0, .unused, .fp 32⟩,
    ⟨.spawn, .fp 32, .unused, .imm 2⟩,
    ⟨.jmp, .unused, .unused, .imm 2⟩] 16

theorem spins_beside : (spinBeside.after .bare 1 2).any (fun s =>
    s.1.threadQueue.head?.any (fun th => th.blockedOn.isNone && th.thread == 2) &&
      (runTurns .bare 1 1 s).any fun t =>
        t.1.thread == 1 && t.1.handOffs 2 == s.1.handOffs 2) = true := by decide +kernel

theorem ready_thread_runs_spinBeside : ∃ (s t : VmState × Nat) (th : SuspendedThread),
    s.1.threadQueue[0]? = some th ∧ PassedOver th.thread s 1 t ∧
      1 < (0 + 1) * (2 * threadQuantum + 2) := by
  obtain ⟨s, hs, htest⟩ := Module.reachable_after rfl spins_beside
  obtain ⟨hqueue, hturn⟩ := Bool.and_eq_true_iff.mp htest
  obtain ⟨th, hhead, hth⟩ := Option.any_eq_true _ _ |>.mp hqueue
  obtain ⟨hready, hpid⟩ := Bool.and_eq_true_iff.mp hth
  obtain ⟨t, hrun, ht⟩ := Option.any_eq_true _ _ |>.mp hturn
  obtain ⟨hthread, hsame⟩ := Bool.and_eq_true_iff.mp ht
  have hpid : th.thread = 2 := eq_of_beq hpid
  have hfirst : s.1.threadQueue[0]? = some th := by rw [← List.head?_eq_getElem?, hhead]
  have hpassed : PassedOver th.thread s 1 t := by
    unfold runTurns at hrun
    split at hrun
    · next quantum vm hiter =>
        cases hrun
        refine .turn ⟨.bare, 1, hiter⟩ ?_ ?_ (.nil _)
        · rw [eq_of_beq hthread, hpid]
          decide
        · rw [hpid]
          exact eq_of_beq hsame
    · cases hrun
  exact ⟨s, t, th, hfirst, hpassed,
    ready_thread_runs hs hfirst (Option.isNone_iff_eq_none.mp hready) hpassed⟩

end RiceVM
