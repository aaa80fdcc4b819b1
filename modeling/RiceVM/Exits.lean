import RiceVM.Programs
import RiceVM.Threads

/-!
The end of a thread. Away from three kinds of steps, a thread that has executed its
last instruction executes no other, is not queued and leaves one exit record.
-/
namespace RiceVM
open Exec Ops

namespace Event

/-- Thread `i` executes an instruction. -/
def Runs (i : Pid) : Event → Prop
  | .started j _ _ _ _ | .nested j _ => j = i
  | _ => False

/-- Thread `i` executes an instruction that ends it. -/
def Ends (i : Pid) : Event → Prop
  | .started j _ halting _ _ | .nested j halting => j = i ∧ halting = true
  | _ => False

/-- The scheduling quantum does not expire with the end of a thread, no thread ends in a
cross-module call, and none is run while another one reads. -/
def Orderly : Event → Prop
  | .started _ _ halting due _ => halting = true → due = false
  | .nested _ halting => halting = false
  | .handedOff _ => False
  | _ => True

end Event

def Orderly (history : List Event) : Prop := ∀ e ∈ history, e.Orderly

def Ended (i : Pid) (history : List Event) : Prop := ∃ e ∈ history, e.Ends i

instance (e : Event) : Decidable e.Orderly :=
  match e with
  | .started _ _ halting due _ => inferInstanceAs (Decidable (halting = true → due = false))
  | .nested _ halting => inferInstanceAs (Decidable (halting = false))
  | .handedOff _ => inferInstanceAs (Decidable False)
  | .put _ _ | .took _ _ | .injected _ | .spawned _ _ | .stopped _ _ | .exited _ =>
    inferInstanceAs (Decidable True)

instance (history : List Event) : Decidable (Orderly history) :=
  inferInstanceAs (Decidable (∀ e ∈ history, e.Orderly))

/-- A thread that has ended executes nothing more. -/
def Silent (history : List Event) : Prop :=
  ∀ i e older, e :: older <:+ history → e.Runs i → ¬ Ended i older

theorem ended_cons {i : Pid} {e : Event} {history : List Event} :
    Ended i (e :: history) ↔ e.Ends i ∨ Ended i history := by
  simp only [Ended, List.mem_cons, exists_eq_or_imp]

theorem Silent.cons {e : Event} {history : List Event} (h : Silent history)
    (he : ∀ i, e.Runs i → ¬ Ended i history) : Silent (e :: history) := by
  intro i e' older hsuf
  rcases List.suffix_cons_iff.mp hsuf with heq | hsuf
  · cases heq
    exact he i
  · exact h i e' older hsuf

theorem Orderly.suffix {older history : List Event} (h : Orderly history)
    (hsuf : older <:+ history) : Orderly older := fun e he => h e (hsuf.subset he)

/-- What the queue and the history say about threads that are not running. -/
structure Ledger (vm : VmState) : Prop where
  pids : ∀ t ∈ vm.threadQueue, t.pid = t.thread
  startedPid : ∀ i pid halting due ctx,
    Event.started i pid halting due ctx ∈ vm.history → pid = i
  known : ∀ i, Ended i vm.history ∨ Event.exited i ∈ vm.history → i < vm.nextPid
  queued : ∀ t ∈ vm.threadQueue, Event.exited t.thread ∉ vm.history ∧ ¬ Ended t.thread vm.history
  silent : Silent vm.history

/-- The running thread has not exited, and every other one that has ended did once. -/
structure Tidy (vm : VmState) : Prop extends Ledger vm where
  pid : vm.currentPid = vm.thread
  alive : Event.exited vm.thread ∉ vm.history
  recorded : ∀ i, Ended i vm.history → i ≠ vm.thread → vm.history.count (.exited i) = 1

/-- The running thread has not ended. -/
structure Running (vm : VmState) : Prop extends Tidy vm where
  lively : ¬ Ended vm.thread vm.history

/-- No thread is running, and every one that has ended exited once. -/
structure Closed (vm : VmState) : Prop extends Ledger vm where
  recorded : ∀ i, Ended i vm.history → vm.history.count (.exited i) = 1

theorem Ledger.keep {s t : VmState} (h : Ledger s)
    (queue : ∀ th ∈ t.threadQueue, ∃ th' ∈ s.threadQueue,
      th.thread = th'.thread ∧ th.pid = th'.pid)
    (hnext : t.nextPid = s.nextPid) (hhist : t.history = s.history) : Ledger t := by
  refine ⟨fun th hth => ?_, hhist ▸ h.startedPid, by rw [hhist, hnext]; exact h.known, fun th hth => ?_,
    hhist ▸ h.silent⟩
  · obtain ⟨th', hth', hthread, hpid⟩ := queue th hth
    rw [hthread, hpid]
    exact h.pids th' hth'
  · obtain ⟨th', hth', hthread, _⟩ := queue th hth
    rw [hthread, hhist]
    exact h.queued th' hth'

theorem Tidy.keep {s t : VmState} (h : Tidy s)
    (queue : ∀ th ∈ t.threadQueue, ∃ th' ∈ s.threadQueue,
      th.thread = th'.thread ∧ th.pid = th'.pid)
    (hthread : t.thread = s.thread) (hpid : t.currentPid = s.currentPid)
    (hnext : t.nextPid = s.nextPid) (hhist : t.history = s.history) : Tidy t := by
  refine ⟨h.toLedger.keep queue hnext hhist, ?_, ?_, ?_⟩
  · rw [hpid, hthread]; exact h.pid
  · rw [hthread, hhist]; exact h.alive
  · rw [hthread, hhist]; exact h.recorded

theorem Tidy.shared {s t : VmState} (h : Tidy s) (hshared : t.shared = s.shared) : Tidy t := by
  have hqueue : t.threadQueue = s.threadQueue := congrArg Shared.threadQueue hshared
  exact h.keep (fun th hth => ⟨th, hqueue ▸ hth, rfl, rfl⟩) (congrArg Shared.thread hshared)
    (congrArg Shared.currentPid hshared) (congrArg Shared.nextPid hshared)
    (congrArg Shared.history hshared)

theorem Running.keep {s t : VmState} (h : Running s)
    (queue : ∀ th ∈ t.threadQueue, ∃ th' ∈ s.threadQueue,
      th.thread = th'.thread ∧ th.pid = th'.pid)
    (hthread : t.thread = s.thread) (hpid : t.currentPid = s.currentPid)
    (hnext : t.nextPid = s.nextPid) (hhist : t.history = s.history) : Running t :=
  ⟨h.toTidy.keep queue hthread hpid hnext hhist, by rw [hthread, hhist]; exact h.lively⟩

theorem Running.shared {s t : VmState} (h : Running s) (hshared : t.shared = s.shared) :
    Running t := by
  have hthread : t.thread = s.thread := congrArg Shared.thread hshared
  have hhist : t.history = s.history := congrArg Shared.history hshared
  exact ⟨h.toTidy.shared hshared, by rw [hthread, hhist]; exact h.lively⟩

theorem count_exited_cons {e : Event} {i : Pid} (he : ∀ j, e ≠ .exited j) (history : List Event) :
    (e :: history).count (.exited i) = history.count (.exited i) :=
  List.count_cons_of_ne (he i)

/-- An event that ends no thread, and that only the running thread brings about. -/
theorem Ledger.record {s : VmState} (h : Ledger s) {e : Event} (hexit : ∀ i, e ≠ .exited i)
    (hends : ∀ i, e.Ends i → i = s.thread) (hruns : ∀ i, e.Runs i → ¬ Ended i s.history)
    (hstart : ∀ i pid halting due ctx, e = .started i pid halting due ctx → pid = i)
    (hcurrent : s.thread < s.nextPid) (hapart : ∀ t ∈ s.threadQueue, t.thread ≠ s.thread) :
    Ledger (s.record e) := by
  refine ⟨h.pids, fun i pid halting due ctx hmem => ?_, fun i hi => ?_, fun t ht => ?_,
    h.silent.cons hruns⟩
  · rcases List.mem_cons.mp hmem with heq | hmem
    · exact hstart i pid halting due ctx heq.symm
    · exact h.startedPid i pid halting due ctx hmem
  · rcases hi with hi | hi
    · rcases ended_cons.mp hi with hi | hi
      · exact hends i hi ▸ hcurrent
      · exact h.known i (.inl hi)
    · exact h.known i (.inr ((List.mem_cons.mp hi).resolve_left fun heq => hexit i heq.symm))
  · obtain ⟨hexited, hended⟩ := h.queued t ht
    refine ⟨fun hmem => ?_, fun hmem => ?_⟩
    · exact hexited ((List.mem_cons.mp hmem).resolve_left fun heq => hexit _ heq.symm)
    · exact hended ((ended_cons.mp hmem).resolve_left fun hi => hapart t ht (hends _ hi))

theorem Tidy.record {s : VmState} (h : Tidy s) {e : Event} (hexit : ∀ i, e ≠ .exited i)
    (hends : ∀ i, e.Ends i → i = s.thread) (hruns : ∀ i, e.Runs i → ¬ Ended i s.history)
    (hstart : ∀ i pid halting due ctx, e = .started i pid halting due ctx → pid = i)
    (hthreads : Threads s) : Tidy (s.record e) := by
  refine ⟨h.toLedger.record hexit hends hruns hstart hthreads.current hthreads.apart, h.pid,
    fun hmem => ?_, fun i hi hne => ?_⟩
  · exact h.alive ((List.mem_cons.mp hmem).resolve_left fun heq => hexit _ heq.symm)
  · have hold : Ended i s.history :=
      (ended_cons.mp hi).resolve_left fun hi => hne (hends i hi)
    rw [VmState.record, count_exited_cons hexit]
    exact h.recorded i hold hne

/-- An event of the running thread that does not end it. -/
theorem Running.record {s : VmState} (h : Running s) {e : Event} (hexit : ∀ i, e ≠ .exited i)
    (hends : ∀ i, ¬ e.Ends i) (hruns : ∀ i, e.Runs i → i = s.thread)
    (hstart : ∀ i pid halting due ctx, e = .started i pid halting due ctx → pid = i)
    (hthreads : Threads s) : Running (s.record e) := by
  refine ⟨h.toTidy.record hexit (fun i hi => absurd hi (hends i)) (fun i hi => ?_) hstart hthreads,
    fun hmem => ?_⟩
  · exact hruns i hi ▸ h.lively
  · exact h.lively ((ended_cons.mp hmem).resolve_left (hends _))

/-- Bookkeeping events concern no thread's instructions. -/
def Event.Idle (e : Event) : Prop :=
  (∀ i, e ≠ .exited i) ∧ (∀ i, ¬ e.Ends i) ∧ (∀ i, ¬ e.Runs i) ∧
    ∀ i pid halting due ctx, e ≠ .started i pid halting due ctx

theorem Running.idle {s : VmState} (h : Running s) {e : Event} (he : e.Idle)
    (hthreads : Threads s) : Running (s.record e) :=
  h.record he.1 he.2.1 (fun i hi => absurd hi (he.2.2.1 i))
    (fun i pid halting due ctx heq => absurd heq (he.2.2.2 i pid halting due ctx)) hthreads

theorem Running.wake {s : VmState} (h : Running s) (c : HeapId) :
    Running (s.unblockChannel c) := by
  refine h.keep (fun th hth => ?_) rfl rfl rfl rfl
  obtain ⟨th', hth', rfl⟩ := List.mem_map.mp hth
  refine ⟨th', hth', ?_⟩
  unfold SuspendedThread.unblock
  split
  · split <;> exact ⟨rfl, rfl⟩
  · exact ⟨rfl, rfl⟩

theorem Running.enqueue {s t : VmState} {th : SuspendedThread} (h : Running s)
    (hthreads : Threads s) (hthread : th.thread = s.nextPid) (hpid : th.pid = s.nextPid)
    (hqueue : t.threadQueue = s.threadQueue ++ [th])
    (hcurrent : t.thread = s.thread) (hcpid : t.currentPid = s.currentPid)
    (hnext : s.nextPid < t.nextPid)
    (hhist : t.history = .spawned th.thread th.ctx :: s.history) : Running t := by
  have hrec : Running (s.record (.spawned th.thread th.ctx)) :=
    h.idle ⟨nofun, fun _ => id, fun _ => id, nofun⟩ hthreads
  have hfresh : ∀ i, s.nextPid ≤ i → ¬ (Ended i s.history ∨ Event.exited i ∈ s.history) :=
    fun i hle hi => absurd (h.known i hi) (BitVec.not_lt.mpr hle)
  have hnew := hfresh s.nextPid (BitVec.le_refl _)
  refine ⟨⟨⟨?_, ?_, ?_, ?_, ?_⟩, ?_, ?_, ?_⟩, ?_⟩
  · exact forall_mem_snoc hqueue h.pids (hpid.trans hthread.symm)
  · rw [hhist]; exact hrec.startedPid
  · rw [hhist]
    exact fun i hi => BitVec.lt_trans (hrec.known i hi) hnext
  · rw [hhist]
    refine forall_mem_snoc hqueue hrec.queued ⟨fun hmem => ?_, fun hmem => ?_⟩
    · rw [hthread] at hmem
      exact hnew (.inr ((List.mem_cons.mp hmem).resolve_left nofun))
    · rw [hthread] at hmem
      exact hnew (.inl ((ended_cons.mp hmem).resolve_left id))
  · rw [hhist]; exact hrec.silent
  · rw [hcpid, hcurrent]; exact h.pid
  · rw [hcurrent, hhist]; exact hrec.alive
  · rw [hcurrent, hhist]; exact hrec.recorded
  · rw [hcurrent, hhist]; exact hrec.lively

/-- Orderly runs of instructions keep the books of the running thread. -/
def Books (s t : VmState) : Prop :=
  (Threads s → Threads t ∧ Grown s t) ∧ (Threads s → Orderly t.history → Running s → Running t)

theorem Books.transfer {s : VmState} {heap : Heap} {e : Event} {c : HeapId} (he : e.Idle)
    (hr : Threads s → Threads ((({ s with heap := heap } : VmState).record e).unblockChannel c) ∧
      Grown s ((({ s with heap := heap } : VmState).record e).unblockChannel c)) :
    Books s ((({ s with heap := heap } : VmState).record e).unblockChannel c) := by
  refine ⟨hr, fun hthreads _ h => ?_⟩
  have hheap : Running { s with heap := heap } := h.shared rfl
  have hthreads : Threads { s with heap := heap } := hthreads.same rfl rfl rfl rfl
  exact (hheap.idle he hthreads).wake c

theorem Books.work {s t : VmState} (w : Work s t) : Books s t :=
  ⟨fun h => h.work w.shared, fun _ _ h => h.shared w.shared⟩

theorem Books.trans {s t u : VmState} (hst : Books s t) (htu : Books t u) : Books s u := by
  refine ⟨threadRules.trans s t u hst.1 htu.1, fun hs horderly h => ?_⟩
  obtain ⟨ht, _⟩ := hst.1 hs
  exact htu.2 ht horderly (hst.2 hs (horderly.suffix (htu.1 ht).2.history) h)

theorem bookRules : Rules Books (fun s u _ => Paused s → Paused u ∧ Grown s u) where
  trans _ _ _ hst htu := hst.trans htu
  work _ _ w := .work w.toWork
  call _ _ w moduleIdx _ _ hu huw :=
    ((Books.work hu).trans huw).trans (.work (work_leaveModule _ moduleIdx w))
  fresh s typeId elemSize trace id heap ha :=
    ⟨threadRules.fresh s typeId elemSize trace id heap ha, fun _ _ h => h.shared rfl⟩
  put s c v elemSize hch :=
    .transfer (e := .put c v) ⟨nofun, fun _ => id, fun _ => id, nofun⟩
      (threadRules.put s c v elemSize hch)
  take s c v elemSize hch :=
    .transfer (e := .took c v) ⟨nofun, fun _ => id, fun _ => id, nofun⟩
      (threadRules.take s c v elemSize hch)
  inject s c v :=
    .transfer (e := .injected c) ⟨nofun, fun _ => id, fun _ => id, nofun⟩ (threadRules.inject s c v)
  spawn s frames heap childFrames entryPc hpid hplain := by
    refine ⟨threadRules.spawn s frames heap childFrames entryPc hpid hplain, fun hs _ h => ?_⟩
    have hbound := hs.bound
    have hlt : s.nextPid < s.nextPid + 1 := by bv_omega
    exact h.enqueue hs rfl rfl rfl rfl rfl hlt rfl
  nested s halting := by
    refine ⟨threadRules.nested s halting, fun hs horderly h => ?_⟩
    have hgo : halting = false := horderly _ List.mem_cons_self
    refine h.record nofun (fun i hi => ?_) (fun i hi => hi.symm) nofun hs
    exact absurd (hgo.symm.trans hi.2) nofun
  handOff s idx other u b hyield hblocked hother hrun hslice := by
    have hthread := threadRules.handOff s idx other u b hyield hblocked hother hrun hslice
    refine ⟨hthread, fun hs horderly _ => ?_⟩
    have hsuf := (hslice (hs.handOff hother)).2.history
    exact (horderly (.handedOff other.thread) (hsuf.subset List.mem_cons_self)).elim
  sliceDone s := threadRules.sliceDone s
  sliceEnd s hfetch := threadRules.sliceEnd s hfetch
  sliceStep s inst u w b hfetch hstep hrest :=
    threadRules.sliceStep s inst u w b hfetch hstep.1 hrest
  sliceFault s inst u hfetch hstep := threadRules.sliceFault s inst u hfetch hstep.1
  sliceBlock s inst u c hfetch hbegun hstuck :=
    threadRules.sliceBlock s inst u c hfetch hbegun hstuck

/-- What holds at the top of the loop: a running thread that has ended has halted. -/
structure Kept (vm : VmState) : Prop extends Tidy vm where
  halted : Ended vm.thread vm.history → vm.halted = true

theorem Running.kept {s : VmState} (h : Running s) : Kept s :=
  ⟨h.toTidy, fun hended => absurd hended h.lively⟩

theorem Kept.running {s : VmState} (h : Kept s) (hhalt : s.halted = false) : Running s :=
  ⟨h.toTidy, fun hended => by rw [h.halted hended] at hhalt; cases hhalt⟩

/-- The exit record of a thread is its only one. -/
theorem Kept.exit {s : VmState} (h : Kept s) (hthreads : Threads s) (entry : String) :
    Closed (s.exit entry) := by
  have hends : ∀ {i}, Ended i (s.exit entry).history → Ended i s.history := fun hi =>
    (ended_cons.mp hi).resolve_left id
  refine ⟨⟨h.pids, fun i pid halting due ctx hmem => ?_, fun i hi => ?_, fun t ht => ?_,
    h.silent.cons fun _ => False.elim⟩, fun i hi => ?_⟩
  · exact h.startedPid i pid halting due ctx ((List.mem_cons.mp hmem).resolve_left nofun)
  · rcases hi with hi | hi
    · exact h.known i (.inl (hends hi))
    · rcases List.mem_cons.mp hi with heq | hi
      · cases heq
        exact h.pid ▸ hthreads.current
      · exact h.known i (.inr hi)
  · obtain ⟨hexited, hended⟩ := h.queued t ht
    refine ⟨fun hmem => ?_, fun hi => hended (hends hi)⟩
    rcases List.mem_cons.mp hmem with heq | hmem
    · exact hthreads.apart t ht ((Event.exited.inj heq).trans h.pid)
    · exact hexited hmem
  · by_cases hi' : i = s.thread
    · subst hi'
      change (Event.exited s.currentPid :: s.history).count _ = 1
      rw [h.pid, List.count_cons_self, List.count_eq_zero_of_not_mem h.alive]
    · have hne : Event.exited s.currentPid ≠ .exited i := fun heq =>
        hi' ((Event.exited.inj heq).symm.trans h.pid)
      change (Event.exited s.currentPid :: s.history).count _ = 1
      rw [List.count_cons_of_ne hne]
      exact h.recorded i (hends hi) hi'

/-- A thread that is set aside has not ended. -/
theorem Running.park {s : VmState} (h : Running s) (b : Option HeapId) : Closed (s.park b) := by
  refine ⟨⟨?_, h.startedPid, h.known, ?_, h.silent⟩, fun i hi => h.recorded i hi fun heq => ?_⟩
  · exact forall_mem_snoc rfl h.pids h.pid
  · exact forall_mem_snoc rfl h.queued ⟨h.alive, h.lively⟩
  · exact h.lively (heq ▸ hi)

theorem Closed.resumes {s t : VmState} (h : Closed s) (hr : Resumes s t) : Running t := by
  cases hr with
  | @load before after th hqueue _ _ =>
      have hmem : th ∈ s.threadQueue := hqueue ▸ List.mem_append_right _ List.mem_cons_self
      have hsub : ∀ u ∈ after ++ before, u ∈ s.threadQueue := by
        intro u hu
        rw [hqueue]
        rcases List.mem_append.mp hu with hu | hu
        · exact List.mem_append_right _ (List.mem_cons_of_mem _ hu)
        · exact List.mem_append_left _ hu
      exact ⟨⟨h.toLedger.keep (fun u hu => ⟨u, hsub u hu, rfl, rfl⟩) rfl rfl, h.pids th hmem,
        (h.queued th hmem).1, fun i hi _ => h.recorded i hi⟩, (h.queued th hmem).2⟩

theorem idle_stopped (i : Pid) (ctx : ThreadCtx) : (Event.stopped i ctx).Idle :=
  ⟨nofun, fun _ => id, fun _ => id, nofun⟩

section turns
variable {q : Nat} {s t : VmState}

theorem Running.started (due : Bool) {inst : Instruction} (h : Running s) (hp : Paused s)
    (hgo : s.halting inst = false) : Running (s.started due inst) := by
  refine h.record nofun (fun i hi => ?_) (fun i hi => hi.symm) (fun i pid halting due' ctx heq => ?_)
    hp.toThreads
  · exact absurd (hgo.symm.trans hi.2) nofun
  · cases heq
    exact h.pid

/-- An instruction leaves a running thread, or one that has halted with its quantum left. -/
theorem Kept.wentOn {due : Bool} {inst : Instruction} (h : Kept s) (hp : Paused s)
    (hhalt : s.halted = false) (hw : WentOn Books inst (s.started due inst) t)
    (horderly : Orderly t.history) :
    Running t ∨ (due = false ∧ Tidy t ∧ t.halted = true ∧ t.threadQueue = s.threadQueue) := by
  have hrun := h.running hhalt
  obtain ⟨u, hu, _, hend, rfl⟩ := hw
  have hstarted : Threads (s.started due inst) := hp.started due inst
  have huthreads : Threads u := (hu.1 hstarted).1
  have hmoved : Threads { u with pc := u.nextPc } := huthreads.same rfl rfl rfl rfl
  by_cases hgo : s.halting inst = true
  · obtain ⟨hwork, hhalted⟩ := hend hgo
    have hhist : u.history = (s.started due inst).history := congrArg Shared.history hwork.shared
    have hdue : due = false := by
      have hmem : Event.started s.thread s.currentPid (s.halting inst) due s.ctx ∈
          .stopped u.thread ({ u with pc := u.nextPc } : VmState).ctx :: u.history := by
        rw [hhist]
        exact List.mem_cons_of_mem _ List.mem_cons_self
      exact horderly _ hmem hgo
    have htidy : Tidy (s.started due inst) := by
      refine hrun.toTidy.record nofun (fun i hi => hi.1.symm) (fun i hi => ?_) (fun i pid _ _ _ heq => ?_)
        hp.toThreads
      · exact hi ▸ hrun.lively
      · cases heq
        exact hrun.pid
    have hqueue : u.threadQueue = s.threadQueue := congrArg Shared.threadQueue hwork.shared
    refine .inr ⟨hdue, ?_, hhalted, hqueue⟩
    have hu : Tidy { u with pc := u.nextPc } := htidy.shared hwork.shared
    exact hu.record nofun (fun _ => False.elim) (fun _ => False.elim) nofun hmoved
  · have hgo : s.halting inst = false := Bool.eq_false_iff.mpr hgo
    have hurun : Running u := hu.2 hstarted (horderly.suffix (List.suffix_cons _ _))
      (hrun.started due hp hgo)
    have hrun : Running { u with pc := u.nextPc } := hurun.shared rfl
    exact .inl (hrun.idle (idle_stopped _ _) hmoved)

theorem halting_of_stuck {inst : Instruction} {s u : VmState} {c : HeapId} (h : Stuck inst u c) :
    s.halting inst = false := by
  obtain ⟨hop, _⟩ | ⟨hop, _⟩ | ⟨hop, _⟩ := h.cases <;> rw [VmState.halting, hop]

theorem Kept.turn {q' : Nat} (h : Kept s) (hp : Paused s) (horderly : Orderly t.history)
    (ht : TurnResult Books q s (some q') t) : Kept t := by
  cases ht with
  | exited entry _ hr => exact ((h.exit hp.toThreads entry).resumes hr).kept
  | fell hhalt _ =>
      have hrun := h.running hhalt
      exact ⟨hrun.toTidy.shared rfl, fun _ => rfl⟩
  | @wentOn inst w _ hhalt _ hw _ hwork _ hhalted =>
      have hhist : t.history = w.history := congrArg Shared.history hwork.shared
      rcases h.wentOn hp hhalt hw (hhist ▸ horderly) with hrun | ⟨_, htidy, hend, _⟩
      · exact (hrun.shared hwork.shared).kept
      · exact ⟨htidy.shared hwork.shared, fun _ => hhalted.trans hend⟩
  | @rotated inst w v _ hhalt _ hw hdue hr hwork _ _ =>
      have hhist : t.history = w.history := by
        refine (congrArg Shared.history hwork.shared).trans ?_
        cases hr with
        | load _ _ _ => rfl
      rcases h.wentOn hp hhalt hw (hhist ▸ horderly) with hrun | ⟨hquiet, _, _, hqueue⟩
      · exact (((hrun.park none).resumes hr).shared hwork.shared).kept
      · rw [quantumDue, hqueue] at hdue
        rw [quantumDue] at hquiet
        rw [hdue] at hquiet
        cases hquiet
  | @blocked inst w _ c hhalt _ hw hr =>
      obtain ⟨u, hbegun, hstuck, _, rfl⟩ := hw
      have hstarted := (h.running hhalt).started (quantumDue q s) hp (halting_of_stuck hstuck)
      have hu : Running u := hstarted.shared hbegun.shared
      have huthreads : Threads u := ((hp.started (quantumDue q s) inst).work hbegun.shared).1
      exact (((hu.idle (idle_stopped _ _) huthreads).park (some c)).resumes hr).kept

end turns
theorem kept_reachable {vm : VmState} {q : Nat} (h : Reachable (vm, q))
    (horderly : Orderly vm.history) : Kept vm := by
  have hR : ∀ s t, Books s t → Threads s → Threads t ∧ Grown s t := fun _ _ h => h.1
  refine ((bookRules.invariant (I := fun s => Paused s ∧ (Orderly s.history → Kept s))
    (fun s hp => ⟨.pristine hp, fun _ => ?_⟩) (fun _ hs ht => ⟨hs.1.turn (ht.mono hR), fun ho => ?_⟩)
    h).2).2 horderly
  · have hnone : ∀ {P : SuspendedThread → Prop}, ∀ t ∈ s.threadQueue, P t := by
      intro P t ht
      rw [hp.queue] at ht
      cases ht
    have hnever : ∀ {i}, ¬ Ended i s.history := by
      rintro i ⟨e, he, hends⟩
      rw [hp.history] at he
      rw [List.mem_singleton.mp he] at hends
      exact hends
    have hexited : ∀ {i}, Event.exited i ∉ s.history := by
      intro i he
      rw [hp.history] at he
      cases List.mem_singleton.mp he
    refine ⟨⟨⟨hnone, fun i pid halting due ctx he => ?_, fun i hi => ?_, hnone, ?_⟩,
      hp.pid.trans hp.thread.symm, hexited, fun i hi => absurd hi hnever⟩, fun hi => absurd hi hnever⟩
    · rw [hp.history] at he
      cases List.mem_singleton.mp he
    · exact hi.elim (fun hi => absurd hi hnever) fun hi => absurd hi hexited
    · intro i e older hsuf _ hended
      obtain ⟨e', he', hends⟩ := hended
      exact hnever ⟨e', hsuf.subset (List.mem_cons_of_mem e he'), hends⟩
  · have hsuf := hs.1.suffix (ht.mono hR)
    exact (hs.2 (ho.suffix hsuf)).turn hs.1 ho ht

/-- No exit is put on record, and the records are read from the front. -/
structure Unrecorded (s t : VmState) : Prop where
  records : t.waitRecords <:+ s.waitRecords
  exits : ∀ i, t.history.count (.exited i) = s.history.count (.exited i)

theorem Unrecorded.refl (s : VmState) : Unrecorded s s := ⟨List.suffix_rfl, fun _ => rfl⟩

theorem Unrecorded.trans {s t u : VmState} (a : Unrecorded s t) (b : Unrecorded t u) :
    Unrecorded s u :=
  ⟨b.records.trans a.records, fun i => (b.exits i).trans (a.exits i)⟩

theorem Unrecorded.work {s t : VmState} (w : Work s t) : Unrecorded s t :=
  ⟨w.records, fun i => congrArg (fun v : Shared => v.history.count (.exited i)) w.shared⟩

/-- Another event than an exit. -/
theorem Unrecorded.event {s t : VmState} {e : Event} (he : ∀ i, e ≠ .exited i)
    (hrecords : t.waitRecords = s.waitRecords) (hhist : t.history = e :: s.history) :
    Unrecorded s t :=
  ⟨hrecords ▸ List.suffix_rfl, fun i => by rw [hhist, count_exited_cons he]⟩

/-- A change of the context only. -/
theorem Unrecorded.same {s t u : VmState} (h : Unrecorded s t)
    (hrecords : u.waitRecords = t.waitRecords) (hhist : u.history = t.history) :
    Unrecorded s u :=
  ⟨hrecords ▸ h.records, fun i => hhist ▸ h.exits i⟩

theorem Unrecorded.stopped {s u : VmState} (h : Unrecorded s u) : Unrecorded s u.stopped :=
  h.trans (.event (e := .stopped u.thread u.ctx) nofun rfl rfl)

theorem Unrecorded.started {s u : VmState} {due : Bool} {inst : Instruction}
    (h : Unrecorded (s.started due inst) u) : Unrecorded s u := by
  have hstart : Unrecorded s (s.started due inst) :=
    .event (e := .started s.thread s.currentPid (s.halting inst) due s.ctx) nofun rfl rfl
  exact hstart.trans h

/-- Only the main loop puts an exit on record. -/
theorem recordRules : Rules Unrecorded (fun s u _ => Unrecorded s u) where
  trans _ _ _ hst htu := hst.trans htu
  work _ _ w := .work w.toWork
  call _ _ w moduleIdx _ _ hu huw :=
    ((Unrecorded.work hu).trans huw).trans (.work (work_leaveModule _ moduleIdx w))
  fresh s _ _ _ _ _ _ := ⟨List.suffix_rfl, fun _ => rfl⟩
  put s c v _ _ := .event (e := .put c v) nofun rfl rfl
  take s c v _ _ := .event (e := .took c v) nofun rfl rfl
  inject s c v := .event (e := .injected c) nofun rfl rfl
  spawn s frames heap childFrames entryPc _ _ :=
    .event (e := .spawned s.nextPid (s.newThread childFrames entryPc).ctx) nofun rfl rfl
  nested s halting := .event (e := .nested s.thread halting) nofun rfl rfl
  handOff s idx other u b _ _ _ _ hslice := by
    have hstart : Unrecorded s (handOff other idx s) :=
      .event (e := .handedOff other.thread) nofun rfl rfl
    exact (hstart.trans hslice).same rfl rfl
  sliceDone s := .refl s
  sliceEnd s _ := ⟨List.suffix_rfl, fun _ => rfl⟩
  sliceStep s inst u w b _ hstep hrest :=
    have hstop : Unrecorded s (VmState.stopped { u with pc := u.nextPc }) :=
      .stopped (hstep.started.same rfl rfl)
    hstop.trans hrest
  sliceFault s inst u _ hstep := hstep.started.stopped
  sliceBlock s inst u c _ hbegun _ := (Unrecorded.started (.work hbegun.work)).stopped

/-- What a turn does to the exit records: a halted thread leaves one, with its pid and the
name of the module it ends in, and no other thread leaves any. -/
def Recorded (s t : VmState) : Prop :=
  if s.halted then
    t.history = .exited s.currentPid :: s.history ∧
      ∃ m, s.moduleAt s.currentLoadedModule = some m ∧
        t.waitRecords = s.waitRecords ++ [exitRecord s.currentPid m ""]
  else Unrecorded s t

theorem runIter_halted {env : Env} {nested : Nested} {vm : VmState} {q : Nat}
    (h : vm.halted = true) :
    wp (runIter env nested q) (fun _ w => Recorded vm w) (fun _ w => Recorded vm w) vm := by
  simp only [runIter, wp_bind, wp_get, if_pos h, recordThreadExit, Recorded]
  refine wp_unwrap fun m hm => ?_
  rw [wp_set]
  refine wp_ite (fun _ => ⟨rfl, m, hm, rfl⟩) fun _ => ?_
  rw [wp_bind]
  refine wp_resumeNextReadyThread (fun t ht => ?_) fun _ => ⟨rfl, m, hm, rfl⟩
  cases ht with
  | load _ _ _ => exact ⟨rfl, m, hm, rfl⟩

theorem Unrecorded.resumes {s t : VmState} (h : Resumes s t) : Unrecorded s t := by
  cases h with
  | load _ _ _ => exact ⟨List.suffix_rfl, fun _ => rfl⟩

theorem runIter_unrecorded (env : Env) (fuel : Nat) {vm : VmState} {q : Nat}
    (hblocked : vm.blockedChannel = none) (h : vm.halted = false) :
    wp (runIter env (nestedAt env fuel) q) (fun _ w => Recorded vm w)
      (fun _ w => Recorded vm w) vm := by
  have hgo : ∀ {w}, Unrecorded vm w → Recorded vm w := fun hw => by
    rwa [Recorded, if_neg (by rw [h]; exact Bool.false_ne_true)]
  have hwent : ∀ {inst w}, WentOn Unrecorded inst (vm.started (quantumDue q vm) inst) w →
      Unrecorded vm w := by
    rintro inst w ⟨u, hu, _, _, rfl⟩
    exact Unrecorded.stopped (hu.started.same rfl rfl)
  have hwaits : ∀ {inst w c}, Blocked inst (vm.started (quantumDue q vm) inst) w c →
      Unrecorded vm w := by
    rintro inst w c ⟨u, hu, _, _, rfl⟩
    exact (Unrecorded.started (.work hu.work)).stopped
  refine wp_mono (recordRules.runIter_spec env fuel q vm) (fun r w hw => hgo ?_)
    fun e w hw => hgo ?_
  · have hturn := hw hblocked
    cases hturn with
    | finished _ hhalt _ | exited _ hhalt _ => exact absurd (h.symm.trans hhalt) nofun
    | fell _ _ => exact ⟨List.suffix_rfl, fun _ => rfl⟩
    | wentOn _ _ hstep _ ht _ _ => exact (hwent hstep).trans (.work ht)
    | rotated _ _ hstep _ hv ht _ _ =>
        have hpark := (hwent hstep).same (u := VmState.park none _) rfl rfl
        exact (hpark.trans (.resumes hv)).trans (.work ht)
    | @blocked _ u _ c _ _ hstep hr =>
        have hpark := (hwaits hstep).same (u := u.park (some c)) rfl rfl
        exact hpark.trans (.resumes hr)
  · have hturn := hw hblocked
    cases hturn with
    | exitDeadlock _ hhalt _ _ => exact absurd (h.symm.trans hhalt) nofun
    | blockDeadlock _ _ hstep _ => exact hwaits hstep
    | invalidPc _ _ => exact .refl vm
    | fault _ _ hstep _ =>
        obtain ⟨u, hu, _, rfl⟩ := hstep
        exact hu.started.stopped

/-- A record is left for each exit, and for nothing else. -/
theorem runIter_recorded {vm : VmState} {q : Nat} (h : Reachable (vm, q)) (env : Env)
    (fuel : Nat) :
    wp (runIter env (nestedAt env fuel) q) (fun _ w => Recorded vm w)
      (fun _ w => Recorded vm w) vm := by
  cases hhalt : vm.halted with
  | true => exact runIter_halted hhalt
  | false =>
      have hinv := recordRules.invariant (I := fun _ => True) (fun _ _ => trivial)
        (fun _ _ _ => trivial) h
      exact runIter_unrecorded env fuel hinv.1 hhalt

/-- In a run whose steps are all orderly, a thread that has executed its last instruction
executes no other and is not queued, and its exit is recorded once, when it is current for
the last time; every recorded exit leaves one record, with the pid of the thread. -/
theorem halted_thread_stays_halted {vm : VmState} {q : Nat} (h : Reachable (vm, q))
    (horderly : Orderly vm.history) :
    (∀ i e older, e :: older <:+ vm.history → e.Runs i → ¬ Ended i older) ∧
    (∀ i, Ended i vm.history → (∀ t ∈ vm.threadQueue, t.thread ≠ i) ∧
      vm.history.count (.exited i) = if vm.thread = i then 0 else 1) ∧
    vm.currentPid = vm.thread ∧ (Ended vm.thread vm.history → vm.halted = true) ∧
    ∀ env fuel, wp (runIter env (nestedAt env fuel) q)
      (fun _ w => Recorded vm w) (fun _ w => Recorded vm w) vm := by
  have hkept := kept_reachable h horderly
  refine ⟨hkept.silent, fun i hi => ⟨fun t ht heq => ?_, ?_⟩, hkept.pid, hkept.halted,
    runIter_recorded h⟩
  · exact (hkept.queued t ht).2 (heq ▸ hi)
  · split
    · next heq => exact List.count_eq_zero_of_not_mem (heq ▸ hkept.alive)
    · next hne => exact hkept.recorded i hi fun heq => hne heq.symm

/-- A thread that sends on a channel and exits, and another that waits for the value. -/
def sendAndExit : Module :=
  .ofCode "m" [
    ⟨.newcw, .unused, .unused, .mp 0⟩,
    ⟨.frame, .imm 0, .unused, .fp 48⟩,
    ⟨.spawn, .fp 48, .unused, .imm 5⟩,
    ⟨.recv, .mp 0, .unused, .fp 52⟩,
    ⟨.exit, .unused, .unused, .unused⟩,
    ⟨.send, .imm 1, .unused, .mp 0⟩,
    ⟨.exit, .unused, .unused, .unused⟩] 4

/-- The thread that has exited is no longer the running one. -/
def exitedInOrder (s : VmState × Nat) : Bool :=
  match s.1.history with
  | .exited _ :: .stopped _ _ :: .started 2 _ true _ _ :: _ =>
    decide (Orderly s.1.history) && decide (s.1.thread = 1)
  | _ => false

theorem halted_thread_stays_halted_sendAndExit : ∃ s, Reachable s ∧ Ended 2 s.1.history ∧
    (∀ t ∈ s.1.threadQueue, t.thread ≠ 2) ∧ s.1.history.count (.exited 2) = 1 := by
  have hrun : (sendAndExit.after .bare 1 7).any exitedInOrder = true := by decide +kernel
  obtain ⟨⟨vm, q⟩, hreach, htest⟩ := Module.reachable_after rfl hrun
  unfold exitedInOrder at htest
  split at htest
  · next hist =>
      obtain ⟨horderly, hthread⟩ := Bool.and_eq_true_iff.mp htest
      have hthread : vm.thread = 1 := of_decide_eq_true hthread
      have hended : Ended 2 vm.history := by
        refine ⟨_, hist ▸ List.mem_cons_of_mem _ (List.mem_cons_of_mem _ List.mem_cons_self), ?_⟩
        exact ⟨rfl, rfl⟩
      obtain ⟨hqueue, hcount⟩ :=
        (halted_thread_stays_halted hreach (of_decide_eq_true horderly)).2.1 2 hended
      rw [hthread, if_neg (by decide)] at hcount
      exact ⟨(vm, q), hreach, hended, hqueue, hcount⟩
  · cases htest

def Instruction.nop : Instruction := ⟨.nop, .unused, .unused, .unused⟩

/-- What `n` instructions that do nothing leave of a state. -/
def nopHistory (vm : VmState) : Nat → List Event
  | 0 => vm.history
  | n + 1 =>
    .stopped vm.thread { vm.ctx with pc := vm.pc + n + 1 } ::
      .started vm.thread vm.currentPid false false { vm.ctx with pc := vm.pc + n } :: nopHistory vm n

def afterNops (n : Nat) (vm : VmState) : VmState :=
  { vm with
    pc := vm.pc + n, nextPc := vm.pc + n, gcCounter := vm.gcCounter + n
    src := .none, mid := .none, dst := .none, immSrc := 0, immMid := 0, immDst := 0
    history := nopHistory vm n }

/-- The thread stands before `n` instructions that do nothing, the last operation had no
operands, and neither the quantum nor the collection is due. -/
structure BeforeNops (n q : Nat) (vm : VmState) : Prop where
  halted : vm.halted = false
  blocked : vm.blockedChannel = none
  operands : vm.src = .none ∧ vm.mid = .none ∧ vm.dst = .none ∧ vm.immSrc = 0 ∧ vm.immMid = 0 ∧
    vm.immDst = 0 ∧ vm.nextPc = vm.pc
  gc : vm.gcEnabled = true ∧ vm.gcCounter + n < gcInterval
  quantum : q + n < threadQuantum
  main : vm.currentLoadedModule = none
  code : (vm.module.code.drop vm.pc).take n = List.replicate n .nop

instance (n q : Nat) (vm : VmState) : Decidable (BeforeNops n q vm) :=
  decidable_of_iff (vm.halted = false ∧ vm.blockedChannel = none ∧ (vm.src = .none ∧ vm.mid = .none ∧
      vm.dst = .none ∧ vm.immSrc = 0 ∧ vm.immMid = 0 ∧ vm.immDst = 0 ∧ vm.nextPc = vm.pc) ∧
      (vm.gcEnabled = true ∧ vm.gcCounter + n < gcInterval) ∧ q + n < threadQuantum ∧
      vm.currentLoadedModule = none ∧
      (vm.module.code.drop vm.pc).take n = List.replicate n .nop)
    ⟨fun ⟨a, b, c, d, e, f, g⟩ => ⟨a, b, c, d, e, f, g⟩,
      fun ⟨a, b, c, d, e, f, g⟩ => ⟨a, b, c, d, e, f, g⟩⟩

theorem BeforeNops.fetch {n q k : Nat} {vm : VmState} (h : BeforeNops n q vm) (hk : k < n) :
    vm.module.code[vm.pc + k]? = some .nop := by
  have hget := congrArg (·[k]?) h.code
  simpa only [List.getElem?_take, if_pos hk, List.getElem?_drop, List.getElem?_replicate] using hget

theorem stepThread_nop {env : Env} {nested : Nested} {n q : Nat} {vm : VmState}
    (h : BeforeNops n q vm) (k : Nat) :
    stepThread env nested false .nop (afterNops k vm) =
      .ok none { afterNops (k + 1) vm with gcCounter := vm.gcCounter + k } := by
  have hbegin := @begin_ok .nop ((afterNops k vm).started false .nop) .none .none .none rfl rfl rfl
  exact stepThread_done hbegin rfl h.blocked

theorem afterNops_zero {n q : Nat} {vm : VmState} (h : BeforeNops n q vm) : afterNops 0 vm = vm := by
  obtain ⟨hsrc, hmid, hdst, himmSrc, himmMid, himmDst, hnext⟩ := h.operands
  cases vm
  dsimp only at hsrc hmid hdst himmSrc himmMid himmDst hnext
  subst hsrc hmid hdst himmSrc himmMid himmDst hnext
  rfl

theorem collectGarbage_early {w : VmState} (hgc : w.gcEnabled = true)
    (hlt : w.gcCounter + 1 < gcInterval) :
    collectGarbage w = .ok () { w with gcCounter := w.gcCounter + 1 } := by
  rw [collectGarbage, modify_apply, if_pos hgc, if_neg (by omega)]

theorem runIter_nop {env : Env} {nested : Nested} {n q k : Nat} {vm : VmState}
    (h : BeforeNops n q vm) (hk : k < n) :
    runIter env nested (q + k) (afterNops k vm) = .ok (some (q + (k + 1))) (afterNops (k + 1) vm) := by
  have hquantum := h.quantum
  have hdue : ∀ w, quantumDue (q + k) w = false := by
    intro w
    have hlt : ¬ q + k + 1 ≥ threadQuantum := by omega
    simp only [quantumDue, decide_eq_false hlt, Bool.false_and]
  have hmod : (afterNops k vm).moduleAt (afterNops k vm).currentLoadedModule = some vm.module := by
    change vm.moduleAt vm.currentLoadedModule = _
    rw [h.main]
    rfl
  have hfetch : vm.module.code[(afterNops k vm).pc]? = some .nop := h.fetch hk
  have hhalted : ¬ (afterNops k vm).halted = true := by
    rw [afterNops, h.halted]
    exact nofun
  have hcollect : collectGarbage { afterNops (k + 1) vm with gcCounter := vm.gcCounter + k } =
      .ok () (afterNops (k + 1) vm) := by
    obtain ⟨hgc, hcount⟩ := h.gc
    refine collectGarbage_early hgc ?_
    change vm.gcCounter + k + 1 < gcInterval
    omega
  rw [runIter, bind_ok (get_apply _), if_neg hhalted, hmod, bind_ok (unwrap_some _ _), hfetch]
  dsimp only
  rw [hdue, bind_ok (stepThread_nop h k)]
  dsimp only
  rw [bind_ok (get_apply _), hdue, if_neg nofun, bind_ok hcollect]
  rfl

theorem runTurns_nops (env : Env) (fuel : Nat) {n q : Nat} {vm : VmState}
    (h : BeforeNops n q vm) (k : Nat) (hk : k ≤ n) :
    runTurns env fuel k (vm, q) = some (afterNops k vm, q + k) := by
  induction k with
  | zero => rw [afterNops_zero h]; rfl
  | succ k ih =>
      rw [runTurns_add, ih (by omega)]
      change runTurns env fuel 1 _ = _
      rw [runTurns, runIter_nop h (by omega)]
      rfl

/-- A test that a program passes some turns after a row of such instructions. -/
theorem reachable_afterNops {module : Module} {env : Env} {fuel m n k : Nat}
    {p : VmState × Nat → Bool} (hentry : module.header.entryPc.msb = false)
    (h : (module.after env fuel m).any (fun s => decide (BeforeNops n s.2 s.1) &&
      (runTurns env fuel k (afterNops n s.1, s.2 + n)).any p) = true) :
    ∃ s, Reachable s ∧ p s = true := by
  obtain ⟨⟨vm, q⟩, hreach, htest⟩ := Module.reachable_after hentry h
  obtain ⟨hnops, htest⟩ := Bool.and_eq_true_iff.mp htest
  have hrun := runTurns_nops env fuel (of_decide_eq_true hnops) n (Nat.le_refl n)
  have hreach := reachable_runTurns hreach hrun
  cases hs : runTurns env fuel k (afterNops n vm, q + n) with
  | none => rw [hs] at htest; cases htest
  | some s => rw [hs] at htest; exact ⟨s, reachable_runTurns hreach hs, htest⟩

/-- The exit of a thread is its 2048th instruction, and another thread is queued. -/
def lateExit : Module :=
  .ofCode "m" ([
    ⟨.frame, .imm 0, .unused, .fp 48⟩,
    ⟨.spawn, .fp 48, .unused, .imm 2049⟩] ++
    List.replicate 2045 .nop ++ [
    ⟨.exit, .unused, .unused, .unused⟩,
    ⟨.movw, .imm 1, .unused, .mp 0⟩,
    ⟨.exit, .unused, .unused, .unused⟩]) 4

/-- The thread that has just executed its last instruction is queued. -/
def queuedAfterExit (s : VmState × Nat) : Bool :=
  match s.1.history with
  | _ :: .started 1 _ true _ _ :: _ => s.1.threadQueue.any fun t => decide (t.thread = 1)
  | _ => false

/-- It has executed another instruction since. -/
def ranAfterExit (s : VmState × Nat) : Bool :=
  match s.1.history with
  | _ :: .started 1 _ _ _ _ :: _ :: _ :: _ :: _ :: .started 1 _ true _ _ :: _ => true
  | _ => false

theorem lateExit_revived :
    (∃ s, Reachable s ∧ Ended 1 s.1.history ∧ ∃ t ∈ s.1.threadQueue, t.thread = 1) ∧
      ∃ s, Reachable s ∧ ∃ e older, e :: older <:+ s.1.history ∧ e.Runs 1 ∧ Ended 1 older := by
  have hqueued : (lateExit.after .bare 1 3).any (fun s => decide (BeforeNops 2044 s.2 s.1) &&
      (runTurns .bare 1 1 (afterNops 2044 s.1, s.2 + 2044)).any queuedAfterExit) = true := by
    decide +kernel
  have hran : (lateExit.after .bare 1 3).any (fun s => decide (BeforeNops 2044 s.2 s.1) &&
      (runTurns .bare 1 4 (afterNops 2044 s.1, s.2 + 2044)).any ranAfterExit) = true := by
    decide +kernel
  refine ⟨?_, ?_⟩
  · obtain ⟨s, hreach, htest⟩ := reachable_afterNops rfl hqueued
    unfold queuedAfterExit at htest
    split at htest
    · next hist =>
        obtain ⟨t, ht, hthread⟩ := List.any_eq_true.mp htest
        refine ⟨s, hreach, ?_, t, ht, of_decide_eq_true hthread⟩
        rw [hist]
        exact ⟨_, List.mem_cons_of_mem _ List.mem_cons_self, rfl, rfl⟩
    · cases htest
  · obtain ⟨s, hreach, htest⟩ := reachable_afterNops rfl hran
    unfold ranAfterExit at htest
    split at htest
    · next hist =>
        refine ⟨s, hreach, ?_⟩
        rw [hist]
        refine ⟨_, _, List.suffix_cons _ _, rfl, ?_⟩
        exact ⟨_, List.mem_cons_of_mem _ (List.mem_cons_of_mem _ (List.mem_cons_of_mem _
          (List.mem_cons_of_mem _ List.mem_cons_self))), rfl, rfl⟩
    · cases htest

end RiceVM
