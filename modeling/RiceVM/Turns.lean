import RiceVM.Interpreter

/-!
The cases of one turn of the main loop. A turn ends the running thread and resumes
another, executes one instruction, or sets the thread aside because it has to wait.
-/
namespace RiceVM
open Exec Ops

def SuspendedThread.ready (t : SuspendedThread) : Bool := t.blockedOn.isNone

namespace VmState

/-- The state in which the running thread's exit is on record. -/
def exit (entry : String) (vm : VmState) : VmState :=
  { vm with waitRecords := vm.waitRecords ++ [entry] }.record (.exited vm.currentPid)

/-- The running thread goes to the back of the queue. -/
def park (blockedOn : Option HeapId) (vm : VmState) : VmState :=
  { vm with
    frames := .new
    mp := []
    heapRefs := []
    lastError := ""
    currentLoadedModule := none
    callerMpStack := []
    threadQueue := vm.threadQueue ++ [vm.suspended blockedOn] }

end VmState

/-- The first ready thread of the queue is installed. -/
inductive Resumes (s : VmState) : VmState → Prop
  | load {before after : List SuspendedThread} {th : SuspendedThread} :
      s.threadQueue = before ++ th :: after → (∀ t ∈ before, t.ready = false) →
      th.ready = true →
      Resumes s (loadThread th { s with threadQueue := after ++ before })

/-- The outcomes of a turn: the next quantum counter, or none when the run is over. -/
inductive TurnResult (R : VmState → VmState → Prop) (q : Nat) (s : VmState) :
    Option Nat → VmState → Prop
  | finished (entry : String) : s.halted = true → s.threadQueue = [] →
      TurnResult R q s none (s.exit entry)
  | exited (entry : String) {t : VmState} : s.halted = true → Resumes (s.exit entry) t →
      TurnResult R q s (some q) t
  | fell : s.halted = false → s.fetch = none → TurnResult R q s (some q) { s with halted := true }
  | wentOn {inst : Instruction} {w t : VmState} : s.halted = false → s.fetch = some inst →
      WentOn R inst (s.started (quantumDue q s) inst) w → quantumDue q w = false → Work w t →
      t.ctx = w.ctx → t.halted = w.halted → TurnResult R q s (some (q + 1)) t
  | rotated {inst : Instruction} {w v t : VmState} : s.halted = false → s.fetch = some inst →
      WentOn R inst (s.started (quantumDue q s) inst) w → quantumDue q w = true →
      Resumes (w.park none) v → Work v t → t.ctx = v.ctx → t.halted = v.halted →
      TurnResult R q s (some 0) t
  | blocked {inst : Instruction} {w t : VmState} {c : HeapId} : s.halted = false →
      s.fetch = some inst → Blocked inst (s.started (quantumDue q s) inst) w c →
      Resumes (w.park (some c)) t → TurnResult R q s (some q) t

/-- The faults a turn ends the run with. -/
inductive TurnFault (R : VmState → VmState → Prop) (q : Nat) (s : VmState) :
    ExecError → VmState → Prop
  | exitDeadlock (entry : String) : s.halted = true → s.threadQueue ≠ [] →
      (∀ t ∈ s.threadQueue, t.ready = false) →
      TurnFault R q s deadlockFault { s.exit entry with halted := true }
  | blockDeadlock {inst : Instruction} {w : VmState} {c : HeapId} : s.halted = false →
      s.fetch = some inst → Blocked inst (s.started (quantumDue q s) inst) w c →
      (∀ t ∈ w.threadQueue, t.ready = false) → TurnFault R q s deadlockFault w
  | invalidPc : s.halted = false → s.fetch = none →
      TurnFault R q s (.invalidPc (Word.ofUsize s.pc)) s
  | fault {inst : Instruction} {w : VmState} {e : ExecError} : s.halted = false →
      s.fetch = some inst → Faulted R (s.started (quantumDue q s) inst) w →
      e ≠ deadlockFault → TurnFault R q s e w

theorem wp_resumeNextReadyThread {Q : Bool → VmState → Prop} {E : ExecError → VmState → Prop}
    {s : VmState} (hok : ∀ t, Resumes s t → Q true t)
    (hnone : (∀ t ∈ s.threadQueue, t.ready = false) → Q false { s with halted := true }) :
    wp resumeNextReadyThread Q E s := by
  simp only [resumeNextReadyThread, wp_bind, wp_get]
  split
  · next idx hidx =>
      rw [wp_bind]
      refine wp_unwrap fun th hth => hok _ ?_
      obtain ⟨hlt, hready, hbefore⟩ := List.findIdx?_eq_some_iff_getElem.mp hidx
      have hget : s.threadQueue[idx] = th := by
        rw [List.getElem?_eq_getElem hlt] at hth
        exact Option.some.inj hth
      have hsplit : s.threadQueue = s.threadQueue.take idx ++ th :: s.threadQueue.drop (idx + 1) := by
        rw [← hget, List.getElem_cons_drop hlt, List.take_append_drop]
      refine .load hsplit ?_ (hget ▸ hready)
      · intro t ht
        obtain ⟨i, hi, rfl⟩ := List.mem_take_iff_getElem.mp ht
        have hlti : i < idx := by omega
        exact Bool.eq_false_iff.mpr (hbefore i hlti)
  · next hnone' =>
      refine hnone fun t ht => ?_
      exact List.findIdx?_eq_none_iff.mp hnone' t ht

theorem work_collectGarbage (s : VmState) {Q : Unit → VmState → Prop}
    {E : ExecError → VmState → Prop}
    (hQ : ∀ t, Work s t → t.ctx = s.ctx → t.halted = s.halted → Q () t) :
    wp collectGarbage Q E s := by
  simp only [collectGarbage, wp_modify]
  split
  · split
    · exact hQ _ ⟨rfl, Gc.plain_collect s, fun _ _ h => h, .inl rfl, List.suffix_rfl⟩ rfl rfl
    · exact hQ _ ⟨rfl, .refl _, fun _ _ h => h, .inl rfl, List.suffix_rfl⟩ rfl rfl
  · exact hQ _ (.refl s) rfl rfl

/-- A machine with a ready thread in its queue resumes one. -/
theorem wp_resume_ready {Q : Bool → VmState → Prop} {E : ExecError → VmState → Prop}
    {s : VmState} {th : SuspendedThread} (hmem : th ∈ s.threadQueue) (hready : th.ready = true)
    (hok : ∀ t, Resumes s t → Q true t) : wp resumeNextReadyThread Q E s :=
  wp_resumeNextReadyThread hok fun h => by
    rw [h th hmem] at hready
    cases hready

section rules
variable {R : VmState → VmState → Prop} {RS : VmState → VmState → Option HeapId → Prop}
variable (hR : Rules R RS)
include hR

theorem Rules.runIter_spec (env : Env) (fuel q : Nat) (s : VmState) :
    wp (runIter env (nestedAt env fuel) q)
      (fun r t => s.blockedChannel = none → TurnResult R q s r t)
      (fun e t => s.blockedChannel = none → TurnFault R q s e t) s := by
  simp only [runIter, wp_bind, wp_get]
  refine wp_ite (fun hhalt => ?_) fun hhalt => ?_
  · simp only [recordThreadExit, wp_bind, wp_get]
    refine wp_unwrap fun m _ => ?_
    rw [wp_set]
    refine wp_ite (fun hempty => fun _ => ?_) fun hempty => ?_
    · exact .finished _ hhalt (List.isEmpty_iff.mp hempty)
    · rw [wp_bind]
      refine wp_resumeNextReadyThread (fun t ht => fun _ => .exited _ hhalt ht) fun hall => ?_
      exact fun _ => .exitDeadlock _ hhalt (fun h => hempty (List.isEmpty_iff.mpr h)) hall
  · have hhalt : s.halted = false := Bool.eq_false_iff.mpr hhalt
    rw [wp_bind]
    refine wp_unwrap fun m hm => ?_
    have hfetch : s.fetch = m.code[s.pc]? := by
      rw [VmState.fetch, hm]
      rfl
    split
    · next hnone =>
        have hfetch := hfetch.trans hnone
        refine wp_ite (fun _ => fun _ => .fell hhalt hfetch) fun _ => fun _ => .invalidPc hhalt hfetch
    · next inst hinst =>
        have hfetch := hfetch.trans hinst
        rw [wp_bind]
        refine wp_mono (hR.stepThread_spec (hR.soundNested env fuel) env _ inst s)
          (fun b w hw => ?_) fun e w hw hs => .fault hhalt hfetch (hw.1 hs) hw.2
        cases b with
        | some c =>
            simp only [wp_bind, wp_get]
            refine wp_ite (fun hany => ?_) fun hany => fun hs => ?_
            · obtain ⟨th, hth, hready⟩ := List.any_eq_true.mp hany
              simp only [wp_bind, suspendCurrent, wp_modify]
              refine wp_resume_ready (List.mem_append_left _ hth) hready fun t ht hs => ?_
              exact .blocked hhalt hfetch (hw hs) ht
            · refine .blockDeadlock hhalt hfetch (hw hs) fun t ht => ?_
              exact Bool.eq_false_iff.mpr fun h => hany (List.any_eq_true.mpr ⟨t, ht, h⟩)
        | none =>
            simp only [wp_bind, wp_get]
            refine wp_ite (fun hdue => ?_) fun hdue => ?_
            · simp only [suspendAndRotate, suspendCurrent, wp_bind, wp_modify]
              have hself : w.suspended none ∈ w.threadQueue ++ [w.suspended none] :=
                List.mem_append_right _ (List.mem_singleton_self _)
              refine wp_resume_ready hself rfl fun v hv => ?_
              rw [wp_pure]
              refine work_collectGarbage v fun t ht hctx hh => ?_
              exact fun hs => .rotated hhalt hfetch (hw hs) hdue hv ht hctx hh
            · rw [wp_bind]
              refine work_collectGarbage w fun t ht hctx hh => ?_
              exact fun hs => .wentOn hhalt hfetch (hw hs) (Bool.eq_false_iff.mpr hdue) ht hctx hh

omit hR in
/-- No thread waits at the top of the loop. -/
theorem TurnResult.blockedChannel {q : Nat} {s t : VmState} {r : Option Nat}
    (h : TurnResult R q s r t) (hs : s.blockedChannel = none) : t.blockedChannel = none := by
  have hresume : ∀ {v w : VmState}, Resumes v w → w.blockedChannel = v.blockedChannel := by
    intro v w hr
    cases hr with
    | load _ _ _ => rfl
  have hwork : ∀ {v w : VmState}, Work v w → v.blockedChannel = none → w.blockedChannel = none := by
    intro v w hw hv
    exact hw.blocked.elim (fun h => h.trans hv) id
  cases h with
  | finished entry _ _ => exact hs
  | exited entry _ hr => exact (hresume hr).trans hs
  | fell _ _ => exact hs
  | wentOn _ _ hw _ ht _ _ =>
      obtain ⟨u, _, hu, _, rfl⟩ := hw
      exact hwork ht hu
  | rotated _ _ hw _ hv ht _ _ =>
      obtain ⟨u, _, hu, _, rfl⟩ := hw
      exact hwork ht ((hresume hv).trans hu)
  | blocked _ _ hw hr =>
      obtain ⟨u, _, _, hu, rfl⟩ := hw
      exact (hresume hr).trans hu

/-- What holds at the start and survives every turn holds at every top of the loop. -/
theorem Rules.invariant {I : VmState → Prop} (hinit : ∀ s : VmState, s.Pristine → I s)
    (hturn : ∀ {q q' : Nat} {s t : VmState}, s.blockedChannel = none → I s →
      TurnResult R q s (some q') t → I t) {vm : VmState} {q : Nat} (h : Reachable (vm, q)) :
    vm.blockedChannel = none ∧ I vm := by
  generalize hs : (vm, q) = s at h
  induction h generalizing vm q with
  | initial h₀ =>
      cases hs
      obtain ⟨modules, gcEnabled, module, args, _, h₀⟩ := h₀
      have hp := VmState.pristine_withArgs h₀
      exact ⟨hp.blocked, hinit _ hp⟩
  | @turn s t _ step ih =>
      subst hs
      obtain ⟨env, fuel, hrun⟩ := step
      obtain ⟨hb, hI⟩ := ih rfl
      have ht := wp_ok (hR.runIter_spec env fuel s.2 s.1) hrun hb
      exact ⟨ht.blockedChannel hb, hturn hb hI ht⟩

theorem Rules.observed {I J : VmState → Prop} (hinit : ∀ s : VmState, s.Pristine → I s)
    (hturn : ∀ {q q' : Nat} {s t : VmState}, s.blockedChannel = none → I s →
      TurnResult R q s (some q') t → I t)
    (htop : ∀ s, I s → J s)
    (hover : ∀ {q : Nat} {s t : VmState}, I s → TurnResult R q s none t → J t)
    (hfault : ∀ {q : Nat} {s t : VmState} {e : ExecError}, I s → TurnFault R q s e t → J t)
    {vm : VmState} (h : Observed vm) : J vm := by
  cases h with
  | top hr => exact htop vm (hR.invariant hinit hturn hr).2
  | @finished s t q fuel env hr hrun =>
      obtain ⟨hb, hI⟩ := hR.invariant hinit hturn hr
      exact hover hI (wp_ok (hR.runIter_spec env fuel q s) hrun hb)
  | @fault s t q fuel env e hr hrun =>
      obtain ⟨hb, hI⟩ := hR.invariant hinit hturn hr
      exact hfault hI (wp_error (hR.runIter_spec env fuel q s) hrun hb)

end rules
theorem WentOn.mono {R R' : VmState → VmState → Prop} (hR : ∀ s t, R s t → R' s t)
    {inst : Instruction} {s w : VmState} (h : WentOn R inst s w) : WentOn R' inst s w := by
  obtain ⟨u, hu, hrest⟩ := h
  exact ⟨u, hR s u hu, hrest⟩

theorem TurnResult.mono {R R' : VmState → VmState → Prop} (hR : ∀ s t, R s t → R' s t)
    {q : Nat} {s t : VmState} {r : Option Nat} (h : TurnResult R q s r t) :
    TurnResult R' q s r t := by
  cases h with
  | finished entry hhalt hqueue => exact .finished entry hhalt hqueue
  | exited entry hhalt hr => exact .exited entry hhalt hr
  | fell hhalt hfetch => exact .fell hhalt hfetch
  | wentOn hhalt hfetch hw hdue ht hctx hh =>
      exact .wentOn hhalt hfetch (hw.mono hR) hdue ht hctx hh
  | rotated hhalt hfetch hw hdue hr ht hctx hh =>
      exact .rotated hhalt hfetch (hw.mono hR) hdue hr ht hctx hh
  | blocked hhalt hfetch hw hr => exact .blocked hhalt hfetch hw hr

/-- Every run of instructions stays within the relation that holds of any two states. -/
theorem anyRules : Rules (fun _ _ => True) (fun _ _ _ => True) := by
  constructor <;> intros <;> trivial

end RiceVM
