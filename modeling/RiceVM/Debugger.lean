import RiceVM.Programs
import RiceVM.Interpreter
import RiceVM.Turns

/-!
The debugger's instruction loop beside the machine's. The debugger fetches, dispatches and
advances; the main loop also suspends a thread that waits, rotates the queue and turns
faults into exceptions. Where a turn does none of these the two take the same step.
-/
namespace RiceVM
open Exec Ops

/-- An instruction, with no care for waits and faults. -/
def rawStep (env : Env) (nested : Nested) (inst : Instruction) : VM Unit := do
  begin inst
  dispatch env nested inst
  modify fun vm => { vm with pc := vm.nextPc }

/-- `Debugger::step`. It records the ghost events of a turn of the main loop; `due` is the
mark such an event carries. -/
def debugStep (env : Env) (nested : Nested) (due : Bool) : VM Unit := do
  let vm ← get
  match vm.module.code[vm.pc]? with
  | none => set { vm with halted := true }
  | some inst =>
    modify (·.started due inst)
    let outcome ← attempt (rawStep env nested inst)
    modify (·.stopped)
    ofExcept outcome
    collectGarbage

/-- Step `n` times, or until the machine has halted. -/
def debugSteps (env : Env) (nested : Nested) : Nat → Nat → VM Unit
  | _, 0 => pure ()
  | quantum, n + 1 => do
    let vm ← get
    if vm.halted then pure ()
    else
      debugStep env nested (quantumDue quantum vm)
      debugSteps env nested (quantum + 1) n

/-- Up to `n` turns of the main loop. -/
def mainTurns (env : Env) (nested : Nested) : Nat → Nat → VM Unit
  | _, 0 => pure ()
  | quantum, n + 1 => do
    match ← runIter env nested quantum with
    | some quantum => mainTurns env nested quantum n
    | none => pure ()

/-- The turn executes an instruction of the main module that neither raises an exception for
a fault nor waits for a channel, and no other thread is due after it. -/
structure Steppable (env : Env) (nested : Nested) (quantum : Nat) (s : VmState)
    (inst : Instruction) : Prop where
  running : s.halted = false
  main : s.currentLoadedModule = none
  fetch : s.module.code[s.pc]? = some inst
  unraised : ∀ {u t msg}, begin inst (s.started (quantumDue quantum s) inst) = .ok () u →
    dispatch env nested inst u = .error (.threadFault msg) t → raisable msg = false
  unblocked : ∀ {u t}, begin inst (s.started (quantumDue quantum s) inst) = .ok () u →
    dispatch env nested inst u = .ok () t →
      t.blockedChannel = none ∧ quantumDue quantum t = false

section step
variable {env : Env} {nested : Nested} {quantum : Nat} {s : VmState} {inst : Instruction}

/-- Where nothing is raised and nothing waits, the main loop's instruction is the bare one. -/
theorem Steppable.execute_settle (h : Steppable env nested quantum s inst) :
    (do execute env nested inst; settle : VM (Option HeapId))
        (s.started (quantumDue quantum s) inst) =
      (do rawStep env nested inst; pure none : VM (Option HeapId))
        (s.started (quantumDue quantum s) inst) := by
  simp only [execute, rawStep, bind_apply]
  cases hbegin : begin inst (s.started (quantumDue quantum s) inst) with
  | error e t => rfl
  | panic | diverge => rfl
  | ok _ u =>
      cases hdisp : dispatch env nested inst u with
      | ok _ t =>
          have hblocked := (h.unblocked hbegin hdisp).1
          simp only [attempt, hdisp, pure_apply, settle, bind_apply, get_apply, hblocked,
            set_apply, modify_apply]
      | error e t =>
          simp only [attempt, hdisp]
          cases e with
          | threadFault msg =>
              have hraise := h.unraised hbegin hdisp
              simp only [hraise, Bool.false_eq_true, if_false, throw_apply]
          | _ => rfl
      | panic | diverge => simp only [attempt, hdisp]

theorem Steppable.not_due (h : Steppable env nested quantum s inst) {t : VmState}
    (hrun : rawStep env nested inst (s.started (quantumDue quantum s) inst) = .ok () t) :
    quantumDue quantum t.stopped = false := by
  obtain ⟨_, u, hbegin, hrun⟩ := bind_eq_ok.mp hrun
  obtain ⟨_, v, hdisp, hrun⟩ := bind_eq_ok.mp hrun
  cases hrun
  exact (h.unblocked hbegin hdisp).2

/-- The two loops take the same step, with the same outcome. -/
theorem Steppable.runIter_eq (h : Steppable env nested quantum s inst) :
    runIter env nested quantum s =
      (do debugStep env nested (quantumDue quantum s); pure (some (quantum + 1)) :
        VM (Option Nat)) s := by
  have hcode : s.moduleAt s.currentLoadedModule = some s.module := by
    rw [h.main]
    rfl
  have hstep := h.execute_settle
  have hdue := @h.not_due
  rw [bind_apply] at hstep
  simp only [runIter, debugStep, bind_apply, get_apply, h.running, Bool.false_eq_true, if_false,
    hcode, unwrap_some, h.fetch, stepThread, modify_apply, attempt, hstep]
  cases hraw : rawStep env nested inst (s.started (quantumDue quantum s) inst) with
  | ok _ t =>
      simp only [pure_apply, ofExcept_ok, bind_apply, get_apply, hdue hraw, Bool.false_eq_true,
        if_false]
  | error e t => simp only [ofExcept_error]
  | panic | diverge => rfl

/-- Where the last thread has halted the main loop only leaves its exit record. -/
theorem runIter_exit {module : Module} (hhalted : s.halted = true) (hqueue : s.threadQueue = [])
    (hcode : s.moduleAt s.currentLoadedModule = some module) :
    ∃ entry, runIter env nested quantum s = .ok none (s.exit entry) := by
  obtain ⟨entry, hexit⟩ : ∃ entry, recordThreadExit "" s = .ok () (s.exit entry) := by
    simp only [recordThreadExit, bind_apply, get_apply, hcode, unwrap_some, set_apply]
    exact ⟨_, rfl⟩
  refine ⟨entry, ?_⟩
  rw [runIter, bind_ok (get_apply s), if_pos hhalted, bind_ok hexit, hqueue]
  rfl

theorem debugSteps_halted (hhalted : s.halted = true) (n : Nat) :
    debugSteps env nested quantum n s = .ok () s := by
  cases n with
  | zero => rfl
  | succ n => simp only [debugSteps, bind_apply, get_apply, hhalted, if_true, pure_apply]

end step

/-- Every turn of the first `n` that the main loop gets to is one the debugger takes too. -/
def AllSteppable (env : Env) (nested : Nested) (quantum n : Nat) (s : VmState) : Prop :=
  ∀ m < n, ∀ t, mainTurns env nested quantum m s = .ok () t →
    ∃ inst, Steppable env nested (quantum + m) t inst

/-- In a run of instructions of the main module that raise no exception for a fault, never
wait and leave no thread due, the debugger visits the states of the main loop, and faults
where and as the main loop does. Where the run is over the main loop adds an exit record. -/
theorem debugger_steps_main_loop {env : Env} {nested : Nested} {quantum n : Nat} {s : VmState}
    (h : AllSteppable env nested quantum n s) : ∀ m ≤ n,
    mainTurns env nested quantum m s = debugSteps env nested quantum m s ∧
    ∀ t module, mainTurns env nested quantum m s = .ok () t → t.halted = true →
      t.threadQueue = [] → t.moduleAt t.currentLoadedModule = some module →
      (∃ entry, runIter env nested (quantum + m) t = .ok none (t.exit entry)) ∧
      ∀ k, debugSteps env nested (quantum + m) k t = .ok () t := by
  have hsame : ∀ m ≤ n,
      mainTurns env nested quantum m s = debugSteps env nested quantum m s := by
    intro m
    induction m generalizing n quantum s with
    | zero => exact fun _ => rfl
    | succ m ih =>
        intro hm
        obtain ⟨inst, hstep⟩ := h 0 (by omega) s rfl
        rw [Nat.add_zero] at hstep
        have hiter := hstep.runIter_eq
        rw [bind_apply] at hiter
        simp only [mainTurns, debugSteps, bind_apply, get_apply, hstep.running,
          Bool.false_eq_true, if_false, hiter]
        cases hdebug : debugStep env nested (quantumDue quantum s) s with
        | ok _ t =>
            have hrest : AllSteppable env nested (quantum + 1) (n - 1) t := by
              intro k hk u hu
              have hturn : mainTurns env nested quantum (k + 1) s = .ok () u := by
                simp only [mainTurns, bind_apply, hiter, hdebug, pure_apply]
                exact hu
              obtain ⟨inst, hinst⟩ := h (k + 1) (by omega) u hturn
              rw [Nat.add_assoc, Nat.add_comm 1 k]
              exact ⟨inst, hinst⟩
            exact ih hrest (by omega)
        | error e t => rfl
        | panic | diverge => rfl
  exact fun m hm => ⟨hsame m hm, fun t module _ hhalted hqueue hcode =>
    ⟨runIter_exit hhalted hqueue hcode, debugSteps_halted hhalted⟩⟩

/-- Whether the instruction completes, without a wait and before a switch is due. -/
def quiet (env : Env) (nested : Nested) (quantum : Nat) (inst : Instruction) (s : VmState) : Bool :=
  decide (s.halted = false ∧ s.currentLoadedModule = none ∧ s.module.code[s.pc]? = some inst) &&
    match begin inst (s.started (quantumDue quantum s) inst) with
    | .ok () u =>
        match dispatch env nested inst u with
        | .ok () t => t.blockedChannel.isNone && !quantumDue quantum t
        | _ => false
    | _ => false

theorem steppable_of_quiet {env : Env} {nested : Nested} {quantum : Nat} {inst : Instruction}
    {s : VmState} (h : quiet env nested quantum inst s = true) :
    Steppable env nested quantum s inst := by
  unfold quiet at h
  rw [Bool.and_eq_true_iff, decide_eq_true_eq] at h
  obtain ⟨⟨hrunning, hmain, hfetch⟩, h⟩ := h
  split at h
  · next u hbegin =>
      split at h
      · next t hdisp =>
          simp only [Bool.and_eq_true, Option.isNone_iff_eq_none, Bool.not_eq_true'] at h
          refine ⟨hrunning, hmain, hfetch, fun hu ht => ?_, fun hu ht => ?_⟩
          · cases hbegin.symm.trans hu
            cases hdisp.symm.trans ht
          · cases hbegin.symm.trans hu
            cases hdisp.symm.trans ht
            exact h
      · cases h
  · cases h

/-- A program that sets a word and exits. -/
def setsAndExits : Module :=
  .ofCode "m" [
    ⟨.movw, .imm 7, .unused, .mp 0⟩,
    ⟨.exit, .unused, .unused, .unused⟩] 4

/-- Both instructions complete, and the machine is at its end with the word set. -/
def setThenExited (vm : VmState) : Bool :=
  quiet .bare (nestedAt .bare 1) 0 ⟨.movw, .imm 7, .unused, .mp 0⟩ vm &&
    match mainTurns .bare (nestedAt .bare 1) 0 1 vm, mainTurns .bare (nestedAt .bare 1) 0 2 vm with
    | .ok () s, .ok () t => quiet .bare (nestedAt .bare 1) 1 ⟨.exit, .unused, .unused, .unused⟩ s &&
        decide (t.halted = true ∧ t.threadQueue.isEmpty = true ∧ t.currentLoadedModule = none ∧
          Memory.readWord t.mp 0 = 7)
    | _, _ => false

theorem sets_and_exits : (VmState.withArgs [] true setsAndExits []).any setThenExited = true := by
  decide +kernel

/-- Stepping through a program to its end. -/
theorem debugger_steps_main_loop_exit : ∃ vm t entry,
    VmState.withArgs [] true setsAndExits [] = some vm ∧ Memory.readWord t.mp 0 = 7 ∧
    mainTurns .bare (nestedAt .bare 1) 0 2 vm = .ok () t ∧
    debugSteps .bare (nestedAt .bare 1) 0 2 vm = .ok () t ∧
    runIter .bare (nestedAt .bare 1) (0 + 2) t = .ok none (t.exit entry) := by
  obtain ⟨vm, hvm, htest⟩ := Option.any_eq_true _ _ |>.mp sets_and_exits
  obtain ⟨hfirst, htest⟩ := Bool.and_eq_true_iff.mp htest
  split at htest
  · next s t hturn hrun =>
      obtain ⟨hsecond, htest⟩ := Bool.and_eq_true_iff.mp htest
      obtain ⟨hhalted, hqueue, hmain, hword⟩ := of_decide_eq_true htest
      have hall : AllSteppable .bare (nestedAt .bare 1) 0 2 vm := by
        intro m hm u hu
        obtain rfl | rfl : m = 0 ∨ m = 1 := by omega
        · cases hu
          exact ⟨_, steppable_of_quiet hfirst⟩
        · cases hturn.symm.trans hu
          exact ⟨_, steppable_of_quiet hsecond⟩
      obtain ⟨hsame, hend⟩ := debugger_steps_main_loop hall 2 (Nat.le_refl 2)
      have hmodule : t.moduleAt t.currentLoadedModule = some t.module := by
        rw [hmain]
        rfl
      obtain ⟨⟨entry, hexit⟩, -⟩ :=
        hend t t.module hrun hhalted (List.isEmpty_iff.mp hqueue) hmodule
      exact ⟨vm, t, entry, hvm, hword, hrun, hsame ▸ hrun, hexit⟩
  · cases htest

/-- Calls a function of the nil module in the range of a handler, which exits. -/
def callsNil : Module :=
  { Module.ofCode "m" [
      ⟨.mframe, .mp 0, .imm 0, .fp 40⟩,
      ⟨.movw, .imm 1, .unused, .mp 0⟩,
      ⟨.exit, .unused, .unused, .unused⟩] 4 with
    handlers := [⟨40, 0, 1, none, [⟨none, 2⟩]⟩] }

/-- A thread sends a value that the main thread waits for. -/
def awaits : Module :=
  .ofCode "m" [
    ⟨.newcw, .unused, .unused, .mp 0⟩,
    ⟨.frame, .imm 0, .unused, .fp 48⟩,
    ⟨.spawn, .fp 48, .unused, .imm 5⟩,
    ⟨.recv, .mp 0, .unused, .fp 52⟩,
    ⟨.exit, .unused, .unused, .unused⟩,
    ⟨.send, .imm 1, .unused, .mp 0⟩,
    ⟨.exit, .unused, .unused, .unused⟩] 4

/-- The machine has halted and one of its frames' words is `val`. -/
def haltedWith (val : Word) : Res VmState ExecError Unit → Bool
  | .ok _ vm => vm.halted && Memory.readWord vm.frames.data 68 = val
  | _ => false

def faulted : Res VmState ExecError Unit → Bool
  | .error (.threadFault "nil module") _ => true
  | _ => false

/-- The debugger stops on a fault that the program handles, and halts without the value the
program waits for. -/
theorem debugger_misses_handler_and_wait :
    (∃ vm, VmState.withArgs [] true callsNil [] = some vm ∧
      haltedWith 0 (mainTurns .bare (nestedAt .bare 2) 0 3 vm) = true ∧
      faulted (debugSteps .bare (nestedAt .bare 2) 0 3 vm) = true) ∧
    ∃ vm, VmState.withArgs [] true awaits [] = some vm ∧
      haltedWith 1 (mainTurns .bare (nestedAt .bare 2) 0 9 vm) = true ∧
      haltedWith 0 (debugSteps .bare (nestedAt .bare 2) 0 9 vm) = true :=
  ⟨⟨_, rfl, by decide +kernel, by decide +kernel⟩,
    ⟨_, rfl, by decide +kernel, by decide +kernel⟩⟩

end RiceVM
