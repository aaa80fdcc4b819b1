import RiceVM.Run

/-!
Running the machine on a given program, in an environment without built-ins and
files, and the shorthands such programs are written in.
-/
namespace RiceVM

def Operand.fp (offset : Word) : Operand := ⟨.offsetIndirectFp, offset, 0⟩
def Operand.mp (offset : Word) : Operand := ⟨.offsetIndirectMp, offset, 0⟩
def Operand.imm (value : Word) : Operand := ⟨.immediate, value, 0⟩
/-- The word `inner` bytes into what a frame slot points to. -/
def Operand.deref (offset inner : Word) : Operand := ⟨.offsetDoubleIndirectFp, offset, inner⟩
def MiddleOperand.imm (value : Word) : MiddleOperand := ⟨.smallImmediate, value⟩

def Env.bare : Env where
  compute _ _ := ([], .done)
  native _ _ _ := .finish [] .done
  loadFile _ := none

/-- A module that starts at its first instruction, with one frame type of 64 bytes. -/
def Module.ofCode (name : String) (code : List Instruction) (dataSize : Word) : Module where
  header :=
    { magic := 0, signature := [], runtimeFlags := 0, stackExtent := 0
      codeSize := Word.ofUsize code.length, dataSize := dataSize, typeSize := 1, exportSize := 0
      entryPc := 0, entryType := 0 }
  code := code
  types := [⟨0, 64, [], 0⟩]
  data := []
  name := name
  exports := []
  imports := []
  handlers := []

/-- `n` turns of the main loop; none when the run ends before. -/
def runTurns (env : Env) (fuel : Nat) : Nat → VmState × Nat → Option (VmState × Nat)
  | 0, s => some s
  | n + 1, s =>
    match runIter env (nestedAt env fuel) s.2 s.1 with
    | .ok (some quantum) vm => runTurns env fuel n (vm, quantum)
    | _ => none

theorem runTurns_add (env : Env) (fuel m n : Nat) (s : VmState × Nat) :
    runTurns env fuel (m + n) s = (runTurns env fuel m s).bind (runTurns env fuel n) := by
  induction m generalizing s with
  | zero => rw [Nat.zero_add]; rfl
  | succ m ih =>
      rw [Nat.succ_add, runTurns, runTurns]
      split
      · exact ih _
      · rfl

/-- The state of a program after `n` turns. -/
def Module.after (module : Module) (env : Env) (fuel n : Nat) : Option (VmState × Nat) := do
  let vm ← VmState.withArgs [] true module []
  runTurns env fuel n (vm, 0)

theorem reachable_runTurns {env : Env} {fuel n : Nat} {s t : VmState × Nat} (hs : Reachable s)
    (h : runTurns env fuel n s = some t) : Reachable t := by
  induction n generalizing s with
  | zero => cases h; exact hs
  | succ n ih =>
      unfold runTurns at h
      split at h
      · next quantum vm hrun => exact ih (.turn hs ⟨env, fuel, hrun⟩) h
      · cases h

/-- The states of a program are reachable. -/
theorem Module.run_after {module : Module} {env : Env} {fuel n : Nat}
    {p : VmState × Nat → Bool} (hentry : module.header.entryPc.msb = false)
    (h : (module.after env fuel n).any p = true) :
    ∃ s, module.after env fuel n = some s ∧ Reachable s ∧ p s = true := by
  obtain ⟨s, hs, hp⟩ : ∃ s, module.after env fuel n = some s ∧ p s = true := by
    cases hs : module.after env fuel n with
    | none => rw [hs] at h; cases h
    | some s => rw [hs] at h; exact ⟨s, rfl, h⟩
  have hafter := hs
  simp only [after, Option.bind_eq_bind, Option.bind_eq_some_iff] at hs
  obtain ⟨vm, hvm, hs⟩ := hs
  have hinit : Initial vm := ⟨[], true, module, [], by rw [hentry]; exact nofun, hvm⟩
  exact ⟨s, hafter, reachable_runTurns (.initial hinit) hs, hp⟩

/-- A test that the state of a program passes holds of a reachable state. -/
theorem Module.reachable_after {module : Module} {env : Env} {fuel n : Nat}
    {p : VmState × Nat → Bool} (hentry : module.header.entryPc.msb = false)
    (h : (module.after env fuel n).any p = true) : ∃ s, Reachable s ∧ p s = true := by
  obtain ⟨s, _, hreach, hp⟩ := run_after hentry h
  exact ⟨s, hreach, hp⟩

/-- Whether the next turn ends the run with a fault that passes a test. -/
def faults (env : Env) (fuel : Nat) (p : ExecError → VmState → Bool) (s : VmState × Nat) : Bool :=
  match runIter env (nestedAt env fuel) s.2 s.1 with
  | .error e vm => p e vm
  | _ => false

theorem of_faults {env : Env} {fuel : Nat} {p : ExecError → VmState → Bool} {s : VmState × Nat}
    (h : faults env fuel p s = true) :
    ∃ e vm, runIter env (nestedAt env fuel) s.2 s.1 = .error e vm ∧ p e vm = true := by
  unfold faults at h
  split at h
  · next e vm hrun => exact ⟨e, vm, hrun, h⟩
  · cases h

end RiceVM
