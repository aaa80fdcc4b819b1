import RiceVM.Delivery
import RiceVM.Debugger
import Mathlib.Data.Finset.Basic

/-!
The debugger's view of a run. A backtrace follows the bases saved in the frame headers, and a
run to a breakpoint is a run of single steps that stops where one is set.
-/
namespace RiceVM
open Exec Memory Buffer

/-! ### Backtraces -/

/-- One line of a backtrace. -/
inductive BacktraceEntry where
  | caller (pc : Pc)
  | entry
  | truncated
  deriving DecidableEq, Repr

def maxBacktraceDepth : Nat := 100

/-- The walk from a frame base, with room for so many lines. -/
def walkFrom (data : List Byte) : Nat → Nat → List BacktraceEntry
  | 0, _ => [.truncated]
  | room + 1, base =>
    if data.length < base + 8 then []
    else
      let prevPc := readWord data base
      let prevBase := (readWord data (base + 4)).asUsize
      if prevPc.msb then [.entry]
      else .caller prevPc ::
        if prevBase = 0 ∨ base ≤ prevBase then [] else walkFrom data room prevBase

def walkBacktrace (data : List Byte) (currentBase : Nat) : List BacktraceEntry :=
  walkFrom data maxBacktraceDepth currentBase

/-- Where the calls that are open return to, the innermost first. -/
def returnPcs (frames : List Frame) : List Pc := frames.filterMap (·.ret)

/-- What a backtrace shows of some callers. -/
def shown (room : Nat) (pcs : List Pc) : List BacktraceEntry :=
  (pcs.take room).map .caller ++ if room < pcs.length then [.truncated] else []

theorem calledBase_pending {inner : List Frame} {entry : Frame} (h : returnPcs inner = []) :
    calledBase (inner ++ [entry]) = 0 := by
  have hnone : ∀ f ∈ inner, f.ret = none := by
    simpa [returnPcs, List.filterMap_eq_nil_iff] using h
  rw [calledBase_append hnone, calledBase]
  split <;> rfl

theorem calledBase_pos {inner : List Frame} {entry : Frame} (h : returnPcs inner ≠ []) :
    0 < calledBase (inner ++ [entry]) := by
  induction inner with
  | nil => exact absurd rfl h
  | cons f inner ih =>
      obtain ⟨ret, locals⟩ := f
      cases ret with
      | none => exact ih h
      | some pc =>
          change 0 < height (inner ++ [entry])
          rw [height_append, height, frameHeaderSize]
          omega

theorem walkFrom_callers {data : List Byte} {inner : List Frame} {entry : Frame} {room : Nat}
    (above : List Frame) (h : Laid (above ++ (inner ++ [entry])) data)
    (hpcs : ∀ pc ∈ returnPcs inner, pc.msb = false) (hne : returnPcs inner ≠ []) :
    walkFrom data (room + 1) (calledBase (inner ++ [entry])) = shown (room + 1) (returnPcs inner) := by
  induction inner generalizing room above with
  | nil => exact absurd rfl hne
  | cons f inner ih =>
      obtain ⟨ret, locals⟩ := f
      rw [← List.singleton_append, List.append_assoc, ← List.append_assoc above] at h
      cases ret with
      | none => exact ih _ h hpcs hne
      | some pc =>
          have hcalls : returnPcs (⟨some pc, locals⟩ :: inner) = pc :: returnPcs inner := rfl
          rw [hcalls] at hpcs ⊢
          have hheader := h
          rw [List.append_assoc, List.singleton_append] at hheader
          obtain ⟨hfits, hpc, hcaller⟩ := hheader.header
          rw [frameHeaderSize] at hfits
          have hbase : calledBase (⟨some pc, locals⟩ :: inner ++ [entry]) = height (inner ++ [entry]) := rfl
          have hlt := calledBase_lt (List.append_ne_nil_of_right_ne_nil inner (List.cons_ne_nil entry []))
          rw [hbase, walkFrom, if_neg (by omega), hpc, hcaller, if_neg (by simp [hpcs])]
          by_cases hrest : returnPcs inner = []
          · rw [calledBase_pending hrest, if_pos (.inl rfl), hrest]
            simp [shown]
          · have hpos : 0 < calledBase (inner ++ [entry]) := calledBase_pos hrest
            rw [if_neg (by omega)]
            cases room with
            | zero =>
                obtain ⟨next, rest, hcons⟩ := List.exists_cons_of_ne_nil hrest
                rw [hcons, walkFrom, shown, if_pos (by simp)]
                rfl
            | succ room =>
                have hrec : walkFrom data (room + 1) (calledBase (inner ++ [entry])) = _ :=
                  ih _ h (fun pc hpc => hpcs pc (List.mem_cons_of_mem _ hpc)) hrest
                rw [hrec, shown, shown, List.take_succ_cons, List.map_cons, List.cons_append,
                  List.length_cons]
                simp only [Nat.add_lt_add_iff_right]

/-- In a run of nested calls the backtrace shows where each open call returns to, the innermost
first, and of more than a hundred that there are more. The entry frame shows where no call is
open. -/
theorem backtrace_lists_calls {inner : List Frame} {entry : Frame} {fs : FrameStack} {sentinel : Pc}
    (h : Nesting (inner ++ [entry]) fs) (hentry : entry.ret = some sentinel)
    (hsentinel : sentinel.msb = true) (hpcs : ∀ pc ∈ returnPcs inner, pc.msb = false) :
    walkBacktrace fs.data fs.currentBase =
      if returnPcs inner = [] then [.entry] else shown maxBacktraceDepth (returnPcs inner) := by
  have hold := h.holds
  rw [walkBacktrace, hold.base]
  split
  · next hnone =>
      obtain ⟨ret, locals⟩ := entry
      cases hentry
      have hheader := hold.laid.header
      rw [frameHeaderSize] at hheader
      rw [calledBase_pending hnone, maxBacktraceDepth, walkFrom, if_neg (by have := hheader.1; omega)]
      rw [height] at hheader
      rw [hheader.2.1, if_pos hsentinel]
  · next hsome =>
      exact walkFrom_callers [] hold.laid hpcs hsome

/-- A call from the entry frame. -/
theorem backtrace_lists_calls_once :
    ∃ fs : FrameStack, walkBacktrace fs.data fs.currentBase = [.caller 5] := by
  have hentry : Nesting [⟨some (-1), List.replicate 8 0⟩] _ := .entry 8 (-1)
  have hcall : Nesting ([⟨some 5, List.replicate 4 0⟩] ++ [⟨some (-1), List.replicate 8 0⟩]) _ :=
    .activate (@Nesting.alloc _ _ _ _ 40 hentry rfl) rfl
  have hpcs : ∀ pc ∈ returnPcs [⟨some 5, List.replicate 4 0⟩], pc.msb = false := by
    intro pc hpc
    cases List.mem_singleton.mp hpc
    rfl
  exact ⟨_, (backtrace_lists_calls hcall rfl rfl hpcs).trans rfl⟩

/-! ### Breakpoints -/

/-- Why a run gave the machine back. -/
inductive StopReason where
  | breakpoint (pc : Nat)
  | halted
  deriving DecidableEq, Repr

def shouldStop (breakpoints : Finset Nat) (pc : Nat) : Bool := decide (pc ∈ breakpoints)

/-- `Debugger::run_to_breakpoint`; `quantum` is the mark that single steps carry too. -/
def runToBreakpoint (env : Env) (nested : Nested) (breakpoints : Finset Nat) :
    Nat → Nat → VM StopReason
  | _, 0 => diverge
  | quantum, fuel + 1 => do
    let vm ← get
    if vm.halted then return .halted
    else
      debugStep env nested (quantumDue quantum vm)
      let vm ← get
      if shouldStop breakpoints vm.pc then return .breakpoint vm.pc
      else runToBreakpoint env nested breakpoints (quantum + 1) fuel

variable {env : Env} {nested : Nested} {breakpoints : Finset Nat} {quantum n : Nat}
  {s t u : VmState} {reason : StopReason}

/-- Single steps lead to a state, and none of the states before it is one to stop in. -/
structure Passes (env : Env) (nested : Nested) (breakpoints : Finset Nat) (quantum n : Nat)
    (s t : VmState) : Prop where
  steps : debugSteps env nested quantum n s = .ok () t
  before : ∀ m < n, ∃ u, debugSteps env nested quantum m s = .ok () u ∧ u.halted = false ∧
    (0 < m → u.pc ∉ breakpoints)

theorem debugSteps_succ (hhalted : s.halted = false)
    (hstep : debugStep env nested (quantumDue quantum s) s = .ok () u) (n : Nat) :
    debugSteps env nested quantum (n + 1) s = debugSteps env nested (quantum + 1) n u := by
  rw [debugSteps, bind_ok (get_apply s), if_neg (by rw [hhalted]; exact Bool.false_ne_true),
    bind_ok hstep]

theorem runToBreakpoint_succ (hhalted : s.halted = false)
    (hstep : debugStep env nested (quantumDue quantum s) s = .ok () u) (fuel : Nat) :
    runToBreakpoint env nested breakpoints quantum (fuel + 1) s =
      if u.pc ∈ breakpoints then .ok (.breakpoint u.pc) u
      else runToBreakpoint env nested breakpoints (quantum + 1) fuel u := by
  rw [runToBreakpoint, bind_ok (get_apply s), if_neg (by rw [hhalted]; exact Bool.false_ne_true),
    bind_ok hstep, bind_ok (get_apply u)]
  by_cases hpc : u.pc ∈ breakpoints
  · have hstop : shouldStop breakpoints u.pc = true := decide_eq_true hpc
    rw [if_pos hpc, if_pos hstop]
    rfl
  · have hstop : shouldStop breakpoints u.pc = false := decide_eq_false hpc
    rw [if_neg hpc, if_neg (by rw [hstop]; exact Bool.false_ne_true)]

/-- A step in front of steps that pass. -/
theorem Passes.step (hhalted : s.halted = false)
    (hstep : debugStep env nested (quantumDue quantum s) s = .ok () u)
    (hpc : u.pc ∉ breakpoints) (h : Passes env nested breakpoints (quantum + 1) n u t) :
    Passes env nested breakpoints quantum (n + 1) s t := by
  refine ⟨(debugSteps_succ hhalted hstep n).trans h.steps, fun m hm => ?_⟩
  cases m with
  | zero => exact ⟨s, rfl, hhalted, fun hpos => absurd hpos (Nat.lt_irrefl 0)⟩
  | succ m =>
      obtain ⟨v, hv, hrunning, hpass⟩ := h.before m (Nat.lt_of_succ_lt_succ hm)
      refine ⟨v, (debugSteps_succ hhalted hstep m).trans hv, hrunning, fun _ => ?_⟩
      cases m with
      | zero => cases hv; exact hpc
      | succ m => exact hpass (Nat.succ_pos m)

/-- Where a run stops, and why. -/
def StopsIn (breakpoints : Finset Nat) (n : Nat) (t : VmState) : StopReason → Prop
  | .breakpoint pc => pc = t.pc ∧ 0 < n ∧ t.pc ∈ breakpoints
  | .halted => t.halted = true ∧ (0 < n → t.pc ∉ breakpoints)

/-- A run to a breakpoint is a run of single steps to the first state after one step or more
whose pc has a breakpoint, or to a halt. -/
theorem continue_is_stepping :
    (∃ fuel, runToBreakpoint env nested breakpoints quantum fuel s = .ok reason t) ↔
      ∃ n, Passes env nested breakpoints quantum n s t ∧ StopsIn breakpoints n t reason := by
  constructor
  · rintro ⟨fuel, hrun⟩
    induction fuel generalizing quantum s with
    | zero => cases hrun
    | succ fuel ih =>
        cases hhalted : s.halted with
        | true =>
            rw [runToBreakpoint, bind_ok (get_apply s), if_pos hhalted] at hrun
            cases hrun
            exact ⟨0, ⟨rfl, fun m hm => absurd hm (Nat.not_lt_zero m)⟩, hhalted,
              fun hpos => absurd hpos (Nat.lt_irrefl 0)⟩
        | false =>
            obtain ⟨u, hstep⟩ : ∃ u, debugStep env nested (quantumDue quantum s) s = .ok () u := by
              rw [runToBreakpoint, bind_ok (get_apply s),
                if_neg (by rw [hhalted]; exact Bool.false_ne_true)] at hrun
              obtain ⟨_, u, hstep, -⟩ := bind_eq_ok.mp hrun
              exact ⟨u, hstep⟩
            have hpasses : Passes env nested breakpoints quantum 1 s u := by
              refine ⟨debugSteps_succ hhalted hstep 0, fun m hm => ?_⟩
              cases Nat.lt_one_iff.mp hm
              exact ⟨s, rfl, hhalted, fun hpos => absurd hpos (Nat.lt_irrefl 0)⟩
            rw [runToBreakpoint_succ hhalted hstep] at hrun
            split at hrun
            · next hpc =>
                cases hrun
                exact ⟨1, hpasses, rfl, Nat.one_pos, hpc⟩
            · next hpc =>
                obtain ⟨n, hpass, hstop⟩ := ih hrun
                refine ⟨n + 1, hpass.step hhalted hstep hpc, ?_⟩
                cases reason with
                | breakpoint pc => exact ⟨hstop.1, Nat.succ_pos n, hstop.2.2⟩
                | halted =>
                    refine ⟨hstop.1, fun _ => ?_⟩
                    cases n with
                    | zero => cases hpass.steps; exact hpc
                    | succ n => exact hstop.2 (Nat.succ_pos n)
  · rintro ⟨n, hpass, hstop⟩
    induction n generalizing quantum s with
    | zero =>
        cases hpass.steps
        cases reason with
        | breakpoint pc => exact absurd hstop.2.1 (Nat.lt_irrefl 0)
        | halted =>
            refine ⟨1, ?_⟩
            rw [runToBreakpoint, bind_ok (get_apply _), if_pos hstop.1]
            rfl
    | succ n ih =>
        have hhalted : s.halted = false := by
          obtain ⟨v, hv, hhalted, -⟩ := hpass.before 0 (Nat.succ_pos n)
          cases hv
          exact hhalted
        obtain ⟨u, hstep⟩ : ∃ u, debugStep env nested (quantumDue quantum s) s = .ok () u := by
          have hsteps := hpass.steps
          rw [debugSteps, bind_ok (get_apply s),
            if_neg (by rw [hhalted]; exact Bool.false_ne_true)] at hsteps
          obtain ⟨_, u, hstep, -⟩ := bind_eq_ok.mp hsteps
          exact ⟨u, hstep⟩
        have hrest : Passes env nested breakpoints (quantum + 1) n u t := by
          refine ⟨(debugSteps_succ hhalted hstep n).symm.trans hpass.steps, fun m hm => ?_⟩
          obtain ⟨w, hw, hrunning, hpc⟩ := hpass.before (m + 1) (Nat.succ_lt_succ hm)
          exact ⟨w, (debugSteps_succ hhalted hstep m).symm.trans hw, hrunning,
            fun _ => hpc (Nat.succ_pos m)⟩
        by_cases hpc : u.pc ∈ breakpoints
        · -- the first step reaches a breakpoint, so there is no second one
          cases n with
          | succ n =>
              obtain ⟨w, hw, -, hclear⟩ := hpass.before 1 (by omega)
              rw [debugSteps_succ hhalted hstep 0] at hw
              cases hw
              exact absurd hpc (hclear Nat.one_pos)
          | zero =>
              cases hrest.steps
              refine ⟨1, ?_⟩
              rw [runToBreakpoint_succ hhalted hstep, if_pos hpc]
              cases reason with
              | breakpoint pc => cases hstop.1; rfl
              | halted => exact absurd hpc (hstop.2 Nat.one_pos)
        · obtain ⟨fuel, hrun⟩ := ih hrest (by
            cases reason with
            | breakpoint pc =>
                refine ⟨hstop.1, Nat.pos_of_ne_zero fun hzero => ?_, hstop.2.2⟩
                subst hzero
                cases hrest.steps
                exact hpc hstop.2.2
            | halted => exact ⟨hstop.1, fun _ => hstop.2 (Nat.succ_pos n)⟩)
          refine ⟨fuel + 1, ?_⟩
          rw [runToBreakpoint_succ hhalted hstep, if_neg hpc]
          exact hrun

end RiceVM
