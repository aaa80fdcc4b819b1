import RiceVM.State

/-!
Raising an exception: the handler search along the frame chain, and the unwinding
to the frame of the function that has the handler.
-/
namespace RiceVM
open Memory Exec

/-- `str::starts_with`. -/
def startsWith (msg pre : String) : Bool := pre.toList.isPrefixOf msg.toList

def ExceptionCase.takes (c : ExceptionCase) (msg : String) : Bool :=
  match c.name with
  | some name => startsWith msg name
  | none => true

def Handler.covers (h : Handler) (pc : Pc) : Bool :=
  h.beginPc.toInt ≤ pc.toInt && pc.toInt < h.endPc.toInt

/-- The landing pc of the first case that takes the exception and has one. -/
def Handler.landing (h : Handler) (msg : String) : Option Nat :=
  h.cases.findSome? fun c => if c.takes msg && !c.pc.msb then some c.pc.asUsize else none

namespace VmState

def handlers (vm : VmState) : List Handler :=
  ((vm.moduleAt vm.currentLoadedModule).map (·.handlers)).getD []

/-- The case's target and the exception offset of the first handler that applies. -/
def findHandler (vm : VmState) (pc : Pc) (msg : String) : Option (Nat × Nat) :=
  vm.handlers.findSome? fun h =>
    if h.covers pc then (h.landing msg).map (·, h.exceptionOffset.clampUsize) else none

/-- Pc of the call that created a frame, and the base of the calling frame. -/
def callerFrame (vm : VmState) (frameBase : Nat) : Option (Pc × Nat) :=
  if frameBase ≤ vm.unwindFloor ∨ frameBase + frameHeaderSize > vm.frames.data.length then none
  else
    let savedPc := readWord vm.frames.data frameBase
    if savedPc.toInt ≤ 0 then none
    else
      let callerBase := (readWord vm.frames.data (frameBase + 4)).asUsize
      if callerBase ≥ frameBase then none else some (savedPc - 1, callerBase)

/-- Search outwards from a frame; the bases fall, so `frameBase + 1` turns suffice. -/
def searchHandler (vm : VmState) (msg : String) : Nat → Pc → Nat → Option (Nat × Nat × Nat)
  | 0, _, _ => none
  | fuel + 1, pc, frameBase =>
    match vm.findHandler pc msg with
    | some (handlerPc, exceptionOffset) => some (handlerPc, exceptionOffset, frameBase)
    | none =>
      match vm.callerFrame frameBase with
      | some (callerPc, callerBase) => vm.searchHandler msg fuel callerPc callerBase
      | none => none

end VmState

/-- Pop the frames above the one at `frameBase`. -/
def popTo (frameBase : Nat) : Nat → VM Unit
  | 0 => diverge
  | fuel + 1 => do
    let vm ← get
    if vm.frames.currentBase > frameBase then
      let (_, frames) ← ofExcept vm.frames.pop
      set { vm with frames := frames }
      popTo frameBase fuel
    else pure ()

/-- Store the exception value in the current frame and continue at the handler. -/
def land (handlerPc exceptionOffset : Nat) (strId : HeapId) : VM Unit := modify fun vm =>
  { vm with
    nextPc := handlerPc
    frames := { vm.frames with
      data := writeWord vm.frames.data (vm.frames.currentDataOffset + exceptionOffset) strId } }

def raiseExceptionWithValue (msg : String) (strId : HeapId) : VM Unit := do
  let vm ← get
  let base := vm.frames.currentBase
  match vm.searchHandler msg (base + 1) (Word.ofUsize vm.pc) base with
  | some (handlerPc, exceptionOffset, frameBase) =>
    popTo frameBase (base + 1)
    land handlerPc exceptionOffset strId
  | none => throw (.threadFault s!"unhandled exception: {msg}")

def raiseException (msg : String) : VM Unit := do
  let strId ← alloc 0 (.str msg)
  raiseExceptionWithValue msg strId

/-- A module without handlers takes no exception. -/
theorem searchHandler_none {vm : VmState} (h : vm.handlers = []) (msg : String) (fuel : Nat)
    (pc : Pc) (frameBase : Nat) : vm.searchHandler msg fuel pc frameBase = none := by
  induction fuel generalizing pc frameBase with
  | zero => rfl
  | succ fuel ih =>
      have hfind : vm.findHandler pc msg = none := by
        rw [VmState.findHandler, h]
        rfl
      rw [VmState.searchHandler, hfind]
      cases hcaller : vm.callerFrame frameBase with
      | none => simp only [hcaller]
      | some caller => simp only [hcaller, ih]

theorem raiseException_unhandled {vm : VmState} (h : vm.handlers = []) (msg : String)
    (vm' : VmState) : raiseException msg vm ≠ .ok () vm' := by
  intro hrun
  obtain ⟨strId, vm₁, halloc, hraise⟩ := bind_eq_ok.mp hrun
  obtain ⟨heap, -, rfl⟩ := alloc_eq_ok halloc
  have hnone : ({ vm with heap } : VmState).handlers = [] := h
  rw [raiseExceptionWithValue, bind_ok (get_apply _)] at hraise
  simp only [searchHandler_none hnone] at hraise
  cases hraise

/-- A popped frame leaves what was below it, and its caller or the bottom of the stack. -/
theorem FrameStack.pop_eq_ok {fs fs' : FrameStack} {pc : Pc} (h : fs.pop = .ok (pc, fs')) :
    fs'.data = fs.data.take fs.currentBase ∧
      (fs'.currentBase = (readWord fs.data (fs.currentBase + 4)).asUsize ∨ fs'.currentBase = 0) := by
  unfold FrameStack.pop at h
  split at h
  · cases h
  · cases h
    split
    · exact ⟨rfl, .inr rfl⟩
    · split
      · exact ⟨rfl, .inl rfl⟩
      · exact ⟨rfl, .inr rfl⟩

/-- Cutting a buffer changes a word only to zero. -/
theorem readWord_take_or (data : List Byte) (n off : Nat) :
    readWord (data.take n) off = readWord data off ∨ readWord (data.take n) off = 0 := by
  by_cases h : off + 4 ≤ n
  · exact .inl (readWord_take h)
  · right
    rw [readWord, if_neg (by rw [List.length_take]; omega)]

theorem VmState.callerFrame_eq_some {vm : VmState} {base callerBase : Nat} {callerPc : Pc}
    (h : vm.callerFrame base = some (callerPc, callerBase)) :
    callerBase = (readWord vm.frames.data (base + 4)).asUsize ∧ callerBase < base := by
  unfold VmState.callerFrame at h
  split at h
  · cases h
  · dsimp only at h
    split at h
    · cases h
    · split at h
      · cases h
      · cases h
        exact ⟨rfl, by omega⟩

theorem ends_popTo_stop {frameBase fuel : Nat} {u : VmState}
    (hbase : u.frames.currentBase ≤ frameBase) (hfuel : 0 < fuel) :
    Ends (popTo frameBase fuel) (fun _ _ => True) u := by
  obtain ⟨fuel, rfl⟩ : ∃ k, fuel = k + 1 := ⟨fuel - 1, by omega⟩
  refine Ends.get_bind ?_
  rw [if_neg (by omega)]
  exact Ends.pure trivial

/-- Unwinding follows the frame chain the search went along, whose bases fall. -/
theorem ends_popTo {vm : VmState} {msg : String} {frameBase handlerPc exceptionOffset : Nat}
    (searchFuel : Nat) {pc : Pc} {base fuel : Nat} {u : VmState}
    (hsearch : vm.searchHandler msg searchFuel pc base = some (handlerPc, exceptionOffset, frameBase))
    (hread : ∀ off, readWord u.frames.data off = readWord vm.frames.data off ∨
      readWord u.frames.data off = 0)
    (hbase : u.frames.currentBase = base) (hfuel : base < fuel) :
    Ends (popTo frameBase fuel) (fun _ _ => True) u := by
  induction searchFuel generalizing pc base fuel u with
  | zero => cases hsearch
  | succ searchFuel ih =>
      by_cases hstop : u.frames.currentBase ≤ frameBase
      · exact ends_popTo_stop hstop (by omega)
      unfold VmState.searchHandler at hsearch
      split at hsearch
      · cases hsearch
        omega
      cases hcaller : vm.callerFrame base with
      | none => rw [hcaller] at hsearch; cases hsearch
      | some caller =>
          obtain ⟨callerPc, callerBase⟩ := caller
          rw [hcaller] at hsearch
          obtain ⟨hcallerBase, hlt⟩ := VmState.callerFrame_eq_some hcaller
          obtain ⟨fuel, rfl⟩ : ∃ k, fuel = k + 1 := ⟨fuel - 1, by omega⟩
          refine Ends.get_bind ?_
          rw [if_pos (by omega)]
          refine Ends.bind (Ends.ofExcept (Q := fun p v => v = u ∧ u.frames.pop = .ok p)
            fun p hp => ⟨rfl, hp⟩) fun ⟨_, frames⟩ v h => ?_
          obtain ⟨rfl, hp⟩ := h
          obtain ⟨hdata, hpopped⟩ := FrameStack.pop_eq_ok hp
          have hread' : ∀ off, readWord frames.data off = readWord vm.frames.data off ∨
              readWord frames.data off = 0 := by
            intro off
            rw [hdata]
            rcases readWord_take_or v.frames.data v.frames.currentBase off with h | h
            · exact (hread off).imp h.trans h.trans
            · exact .inr h
          -- the popped frame's caller is the next of the chain, or the bottom of the stack
          have hnext : frames.currentBase = callerBase ∨ frames.currentBase = 0 := by
            rw [hbase] at hpopped
            rcases hpopped with h | h
            · rcases hread (base + 4) with hword | hword
              · exact .inl (by rw [h, hword, hcallerBase])
              · exact .inr (by rw [h, hword]; rfl)
            · exact .inr h
          refine Ends.bind (Ends.set (Q := fun _ w => w.frames = frames) rfl) fun _ w hw => ?_
          subst hw
          rcases hnext with hnext | hnext
          · exact ih hsearch hread' hnext (by omega)
          · exact ends_popTo_stop (by omega) (by omega)

/-- Raising an exception ends: it lands in a handler or faults the thread. -/
theorem ends_raiseExceptionWithValue (msg : String) (strId : HeapId) (vm : VmState) :
    Ends (raiseExceptionWithValue msg strId) (fun _ _ => True) vm := by
  refine Ends.get_bind ?_
  dsimp only
  split
  · next hsearch =>
      refine (ends_popTo _ hsearch (fun _ => .inl rfl) rfl (Nat.lt_succ_self _)).bind fun _ _ _ => ?_
      exact Ends.modify trivial
  · exact Ends.throw _

end RiceVM
