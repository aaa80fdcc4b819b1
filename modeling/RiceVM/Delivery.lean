import RiceVM.CallStack
import RiceVM.Programs

/-!
Where a raised exception goes. The search of the machine reads the frame stack from its innermost
called frame outwards. `chain` is what it reads, over the frames that the stack holds; a frame that
a failed call left above the function that raised is read too.
-/
namespace RiceVM
open Exec Memory Buffer

/-- The called frames that the search goes on to, each as the frames from it down and the pc of
the call it waits for: not below the floor, nor past a thread's entry. -/
def callers (floor : Nat) : List Frame → List (Pc × List Frame)
  | [] => []
  | ⟨none, _⟩ :: below => callers floor below
  | ⟨some ret, _⟩ :: below =>
    if height below ≤ floor ∨ ret.toInt ≤ 0 then [] else (ret - 1, below) :: callers floor below

/-- The call chain from a function at `pc`, innermost first. -/
def chain (floor : Nat) (pc : Pc) (frames : List Frame) : List (Pc × List Frame) :=
  (pc, frames) :: callers floor frames

namespace VmState

/-- The handler that takes an exception in a link of the chain, with the frames of the link. -/
def takerAt (vm : VmState) (msg : String) (link : Pc × List Frame) :
    Option (Nat × Nat × List Frame) :=
  (vm.findHandler link.1 msg).map fun (handlerPc, exceptionOffset) =>
    (handlerPc, exceptionOffset, link.2)

/-- The innermost handler of a chain. -/
def taker (vm : VmState) (msg : String) (links : List (Pc × List Frame)) :
    Option (Nat × Nat × List Frame) :=
  links.findSome? (vm.takerAt msg)

/-- Some handler of the executing module covers a pc and has a case that takes the exception and
lands somewhere. -/
def TakesAt (vm : VmState) (msg : String) (pc : Pc) (handlerPc exceptionOffset : Nat) : Prop :=
  ∃ h ∈ vm.handlers, h.beginPc.toInt ≤ pc.toInt ∧ pc.toInt < h.endPc.toInt ∧
    exceptionOffset = h.exceptionOffset.clampUsize ∧
    ∃ c ∈ h.cases, c.takes msg = true ∧ 0 ≤ c.pc.toInt ∧ handlerPc = c.pc.asUsize

theorem msb_eq_false_iff (w : Word) : w.msb = false ↔ 0 ≤ w.toInt := by
  rw [BitVec.msb_eq_toInt, decide_eq_false_iff_not, Int.not_lt]

theorem takesAt_of_findHandler {vm : VmState} {msg : String} {pc : Pc}
    {handlerPc exceptionOffset : Nat}
    (h : vm.findHandler pc msg = some (handlerPc, exceptionOffset)) :
    vm.TakesAt msg pc handlerPc exceptionOffset := by
  obtain ⟨handler, hmem, hsome⟩ := List.exists_of_findSome?_eq_some h
  rw [Option.ite_none_right_eq_some, Option.map_eq_some_iff] at hsome
  obtain ⟨hcovers, landing, hlanding, heq⟩ := hsome
  cases heq
  obtain ⟨c, hc, hlands⟩ := List.exists_of_findSome?_eq_some hlanding
  rw [Option.ite_none_right_eq_some, Option.some.injEq, Bool.and_eq_true,
    Bool.not_eq_true'] at hlands
  obtain ⟨⟨htakes, hmsb⟩, rfl⟩ := hlands
  rw [Handler.covers, Bool.and_eq_true, decide_eq_true_eq, decide_eq_true_eq] at hcovers
  exact ⟨handler, hmem, hcovers.1, hcovers.2, rfl, c, hc, htakes, (msb_eq_false_iff _).mp hmsb, rfl⟩

theorem findHandler_eq_none_iff {vm : VmState} {msg : String} {pc : Pc} :
    vm.findHandler pc msg = none ↔
      ∀ handlerPc exceptionOffset, ¬ vm.TakesAt msg pc handlerPc exceptionOffset := by
  constructor
  · rintro h handlerPc exceptionOffset ⟨handler, hmem, hbegin, hend, -, c, hc, htakes, hpos, -⟩
    have hcovers : handler.covers pc = true := by
      rw [Handler.covers, Bool.and_eq_true, decide_eq_true_eq, decide_eq_true_eq]
      exact ⟨hbegin, hend⟩
    have hnone := List.findSome?_eq_none_iff.mp h handler hmem
    rw [if_pos hcovers, Option.map_eq_none_iff] at hnone
    have hcase := List.findSome?_eq_none_iff.mp hnone c hc
    rw [htakes, (msb_eq_false_iff _).mpr hpos] at hcase
    cases hcase
  · intro h
    cases hfound : vm.findHandler pc msg with
    | none => rfl
    | some found => exact absurd (takesAt_of_findHandler hfound) (h found.1 found.2)

/-- Nothing on a chain takes the exception. -/
theorem taker_eq_none_iff {vm : VmState} {msg : String} {links : List (Pc × List Frame)} :
    vm.taker msg links = none ↔ ∀ link ∈ links, ∀ handlerPc exceptionOffset,
      ¬ vm.TakesAt msg link.1 handlerPc exceptionOffset := by
  rw [taker, List.findSome?_eq_none_iff]
  refine forall₂_congr fun link _ => ?_
  rw [takerAt, Option.map_eq_none_iff, findHandler_eq_none_iff]

end VmState

/-- The header of a called frame, in the buffer. -/
theorem Laid.header {above below : List Frame} {buf locals : List Byte} {ret : Pc}
    (h : Laid (above ++ ⟨some ret, locals⟩ :: below) buf) :
    height below + frameHeaderSize ≤ buf.length ∧ readWord buf (height below) = ret ∧
      (readWord buf (height below + 4)).asUsize = calledBase below := by
  obtain ⟨low, high, rfl, hlow, -⟩ := h.split
  cases hlow with
  | @called _ low header _ _ hlaid hh hret hcaller =>
      have hlen := hlaid.length
      have hread : ∀ off, off + 4 ≤ frameHeaderSize →
          readWord (low ++ (header ++ locals) ++ high) (height below + off) =
            readWord header off := by
        intro off hoff
        rw [← hlen, List.append_assoc, readWord_append_right, List.append_assoc,
          readWord_append (by rw [hh]; exact hoff)]
      refine ⟨?_, ?_, ?_⟩
      · simp only [List.length_append, hh]
        omega
      · rw [← hret]
        exact hread 0 (by decide)
      · rw [hread 4 (by decide), hcaller]

namespace VmState
variable {vm : VmState} {msg : String}

/-- One step of the search outwards. -/
theorem callerFrame_of_laid {above below : List Frame} {locals : List Byte} {ret : Pc}
    (h : Laid (above ++ ⟨some ret, locals⟩ :: below) vm.frames.data) :
    vm.callerFrame (height below) =
      if height below ≤ vm.unwindFloor ∨ ret.toInt ≤ 0 then none
      else some (ret - 1, calledBase below) := by
  obtain ⟨hlen, hret, hcaller⟩ := h.header
  unfold callerFrame
  dsimp only
  rw [hret, hcaller]
  by_cases hfloor : height below ≤ vm.unwindFloor
  · rw [if_pos (.inl hfloor), if_pos (.inl hfloor)]
  · have hne : below ≠ [] := by
      rintro rfl
      exact hfloor (Nat.zero_le _)
    have hlt := calledBase_lt hne
    rw [if_neg (by omega)]
    by_cases hpos : ret.toInt ≤ 0
    · rw [if_pos hpos, if_pos (.inr hpos)]
    · rw [if_neg hpos, if_neg (by omega), if_neg (by omega)]

/-- The search of the machine goes along the chain. -/
theorem searchHandler_eq {above frames : List Frame} (h : Laid (above ++ frames) vm.frames.data)
    (pc : Pc) {fuel : Nat} (hfuel : calledBase frames < fuel) :
    vm.searchHandler msg fuel pc (calledBase frames) =
      (vm.taker msg (chain vm.unwindFloor pc frames)).map fun (handlerPc, exceptionOffset, rest) =>
        (handlerPc, exceptionOffset, calledBase rest) := by
  induction frames generalizing above pc fuel with
  | nil =>
      obtain ⟨fuel, rfl⟩ : ∃ k, fuel = k + 1 := ⟨fuel - 1, by omega⟩
      have hcaller : vm.callerFrame 0 = none := if_pos (.inl (Nat.zero_le _))
      simp only [searchHandler, calledBase, chain, callers, taker, List.findSome?_cons,
        List.findSome?_nil, takerAt, hcaller]
      cases vm.findHandler pc msg <;> rfl
  | cons f below ih =>
      obtain ⟨ret?, locals⟩ := f
      rw [List.append_cons] at h
      cases ret? with
      | none =>
          have hpc := ih h pc hfuel
          simp only [chain, callers, taker, List.findSome?_cons, takerAt, calledBase,
            Option.isSome_none, Bool.false_eq_true, if_false] at hpc ⊢
          rw [hpc]
          cases vm.findHandler pc msg <;> rfl
      | some ret =>
          obtain ⟨fuel, rfl⟩ : ∃ k, fuel = k + 1 := ⟨fuel - 1, by omega⟩
          have hcaller := callerFrame_of_laid (by rwa [← List.append_cons] at h)
          simp only [calledBase, Option.isSome_some, if_true] at hfuel ⊢
          rw [searchHandler, chain, taker, List.findSome?_cons, takerAt]
          cases hfound : vm.findHandler pc msg with
          | some found =>
              simp only [Option.map_some, calledBase, Option.isSome_some, if_true]
          | none =>
              dsimp only [Option.map_none]
              rw [hcaller, callers]
              by_cases hstop : height below ≤ vm.unwindFloor ∨ ret.toInt ≤ 0
              · rw [if_pos hstop, if_pos hstop]
                rfl
              · have hle := calledBase_le below
                have hne : below ≠ [] := by
                  rintro rfl
                  exact hstop (.inl (Nat.zero_le _))
                have hlt := calledBase_lt hne
                rw [if_neg hstop, if_neg hstop]
                exact ih h (ret - 1) (by omega)

end VmState

/-- The innermost called frame of a stack whose last frame is a called one. -/
theorem exists_innermost {above : List Frame} {f : Frame} (hf : f.ret.isSome) :
    ∃ pending ret locals rest, above ++ [f] = pending ++ ⟨some ret, locals⟩ :: rest ∧
      (∀ g ∈ pending, g.ret = none) ∧ (rest = [] ∨ ∃ rest', rest = rest' ++ [f]) := by
  induction above with
  | nil =>
      obtain ⟨ret, locals⟩ := f
      obtain ⟨ret, rfl⟩ := Option.isSome_iff_exists.mp hf
      exact ⟨[], ret, locals, [], rfl, nofun, .inl rfl⟩
  | cons g above ih =>
      obtain ⟨ret?, locals⟩ := g
      cases ret? with
      | some ret => exact ⟨[], ret, locals, above ++ [f], rfl, nofun, .inr ⟨above, rfl⟩⟩
      | none =>
          obtain ⟨pending, ret, locals', rest, hsplit, hpending, hrest⟩ := ih
          refine ⟨⟨none, locals⟩ :: pending, ret, locals', rest, ?_, ?_, hrest⟩
          · rw [List.cons_append, List.cons_append, hsplit]
          · intro g hg
            rcases List.mem_cons.mp hg with rfl | hg
            · rfl
            · exact hpending g hg

/-- Popping to a frame that was called leaves what lay below the call, and nothing else. -/
theorem popTo_eq {above frames : List Frame} (hne : frames ≠ [])
    (habove : above = [] ∨ ∃ above' f, above = above' ++ [f] ∧ f.ret.isSome)
    {fuel : Nat} {u : VmState} (h : Holds (above ++ frames) u.frames)
    (hfuel : u.frames.currentBase < fuel) :
    ∃ fs, popTo (calledBase frames) fuel u = .ok () { u with frames := fs } ∧ Holds frames fs ∧
      fs.data = u.frames.data.take (height frames) := by
  induction hlen : above.length using Nat.strongRecOn generalizing above fuel u with
  | ind n ih =>
      obtain ⟨fuel, rfl⟩ : ∃ k, fuel = k + 1 := ⟨fuel - 1, by omega⟩
      rcases habove with rfl | ⟨above', f, rfl, hf⟩
      · rw [List.nil_append] at h
        refine ⟨u.frames, ?_, h, ?_⟩
        · rw [popTo, bind_ok (get_apply u), if_neg (by rw [h.base]; exact Nat.lt_irrefl _)]
          rfl
        · rw [← h.laid.length, List.take_length]
      · obtain ⟨pending, ret, locals, rest, hsplit, hpending, hrest⟩ := exists_innermost hf
        rw [hsplit, List.append_assoc, List.cons_append] at h
        obtain ⟨fs, hpop, hholds, hdata⟩ := h.pop hpending
        have hbase : u.frames.currentBase = height (rest ++ frames) := by
          rw [h.base, calledBase_append hpending]
          rfl
        have hlt := calledBase_lt hne
        have hgt : u.frames.currentBase > calledBase frames := by
          rw [hbase, height_append]
          omega
        have hlower : fs.currentBase < fuel := by
          have hbelow : fs.currentBase < height (rest ++ frames) := by
            rw [hholds.base]
            exact calledBase_lt (List.append_ne_nil_of_right_ne_nil rest hne)
          omega
        have hshort : rest.length < n := by
          have hlength := congrArg List.length hsplit
          simp only [List.length_append, List.length_cons, List.length_nil] at hlength hlen
          omega
        have hrest' : rest = [] ∨ ∃ above' g, rest = above' ++ [g] ∧ g.ret.isSome :=
          hrest.imp_right fun ⟨rest', he⟩ => ⟨rest', f, he, hf⟩
        obtain ⟨fs', hrun, hholds', hdata'⟩ := ih rest.length hshort hrest'
          (u := { u with frames := fs }) hholds hlower rfl
        refine ⟨fs', ?_, hholds', ?_⟩
        · rw [popTo, bind_ok (get_apply u), if_pos hgt, hpop, bind_ok (ofExcept_ok _ _)]
          exact hrun
        · rw [hdata', hdata, List.take_take, height_append]
          congr 1
          omega

/-- A link of a chain: the whole stack, or what lies below a called frame. -/
theorem mem_chain {floor : Nat} {pc pc' : Pc} {frames rest : List Frame}
    (h : (pc', rest) ∈ chain floor pc frames) :
    ∃ above, frames = above ++ rest ∧ (above = [] ∨
      ∃ above' f, above = above' ++ [f] ∧ f.ret.isSome ∧ rest ≠ []) := by
  have hcallers : ∀ frames : List Frame, (pc', rest) ∈ callers floor frames →
      ∃ above' f, frames = above' ++ [f] ++ rest ∧ f.ret.isSome ∧ rest ≠ [] := by
    intro frames
    induction frames with
    | nil => exact nofun
    | cons g below ih =>
        obtain ⟨ret?, locals⟩ := g
        cases ret? with
        | none =>
            intro hmem
            obtain ⟨above', f, rfl, hf⟩ := ih hmem
            exact ⟨⟨none, locals⟩ :: above', f, rfl, hf⟩
        | some ret =>
            intro hmem
            rw [callers] at hmem
            split at hmem
            · cases hmem
            · next hgo =>
                rcases List.mem_cons.mp hmem with heq | hmem
                · cases heq
                  refine ⟨[], ⟨some ret, locals⟩, rfl, rfl, ?_⟩
                  rintro rfl
                  exact hgo (.inl (Nat.zero_le _))
                · obtain ⟨above', f, rfl, hf⟩ := ih hmem
                  exact ⟨⟨some ret, locals⟩ :: above', f, rfl, hf⟩
  rcases List.mem_cons.mp h with heq | hmem
  · cases heq
    exact ⟨[], rfl, .inl rfl⟩
  · obtain ⟨above', f, hsplit, hf, hne⟩ := hcallers frames hmem
    exact ⟨above' ++ [f], hsplit, .inr ⟨above', f, rfl, hf, hne⟩⟩

/-- How a raise ends once the search has a handler or has none. -/
def RaiseEnds (vm : VmState) (msg : String) (strId : HeapId) :
    Option (Nat × Nat × List Frame) → Prop
  | some (handlerPc, exceptionOffset, rest) =>
    ∃ fs, Holds rest fs ∧ fs.data = vm.frames.data.take (height rest) ∧
      raiseExceptionWithValue msg strId vm = .ok () { vm with
        nextPc := handlerPc
        frames := { fs with
          data := writeWord fs.data (fs.currentDataOffset + exceptionOffset) strId } }
  | none =>
    raiseExceptionWithValue msg strId vm = .error (.threadFault s!"unhandled exception: {msg}") vm

/-- A raise goes along the chain from the innermost frame that the stack holds. -/
theorem raiseEnds_of_holds {vm : VmState} {frames : List Frame} (h : Holds frames vm.frames)
    (hne : frames ≠ []) (msg : String) (strId : HeapId) :
    RaiseEnds vm msg strId (vm.taker msg (chain vm.unwindFloor (Word.ofUsize vm.pc) frames)) := by
  have hsearch := @VmState.searchHandler_eq vm msg [] frames h.laid (Word.ofUsize vm.pc) _
    (Nat.lt_succ_self (calledBase frames))
  cases htaker : vm.taker msg (chain vm.unwindFloor (Word.ofUsize vm.pc) frames) with
  | none =>
      rw [htaker, Option.map_none] at hsearch
      rw [RaiseEnds, raiseExceptionWithValue, bind_ok (get_apply vm), h.base, hsearch]
      rfl
  | some found =>
      obtain ⟨handlerPc, exceptionOffset, rest⟩ := found
      rw [htaker, Option.map_some] at hsearch
      obtain ⟨⟨pc, frames'⟩, hmem, hat⟩ := List.exists_of_findSome?_eq_some htaker
      obtain ⟨_, -, heq⟩ := Option.map_eq_some_iff.mp hat
      cases heq
      obtain ⟨above, rfl, habove⟩ := mem_chain hmem
      have hrest : frames' ≠ [] := by
        rcases habove with rfl | ⟨-, -, -, -, hrest⟩
        · exact hne
        · exact hrest
      have habove' : above = [] ∨ ∃ above' f, above = above' ++ [f] ∧ f.ret.isSome := by
        rcases habove with hnil | ⟨above', f, he, hf, -⟩
        · exact .inl hnil
        · exact .inr ⟨above', f, he, hf⟩
      obtain ⟨fs, hpop, hholds, hdata⟩ := popTo_eq hrest habove' h (Nat.lt_succ_self _)
      refine ⟨fs, hholds, hdata, ?_⟩
      rw [h.base] at hpop
      rw [raiseExceptionWithValue, bind_ok (get_apply vm), h.base, hsearch]
      dsimp only
      rw [bind_ok hpop]
      rfl

/-- The exception is taken by the innermost link of the chain from a stack of frames that has a
handler for it: the machine goes on there with the frame of the link's function, the frames above it
gone and the exception's value, which `heap` holds, stored in it. Where no link has one the frames are
as they were and the run `r` of the instruction ends in an error. -/
inductive Delivered (vm : VmState) (msg : String) (strId : HeapId) (heap : Heap)
    (frames : List Frame) (r : Res VmState ExecError Unit) : Prop
  | taken {before after : List (Pc × List Frame)} {pc : Pc} {rest : List Frame}
      {handlerPc exceptionOffset : Nat} {fs : FrameStack}
      (inner : chain vm.unwindFloor (Word.ofUsize vm.pc) frames = before ++ (pc, rest) :: after)
      (passed : ∀ link ∈ before, ∀ handlerPc exceptionOffset,
        ¬ vm.TakesAt msg link.1 handlerPc exceptionOffset)
      (takes : vm.TakesAt msg pc handlerPc exceptionOffset)
      (holds : Holds rest fs) (kept : fs.data = vm.frames.data.take (height rest))
      (ends : r = .ok () { vm with
        heap := heap
        nextPc := handlerPc
        frames := { fs with
          data := writeWord fs.data (fs.currentDataOffset + exceptionOffset) strId } })
  | fatal {e : ExecError} {w : VmState}
      (passed : ∀ link ∈ chain vm.unwindFloor (Word.ofUsize vm.pc) frames,
        ∀ handlerPc exceptionOffset, ¬ vm.TakesAt msg link.1 handlerPc exceptionOffset)
      (ends : r = .error e w) (untouched : w.frames = vm.frames)

theorem delivered_of_raiseEnds {vm : VmState} {msg : String} {strId : HeapId} {frames : List Frame}
    (h : RaiseEnds vm msg strId
      (vm.taker msg (chain vm.unwindFloor (Word.ofUsize vm.pc) frames))) :
    Delivered vm msg strId vm.heap frames (raiseExceptionWithValue msg strId vm) := by
  cases htaker : vm.taker msg (chain vm.unwindFloor (Word.ofUsize vm.pc) frames) with
  | none =>
      rw [htaker] at h
      exact .fatal (VmState.taker_eq_none_iff.mp htaker) h rfl
  | some found =>
      rw [htaker] at h
      obtain ⟨fs, hholds, hkept, hrun⟩ := h
      obtain ⟨before, ⟨pc, rest⟩, after, hchain, hat, hbefore⟩ :=
        List.findSome?_eq_some_iff.mp htaker
      obtain ⟨⟨handlerPc, exceptionOffset⟩, hfound, heq⟩ := Option.map_eq_some_iff.mp hat
      cases heq
      refine .taken hchain ?_ (VmState.takesAt_of_findHandler hfound) hholds hkept hrun
      exact VmState.taker_eq_none_iff.mp (List.findSome?_eq_none_iff.mpr hbefore)

/-- An instruction of a function raises or faults: `stack` is the frames from the function's own
on, and `left` is what a call that failed has left above them. The call was made at the pc of the
instruction, and every call has a pc to return to. -/
structure Raised (vm : VmState) (left stack : List Frame) : Prop where
  holds : Holds (left ++ stack) vm.frames
  own : stack ≠ []
  floor : vm.unwindFloor ≤ calledBase stack
  called : left = [] ∨ ∃ left' locals, left = left' ++ [⟨some (Word.ofUsize vm.pc + 1), locals⟩]
  returns : ∀ f ∈ left, ∀ ret, f.ret = some ret → 0 < ret.toInt

/-- What the search reads for the frames that were left. -/
def leftLinks (vm : VmState) (left stack : List Frame) : List (Pc × List Frame) :=
  (chain vm.unwindFloor (Word.ofUsize vm.pc) (left ++ stack)).take (left.countP (·.ret.isSome))

/-- Past the frames above a stack the search goes on with the stack. -/
theorem callers_append {floor : Nat} {stack : List Frame} (hfloor : floor < height stack)
    {ret : Pc} {locals : List Byte} (hret : 0 < ret.toInt) (left : List Frame)
    (hleft : ∀ f ∈ left, ∀ r, f.ret = some r → 0 < r.toInt) :
    ∃ links, callers floor (left ++ ⟨some ret, locals⟩ :: stack) =
        links ++ chain floor (ret - 1) stack ∧
      links.length = left.countP (·.ret.isSome) ∧
      ∀ link ∈ links, ∃ above, above ≠ [] ∧ link.2 = above ++ stack := by
  induction left with
  | nil =>
      refine ⟨[], ?_, rfl, nofun⟩
      rw [List.nil_append, callers, if_neg (by omega)]
      rfl
  | cons f left ih =>
      obtain ⟨links, hcallers, hlength, hlinks⟩ :=
        ih fun g hg => hleft g (List.mem_cons_of_mem f hg)
      obtain ⟨ret?, locals'⟩ := f
      cases ret? with
      | none => exact ⟨links, hcallers, hlength, hlinks⟩
      | some r =>
          have hr := hleft _ (List.mem_cons_self ..) r rfl
          have habove : floor < height (left ++ ⟨some ret, locals⟩ :: stack) := by
            rw [height_append, height]
            omega
          refine ⟨(r - 1, left ++ ⟨some ret, locals⟩ :: stack) :: links, ?_, ?_, ?_⟩
          · rw [List.cons_append, callers, if_neg (by omega), hcallers, List.cons_append]
          · rw [List.length_cons, hlength, List.countP_cons]
            rfl
          · intro link hlink
            rcases List.mem_cons.mp hlink with rfl | hlink
            · refine ⟨left ++ [⟨some ret, locals⟩], by simp, ?_⟩
              rw [List.append_assoc]
              rfl
            · exact hlinks link hlink

/-- The machine reads the frames that were left, and then the chain it should read. -/
theorem Raised.chain_eq {vm : VmState} {left stack : List Frame} (h : Raised vm left stack) :
    chain vm.unwindFloor (Word.ofUsize vm.pc) (left ++ stack) =
        leftLinks vm left stack ++ chain vm.unwindFloor (Word.ofUsize vm.pc) stack ∧
      ∀ link ∈ leftLinks vm left stack, ∃ above, above ≠ [] ∧ link.2 = above ++ stack := by
  unfold leftLinks
  rcases h.called with rfl | ⟨left', locals, rfl⟩
  · exact ⟨rfl, nofun⟩
  · have hfloor : vm.unwindFloor < height stack :=
      Nat.lt_of_le_of_lt h.floor (calledBase_lt h.own)
    obtain ⟨links, hcallers, hlength, hlinks⟩ :=
      @callers_append vm.unwindFloor stack hfloor _ locals
        (h.returns _ (List.mem_append_right _ (List.mem_singleton_self _)) _ rfl)
        left' fun f hf => h.returns f (List.mem_append_left _ hf)
    have hpc : Word.ofUsize vm.pc + 1 - 1 = Word.ofUsize vm.pc := BitVec.add_sub_cancel _ _
    have hcount : (left' ++ [(⟨some (Word.ofUsize vm.pc + 1), locals⟩ : Frame)]).countP
        (·.ret.isSome) = links.length + 1 := by
      rw [List.countP_append, hlength]
      rfl
    have hwhole : chain vm.unwindFloor (Word.ofUsize vm.pc)
        (left' ++ [⟨some (Word.ofUsize vm.pc + 1), locals⟩] ++ stack) =
        ((Word.ofUsize vm.pc,
          left' ++ [⟨some (Word.ofUsize vm.pc + 1), locals⟩] ++ stack) :: links) ++
          chain vm.unwindFloor (Word.ofUsize vm.pc) stack := by
      rw [chain, List.append_assoc, List.singleton_append, hcallers, hpc]
      rfl
    have htake : (chain vm.unwindFloor (Word.ofUsize vm.pc)
        (left' ++ [⟨some (Word.ofUsize vm.pc + 1), locals⟩] ++ stack)).take (links.length + 1) =
        (Word.ofUsize vm.pc,
          left' ++ [⟨some (Word.ofUsize vm.pc + 1), locals⟩] ++ stack) :: links := by
      rw [hwhole]
      exact List.take_left' List.length_cons
    rw [hcount, htake]
    refine ⟨hwhole, fun link hlink => ?_⟩
    rcases List.mem_cons.mp hlink with rfl | hlink
    · exact ⟨_, by simp, rfl⟩
    · exact hlinks link hlink

section
variable {vm : VmState} {left stack : List Frame} {msg : String}

/-- No link takes the exception. -/
def NoneTakes (vm : VmState) (msg : String) (links : List (Pc × List Frame)) : Prop :=
  ∀ link ∈ links, ∀ handlerPc exceptionOffset, ¬ vm.TakesAt msg link.1 handlerPc exceptionOffset

/-- An exception goes to the innermost handler of the chain exactly when no handler of the
executing module takes it at what the search reads for the frames a failed call left. -/
theorem raise_delivered_iff (h : Raised vm left stack) (msg : String) (strId : HeapId) :
    Delivered vm msg strId vm.heap stack (raiseExceptionWithValue msg strId vm) ↔
      NoneTakes vm msg (leftLinks vm left stack) := by
  unfold NoneTakes
  rw [← VmState.taker_eq_none_iff]
  obtain ⟨hchain, hlinks⟩ := h.chain_eq
  have hwhole :=
    raiseEnds_of_holds h.holds (List.append_ne_nil_of_right_ne_nil left h.own) msg strId
  rw [hchain, VmState.taker, List.findSome?_append, ← VmState.taker, ← VmState.taker] at hwhole
  cases hleft : vm.taker msg (leftLinks vm left stack) with
  | none =>
      rw [hleft, Option.none_or] at hwhole
      exact ⟨fun _ => rfl, fun _ => delivered_of_raiseEnds hwhole⟩
  | some found =>
      obtain ⟨handlerPc, exceptionOffset, rest⟩ := found
      rw [hleft, Option.some_or] at hwhole
      obtain ⟨fs, hholds, -, hrun⟩ := hwhole
      refine iff_of_false (fun hstack => ?_) (Option.some_ne_none _)
      obtain ⟨link, hlink, hat⟩ := List.exists_of_findSome?_eq_some hleft
      obtain ⟨above, habove, hrest⟩ := hlinks link hlink
      have hhigh : height stack < height rest := by
        obtain ⟨_, -, heq⟩ := Option.map_eq_some_iff.mp hat
        cases heq
        rw [hrest, height_append]
        have := calledBase_lt habove
        omega
      cases hstack with
      | fatal _ hends =>
          rw [hrun] at hends
          cases hends
      | @taken before after pc rest' handlerPc' exceptionOffset' fs' hinner _ _ hholds' _ hrun' =>
          -- The two stacks differ in height, and so in the length of their buffers.
          obtain ⟨above', hsplit, -⟩ := mem_chain
            (hinner ▸ List.mem_append_right before (List.mem_cons_self ..))
          have hlow : height rest' ≤ height stack := by
            rw [hsplit, height_append]
            omega
          rw [hrun] at hrun'
          have hdata := congrArg (·.frames.data.length) (Res.ok.inj hrun').2
          simp only [length_writeWord] at hdata
          rw [hholds.laid.length, hholds'.laid.length] at hdata
          omega

variable {env : Env} {nested : Nested} {inst : Instruction} {s u : VmState} {id : HeapId} {heap : Heap}

/-- A fault of an instruction, in the main loop: the machine raises some of them. -/
theorem execute_fault (hbegin : begin inst s = .ok () u)
    (hdisp : dispatch env nested inst u = .error (.threadFault msg) vm)
    (halloc : vm.heap.alloc 0 (.str msg) none = some (id, heap)) :
    execute env nested inst s =
      if raisable msg then raiseExceptionWithValue msg id { vm with heap := heap }
      else .error (.threadFault msg) vm := by
  rw [execute, bind_ok hbegin, bind_ok (show attempt (dispatch env nested inst) u =
    .ok (.error (.threadFault msg)) vm by rw [attempt, hdisp])]
  dsimp only
  split
  · rw [raiseException, bind_ok (show alloc 0 (.str msg) vm = .ok id { vm with heap := heap } by
      simp only [alloc, allocTyped, bind_apply, get_apply, halloc, unwrap_some, set_apply, pure_apply])]
  · rfl

/-- The exception's value has no part in where it goes. -/
theorem Delivered.with_heap {frames : List Frame} {r : Res VmState ExecError Unit}
    {vm₁ : VmState} (hvm : vm₁ = { vm with heap := heap }) :
    Delivered vm₁ msg id heap frames r ↔ Delivered vm msg id heap frames r := by
  subst hvm
  constructor
  · intro h
    cases h with
    | taken inner passed takes holds kept ends => exact .taken inner passed takes holds kept ends
    | fatal passed ends untouched => exact .fatal passed ends untouched
  · intro h
    cases h with
    | taken inner passed takes holds kept ends => exact .taken inner passed takes holds kept ends
    | fatal passed ends untouched => exact .fatal passed ends untouched

/-- A fault that the main loop raises is raised like any exception; another one stops the run. -/
theorem fault_delivered_iff (h : Raised vm left stack) (hbegin : begin inst s = .ok () u)
    (hdisp : dispatch env nested inst u = .error (.threadFault msg) vm)
    (halloc : vm.heap.alloc 0 (.str msg) none = some (id, heap)) :
    Delivered vm msg id heap stack (execute env nested inst s) ↔
      if raisable msg then NoneTakes vm msg (leftLinks vm left stack)
      else NoneTakes vm msg (chain vm.unwindFloor (Word.ofUsize vm.pc) stack) := by
  rw [execute_fault hbegin hdisp halloc]
  split
  · have hraised : Raised { vm with heap := heap } left stack :=
      ⟨h.holds, h.own, h.floor, h.called, h.returns⟩
    exact (Delivered.with_heap rfl).symm.trans (raise_delivered_iff hraised msg id)
  · refine ⟨fun hdelivered => ?_, fun hnone => .fatal hnone rfl rfl⟩
    cases hdelivered with
    | taken _ _ _ _ _ ends => cases ends
    | fatal passed _ _ => exact passed

/-- An exception that leaves a call is raised again, if at all, under another name. So it goes on as
it should exactly when nothing takes it there, nor takes that name. -/
theorem crossing_delivered_iff (h : Raised vm left stack) {strId : HeapId}
    (hbegin : begin inst s = .ok () u)
    (hdisp : dispatch env nested inst u = .error (.threadFault s!"unhandled exception: {msg}") vm)
    (halloc : vm.heap.alloc 0 (.str s!"unhandled exception: {msg}") none = some (id, heap)) :
    Delivered vm msg strId vm.heap stack (execute env nested inst s) ↔
      NoneTakes vm msg (chain vm.unwindFloor (Word.ofUsize vm.pc) stack) ∧
      (raisable s!"unhandled exception: {msg}" = true → NoneTakes vm s!"unhandled exception: {msg}"
        (chain vm.unwindFloor (Word.ofUsize vm.pc) (left ++ stack))) := by
  rw [execute_fault hbegin hdisp halloc]
  have hgrown : heap ≠ vm.heap := by
    rintro rfl
    exact absurd (Heap.alloc_cases halloc).2.1 (Nat.lt_irrefl _)
  generalize s!"unhandled exception: {msg}" = text at *
  have hends := @raiseEnds_of_holds { vm with heap := heap } _ h.holds
    (List.append_ne_nil_of_right_ne_nil left h.own) text id
  by_cases hraisable : raisable text = true
  · rw [if_pos hraisable]
    cases htaker : VmState.taker { vm with heap := heap } text
        (chain vm.unwindFloor (Word.ofUsize vm.pc) (left ++ stack)) with
    | none =>
        rw [htaker] at hends
        have hnone := VmState.taker_eq_none_iff.mp htaker
        refine ⟨fun hdelivered => ⟨?_, fun _ => hnone⟩, fun hnone => .fatal hnone.1 hends rfl⟩
        cases hdelivered with
        | taken _ _ _ _ _ ends => cases hends.symm.trans ends
        | fatal passed _ _ => exact passed
    | some found =>
        obtain ⟨handlerPc, exceptionOffset, rest⟩ := found
        rw [htaker] at hends
        obtain ⟨fs, -, -, hrun⟩ := hends
        refine iff_of_false (fun hdelivered => ?_) fun hnone => ?_
        · cases hdelivered with
          | taken _ _ _ _ _ ends =>
              exact hgrown (congrArg VmState.heap (Res.ok.inj (hrun.symm.trans ends)).2)
          | fatal _ ends _ => cases hrun.symm.trans ends
        · have hnothing := (@VmState.taker_eq_none_iff { vm with heap := heap } _ _).mpr
            (hnone.2 hraisable)
          rw [hnothing] at htaker
          cases htaker
  · rw [if_neg hraisable]
    refine ⟨fun hdelivered => ⟨?_, fun h => absurd h hraisable⟩, fun hnone => .fatal hnone.1 rfl rfl⟩
    cases hdelivered with
    | taken _ _ _ _ _ ends => cases ends
    | fatal passed _ _ => exact passed

/-- A nested loop has no handler for what an instruction ends with. -/
theorem nested_delivered_iff {e : ExecError} {strId : HeapId}
    (hbegin : begin inst (s.record (.nested s.thread (s.halting inst))) = .ok () u)
    (hdisp : dispatch env nested inst u = .error e vm) :
    Delivered vm msg strId heap stack (stepNested env nested inst s) ↔
      NoneTakes vm msg (chain vm.unwindFloor (Word.ofUsize vm.pc) stack) := by
  have hstep : stepNested env nested inst s = .error e vm := by
    rw [stepNested, bind_ok (modify_apply _ s), bind_ok hbegin, bind_apply, hdisp]
  rw [hstep]
  refine ⟨fun hdelivered => ?_, fun hnone => .fatal hnone rfl rfl⟩
  cases hdelivered with
  | taken _ _ _ _ _ ends => cases ends
  | fatal passed _ _ => exact passed

end

/-- Calls a function of its own through a reference to itself; the function calls into no module.
The handler of the entry function covers the call and takes every exception. -/
def faultsInCall : Module :=
  { Module.ofCode "main" [
      ⟨.self, .unused, .unused, .mp 0⟩,
      ⟨.mframe, .mp 0, .imm 0, .fp 48⟩,
      ⟨.mcall, .fp 48, .imm 0, .mp 0⟩,
      ⟨.exit, .unused, .unused, .unused⟩,
      ⟨.exit, .unused, .unused, .unused⟩,
      ⟨.mcall, .fp 48, .imm 0, .mp 4⟩] 8 with
    exports := [⟨5, 0, 0, "work"⟩]
    handlers := [⟨40, 2, 3, none, [⟨none, 4⟩]⟩] }

/-- The call of the entry function, and the turn after it at the handler's pc. -/
def landsAstray (s : VmState × Nat) : Bool :=
  match runIter .bare (nestedAt .bare 6) s.2 s.1 with
  | .ok (some _) t => decide (s.1.pc = 2 ∧ s.1.frames.currentBase = 0 ∧
      s.1.findHandler 2 "nil module" = some (4, 40) ∧ t.pc = 4 ∧ t.frames.currentBase = 80)
  | _ => false

end RiceVM
