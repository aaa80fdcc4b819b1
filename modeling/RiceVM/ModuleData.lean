import RiceVM.CallStack
import RiceVM.Programs
import RiceVM.Results
import RiceVM.Turns

/-!
Module data across calls. A call moves the data of two modules: the callee's out of its place, the
caller's onto the stack of parked data. Where a module's data is found is decided by the module
that executes and the modules that are parked, which a nested run gives back as it found them.
-/
namespace RiceVM
open Exec Ops

theorem rposition_lt {α : Type} {p : α → Bool} {xs : List α} {i : Nat}
    (h : rposition p xs = some i) : i < xs.length := by
  induction xs generalizing i with
  | nil => cases h
  | cons x xs ih =>
      simp only [rposition] at h
      split at h
      · next j hj =>
          cases h
          exact Nat.succ_lt_succ (ih hj)
      · split at h
        · cases h
          exact Nat.zero_lt_succ _
        · cases h

/-- A module that exists can be entered. Entering the module that executes moves no data. -/
theorem enterModule_ok {moduleIdx : Option Nat} {s : VmState}
    (h : ∀ i, moduleIdx = some i → i < s.loadedModules.length) (pc : Nat) :
    ∃ c, enterModule moduleIdx pc s = .ok () c ∧ c.currentLoadedModule = moduleIdx ∧
      c.pc = pc ∧ (moduleIdx = s.currentLoadedModule → c.mp = s.mp ∧
        ∀ i, c.moduleAt i = s.moduleAt i) := by
  by_cases heq : moduleIdx = s.currentLoadedModule
  · simp only [enterModule, swapIn, bind_apply, get_apply, if_pos heq]
    exact ⟨_, rfl, heq.symm, rfl, fun _ => ⟨rfl, fun _ => rfl⟩⟩
  · have htake : ∃ mp u, takeCalleeMp moduleIdx s = .ok mp u := by
      cases moduleIdx with
      | some i =>
          have hlm := List.getElem?_eq_getElem (h i rfl)
          simp only [takeCalleeMp, bind_apply, get_apply, hlm, unwrap_some]
          exact ⟨_, _, rfl⟩
      | none =>
          cases hslot : s.parkedSlot 0 with
          | none =>
              simp only [takeCalleeMp, bind_apply, get_apply, hslot]
              exact ⟨_, _, rfl⟩
          | some slot =>
              have hentry := List.getElem?_eq_getElem (rposition_lt hslot)
              simp only [takeCalleeMp, bind_apply, get_apply, hslot, hentry, unwrap_some]
              exact ⟨_, _, rfl⟩
    obtain ⟨mp, u, htake⟩ := htake
    simp only [enterModule, swapIn, bind_apply, get_apply, if_neg heq, htake]
    exact ⟨_, rfl, rfl, rfl, fun h => absurd h heq⟩

/-- A nested call runs the callee from the state entering its module leads to. -/
theorem runNestedModuleCall_eq {moduleIdx : Option Nat} {pc base : Nat} {s c : VmState}
    (henter : enterModule moduleIdx pc s = .ok () c) (nested : Nested) :
    runNestedModuleCall nested moduleIdx pc base s =
      restoring (nested.loop moduleIdx base)
        (leaveModule (VmState.saveCaller s moduleIdx) moduleIdx) c := by
  simp only [runNestedModuleCall, bind_apply, get_apply, henter]

section
variable {α : Type} {p : α → Bool}

theorem rposition_append_singleton (xs : List α) (x : α) :
    rposition p (xs ++ [x]) = if p x then some xs.length else rposition p xs := by
  induction xs with
  | nil => simp [rposition]
  | cons y xs ih =>
      rw [List.cons_append, rposition, ih]
      by_cases hx : p x = true
      · rw [if_pos hx, if_pos hx]
        rfl
      · rw [if_neg hx, if_neg hx, rposition]

theorem rposition_spec {xs : List α} {i : Nat}
    (h : rposition p xs = some i) : ∃ x, xs[i]? = some x ∧ p x = true := by
  induction xs generalizing i with
  | nil => cases h
  | cons x xs ih =>
      rw [rposition] at h
      split at h
      · next j hj =>
          cases h
          exact ih hj
      · split at h
        · next hx =>
            cases h
            exact ⟨x, rfl, hx⟩
        · cases h

/-- The last of the parked modules decides. -/
theorem rposition_fst {xs ys : List (Nat × α)} (h : xs.map (·.1) = ys.map (·.1))
    (i : Nat) : rposition (·.1 = i) xs = rposition (·.1 = i) ys := by
  induction xs generalizing ys with
  | nil =>
      cases ys with
      | nil => rfl
      | cons y ys => cases h
  | cons x xs ih =>
      cases ys with
      | nil => cases h
      | cons y ys =>
          obtain ⟨hx, hxs⟩ := List.cons_eq_cons.mp h
          dsimp only at hx
          rw [rposition, rposition, ih hxs, hx]

end

/-- The index under which a module's data is found. -/
def virtIdx : Option Nat → Nat
  | none => 0
  | some idx => idx + 1

theorem virtIdx_inj {a b : Option Nat} : virtIdx a = virtIdx b ↔ a = b := by
  cases a <;> cases b <;> simp [virtIdx]

theorem currentModuleVirtIdx_eq (vm : VmState) :
    vm.currentModuleVirtIdx = virtIdx vm.currentLoadedModule := by
  unfold VmState.currentModuleVirtIdx virtIdx
  cases vm.currentLoadedModule <;> rfl

/-- What a nested run leaves as it is: the call context, and the code of the modules that are
there. -/
structure RanIn (u w : VmState) : Prop where
  ctx : w.callCtx = u.callCtx
  code : ∀ idx m, u.moduleAt idx = some m → w.moduleAt idx = some m

theorem RanIn.refl (s : VmState) : RanIn s s := ⟨rfl, fun _ _ h => h⟩

theorem RanIn.trans {s t u : VmState} (a : RanIn s t) (b : RanIn t u) : RanIn s u :=
  ⟨b.ctx.trans a.ctx, fun idx m h => b.code idx m (a.code idx m h)⟩

/-- The data that the last of the parked entries of a module holds. -/
def parkedData (stack : List (Nat × List Byte)) (i : Nat) : Option (List Byte) :=
  (rposition (·.1 = i) stack).bind fun slot => (stack[slot]?).map (·.2)

theorem parkedData_eq_none {stack : List (Nat × List Byte)} {i : Nat} :
    parkedData stack i = none ↔ rposition (·.1 = i) stack = none := by
  unfold parkedData
  cases h : rposition (·.1 = i) stack with
  | none => exact ⟨fun _ => rfl, fun _ => rfl⟩
  | some slot =>
      obtain ⟨e, he, -⟩ := rposition_spec h
      rw [Option.bind_some, he]
      exact ⟨nofun, nofun⟩

theorem parkedData_append (stack : List (Nat × List Byte)) (e : Nat × List Byte) (i : Nat) :
    parkedData (stack ++ [e]) i = if e.1 = i then some e.2 else parkedData stack i := by
  unfold parkedData
  rw [rposition_append_singleton]
  by_cases he : e.1 = i
  · rw [if_pos (decide_eq_true he), if_pos he, Option.bind_some, List.getElem?_concat_length]
    rfl
  · rw [if_neg (by simpa using he), if_neg he]
    cases h : rposition (·.1 = i) stack with
    | none => rfl
    | some slot =>
        rw [Option.bind_some, Option.bind_some, List.getElem?_append_left (rposition_lt h)]

theorem parkedData_modify {stack : List (Nat × List Byte)} {slot j : Nat}
    (h : rposition (·.1 = j) stack = some slot) (data : List Byte) (i : Nat) :
    parkedData (stack.modify slot fun e => (e.1, data)) i =
      if i = j then some data else parkedData stack i := by
  obtain ⟨e, he, hej⟩ := rposition_spec h
  have hej := of_decide_eq_true hej
  unfold parkedData
  rw [rposition_fst (map_fst_modify stack slot fun _ => data)]
  by_cases hi : i = j
  · subst hi
    rw [if_pos rfl, h, Option.bind_some, List.getElem?_modify, he]
    simp only [if_true, Option.map_eq_map, Option.map_some]
  · rw [if_neg hi]
    cases hother : rposition (·.1 = i) stack with
    | none => rfl
    | some slot' =>
        have hne : slot ≠ slot' := by
          rintro rfl
          obtain ⟨e', he', hi'⟩ := rposition_spec hother
          cases he.symm.trans he'
          exact hi ((of_decide_eq_true hi').symm.trans hej)
        rw [Option.bind_some, Option.bind_some, List.getElem?_modify]
        simp only [if_neg hne, Option.map_eq_map, Option.map_id']

/-- Where a module's data is found. -/
theorem moduleMp_eq (vm : VmState) (i : Nat) : vm.moduleMp i =
    if i = virtIdx vm.currentLoadedModule then some vm.mp
    else (parkedData vm.callerMpStack i).or
      (if i = 0 then none else (vm.loadedModules[i - 1]?).map (·.mp)) := by
  unfold VmState.moduleMp VmState.parkedSlot parkedData
  rw [currentModuleVirtIdx_eq]
  split
  · rfl
  · cases h : rposition (·.1 = i) vm.callerMpStack with
    | none => rfl
    | some slot =>
        obtain ⟨e, he, -⟩ := rposition_spec h
        simp only [Option.bind_some, he, Option.map_some, Option.some_or]

/-! What a call does first and last. -/

section
variable {vm : VmState}

theorem enterModule_current (pc : Nat) :
    enterModule vm.currentLoadedModule pc vm = .ok () { vm with
      unwindFloor := vm.frames.currentBase, pc := pc, halted := false } := by
  simp only [enterModule, swapIn, bind_apply, get_apply, if_true]
  rfl

theorem enterModule_loaded {idx : Nat} {lm : LoadedModule}
    (hlm : vm.loadedModules[idx]? = some lm) (hne : some idx ≠ vm.currentLoadedModule) (pc : Nat) :
    enterModule (some idx) pc vm = .ok () { vm with
      mp := lm.mp
      callerMpStack := vm.callerMpStack ++ [(virtIdx vm.currentLoadedModule, vm.mp)]
      loadedModules := vm.loadedModules.modify idx fun lm => { lm with mp := [] }
      currentLoadedModule := some idx
      unwindFloor := vm.frames.currentBase, pc := pc, halted := false } := by
  simp only [enterModule, swapIn, takeCalleeMp, bind_apply, get_apply, if_neg hne, hlm, unwrap_some,
    currentModuleVirtIdx_eq]
  rfl

theorem enterModule_main {slot : Nat} {e : Nat × List Byte} (hslot : vm.parkedSlot 0 = some slot)
    (he : vm.callerMpStack[slot]? = some e) (hne : none ≠ vm.currentLoadedModule) (pc : Nat) :
    enterModule none pc vm = .ok () { vm with
      mp := e.2
      callerMpStack := (vm.callerMpStack.modify slot fun e => (e.1, [])) ++
        [(virtIdx vm.currentLoadedModule, vm.mp)]
      currentLoadedModule := none
      unwindFloor := vm.frames.currentBase, pc := pc, halted := false } := by
  simp only [enterModule, swapIn, takeCalleeMp, bind_apply, get_apply, if_neg hne, hslot, he,
    unwrap_some, currentModuleVirtIdx_eq]
  rfl

theorem enterModule_absent (hslot : vm.parkedSlot 0 = none)
    (hne : none ≠ vm.currentLoadedModule) (pc : Nat) :
    enterModule none pc vm = .ok () { vm with
      callerMpStack := vm.callerMpStack ++ [(virtIdx vm.currentLoadedModule, [])]
      currentLoadedModule := none
      unwindFloor := vm.frames.currentBase, pc := pc, halted := false } := by
  simp only [enterModule, swapIn, takeCalleeMp, bind_apply, get_apply, if_neg hne, hslot,
    currentModuleVirtIdx_eq]
  rfl

theorem loaded_of_entered {idx pc : Nat} {u : VmState}
    (h : enterModule (some idx) pc vm = .ok () u) (hne : some idx ≠ vm.currentLoadedModule) :
    ∃ lm, vm.loadedModules[idx]? = some lm := by
  cases hlm : vm.loadedModules[idx]? with
  | none =>
      simp only [enterModule, swapIn, takeCalleeMp, bind_apply, get_apply, if_neg hne, hlm] at h
      cases h
  | some lm => exact ⟨lm, rfl⟩

/-- Entering another module parks the caller's data on top of what is parked. -/
theorem enterModule_stack {moduleIdx : Option Nat} {pc : Nat} {u : VmState}
    (h : enterModule moduleIdx pc vm = .ok () u) (hne : moduleIdx ≠ vm.currentLoadedModule) :
    u.currentLoadedModule = moduleIdx ∧ ∃ parked parent,
      u.callerMpStack = parked ++ [(virtIdx vm.currentLoadedModule, parent)] ∧
      parked.map (·.1) = vm.callerMpStack.map (·.1) := by
  cases moduleIdx with
  | some idx =>
      obtain ⟨lm, hlm⟩ := loaded_of_entered h hne
      cases h.symm.trans (enterModule_loaded hlm hne pc)
      exact ⟨rfl, _, _, rfl, rfl⟩
  | none =>
      cases hslot : vm.parkedSlot 0 with
      | none =>
          cases h.symm.trans (enterModule_absent hslot hne pc)
          exact ⟨rfl, _, _, rfl, rfl⟩
      | some slot =>
          obtain ⟨e, he, -⟩ := rposition_spec hslot
          cases h.symm.trans (enterModule_main hslot he hne pc)
          exact ⟨rfl, _, _, rfl, map_fst_modify _ _ fun _ => []⟩

/-- At the end of the function its caller's data is still on top of what is parked. -/
theorem ran_stack {moduleIdx : Option Nat} {pc : Nat} {u w : VmState}
    (h : enterModule moduleIdx pc vm = .ok () u) (hne : moduleIdx ≠ vm.currentLoadedModule)
    (hran : RanIn u w) :
    w.currentLoadedModule = moduleIdx ∧ ∃ parked parent,
      w.callerMpStack = parked ++ [(virtIdx vm.currentLoadedModule, parent)] ∧
      parked.map (·.1) = vm.callerMpStack.map (·.1) := by
  obtain ⟨hcurrent, parked, parent, hstack, hkeys⟩ := enterModule_stack h hne
  have hctx := hran.ctx
  simp only [VmState.callCtx, Prod.mk.injEq] at hctx
  refine ⟨hctx.1.trans hcurrent, ?_⟩
  have hmap := hctx.2.2
  rw [hstack, List.map_append] at hmap
  obtain ⟨parked', top, hsplit, hparked, htop⟩ := List.map_eq_append_iff.mp hmap
  obtain ⟨⟨i, parent'⟩, rfl, hi⟩ := List.map_eq_singleton_iff.mp htop
  dsimp only at hi
  subst hi
  exact ⟨parked', parent', hsplit, hparked.trans hkeys⟩

theorem leaveModule_current (w : VmState) :
    leaveModule (VmState.saveCaller vm vm.currentLoadedModule) vm.currentLoadedModule w = { w with
      unwindFloor := vm.unwindFloor, pc := vm.pc, nextPc := vm.nextPc
      currentLoadedModule := vm.currentLoadedModule, halted := false } := by
  simp only [leaveModule, VmState.saveCaller, ne_eq, not_true_eq_false, decide_false,
    Bool.false_eq_true, if_false]

theorem leaveModule_loaded {w : VmState} {idx : Nat} {parked : List (Nat × List Byte)}
    {e : Nat × List Byte} (hstack : w.callerMpStack = parked ++ [e])
    (hne : some idx ≠ vm.currentLoadedModule) :
    leaveModule (VmState.saveCaller vm (some idx)) (some idx) w = { w with
      mp := e.2, callerMpStack := parked
      loadedModules := w.loadedModules.modify idx fun lm => { lm with mp := w.mp }
      unwindFloor := vm.unwindFloor, pc := vm.pc, nextPc := vm.nextPc
      currentLoadedModule := vm.currentLoadedModule, halted := false } := by
  simp only [leaveModule, VmState.saveCaller, ne_eq, hne, not_false_eq_true, decide_true, if_true,
    returnCalleeMp, hstack, List.getLast?_concat, List.dropLast_concat, Option.map_some,
    Option.getD_some]

theorem leaveModule_main {w : VmState} {slot : Nat} {parked : List (Nat × List Byte)}
    {e : Nat × List Byte} (hstack : w.callerMpStack = parked ++ [e])
    (hslot : vm.parkedSlot 0 = some slot) (hne : none ≠ vm.currentLoadedModule) :
    leaveModule (VmState.saveCaller vm none) none w = { w with
      mp := e.2
      callerMpStack := parked.modify slot fun e => (e.1, w.mp)
      unwindFloor := vm.unwindFloor, pc := vm.pc, nextPc := vm.nextPc
      currentLoadedModule := vm.currentLoadedModule, halted := false } := by
  simp only [leaveModule, VmState.saveCaller, ne_eq, hne, not_false_eq_true, decide_true, if_true,
    returnCalleeMp, hstack, List.getLast?_concat, List.dropLast_concat, Option.map_some,
    Option.getD_some, hslot]

theorem leaveModule_absent {w : VmState} {parked : List (Nat × List Byte)}
    {e : Nat × List Byte} (hstack : w.callerMpStack = parked ++ [e])
    (hslot : vm.parkedSlot 0 = none) (hne : none ≠ vm.currentLoadedModule) :
    leaveModule (VmState.saveCaller vm none) none w = { w with
      callerMpStack := parked
      unwindFloor := vm.unwindFloor, pc := vm.pc, nextPc := vm.nextPc
      currentLoadedModule := vm.currentLoadedModule, halted := false } := by
  simp only [leaveModule, VmState.saveCaller, ne_eq, hne, not_false_eq_true, decide_true, if_true,
    returnCalleeMp, hstack, List.dropLast_concat, hslot]

/-- The data of the module that is called is where the call takes it from: a loaded module is not
among those that are parked, and the main module is. -/
def AtRest (vm : VmState) : Option Nat → Prop
  | some idx => vm.parkedSlot (idx + 1) = none
  | none => vm.parkedSlot 0 ≠ none

/-- The data found for the module is its data, and not what is left while a thread that waits
inside the module has taken it out. -/
def Whole (vm : VmState) (moduleIdx : Option Nat) (module : Module) : Prop :=
  ∃ data, vm.moduleMp (virtIdx moduleIdx) = some data ∧ data.length = module.header.dataSize.asUsize

theorem parkedSlot_eq_none {i : Nat} :
    vm.parkedSlot i = none ↔ parkedData vm.callerMpStack i = none := parkedData_eq_none.symm

/-- The records of the other modules are left alone. -/
theorem mp_modify_other {idx i : Nat} (hi : i ≠ virtIdx (some idx)) (modules : List LoadedModule)
    (f : LoadedModule → LoadedModule) :
    (if i = 0 then none else ((modules.modify idx f)[i - 1]?).map (·.mp)) =
      if i = 0 then none else (modules[i - 1]?).map (·.mp) := by
  by_cases hzero : i = 0
  · rw [if_pos hzero, if_pos hzero]
  · have hother : idx ≠ i - 1 := by
      rw [virtIdx] at hi
      omega
    rw [if_neg hzero, if_neg hzero, List.getElem?_modify]
    simp only [if_neg hother, Option.map_eq_map, Option.map_id']

theorem moduleMp_entered {moduleIdx : Option Nat} {pc : Nat} {u : VmState}
    (h : enterModule moduleIdx pc vm = .ok () u) (hne : moduleIdx ≠ vm.currentLoadedModule)
    (hrest : AtRest vm moduleIdx) (i : Nat) : u.moduleMp i = vm.moduleMp i := by
  have hvirt : virtIdx moduleIdx ≠ virtIdx vm.currentLoadedModule := mt virtIdx_inj.mp hne
  rw [moduleMp_eq, moduleMp_eq vm]
  cases moduleIdx with
  | some idx =>
      obtain ⟨lm, hlm⟩ := loaded_of_entered h hne
      cases h.symm.trans (enterModule_loaded hlm hne pc)
      dsimp only
      rw [parkedData_append]
      dsimp only
      by_cases hi : i = virtIdx (some idx)
      · subst hi
        have hnone : parkedData vm.callerMpStack (virtIdx (some idx)) = none :=
          parkedSlot_eq_none.mp hrest
        rw [if_pos rfl, if_neg hvirt, hnone, Option.none_or,
          if_neg (show ¬ virtIdx (some idx) = 0 from Nat.succ_ne_zero idx)]
        exact (congrArg (Option.map (·.mp)) hlm).symm
      · rw [if_neg hi]
        by_cases hcaller : i = virtIdx vm.currentLoadedModule
        · rw [if_pos hcaller.symm, if_pos hcaller, Option.some_or]
        · rw [if_neg (Ne.symm hcaller), if_neg hcaller, mp_modify_other hi]
  | none =>
      obtain ⟨slot, hslot⟩ := Option.ne_none_iff_exists'.mp hrest
      obtain ⟨e, he, -⟩ := rposition_spec hslot
      have hdata : parkedData vm.callerMpStack 0 = some e.2 := by
        rw [parkedData]
        rw [VmState.parkedSlot] at hslot
        rw [hslot, Option.bind_some, he, Option.map_some]
      cases h.symm.trans (enterModule_main hslot he hne pc)
      dsimp only
      rw [parkedData_append, parkedData_modify hslot]
      dsimp only
      by_cases hi : i = 0
      · subst hi
        rw [if_pos (show 0 = virtIdx none from rfl),
          if_neg (show ¬ 0 = virtIdx vm.currentLoadedModule from hvirt), hdata, Option.some_or]
      · rw [if_neg (show ¬ i = virtIdx none from hi), if_neg hi]
        by_cases hcaller : i = virtIdx vm.currentLoadedModule
        · rw [if_pos hcaller.symm, if_pos hcaller, Option.some_or]
        · rw [if_neg (Ne.symm hcaller), if_neg hcaller]

/-- A loaded module is there for its data to come back to. -/
theorem mp_returned {idx pc : Nat} {u w : VmState}
    (h : enterModule (some idx) pc vm = .ok () u) (hne : some idx ≠ vm.currentLoadedModule)
    (hran : RanIn u w) :
    ((w.loadedModules.modify idx fun lm => { lm with mp := w.mp })[idx]?).map (·.mp) =
      some w.mp := by
  obtain ⟨lm, hlm⟩ := loaded_of_entered h hne
  cases h.symm.trans (enterModule_loaded hlm hne pc)
  have hcode := hran.code (some idx) lm.module (by
    simp only [VmState.moduleAt, List.getElem?_modify, hlm, if_true, Option.map_eq_map,
      Option.map_some])
  obtain ⟨lm', hlm', -⟩ := Option.map_eq_some_iff.mp hcode
  rw [List.getElem?_modify, hlm']
  simp only [if_true, Option.map_eq_map, Option.map_some]

/-- What the function has written to any module is there after the call. -/
theorem moduleMp_left {moduleIdx : Option Nat} {pc : Nat} {u w : VmState}
    (h : enterModule moduleIdx pc vm = .ok () u) (hne : moduleIdx ≠ vm.currentLoadedModule)
    (hrest : AtRest vm moduleIdx) (hran : RanIn u w) (i : Nat) :
    (leaveModule (VmState.saveCaller vm moduleIdx) moduleIdx w).moduleMp i = w.moduleMp i := by
  have hvirt : virtIdx moduleIdx ≠ virtIdx vm.currentLoadedModule := mt virtIdx_inj.mp hne
  obtain ⟨hcurrent, parked, e, hstack, hkeys⟩ := ran_stack h hne hran
  rw [moduleMp_eq, moduleMp_eq w, hcurrent, hstack, parkedData_append]
  cases moduleIdx with
  | some idx =>
      have hnone : parkedData parked (idx + 1) = none := by
        rw [parkedData_eq_none, rposition_fst hkeys]
        exact hrest
      rw [leaveModule_loaded hstack hne]
      dsimp only
      by_cases hi : i = virtIdx (some idx)
      · subst hi
        rw [if_neg hvirt, if_pos rfl, show parkedData parked (virtIdx (some idx)) = none from hnone,
          Option.none_or, if_neg (show ¬ virtIdx (some idx) = 0 from Nat.succ_ne_zero idx)]
        exact mp_returned h hne hran
      · rw [if_neg hi]
        by_cases hcaller : i = virtIdx vm.currentLoadedModule
        · rw [if_pos hcaller.symm, if_pos hcaller, Option.some_or]
        · rw [if_neg (Ne.symm hcaller), if_neg hcaller, mp_modify_other hi]
  | none =>
      obtain ⟨slot, hslot⟩ := Option.ne_none_iff_exists'.mp hrest
      have hparked : rposition (·.1 = 0) parked = some slot :=
        (rposition_fst hkeys 0).trans hslot
      rw [leaveModule_main hstack hslot hne]
      dsimp only
      rw [parkedData_modify hparked]
      by_cases hi : i = 0
      · subst hi
        rw [if_neg (show ¬ 0 = virtIdx vm.currentLoadedModule from hvirt), if_pos rfl,
          if_pos (show 0 = virtIdx none from rfl), Option.some_or]
      · rw [if_neg hi, if_neg (show ¬ i = virtIdx none from hi)]
        by_cases hcaller : i = virtIdx vm.currentLoadedModule
        · rw [if_pos hcaller.symm, if_pos hcaller, Option.some_or]
        · rw [if_neg (Ne.symm hcaller), if_neg hcaller]

/-- Whatever the function did, the call gives its caller's context back. -/
theorem callCtx_leaveModule {moduleIdx : Option Nat} {pc : Nat} {u w : VmState}
    (h : enterModule moduleIdx pc vm = .ok () u) (hran : RanIn u w) :
    (leaveModule (VmState.saveCaller vm moduleIdx) moduleIdx w).callCtx = vm.callCtx := by
  by_cases hne : moduleIdx = vm.currentLoadedModule
  · subst hne
    cases h.symm.trans (enterModule_current pc)
    have hctx := hran.ctx
    simp only [VmState.callCtx, Prod.mk.injEq] at hctx
    rw [leaveModule_current]
    simp only [VmState.callCtx, hctx.2.2]
  · obtain ⟨hcurrent, parked, parent, hstack, hkeys⟩ := ran_stack h hne hran
    cases moduleIdx with
    | some idx =>
        rw [leaveModule_loaded hstack hne]
        simp only [VmState.callCtx, hkeys]
    | none =>
        cases hslot : vm.parkedSlot 0 with
        | none =>
            rw [leaveModule_absent hstack hslot hne]
            simp only [VmState.callCtx, hkeys]
        | some slot =>
            rw [leaveModule_main hstack hslot hne]
            simp only [VmState.callCtx, map_fst_modify _ slot fun _ => w.mp, hkeys]

end

theorem ranRules : Rules RanIn
    (fun s t _ => ∀ idx m, s.moduleAt idx = some m → t.moduleAt idx = some m) where
  trans _ _ _ := .trans
  work _ _ h := ⟨h.callCtx, h.code⟩
  call s u w moduleIdx entryPc henter hwork hran :=
    ⟨callCtx_leaveModule henter hran, fun idx m h =>
      (work_leaveModule _ moduleIdx w).code idx m (hran.code idx m (hwork.code idx m h))⟩
  fresh _ _ _ _ _ _ _ := ⟨rfl, fun _ _ h => h⟩
  put _ _ _ _ _ := ⟨rfl, fun _ _ h => h⟩
  take _ _ _ _ _ := ⟨rfl, fun _ _ h => h⟩
  inject _ _ _ := ⟨rfl, fun _ _ h => h⟩
  spawn _ _ _ _ _ _ _ := ⟨rfl, fun _ _ h => h⟩
  nested _ _ := ⟨rfl, fun _ _ h => h⟩
  handOff _ _ _ _ _ _ _ _ _ hslice := ⟨rfl, hslice⟩
  sliceDone _ _ _ h := h
  sliceEnd _ _ _ _ h := h
  sliceStep _ _ _ _ _ _ hstep hrest idx m h := hrest idx m (hstep.code idx m h)
  sliceFault _ _ _ _ hstep idx m h := hstep.code idx m h
  sliceBlock s inst u _ _ hbegun _ idx m h := by
    have hsame : u.moduleAt idx = s.moduleAt idx := hbegun.code idx
    exact hsame.trans h

/-- A call from `vm` that starts in `u`. -/
structure Called (vm : VmState) (moduleIdx : Option Nat) (pc : Nat) (u : VmState) : Prop where
  current : u.currentLoadedModule = moduleIdx
  runs : ∀ nested base, runNestedModuleCall nested moduleIdx pc base vm =
    restoring (nested.loop moduleIdx base)
      (leaveModule (VmState.saveCaller vm moduleIdx) moduleIdx) u
  ran : ∀ env fuel base, wp ((nestedAt env fuel).loop moduleIdx base)
    (fun _ w => RanIn u w) (fun _ w => RanIn u w) u
  restored : ∀ w, RanIn u w →
    (leaveModule (VmState.saveCaller vm moduleIdx) moduleIdx w).callCtx = vm.callCtx ∧
    (leaveModule (VmState.saveCaller vm moduleIdx) moduleIdx w).pc = vm.pc ∧
    (leaveModule (VmState.saveCaller vm moduleIdx) moduleIdx w).nextPc = vm.nextPc

/-- The function finds the data that every module has, its own as the data that is active, all of
it, and what it and the functions it calls write there is what the caller finds. -/
structure KeepsData (vm : VmState) (moduleIdx : Option Nat) (module : Module) (u : VmState) : Prop where
  active : u.mp.length = module.header.dataSize.asUsize
  entered : ∀ i, u.moduleMp i = vm.moduleMp i
  returned : ∀ w, RanIn u w → ∀ i,
    (leaveModule (VmState.saveCaller vm moduleIdx) moduleIdx w).moduleMp i = w.moduleMp i

section
variable {vm : VmState}

/-- A function may leave any data in its module. -/
theorem ranIn_mp (u : VmState) (mp : List Byte) : RanIn u { u with mp := mp } :=
  ⟨rfl, fun _ _ h => h⟩

theorem called {moduleIdx : Option Nat} {pc : Nat} {u : VmState}
    (h : enterModule moduleIdx pc vm = .ok () u) (hblocked : vm.blockedChannel = none) :
    Called vm moduleIdx pc u := by
  have hwork : Work vm u := by
    have hwp := work_enterModule moduleIdx pc vm
    rw [wp, h] at hwp
    exact hwp
  have hnone : u.blockedChannel = none := hwork.blocked.elim (·.trans hblocked) id
  have hcurrent : u.currentLoadedModule = moduleIdx := by
    by_cases hne : moduleIdx = vm.currentLoadedModule
    · subst hne
      cases h.symm.trans (enterModule_current pc)
      rfl
    · exact (enterModule_stack h hne).1
  refine ⟨hcurrent, fun nested base => runNestedModuleCall_eq h nested, fun env fuel base => ?_,
    fun w hran => ⟨callCtx_leaveModule h hran, rfl, rfl⟩⟩
  have hloop := (ranRules.soundNested env fuel).loop moduleIdx base u
  exact wp_mono hloop (fun _ w hw => (hw hnone).1) fun _ w hw => (hw.1 hnone).1

theorem keepsData_iff {moduleIdx : Option Nat} {module : Module} {pc : Nat} {u : VmState}
    (h : enterModule moduleIdx pc vm = .ok () u) (hcurrent : u.currentLoadedModule = moduleIdx) :
    KeepsData vm moduleIdx module u ↔
      (moduleIdx ≠ vm.currentLoadedModule → AtRest vm moduleIdx) ∧ Whole vm moduleIdx module := by
  have hactive : u.moduleMp (virtIdx moduleIdx) = some u.mp := by
    rw [moduleMp_eq, hcurrent, if_pos rfl]
  constructor
  · refine fun hkeeps => ⟨fun hne => ?_, u.mp, (hkeeps.entered _).symm.trans hactive, hkeeps.active⟩
    cases moduleIdx with
    | some idx =>
        by_contra hparked
        obtain ⟨data, hdata⟩ := Option.ne_none_iff_exists'.mp (mt parkedSlot_eq_none.mpr hparked)
        have hvirt : ¬ idx + 1 = virtIdx vm.currentLoadedModule :=
          mt (@virtIdx_inj (some idx) _).mp hne
        obtain ⟨lm, hlm⟩ := loaded_of_entered h hne
        cases h.symm.trans (enterModule_loaded hlm hne pc)
        -- Whatever the function leaves as its data, the caller finds what was parked.
        have hlost := hkeeps.returned _ (ranIn_mp _ (data ++ [0])) (idx + 1)
        rw [leaveModule_loaded rfl hne, moduleMp_eq, moduleMp_eq] at hlost
        dsimp only at hlost
        rw [if_neg hvirt, hdata, Option.some_or,
          if_pos (show idx + 1 = virtIdx (some idx) from rfl), Option.some.injEq] at hlost
        have hlength := congrArg List.length hlost
        rw [List.length_append, List.length_singleton] at hlength
        omega
    | none =>
        intro hslot
        cases h.symm.trans (enterModule_absent hslot hne pc)
        have hmain := hkeeps.entered 0
        have hvirt : ¬ 0 = virtIdx vm.currentLoadedModule := mt (@virtIdx_inj none _).mp hne
        rw [moduleMp_eq, moduleMp_eq vm, if_neg hvirt, parkedSlot_eq_none.mp hslot] at hmain
        cases hmain
  · rintro ⟨hrest, data, hdata, hsize⟩
    have hwhole : (∀ i, u.moduleMp i = vm.moduleMp i) → u.mp.length = module.header.dataSize.asUsize :=
      fun hentered => by
        rw [← hentered, hactive] at hdata
        rw [Option.some.inj hdata, hsize]
    by_cases hne : moduleIdx = vm.currentLoadedModule
    · subst hne
      cases h.symm.trans (enterModule_current pc)
      refine ⟨hwhole fun _ => rfl, fun i => rfl, fun w hran i => ?_⟩
      have hcurrent : w.currentLoadedModule = vm.currentLoadedModule := by
        have hctx := hran.ctx
        simp only [VmState.callCtx, Prod.mk.injEq] at hctx
        exact hctx.1
      rw [leaveModule_current, moduleMp_eq, moduleMp_eq w, hcurrent]
    · have hentered := moduleMp_entered h hne (hrest hne)
      exact ⟨hwhole hentered, hentered, fun w hran => moduleMp_left h hne (hrest hne) hran⟩

/-- A call gives the caller's context back however the function ends, and every module keeps its
data across it exactly when the module that is called has its data at rest, unless it is the one
that executes, and no other thread has taken it out. -/
theorem calls_keep_data_iff {moduleIdx : Option Nat} {module : Module}
    (hmodule : vm.moduleAt moduleIdx = some module) (hblocked : vm.blockedChannel = none)
    (pc : Nat) : ∃ u, enterModule moduleIdx pc vm = .ok () u ∧ Called vm moduleIdx pc u ∧
      (KeepsData vm moduleIdx module u ↔
        (moduleIdx ≠ vm.currentLoadedModule → AtRest vm moduleIdx) ∧ Whole vm moduleIdx module) := by
  have hexists : ∀ i, moduleIdx = some i → i < vm.loadedModules.length := by
    rintro i rfl
    obtain ⟨lm, hlm, -⟩ := Option.map_eq_some_iff.mp hmodule
    exact (List.getElem?_eq_some_iff.mp hlm).1
  obtain ⟨u, henter, -⟩ := enterModule_ok hexists pc
  have hcalled := called henter hblocked
  exact ⟨u, henter, hcalled, keepsData_iff henter hcalled.current⟩

end

/-- A call from the main module into a module that is at rest. -/
theorem calls_keep_data_iff_main : ∃ vm u, enterModule (some 0) 0 vm = .ok () u ∧
    Called vm (some 0) 0 u ∧ KeepsData vm (some 0) (.ofCode "a" [] 4) u := by
  obtain ⟨vm, -, hvm⟩ : ∃ vm, VmState.withArgs [] true (.ofCode "main" [] 8) [] = some vm ∧
      vm.blockedChannel = none ∧ vm.currentLoadedModule = none ∧ vm.parkedSlot 1 = none :=
    ⟨_, rfl, rfl, rfl, rfl⟩
  have hlm : VmState.moduleAt { vm with loadedModules := [⟨.ofCode "a" [] 4, [0, 0, 0, 0]⟩] }
      (some 0) = some (.ofCode "a" [] 4) := rfl
  obtain ⟨u, henter, hcalled, hkeeps⟩ := calls_keep_data_iff hlm hvm.1 0
  refine ⟨_, u, henter, hcalled, hkeeps.mpr ⟨fun _ => hvm.2.2, [0, 0, 0, 0], ?_, rfl⟩⟩
  have hslot : parkedData vm.callerMpStack 1 = none := parkedSlot_eq_none.mp hvm.2.2
  rw [moduleMp_eq, hvm.2.1, if_neg (show ¬ virtIdx (some 0) = virtIdx none by decide)]
  change (parkedData vm.callerMpStack 1).or _ = _
  rw [hslot]
  rfl

/-- Its first function calls back a function of the module reference it is given; its second
function stores 7 at the start of the data. -/
def callsBack : Module :=
  { Module.ofCode "a" [
      ⟨.mframe, .fp 32, .imm 0, .fp 48⟩,
      ⟨.mcall, .fp 48, .imm 0, .fp 32⟩,
      ⟨.ret, .unused, .unused, .unused⟩,
      ⟨.movw, .imm 7, .unused, .mp 0⟩,
      ⟨.ret, .unused, .unused, .unused⟩] 4 with
    exports := [⟨0, 0, 0, "run"⟩, ⟨3, 0, 0, "store"⟩] }

def Env.loading (module : Module) : Env := { Env.bare with loadFile := fun _ => some module }

/-- Loads a module and calls its function `funcIdx` with a reference to itself. Its own function
calls `store`. -/
def callsInto (funcIdx : Word) : Module :=
  { Module.ofCode "main" [
      ⟨.load, .mp 0, .imm 0, .mp 4⟩,
      ⟨.self, .unused, .unused, .mp 8⟩,
      ⟨.mframe, .mp 4, .imm funcIdx, .fp 48⟩,
      ⟨.movw, .mp 8, .unused, .deref 48 32⟩,
      ⟨.mcall, .fp 48, .imm funcIdx, .mp 4⟩,
      ⟨.exit, .unused, .unused, .unused⟩,
      ⟨.mframe, .mp 4, .imm 1, .fp 48⟩,
      ⟨.mcall, .fp 48, .imm 1, .mp 4⟩,
      ⟨.ret, .unused, .unused, .unused⟩] 12 with
    data := [.string 0 "a.dis"]
    exports := [⟨6, 0, 0, "again"⟩] }

/-- The data of the loaded modules when the call has returned. -/
def returnedWith (data : List Byte) (s : VmState × Nat) : Bool :=
  decide (s.1.pc = 5 ∧ s.1.loadedModules.map (·.mp) = [data])

/-- The store is there after a call of `store`, and lost when the call comes while a function of the
same module waits for it. -/
theorem reentrant_store_lost :
    (∃ s, Reachable s ∧ s.1.pc = 5 ∧ s.1.loadedModules.map (·.mp) = [[7, 0, 0, 0]]) ∧
    ∃ s, Reachable s ∧ s.1.pc = 5 ∧ s.1.loadedModules.map (·.mp) = [[0, 0, 0, 0]] := by
  have hdirect : ((callsInto 1).after (.loading callsBack) 12 5).any
      (returnedWith [7, 0, 0, 0]) = true := by decide +kernel
  have hnested : ((callsInto 0).after (.loading callsBack) 12 5).any
      (returnedWith [0, 0, 0, 0]) = true := by decide +kernel
  obtain ⟨s, hs, hdata⟩ := Module.reachable_after rfl hdirect
  obtain ⟨t, ht, hlost⟩ := Module.reachable_after rfl hnested
  exact ⟨⟨s, hs, of_decide_eq_true hdata⟩, t, ht, of_decide_eq_true hlost⟩

end RiceVM
