import RiceVM.Heap
import RiceVM.Limbo.Introductions

/-!
Which operators are compiled to the instructions of their operands' type, by how the operands are
written and how the variables in them were introduced.
-/
namespace RiceVM.Limbo

/-- The comparisons with `nil` that are tests of the other operand in a condition. -/
def TestsNil (l : Expr) (op : BinOp) (r : Expr) : Prop :=
  op = .neq ∧ (r.isNil || l.isNil) = true ∨ op = .eq ∧ r.isNil = true

/-- The elements that are not a word wide decide how an array is indexed. -/
def packedElem (b : Option BasicType) : Option BasicType :=
  b.filter fun b => b = .byte || b = .big || b = .real

variable (s : Scope)

/-- Both operands of an operator on numbers show the width of their type, as far as the compiler
can see. -/
def WidthsAre (l r : Expr) (k : NumKind) : Prop := WidthIs s l k ∧ WidthIs s r k

section

variable (τ : Ty)

def AddClear (l r : Expr) : Prop :=
  if τ.isString then Looks s .ptr l else ¬ Looks s .ptr l ∧ WidthsAre s l r (typeNumKind τ)

def ComparisonClear (inCond : Bool) (l : Expr) (op : BinOp) (r : Expr) : Prop :=
  if τ.isString then op.isEquality ∧ Looks s .ptr l ∧ ¬ (inCond ∧ TestsNil l op r)
  else inCond ∧ TestsNil l op r ∨
    (op.isEquality → ¬ Looks s .ptr l) ∧ WidthsAre s l r (typeNumKind τ)

def IndexClear (arr : Expr) : Prop :=
  match τ with
  | .array elem => ¬ Looks s .ptr arr ∧
      packedElem (arrayElemBasicForExpr s arr) = packedElem (basicOf elem)
  | _ => Looks s .ptr arr

def SliceClear (arr : Expr) (hi : Option Expr) : Prop :=
  match τ with
  | .array _ => hi.isSome ∨ Looks s .array arr
  | _ => False

def LenClear (e : Expr) : Prop :=
  match τ with
  | .array _ => Looks s .array e
  | .list _ => False
  | _ => ¬ Looks s .array e

/-- When an operator gets the instructions of its operands' type `τ`. -/
def Clear (inCond : Bool) : Expr → Prop
  | .binary l .add r => AddClear s τ l r
  | .binary l op r => ComparisonClear s τ inCond l op r
  | .index arr _ => IndexClear s τ arr
  | .slice arr _ hi => SliceClear s τ arr hi
  | .len e => LenClear s τ e
  | _ => True

end

variable {s}

/-- Operands that are widened or narrowed cost an instruction. -/
theorem genOperands_append_iff {l r : Expr} {k : NumKind} {f : NumKind → List Opcode}
    (hlength : ∀ a b, (f a).length = (f b).length) (hinj : Function.Injective f) :
    genOperands s l r ++ f ((inferNumKind s l).max (inferNumKind s r)) = f k ↔
      WidthsAre s l r k := by
  have hconv : inferNumKind s l ≠ inferNumKind s r → (genOperands s l r).length = 1 := by
    intro hne
    rw [genOperands]
    cases hl : inferNumKind s l <;> cases hr : inferNumKind s r <;>
      first | exact absurd (hl.trans hr.symm) hne | rfl
  rw [WidthsAre, ← inferNumKind_iff, ← inferNumKind_iff]
  by_cases heq : inferNumKind s l = inferNumKind s r
  · have hsame : genOperands s l r = [] ∧ (inferNumKind s l).max (inferNumKind s r) =
        inferNumKind s r := by
      rw [genOperands, heq]
      cases inferNumKind s r <;> exact ⟨rfl, rfl⟩
    rw [hsame.1, hsame.2, List.nil_append, hinj.eq_iff, heq, and_self]
  · refine iff_of_false (fun h => ?_) fun h => heq (h.1.trans h.2.symm)
    have := congrArg List.length h
    rw [List.length_append, hconv heq, hlength _ k] at this
    omega

theorem addOpcode_injective : Function.Injective addOpcode := by
  intro a b h
  cases a <;> cases b <;> first | rfl | cases h

theorem branchOpcode_injective {op : BinOp} (hop : op.isEquality = true ∨ op.isOrder = true) :
    Function.Injective (branchOpcode op) := by
  intro a b h
  cases op <;> first | (exfalso; revert hop; decide) | (cases a <;> cases b <;> first | rfl | cases h)

theorem compareBy_injective : Function.Injective compareBy := by
  intro a b h
  simpa [compareBy] using h

/-- What follows is all there is when it is as long. -/
theorem eq_of_append_eq {α : Type} {a t u : List α} (h : a ++ t = u)
    (hlength : t.length = u.length) : t = u :=
  (List.append_inj' (h.trans (List.nil_append u).symm) hlength).2

theorem branchOpcode_ne_stringBranch (op op' : BinOp) (k : NumKind) :
    branchOpcode op k ≠ stringBranch op' := by
  cases op <;> cases k <;> cases op' <;> decide

theorem addOpcode_ne_addc (k : NumKind) : addOpcode k ≠ .addc := by cases k <;> decide

theorem genAdd_iff {τ : Ty} {l r : Expr} : genAdd s l r = addCode τ ↔ AddClear s τ l r := by
  rw [genAdd, addCode, AddClear, ← inferExprType_iff (by simp)]
  by_cases hp : inferExprType s l = .ptr
  · rw [if_pos hp]
    by_cases hτ : τ.isString = true
    · simp [hτ, hp]
    · cases typeNumKind τ <;> simp [hτ, hp, addOpcode]
  · rw [if_neg hp]
    by_cases hτ : τ.isString = true
    · simp only [if_pos hτ, hp, iff_false]
      intro h
      have hadd := eq_of_append_eq h rfl
      exact addOpcode_ne_addc _ (List.head_eq_of_cons_eq hadd)
    · simp only [if_neg hτ, hp, not_false_eq_true, true_and]
      exact genOperands_append_iff (f := fun k => [addOpcode k]) (fun _ _ => rfl) fun a b h =>
        addOpcode_injective (List.head_eq_of_cons_eq h)

theorem genComparison_string_iff {l r : Expr} {op : BinOp} :
    genComparison s l op r = compareBy (stringBranch op) ↔
      op.isEquality = true ∧ Looks s .ptr l := by
  rw [genComparison, ← inferExprType_iff (by simp)]
  split
  · next h =>
      refine iff_of_true ?_ h.symm
      obtain ⟨-, hop⟩ := h
      cases op <;> first | rfl | cases hop
  · next h =>
      refine iff_of_false (fun heq => ?_) fun hn => h hn.symm
      have hbranch := eq_of_append_eq heq rfl
      exact branchOpcode_ne_stringBranch op op _ (compareBy_injective hbranch)

theorem genComparison_scalar_iff {l r : Expr} {op : BinOp} {k : NumKind}
    (hop : op.isEquality = true ∨ op.isOrder = true) :
    genComparison s l op r = compareBy (branchOpcode op k) ↔
      (op.isEquality = true → ¬ Looks s .ptr l) ∧ WidthsAre s l r k := by
  rw [genComparison, ← inferExprType_iff (by simp)]
  split
  · next h =>
      refine iff_of_false (fun heq => ?_) fun hn => hn.1 h.2 h.1
      have hbranch := compareBy_injective heq
      split at hbranch
      · exact branchOpcode_ne_stringBranch op .eq k hbranch.symm
      · exact branchOpcode_ne_stringBranch op .neq k hbranch.symm
  · next h =>
      rw [and_iff_right fun he hp => h ⟨hp, he⟩]
      exact genOperands_append_iff (f := fun k => compareBy (branchOpcode op k))
        (fun _ _ => rfl) (compareBy_injective.comp (branchOpcode_injective hop))

theorem genCond_of_not {l r : Expr} {op : BinOp} (h : ¬ TestsNil l op r) :
    genCond s l op r = genComparison s l op r := by
  cases op with
  | neq => exact if_neg fun hn => h (.inl ⟨rfl, hn⟩)
  | eq => exact if_neg fun hn => h (.inr ⟨rfl, hn⟩)
  | _ => rfl

theorem typeNumKind_of_isRef {τ : Ty} (h : τ.isRef = true) : typeNumKind τ = .word := by
  cases τ with
  | basic b => cases b <;> first | rfl | cases h
  | _ => rfl

/-- Comparisons with `nil` in a condition do not look at the other operand's form. -/
theorem genCond_testsNil_iff {τ : Ty} {l r : Expr} {op : BinOp} (hτ : τ.isRef = true)
    (hn : TestsNil l op r) :
    genCond s l op r = comparisonCode τ true l op r ↔ ¬ τ.isString = true := by
  rw [comparisonCode]
  rcases hn with ⟨rfl, hn⟩ | ⟨rfl, hn⟩
  · have hcode : genCond s l .neq r = [] := if_pos hn
    rw [hcode]
    by_cases hstring : τ.isString = true
    · simp [hstring, compareBy]
    · simp [hstring, hn]
  · have hcode : genCond s l .eq r = compareBy .beqw := if_pos hn
    rw [hcode, typeNumKind_of_isRef hτ]
    by_cases hstring : τ.isString = true
    · simp [hstring, compareBy, stringBranch]
    · simp [hstring, branchOpcode]

theorem genComparison_iff {τ : Ty} {inCond : Bool} {l r : Expr} {op : BinOp}
    (hop : op.isEquality = true ∨ op.isOrder = true)
    (hnil : TestsNil l op r → τ.isRef = true) :
    (if inCond = true then genCond s l op r else genComparison s l op r) =
        comparisonCode τ inCond l op r ↔ ComparisonClear s τ inCond l op r := by
  by_cases hn : inCond = true ∧ TestsNil l op r
  · obtain ⟨rfl, hn⟩ := hn
    rw [if_pos rfl, genCond_testsNil_iff (hnil hn) hn, ComparisonClear]
    split
    · next hstring => simp [hstring, hn]
    · next hstring => simp [hstring, hn]
  · have hcode : (if inCond = true then genCond s l op r else genComparison s l op r) =
        genComparison s l op r := by
      split
      · next hc => exact genCond_of_not fun h => hn ⟨hc, h⟩
      · rfl
    rw [hcode, comparisonCode, ComparisonClear]
    split
    · rw [genComparison_string_iff]
      simp only [hn, not_false_eq_true, and_true]
    · rw [if_neg fun h => hn ⟨h.1, .inl h.2⟩, genComparison_scalar_iff hop]
      simp only [hn, false_or]

theorem comparison_follows_iff {τ : Ty} {inCond : Bool} {l r : Expr} {op : BinOp}
    (hop : op.isEquality = true ∨ op.isOrder = true)
    (hnil : TestsNil l op r → τ.isRef = true) :
    genOperator s inCond (.binary l op r) = operatorCode τ inCond (.binary l op r) ↔
      Clear s τ inCond (.binary l op r) := by
  have hne : op ≠ .add := by
    rintro rfl
    simp [BinOp.isEquality, BinOp.isOrder] at hop
  rw [genOperator, operatorCode, Clear]
  · exact genComparison_iff hop hnil
  all_goals exact hne

theorem isRef_of_nil {Γ : Typing} {e : Expr} {τ : Ty} (h : HasType Γ e τ) (hn : e.isNil = true) :
    τ.isRef = true := by
  cases h with
  | nil hτ => exact hτ
  | _ => cases hn

theorem lenOpcode_eq_lena_iff (c : ValType) : lenOpcode c = .lena ↔ c = .array := by
  cases c <;> decide

theorem arrayElemOpcodes_iff (a b : Option BasicType) :
    arrayElemOpcodes a = arrayElemOpcodes b ↔ packedElem a = packedElem b := by
  rcases a with _ | a <;> rcases b with _ | b <;> try cases a
  all_goals try cases b
  all_goals decide

theorem arrayElemOpcodes_ne_indc (b : Option BasicType) : arrayElemOpcodes b ≠ [.indc] := by
  rcases b with _ | b
  · decide
  · cases b <;> decide

theorem genLen_iff {τ : Ty} {e : Expr} (hτ : τ.isSequence = true ∨ ∃ σ, τ = .list σ) :
    [lenOpcode (inferExprType s e)] = lenCode τ ↔ LenClear s τ e := by
  have harray := inferExprType_iff (s := s) (c := .array) (by simp) (e := e)
  cases τ with
  | basic b =>
      obtain rfl : b = .string := by
        cases b <;> first | rfl | simp [Ty.isSequence] at hτ
      rw [LenClear, lenCode, ← harray]
      · cases inferExprType s e <;> simp [lenOpcode]
      all_goals simp
  | array σ =>
      rw [LenClear, lenCode, ← harray]
      cases inferExprType s e <;> simp [lenOpcode]
  | list σ =>
      rw [LenClear, lenCode]
      cases inferExprType s e <;> simp [lenOpcode]
  | _ => simp [Ty.isSequence] at hτ

theorem eq_string_or_array {τ : Ty} (hτ : τ.isSequence = true) :
    τ = .basic .string ∨ ∃ σ, τ = .array σ := by
  cases τ with
  | basic b => cases b <;> first | exact .inl rfl | cases hτ
  | array σ => exact .inr ⟨σ, rfl⟩
  | _ => cases hτ

theorem genIndex_iff {τ : Ty} {arr i : Expr} (hτ : τ.isSequence = true) (inCond : Bool) :
    genOperator s inCond (.index arr i) = indexCode τ ↔ IndexClear s τ arr := by
  have hptr := inferExprType_iff (s := s) (c := .ptr) (by simp) (e := arr)
  rw [genOperator]
  obtain rfl | ⟨σ, rfl⟩ := eq_string_or_array hτ
  · change _ = [Opcode.indc] ↔ Looks s .ptr arr
    rw [← hptr]
    split
    · next hp => exact iff_of_true rfl hp
    · next hp => exact iff_of_false (arrayElemOpcodes_ne_indc _) hp
  · change _ = arrayElemOpcodes (basicOf σ) ↔ ¬ Looks s .ptr arr ∧ _
    rw [← hptr]
    split
    · next hp =>
        exact iff_of_false (fun h => arrayElemOpcodes_ne_indc _ h.symm) fun h => h.1 hp
    · next hp => rw [arrayElemOpcodes_iff, and_iff_right hp]

theorem genSlice_iff {τ : Ty} {arr : Expr} {lo hi : Option Expr} (hτ : τ.isSequence = true) :
    genSlice s arr lo hi = sliceCode τ lo hi ↔ SliceClear s τ arr hi := by
  have harray := inferExprType_iff (s := s) (c := .array) (by simp) (e := arr)
  rw [genSlice, List.append_assoc]
  obtain rfl | ⟨σ, rfl⟩ := eq_string_or_array hτ
  · refine iff_of_false (fun h => ?_) id
    have hlast := congrArg (·.reverse[1]?) h
    simp [sliceCode] at hlast
  · change _ = _ ++ (_ ++ _) ↔ hi.isSome = true ∨ Looks s .array arr
    rw [List.append_right_inj, List.append_left_inj, ← harray, ← lenOpcode_eq_lena_iff]
    by_cases hhi : hi.isSome = true
    · simp [hhi]
    · simp [hhi]

/-- The instructions an operator is compiled to are those of its operands' type exactly when the
operands are written so that the compiler can see it. -/
theorem operator_follows_type_iff {Γ : Typing} {e : Expr} {τ : Ty} (h : OperandType Γ e τ)
    (inCond : Bool) :
    genOperator s inCond e = operatorCode τ inCond e ↔ Clear s τ inCond e := by
  cases h with
  | add _ _ => exact genAdd_iff
  | @equality l r op _ hop _ hl hr =>
      refine comparison_follows_iff (.inl hop) ?_
      rintro (⟨-, hn⟩ | ⟨-, hn⟩)
      · rcases Bool.or_eq_true_iff.mp hn with hn | hn
        · exact isRef_of_nil hr hn
        · exact isRef_of_nil hl hn
      · exact isRef_of_nil hr hn
  | @order l r op b hop _ _ =>
      refine comparison_follows_iff (.inr hop) ?_
      rintro (⟨rfl, -⟩ | ⟨rfl, -⟩) <;> cases hop
  | @lenList e σ _ => exact genLen_iff (.inr ⟨σ, rfl⟩)
  | len hτ _ => exact genLen_iff (.inl hτ)
  | index hτ _ _ => exact genIndex_iff hτ inCond
  | slice hτ _ => exact genSlice_iff hτ

/-! ### The length of a declared array -/

/-- `Lenc`: zero for anything but a string. -/
def opLenc (h : Heap) (id : HeapId) : Word :=
  match (h.get id).map HeapObject.data with
  | some (.str t) => BitVec.ofNat 32 t.length
  | _ => 0

/-- `Lena` -/
def opLena (h : Heap) (id : HeapId) : Word :=
  match (h.get id).map HeapObject.data with
  | some (.array _ _ _ length) | some (.arraySlice _ _ _ _ length) => BitVec.ofNat 32 length
  | _ => 0

/-- `a` is an array of ints. -/
def oneArray : Typing where
  var x := if x = "a" then some (.array (.basic .int)) else none
  func _ := none
  field _ _ := none

/-- `f(a: array of int) { ... len a ... }` -/
theorem param_len_follows_type :
    genOperator (({} : Scope).introduce 32 (.param "a" (.array (.basic .int)))) false
      (.len (.ident "a")) = operatorCode (.array (.basic .int)) false (.len (.ident "a")) :=
  (operator_follows_type_iff (.len rfl (.var rfl) : OperandType oneArray _ _) false).mpr
    (((introduced_iff (s := {}) (i := .param "a" (.array (.basic .int))) rfl
      (k := .word)).1).mpr rfl)

/-- `a: array of int; ... len a ... a[0]`: the array is taken for a string, and `Lenc` finds its
length to be zero. -/
theorem declared_len_misread :
    OperandType oneArray (.len (.ident "a")) (.array (.basic .int)) ∧
      genOperator (({} : Scope).introduce 40 (.decl "a" (.array (.basic .int)))) false
        (.len (.ident "a")) = [.lenc] ∧
      genOperator (({} : Scope).introduce 40 (.decl "a" (.array (.basic .int)))) false
        (.index (.ident "a") (.intLit 0)) = [.indc] ∧
      operatorCode (.array (.basic .int)) false (.len (.ident "a")) = [.lena] ∧
      ∀ (h : Heap) (id : HeapId) (data : List Byte),
        (h.get id).map HeapObject.data = some (.array 0 4 data 3) → opLenc h id = 0 ∧ opLena h id = 3 := by
  refine ⟨.len rfl (.var rfl), by decide, by decide, rfl, fun h id data hid => ?_⟩
  rw [opLenc, opLena, hid]
  exact ⟨rfl, rfl⟩

end RiceVM.Limbo
