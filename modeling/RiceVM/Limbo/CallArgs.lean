import RiceVM.Limbo.Infer
import RiceVM.Limbo.Records

/-!
The argument area of a callee's frame: where a call site stores its arguments, going by the
argument expressions, and where the function finds its parameters, going by their types.
-/
namespace RiceVM.Limbo

/-- Arguments and parameters start here in a frame; the return pointer is at 16. -/
def argStart : Nat := 32

/-- Round a frame offset up to the boundary an argument needs. -/
def alignArg (off align : Nat) : Nat := alignUp off (max align 4)

/-- An evaluated argument, waiting to be stored into a callee frame. -/
structure ArgSlot where
  tuple : Option TupleLayout
  op : Opcode
  width : Nat
  align : Nat

/-- The shape of the slot an argument expression is evaluated into. -/
def genArgValue (s : Scope) (arg : Expr) : ArgSlot :=
  match tupleFieldsOf s arg with
  | some fields =>
    { tuple := some (computeTupleLayout fields)
      op := .movw
      width := 0
      align := (((computeTupleLayout fields).fields.map (·.1.align)).max?).getD 4 }
  | none =>
    let kind := inferNumKind s arg
    { tuple := none
      op := match inferExprType s arg, kind with
        | _, .big => .movl
        | _, .real => .movf
        | .word, .word => .movw
        | _, .word => .movp
      width := kind.byteSize
      align := kind.byteSize }

/-- The moves that store an argument at a frame offset; sources are offsets in its slot. -/
def ArgSlot.moves (slot : ArgSlot) (off : Nat) : List Move :=
  match slot.tuple with
  | some layout => layout.fields.map fun f => ⟨movOpcodeForType f.1, f.2, off + f.2⟩
  | none => [⟨slot.op, 0, off⟩]

/-- The bytes an argument takes up in the callee's frame. -/
def ArgSlot.size (slot : ArgSlot) : Nat :=
  match slot.tuple with
  | some layout => layout.size
  | none => slot.width

/-- Where `store_arg` puts each of the arguments, from `off` on, and the offset after them. -/
def storeArgs (off : Nat) : List ArgSlot → List Span × Nat
  | [] => ([], off)
  | slot :: slots =>
    let start := alignArg off slot.align
    let rest := storeArgs (start + slot.size) slots
    (⟨start, slot.size⟩ :: rest.1, rest.2)

/-- Spans of the given widths and alignments from `off` on, and the offset after them. -/
def placeSpans (off : Nat) : List (Nat × Nat) → List Span × Nat
  | [] => ([], off)
  | (size, align) :: shapes =>
    let start := alignArg off align
    let rest := placeSpans (start + size) shapes
    (⟨start, size⟩ :: rest.1, rest.2)

theorem storeArgs_eq (off : Nat) (slots : List ArgSlot) :
    storeArgs off slots = placeSpans off (slots.map fun slot => (slot.size, slot.align)) := by
  induction slots generalizing off with
  | nil => rfl
  | cons slot slots ih => simp only [storeArgs, List.map_cons, placeSpans, ih]

theorem placeSpans_append (off : Nat) (xs ys : List (Nat × Nat)) :
    (placeSpans off (xs ++ ys)).1 =
      (placeSpans off xs).1 ++ (placeSpans (placeSpans off xs).2 ys).1 ∧
    (placeSpans off (xs ++ ys)).2 = (placeSpans (placeSpans off xs).2 ys).2 := by
  induction xs generalizing off with
  | nil => exact ⟨rfl, rfl⟩
  | cons x xs ih =>
      obtain ⟨hspans, hend⟩ := ih (alignArg off x.2 + x.1)
      simp only [List.cons_append, placeSpans, hspans, hend, and_self]

theorem placeSpans_chained (off : Nat) (shapes : List (Nat × Nat)) :
    Span.Chained off (placeSpans off shapes).2 (placeSpans off shapes).1 := by
  induction shapes generalizing off with
  | nil => exact Nat.le_refl _
  | cons shape shapes ih => exact ⟨le_alignUp _ (by omega), ih _⟩

/-- The last of a list of placed spans stops where the list ends. -/
theorem exists_last_span (off : Nat) {shapes : List (Nat × Nat)} (h : shapes ≠ []) :
    ∃ sp ∈ (placeSpans off shapes).1, sp.stop = (placeSpans off shapes).2 := by
  induction shapes generalizing off with
  | nil => exact absurd rfl h
  | cons shape shapes ih =>
      rw [placeSpans]
      by_cases hnil : shapes = []
      · subst hnil
        exact ⟨_, List.mem_cons_self, rfl⟩
      · obtain ⟨sp, hsp, hstop⟩ := ih (alignArg off shape.2 + shape.1) hnil
        exact ⟨sp, List.mem_cons_of_mem _ hsp, hstop⟩

theorem placeSpans_inside_iff (off limit : Nat) {shapes : List (Nat × Nat)} (h : shapes ≠ []) :
    (∀ sp ∈ (placeSpans off shapes).1, sp.stop ≤ limit) ↔ (placeSpans off shapes).2 ≤ limit := by
  constructor
  · intro hall
    obtain ⟨sp, hsp, hstop⟩ := exists_last_span off h
    exact hstop ▸ hall sp hsp
  · exact fun hle sp hsp => Nat.le_trans ((placeSpans_chained off shapes).within hsp).2 hle

end RiceVM.Limbo
