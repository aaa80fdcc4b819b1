import RiceVM.Limbo.CallArgs
import Mathlib.Data.List.Induction

/-!
Calls of functions of the same file. The caller lays the arguments out by what it takes the
argument expressions to be, the callee finds its parameters by their declared types.
-/
namespace RiceVM.Limbo
open Span

structure Param where
  names : List String
  ty : Ty

/-- The width and alignment of a parameter in the frame. -/
def paramShape (ty : Ty) : Nat × Nat :=
  match ty with
  | .tuple fields => ((computeTupleLayout fields).size, (Ty.tuple fields).align)
  | _ => ((typeNumKind ty).byteSize, (typeNumKind ty).byteSize)

/-- Where a function finds the names of a parameter, `nil` included, and the offset after. -/
def placeParam (off : Nat) (ty : Ty) : List String → List (String × Span) × Nat
  | [] => ([], off)
  | name :: names =>
    let start := alignArg off (paramShape ty).2
    let rest := placeParam (start + (paramShape ty).1) ty names
    ((name, ⟨start, (paramShape ty).1⟩) :: rest.1, rest.2)

def placeParams (off : Nat) : List Param → List (String × Span) × Nat
  | [] => ([], off)
  | p :: params =>
    let here := placeParam off p.ty p.names
    let rest := placeParams here.2 params
    (here.1 ++ rest.1, rest.2)

/-- The frame a function has while its code is generated. -/
structure FrameState where
  nextLocal : Nat
  frameSize : Nat
  deriving DecidableEq, Repr

namespace FrameState

def growFrame (f : FrameState) : FrameState :=
  if f.nextLocal > f.frameSize - 8 then { f with frameSize := alignUp (f.nextLocal + 24) 8 } else f

/-- Reserve a slot, as `alloc_local` and `alloc_temp` do. -/
def alloc (f : FrameState) (size : Nat) : FrameState :=
  { f with nextLocal := f.nextLocal + size }.growFrame

/-- The frame as the function's body starts, after its parameters. -/
def afterParams (params : List Param) : FrameState where
  nextLocal := max (placeParams argStart params).2 40
  frameSize := 80

end FrameState

/-- The size in the descriptor of a function whose body reserves slots of these sizes. -/
def frameSizeOf (params : List Param) (allocs : List Nat) : Nat :=
  (allocs.foldl FrameState.alloc (FrameState.afterParams params)).frameSize

mutual
/-- The words and double words of a value, by offset and width. A tuple without fields, which
no program has, counts as one word. -/
def Ty.leaves : Ty → List Span
  | .tuple [] => [⟨0, 4⟩]
  | .tuple (ty :: fields) => leavesFrom 0 (ty :: fields)
  | .basic .big | .basic .real => [⟨0, 8⟩]
  | _ => [⟨0, 4⟩]

def leavesFrom (off : Nat) : List Ty → List Span
  | [] => []
  | ty :: fields =>
    let start := alignUp off ty.align
    ty.leaves.map (fun s => ⟨start + s.off, s.size⟩) ++ leavesFrom (start + ty.size) fields
end

def Move.span (m : Move) : Span := ⟨m.dst, moveWidth m.op⟩

/-- The fields of a tuple, each as wide as its numeric kind. -/
def kindSpans (fields : List Ty) : List Span :=
  (placeFields 0 fields).1.map fun f => ⟨f.2, (typeNumKind f.1).byteSize⟩

/-- An argument expression, with the tables where it is evaluated and its type. -/
structure TypedExpr where
  scope : Scope
  expr : Expr
  ty : Ty

namespace TypedExpr

def slot (e : TypedExpr) : ArgSlot := genArgValue e.scope e.expr

/-- One move is made for each word or double word of the declared type. -/
def MovedByType (e : TypedExpr) : Prop := (e.slot.moves 0).map Move.span = e.ty.leaves

instance (e : TypedExpr) : Decidable e.MovedByType := by
  unfold MovedByType; infer_instance

/-- What the compiler takes the value for has the words and double words of the declared type: a
tuple whose fields are those, or a value of their numeric kind. -/
def Taken (e : TypedExpr) : Prop :=
  match tupleFieldsOf e.scope e.expr with
  | some fields => kindSpans fields = e.ty.leaves
  | none => e.ty.leaves = [⟨0, (inferNumKind e.scope e.expr).byteSize⟩]

/-- The width of what the compiler takes the value for. -/
def takenSize (e : TypedExpr) : Nat :=
  match tupleFieldsOf e.scope e.expr with
  | some fields => (Ty.tuple fields).size
  | none => (inferNumKind e.scope e.expr).byteSize

end TypedExpr

theorem fieldAligns_eq (fields : List Ty) : fieldAligns fields = fields.map Ty.align := by
  induction fields with
  | nil => rfl
  | cons ty fields ih => rw [fieldAligns, ih, List.map_cons]

theorem tuple_align (fields : List Ty) :
    (Ty.tuple fields).align = ((fields.map Ty.align).max?).getD 4 := by
  rw [Ty.align, typeSizeAlign, fieldAligns_eq]

/-- A tuple is aligned to eight bytes when one of its fields is. -/
theorem tuple_align_eight_iff (fields : List Ty) :
    (Ty.tuple fields).align = 8 ↔ ∃ ty ∈ fields, ty.align = 8 := by
  rw [tuple_align]
  constructor
  · intro h
    cases hmax : (fields.map Ty.align).max? with
    | none => simp [hmax] at h
    | some a =>
        rw [hmax, Option.getD_some] at h
        obtain ⟨ty, hty, halign⟩ := List.mem_map.mp (List.max?_mem hmax)
        exact ⟨ty, hty, halign.trans h⟩
  · rintro ⟨ty, hty, halign⟩
    cases hmax : (fields.map Ty.align).max? with
    | none =>
        rw [List.max?_eq_none_iff, List.map_eq_nil_iff] at hmax
        exact absurd hty (hmax ▸ List.not_mem_nil)
    | some a =>
        have hle : 8 ≤ a := halign ▸ (List.max?_le_iff hmax).mp (Nat.le_refl a) _ (List.mem_map_of_mem hty)
        obtain ⟨other, -, rfl⟩ := List.mem_map.mp (List.max?_mem hmax)
        rcases align_isAlign other with h | h
        · omega
        · exact h

theorem le_placeFields (off : Nat) (fields : List Ty) :
    off + 4 * fields.length ≤ (placeFields off fields).2 ∧
      ∀ ty ∈ fields, off + 4 * fields.length + (ty.size - 4) ≤ (placeFields off fields).2 := by
  induction fields generalizing off with
  | nil => simp [placeFields]
  | cons ty fields ih =>
      obtain ⟨hlen, hfields⟩ := ih (alignUp off ty.align + ty.size)
      have hoff := le_alignUp off (align_isAlign ty).pos
      have hsize := four_le_size ty
      have hcons : (placeFields off (ty :: fields)).2 =
          (placeFields (alignUp off ty.align + ty.size) fields).2 := by rw [placeFields]
      rw [hcons, List.length_cons, List.forall_mem_cons]
      refine ⟨by omega, by omega, fun t ht => ?_⟩
      have := hfields t ht
      omega

theorem tuple_size_le (fields : List Ty) : (placeFields 0 fields).2 ≤ (Ty.tuple fields).size := by
  have := @le_alignUp (placeFields 0 fields).2 4 (by decide)
  rw [Ty.size, typeSizeAlign]
  omega

mutual
theorem align_le_size : ∀ ty : Ty, ty.align ≤ ty.size
  | .tuple fields => by
      rcases align_isAlign (.tuple fields) with h | h
      · exact h ▸ four_le_size _
      · obtain ⟨ty, hty, halign⟩ := (tuple_align_eight_iff fields).mp h
        have hsize := align_le_size_of_mem fields ty hty
        have hend := (le_placeFields 0 fields).2 ty hty
        have hle := tuple_size_le fields
        have hlen := List.length_pos_of_mem hty
        omega
  | .basic b => by cases b <;> simp [Ty.size, Ty.align, typeSizeAlign]
  | .array _ | .list _ | .chan _ | .bufChan _ | .ref _ | .func | .named _ | .module => by
      simp [Ty.size, Ty.align, typeSizeAlign]

theorem align_le_size_of_mem : ∀ (fields : List Ty), ∀ ty ∈ fields, ty.align ≤ ty.size
  | [] => by simp
  | ty :: fields => by
      intro t ht
      rcases List.mem_cons.mp ht with heq | ht
      · exact heq ▸ align_le_size ty
      · exact align_le_size_of_mem fields t ht
end

mutual
/-- A type is aligned to eight bytes when it has a double word. -/
theorem align_eight_iff : ∀ ty : Ty, ty.align = 8 ↔ ∃ s ∈ ty.leaves, s.size = 8
  | .tuple [] => by simp [Ty.leaves, tuple_align]
  | .tuple (ty :: fields) => by
      rw [tuple_align_eight_iff, Ty.leaves]
      exact fields_eight_iff 0 (ty :: fields)
  | .basic b => by cases b <;> simp [Ty.leaves, Ty.align, typeSizeAlign]
  | .array _ | .list _ | .chan _ | .bufChan _ | .ref _ | .func | .named _ | .module => by
      simp [Ty.leaves, Ty.align, typeSizeAlign]

theorem fields_eight_iff (off : Nat) : ∀ fields : List Ty,
    (∃ ty ∈ fields, ty.align = 8) ↔ ∃ s ∈ leavesFrom off fields, s.size = 8
  | [] => by simp [leavesFrom]
  | ty :: fields => by
      have hhead := align_eight_iff ty
      have hrest := fields_eight_iff (alignUp off ty.align + ty.size) fields
      rw [leavesFrom]
      simp only [List.mem_cons, or_and_right, exists_or, exists_eq_left, List.mem_append, hrest,
        hhead, List.mem_map]
      refine or_congr_left ⟨?_, ?_⟩
      · rintro ⟨s, hs, hsize⟩
        exact ⟨_, ⟨s, hs, rfl⟩, hsize⟩
      · rintro ⟨_, ⟨s, hs, rfl⟩, hsize⟩
        exact ⟨s, hs, hsize⟩
end

mutual
/-- Without double words, the words of a value are packed. -/
theorem size_of_words : ∀ ty : Ty, (∀ s ∈ ty.leaves, s.size ≠ 8) →
    ty.size = 4 * ty.leaves.length
  | .tuple [], _ => rfl
  | .tuple (ty :: fields), h => by
      rw [Ty.leaves] at h
      have hend := end_of_words 0 (ty :: fields) (Nat.dvd_zero 4) h
      have hpos : 0 < (leavesFrom 0 (ty :: fields)).length := by
        have := (le_placeFields 0 (ty :: fields)).1
        rw [List.length_cons] at this
        omega
      have hround : alignUp (placeFields 0 (ty :: fields)).2 4 =
          (placeFields 0 (ty :: fields)).2 := by
        simp only [alignUp]
        omega
      rw [Ty.leaves, Ty.size, typeSizeAlign]
      change max (alignUp (placeFields 0 (ty :: fields)).2 4) 4 = _
      omega
  | .basic b, h => by
      cases b with
      | big | real => exact absurd rfl (h _ List.mem_cons_self)
      | int | byte | string => rfl
  | .array _, _ | .list _, _ | .chan _, _ | .bufChan _, _ | .ref _, _ | .func, _ | .named _, _
  | .module, _ => rfl

theorem end_of_words (off : Nat) : ∀ fields : List Ty, 4 ∣ off →
    (∀ s ∈ leavesFrom off fields, s.size ≠ 8) →
    (placeFields off fields).2 = off + 4 * (leavesFrom off fields).length
  | [], _, _ => rfl
  | ty :: fields, hoff, h => by
      rw [leavesFrom] at h
      have hhead : ∀ s ∈ ty.leaves, s.size ≠ 8 := fun s hs =>
        h ⟨alignUp off ty.align + s.off, s.size⟩
          (List.mem_append_left _ (List.mem_map.mpr ⟨s, hs, rfl⟩))
      have halign : ty.align = 4 := (align_isAlign ty).resolve_right fun h8 => by
        obtain ⟨s, hs, hsize⟩ := (align_eight_iff ty).mp h8
        exact hhead s hs hsize
      have hstart : alignUp off ty.align = off := by
        rw [halign, alignUp]
        omega
      have hsize := size_of_words ty hhead
      have hrest := end_of_words (alignUp off ty.align + ty.size) fields
        (Nat.dvd_add (four_dvd_alignUp off ty) (four_dvd_size ty))
        fun s hs => h s (List.mem_append_right _ hs)
      have hcons : (placeFields off (ty :: fields)).2 =
          (placeFields (alignUp off ty.align + ty.size) fields).2 := by rw [placeFields]
      rw [hcons, hrest, leavesFrom, List.length_append, List.length_map]
      omega
end

theorem paramShape_eq (ty : Ty) : paramShape ty = (ty.size, ty.align) := by
  unfold paramShape
  split
  · rw [Ty.size, typeSizeAlign]
    rfl
  · unfold typeNumKind Ty.size Ty.align typeSizeAlign
    split <;> simp_all [NumKind.byteSize]

theorem moveWidth_eq (ty : Ty) :
    moveWidth (movOpcodeForType ty) = (typeNumKind ty).byteSize := by
  cases ty with
  | basic b => cases b <;> rfl
  | array _ | list _ | chan _ | bufChan _ | ref _ | tuple _ | func | named _ | module => rfl

mutual
theorem leaves_ne_nil : ∀ ty : Ty, ty.leaves ≠ []
  | .tuple [] => by simp [Ty.leaves]
  | .tuple (ty :: fields) => by
      rw [Ty.leaves]
      have hpos := length_le_leavesFrom 0 (ty :: fields)
      exact List.ne_nil_of_length_pos (Nat.lt_of_lt_of_le (Nat.succ_pos _) hpos)
  | .basic b => by cases b <;> simp [Ty.leaves]
  | .array _ | .list _ | .chan _ | .bufChan _ | .ref _ | .func | .named _ | .module => by
      simp [Ty.leaves]

theorem length_le_leavesFrom (off : Nat) :
    ∀ fields : List Ty, fields.length ≤ (leavesFrom off fields).length
  | [] => Nat.zero_le _
  | ty :: fields => by
      have hhead := List.length_pos_iff.mpr (leaves_ne_nil ty)
      have hrest := length_le_leavesFrom (alignUp off ty.align + ty.size) fields
      rw [leavesFrom, List.length_append, List.length_map, List.length_cons]
      omega
end

/-- The fields of a tuple are its words where each is a single one of its numeric kind. -/
theorem kindSpans_eq_iff (off : Nat) (fields : List Ty) :
    (placeFields off fields).1.map (fun f => (⟨f.2, (typeNumKind f.1).byteSize⟩ : Span)) =
        leavesFrom off fields ↔
      ∀ ty ∈ fields, ty.leaves = [⟨0, (typeNumKind ty).byteSize⟩] := by
  induction fields generalizing off with
  | nil => simp [placeFields, leavesFrom]
  | cons ty fields ih =>
      have hrest := ih (alignUp off ty.align + ty.size)
      rw [placeFields, leavesFrom, List.forall_mem_cons, List.map_cons]
      constructor
      · intro h
        have hlen := congrArg List.length h
        have hle := length_le_leavesFrom (alignUp off ty.align + ty.size) fields
        have hpos := List.length_pos_iff.mpr (leaves_ne_nil ty)
        have hplaced : (placeFields (alignUp off ty.align + ty.size) fields).1.length =
            fields.length := by
          rw [← List.length_map (f := (·.1)), placeFields_types]
        simp only [List.length_cons, List.length_append, List.length_map] at hlen
        change (placeFields (alignUp off ty.align + ty.size) fields).1.length + 1 = _ at hlen
        obtain ⟨s, hs⟩ := List.length_eq_one_iff.mp (show ty.leaves.length = 1 by omega)
        rw [hs, List.map_singleton, List.singleton_append, List.cons.injEq, Span.mk.injEq] at h
        obtain ⟨⟨hoff, hsize⟩, htail⟩ := h
        refine ⟨?_, hrest.mp htail⟩
        have hzero : s.off = 0 := Nat.add_left_cancel (n := alignUp off ty.align) hoff.symm
        rw [hs, hsize, ← hzero]
      · rintro ⟨hhead, htail⟩
        rw [hrest.mpr htail, hhead]
        rfl

theorem moveWidth_movOpcode {ty : Ty} (h : moveWidth (movOpcodeForType ty) = 8) :
    ty.align = 8 := by
  unfold movOpcodeForType at h
  split at h <;> simp_all [moveWidth, Ty.align, typeSizeAlign]

namespace TypedExpr

variable {e : TypedExpr}

theorem slot_of_tuple {fields : List Ty} (h : tupleFieldsOf e.scope e.expr = some fields) :
    e.slot.tuple = some (computeTupleLayout fields) ∧ e.slot.align = (Ty.tuple fields).align ∧
      e.slot.size = (Ty.tuple fields).size := by
  have htypes : (computeTupleLayout fields).fields.map (·.1.align) = fields.map Ty.align := by
    rw [← placeFields_types 0 fields, List.map_map, placeFields_types]
    rfl
  simp only [slot, genArgValue, h, ArgSlot.size, tuple_align, htypes]
  exact ⟨trivial, trivial, by rw [Ty.size, typeSizeAlign]; rfl⟩

theorem slot_of_scalar (h : tupleFieldsOf e.scope e.expr = none) :
    ∃ op, e.slot.tuple = none ∧ e.slot.op = op ∧
      moveWidth op = (inferNumKind e.scope e.expr).byteSize ∧
      e.slot.align = (inferNumKind e.scope e.expr).byteSize := by
  refine ⟨e.slot.op, ?_, rfl, ?_, ?_⟩
  · simp only [slot, genArgValue, h]
  · simp only [slot, genArgValue, h]
    cases inferNumKind e.scope e.expr <;> cases inferExprType e.scope e.expr <;> rfl
  · simp only [slot, genArgValue, h]

theorem moved_iff_taken : e.MovedByType ↔ e.Taken := by
  unfold MovedByType Taken
  cases h : tupleFieldsOf e.scope e.expr with
  | none =>
      obtain ⟨op, htuple, hop, hwidth, -⟩ := slot_of_scalar h
      simp only [ArgSlot.moves, htuple, hop, List.map_cons, List.map_nil, Move.span, hwidth]
      exact eq_comm
  | some fields =>
      obtain ⟨htuple, -, -⟩ := slot_of_tuple h
      simp only [ArgSlot.moves, htuple, computeTupleLayout, List.map_map, Function.comp_def,
        Move.span, Nat.zero_add, moveWidth_eq, kindSpans]

theorem slot_size : e.slot.size = e.takenSize := by
  unfold takenSize
  cases h : tupleFieldsOf e.scope e.expr with
  | none => simp only [slot, genArgValue, h, ArgSlot.size]
  | some fields => exact (slot_of_tuple h).2.2

/-- A tuple that is taken for its own type has its words unless one of its fields is a tuple in
turn, of several words or of a double word. -/
theorem taken_own_iff {fields : List Ty} (h : tupleFieldsOf e.scope e.expr = some fields)
    (hty : e.ty = .tuple fields) (hne : fields ≠ []) :
    e.Taken ↔ ∀ ty ∈ fields, ty.leaves = [⟨0, (typeNumKind ty).byteSize⟩] := by
  simp only [Taken, h, hty]
  obtain ⟨ty, fields, rfl⟩ := List.exists_cons_of_ne_nil hne
  rw [Ty.leaves]
  exact kindSpans_eq_iff 0 (ty :: fields)

/-- Slots that hold the words of a type and are as wide are aligned alike. -/
theorem slot_align (hmoved : e.MovedByType) (hsize : e.slot.size = e.ty.size) :
    e.slot.align = e.ty.align := by
  have height := align_eight_iff e.ty
  rw [← hmoved] at height
  cases h : tupleFieldsOf e.scope e.expr with
  | none =>
      obtain ⟨op, htuple, hop, hwidth, halign⟩ := slot_of_scalar h
      have hmoves : (e.slot.moves 0).map Move.span = [⟨0, moveWidth op⟩] := by
        simp only [ArgSlot.moves, htuple, hop, List.map_cons, List.map_nil, Move.span]
      rw [hmoves] at height
      simp only [List.mem_singleton, exists_eq_left, hwidth, ← halign] at height
      rcases align_isAlign e.ty with h4 | h8
      · rw [h4] at height ⊢
        cases hkind : inferNumKind e.scope e.expr <;> simp_all [NumKind.byteSize]
      · rw [h8]
        exact height.mp h8
  | some fields =>
      obtain ⟨htuple, halign, hslot⟩ := slot_of_tuple h
      have hmoves : (e.slot.moves 0).map Move.span =
          (placeFields 0 fields).1.map fun f => ⟨f.2, moveWidth (movOpcodeForType f.1)⟩ := by
        simp only [ArgSlot.moves, htuple, computeTupleLayout, List.map_map, Function.comp_def,
          Move.span, Nat.zero_add]
      rcases align_isAlign (.tuple fields) with h4 | h8
      · rcases align_isAlign e.ty with ht4 | ht8
        · rw [halign, h4, ht4]
        · -- A double word of the type is moved as one, so it is a field of the slot's tuple.
          obtain ⟨s, hs, hwidth⟩ := height.mp ht8
          rw [hmoves] at hs
          obtain ⟨f, hf, rfl⟩ := List.mem_map.mp hs
          have hfield : f.1 ∈ fields := placeFields_types 0 fields ▸ List.mem_map_of_mem hf
          have := (tuple_align_eight_iff fields).mpr ⟨f.1, hfield, moveWidth_movOpcode hwidth⟩
          omega
      · rcases align_isAlign e.ty with ht4 | ht8
        · -- A tuple of as many fields as the type has words, one of them wider, is too wide.
          have hwords := size_of_words e.ty fun s hs h8 => by
            have := height.mpr ⟨s, hmoved ▸ hs, h8⟩
            omega
          have hlen : e.ty.leaves.length = fields.length := by
            rw [← hmoved, hmoves, List.length_map, ← List.length_map (f := (·.1)),
              placeFields_types]
          obtain ⟨ty, hty, hty8⟩ := (tuple_align_eight_iff fields).mp h8
          have hwide := (le_placeFields 0 fields).2 ty hty
          have := align_le_size ty
          have := tuple_size_le fields
          omega
        · rw [halign, h8, ht8]

end TypedExpr

/-- Where a caller wants the result of a call. -/
inductive ResultSlot where
  /-- Nowhere: `ret_tmp` takes it. -/
  | dropped
  /-- In a temp of the numeric kind `infer_num_kind` finds, the declared return type's. -/
  | operand
  /-- In the variable or block of a value of this type. -/
  | typed (ty : Ty)

/-- A call, with the callee's declaration. A spawn has no result, so neither `ret` nor `returns`. -/
structure LocalCall where
  params : List Param
  /-- The slots the callee's body reserves. -/
  allocs : List Nat
  ret : Option Ty
  /-- The expressions the callee returns. -/
  returns : List TypedExpr
  args : List TypedExpr
  result : ResultSlot

namespace LocalCall

def paramTypes (c : LocalCall) : List Ty := c.params.flatMap fun p => p.names.map fun _ => p.ty

/-- The arguments have the types of the parameters, and what is returned the return type. -/
structure WellTyped (c : LocalCall) : Prop where
  args : c.args.map (·.ty) = c.paramTypes
  returns : ∀ e ∈ c.returns, some e.ty = c.ret
  result : ∀ ty, c.result = .typed ty → c.ret = some ty

/-- The width of the slot the result goes to. -/
def resultWidth (c : LocalCall) : Nat :=
  match c.result with
  | .typed ty => ty.size
  | .dropped | .operand => ((c.ret.map typeNumKind).getD .word).byteSize

def stored (c : LocalCall) : List Span := (storeArgs argStart (c.args.map (·.slot))).1

/-- Caller and callee agree: each argument is stored where its parameter is read and in moves
of the parameter's words, the arguments lie apart and inside the callee's frame, and what is
returned is moved whole into a slot that is wide enough. -/
structure Agrees (c : LocalCall) : Prop where
  offsets : c.stored = (placeParams argStart c.params).1.map (·.2)
  moved : ∀ a ∈ c.args, a.MovedByType
  apart : c.stored.Pairwise fun s t => s.stop ≤ t.off
  inside : ∀ s ∈ c.stored, s.stop ≤ frameSizeOf c.params c.allocs
  returned : ∀ e ∈ c.returns, e.MovedByType
  room : ∀ ty, c.ret = some ty → (paramShape ty).1 ≤ c.resultWidth

/-- When caller and callee agree. -/
structure Fits (c : LocalCall) : Prop where
  /-- Each argument is taken for a value with the words and the width of its type. -/
  args : ∀ a ∈ c.args, a.Taken ∧ a.takenSize = a.ty.size
  /-- A body that reserves no slot leaves the frame at 80 bytes. -/
  frame : c.allocs ≠ [] ∨ (placeParams argStart c.params).2 ≤ 80
  returns : ∀ e ∈ c.returns, e.Taken
  /-- A tuple of several words is not dropped and no operand. -/
  room : ∀ ty, c.ret = some ty → (∃ t, c.result = .typed t) ∨ ty.size = (typeNumKind ty).byteSize

theorem placeParam_eq (off : Nat) (ty : Ty) (names : List String) :
    (placeParam off ty names).1.map (·.2) =
        (placeSpans off (names.map fun _ => paramShape ty)).1 ∧
      (placeParam off ty names).2 = (placeSpans off (names.map fun _ => paramShape ty)).2 := by
  induction names generalizing off with
  | nil => exact ⟨rfl, rfl⟩
  | cons name names ih =>
      obtain ⟨hspans, hend⟩ := ih (alignArg off (paramShape ty).2 + (paramShape ty).1)
      simp only [placeParam, List.map_cons, placeSpans, hspans, hend, and_self]

/-- Parameters are placed by their types, however they are grouped. -/
theorem placeParams_eq (off : Nat) (params : List Param) :
    let shapes := (params.flatMap fun p => p.names.map fun _ => p.ty).map paramShape
    (placeParams off params).1.map (·.2) = (placeSpans off shapes).1 ∧
      (placeParams off params).2 = (placeSpans off shapes).2 := by
  induction params generalizing off with
  | nil => exact ⟨rfl, rfl⟩
  | cons p params ih =>
      obtain ⟨hhere, hnext⟩ := placeParam_eq off p.ty p.names
      obtain ⟨hspans, hend⟩ := ih (placeParam off p.ty p.names).2
      obtain ⟨happ, happ'⟩ := placeSpans_append off (p.names.map fun _ => paramShape p.ty)
        ((params.flatMap fun p => p.names.map fun _ => p.ty).map paramShape)
      simp only [placeParams, List.flatMap_cons, List.map_append, List.map_map,
        Function.comp_def] at *
      rw [happ, happ', hhere, hspans, hend, hnext]
      exact ⟨rfl, rfl⟩

theorem stored_eq_iff (off : Nat) {args : List TypedExpr} (h : ∀ a ∈ args, a.MovedByType) :
    (storeArgs off (args.map (·.slot))).1 =
        (placeSpans off (args.map fun a => paramShape a.ty)).1 ↔
      ∀ a ∈ args, a.slot.size = (paramShape a.ty).1 := by
  induction args generalizing off with
  | nil => simp [storeArgs, placeSpans]
  | cons a args ih =>
      have hmoved := h a List.mem_cons_self
      have hrest := fun off => ih off fun b hb => h b (List.mem_cons_of_mem _ hb)
      simp only [List.map_cons, storeArgs, placeSpans, List.cons.injEq, Span.mk.injEq,
        List.forall_mem_cons]
      constructor
      · rintro ⟨⟨hstart, hsize⟩, htail⟩
        rw [hstart, hsize] at htail
        exact ⟨hsize, (hrest _).mp htail⟩
      · rintro ⟨hsize, htail⟩
        have halign : a.slot.align = (paramShape a.ty).2 := by
          rw [paramShape_eq] at hsize ⊢
          exact TypedExpr.slot_align hmoved hsize
        rw [hsize, halign]
        exact ⟨⟨rfl, rfl⟩, (hrest _).mpr htail⟩

theorem alloc_grows (f : FrameState) (size : Nat) (h : 80 ≤ f.frameSize) :
    f.nextLocal ≤ (f.alloc size).nextLocal ∧ f.frameSize ≤ (f.alloc size).frameSize ∧
      (f.alloc size).nextLocal ≤ (f.alloc size).frameSize := by
  have := @le_alignUp (f.nextLocal + size + 24) 8 (by decide)
  simp only [FrameState.alloc, FrameState.growFrame]
  split
  · dsimp only at *
    omega
  · dsimp only at *
    omega

theorem foldl_alloc_grows (allocs : List Nat) (f : FrameState) (h : 80 ≤ f.frameSize) :
    let after := allocs.foldl FrameState.alloc f
    f.nextLocal ≤ after.nextLocal ∧ f.frameSize ≤ after.frameSize ∧
      (allocs ≠ [] → after.nextLocal ≤ after.frameSize) := by
  induction allocs using List.reverseRecOn with
  | nil => simp
  | append_singleton allocs size ih =>
      obtain ⟨hnext, hframe, -⟩ := ih
      obtain ⟨hn, hf, hle⟩ := alloc_grows (allocs.foldl FrameState.alloc f) size (by omega)
      rw [List.foldl_append]
      exact ⟨Nat.le_trans hnext hn, Nat.le_trans hframe hf, fun _ => hle⟩

/-- The parameters lie in the frame once the body has reserved a slot, or if they end in the
80 bytes a frame starts with. -/
theorem params_inside_iff (params : List Param) (allocs : List Nat) :
    (∀ s ∈ (placeParams argStart params).1.map (·.2), s.stop ≤ frameSizeOf params allocs) ↔
      allocs ≠ [] ∨ (placeParams argStart params).2 ≤ 80 := by
  obtain ⟨hspans, hend⟩ := placeParams_eq argStart params
  have hchain := placeSpans_chained argStart
    ((params.flatMap fun p => p.names.map fun _ => p.ty).map paramShape)
  have hgrow := foldl_alloc_grows allocs (FrameState.afterParams params) (Nat.le_refl 80)
  simp only [FrameState.afterParams] at hgrow
  rw [hspans]
  by_cases hallocs : allocs = []
  · subst hallocs
    simp only [ne_eq, not_true_eq_false, false_or]
    change (∀ s ∈ (placeSpans argStart
      ((params.flatMap fun p => p.names.map fun _ => p.ty).map paramShape)).1, s.stop ≤ 80) ↔ _
    by_cases hnil : (params.flatMap fun p => p.names.map fun _ => p.ty).map paramShape = []
    · rw [hend, hnil]
      simp [placeSpans, argStart]
    · rw [hend, placeSpans_inside_iff argStart 80 hnil]
  · refine iff_of_true (fun s hs => ?_) (.inl hallocs)
    have hle := hgrow.2.2 hallocs
    have hstop := (hchain.within hs).2
    rw [frameSizeOf, FrameState.afterParams]
    omega

theorem kind_le_size (ty : Ty) : (typeNumKind ty).byteSize ≤ ty.size := by
  have h := four_le_size ty
  unfold typeNumKind
  split
  · exact Nat.le_refl _
  · exact Nat.le_refl _
  · exact h

/-- The slot is wide enough unless a tuple of several words goes to one of a numeric kind. -/
theorem room_iff {c : LocalCall} (h : c.WellTyped) (ty : Ty) (hret : c.ret = some ty) :
    (paramShape ty).1 ≤ c.resultWidth ↔
      (∃ t, c.result = .typed t) ∨ ty.size = (typeNumKind ty).byteSize := by
  have hle := kind_le_size ty
  rw [paramShape_eq, resultWidth]
  cases hresult : c.result with
  | typed t =>
      have heq : t = ty := Option.some.inj ((h.result t hresult).symm.trans hret)
      exact iff_of_true (heq ▸ Nat.le_refl _) (.inl ⟨t, rfl⟩)
  | dropped | operand =>
      rw [hret]
      simp only [Option.map_some, Option.getD_some, reduceCtorEq, exists_false, false_or]
      omega

/-- `f(1, x)` for `f(a: int, b: big): int { return a; }` with `x` a variable of type big. -/
def callsBig : LocalCall :=
  let scope : Scope := { locals := [("x", 40, .word, .big)] }
  { params := [⟨["a"], .basic .int⟩, ⟨["b"], .basic .big⟩]
    allocs := [4]
    ret := some (.basic .int)
    returns := [⟨{ locals := [("a", 32, .word, .word)] }, .ident "a", .basic .int⟩]
    args := [⟨scope, .intLit 1, .basic .int⟩, ⟨scope, .ident "x", .basic .big⟩]
    result := .typed (.basic .int) }

/-- `f(t)` for `f(t: ((int, int), int))` with `t` such a variable: the inner tuple's second
word stays behind. -/
def callsNested : LocalCall :=
  let ty : Ty := .tuple [.tuple [.basic .int, .basic .int], .basic .int]
  let scope : Scope :=
    { locals := [("t", 40, .word, .word)]
      localTuple := fun name =>
        if name = "t" then some [.tuple [.basic .int, .basic .int], .basic .int] else none }
  { params := [⟨["t"], ty⟩]
    allocs := [4]
    ret := none
    returns := []
    args := [⟨scope, .ident "t", ty⟩]
    result := .dropped }

end LocalCall
end RiceVM.Limbo
