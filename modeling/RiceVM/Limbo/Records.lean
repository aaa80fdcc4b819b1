import RiceVM.Lib.Span
import RiceVM.Limbo.Layout

/-!
Fields of records and tuples lie apart and inside their record, and the pointer map names every
word the compiler's moves put a reference in, but for references inside a tuple's tuples.
-/
namespace RiceVM.Limbo
open Span

theorem le_alignUp (off : Nat) {align : Nat} (h : 0 < align) : off ≤ alignUp off align := by
  have := Nat.div_add_mod (off + align - 1) align
  have := Nat.mod_lt (off + align - 1) h
  rw [alignUp, Nat.mul_comm]
  omega

theorem dvd_alignUp (off align : Nat) : align ∣ alignUp off align := Nat.dvd_mul_left ..

/-- An alignment is four bytes or eight. -/
def IsAlign (a : Nat) : Prop := a = 4 ∨ a = 8

theorem IsAlign.four_dvd {a : Nat} (h : IsAlign a) : 4 ∣ a := by
  rcases h with rfl | rfl <;> decide

theorem IsAlign.pos {a : Nat} (h : IsAlign a) : 0 < a := by
  rcases h with rfl | rfl <;> decide

theorem isAlign_max {aligns : List Nat} (h : ∀ a ∈ aligns, IsAlign a) :
    IsAlign (aligns.max?.getD 4) := by
  cases hmax : aligns.max? with
  | none => exact .inl rfl
  | some a => exact h a (List.max?_mem hmax)

mutual
theorem align_isAlign : ∀ ty : Ty, IsAlign ty.align
  | .basic .big | .basic .real => .inr rfl
  | .tuple fields => by
      rw [Ty.align, typeSizeAlign]
      exact isAlign_max (fieldAligns_isAlign fields)
  | .basic .int | .basic .byte | .basic .string => .inl rfl
  | .array _ | .list _ | .chan _ | .bufChan _ | .ref _ | .func | .named _ | .module => .inl rfl

theorem fieldAligns_isAlign : ∀ (fields : List Ty), ∀ a ∈ fieldAligns fields, IsAlign a
  | [] => by simp [fieldAligns]
  | ty :: fields => by
      rw [fieldAligns]
      intro a ha
      rcases List.mem_cons.mp ha with rfl | ha
      · exact align_isAlign ty
      · exact fieldAligns_isAlign fields a ha
end

theorem four_dvd_alignUp (off : Nat) (ty : Ty) : 4 ∣ alignUp off ty.align :=
  Nat.dvd_trans (align_isAlign ty).four_dvd (dvd_alignUp _ _)

theorem four_dvd_size (ty : Ty) : 4 ∣ ty.size := by
  unfold Ty.size typeSizeAlign
  split
  · exact ⟨2, rfl⟩
  · exact ⟨2, rfl⟩
  · rcases Nat.le_total (alignUp (placeFields 0 _).2 4) 4 with h | h
    · exact (Nat.max_eq_right h).symm ▸ ⟨1, rfl⟩
    · exact (Nat.max_eq_left h).symm ▸ dvd_alignUp _ _
  · exact ⟨1, rfl⟩

theorem four_le_size (ty : Ty) : 4 ≤ ty.size := by
  unfold Ty.size typeSizeAlign
  split
  · decide
  · decide
  · exact Nat.le_max_right _ _
  · exact Nat.le_refl _

/-- What a placed field of a tuple covers. -/
def spanOf (f : Ty × Nat) : Span := ⟨f.2, f.1.size⟩

def Field.span (f : Field) : Span := ⟨f.off, f.ty.size⟩

theorem placeFields_chained (off : Nat) (fields : List Ty) :
    Chained off (placeFields off fields).2 ((placeFields off fields).1.map spanOf) := by
  induction fields generalizing off with
  | nil => exact Nat.le_refl _
  | cons ty fields ih =>
      simp only [placeFields, List.map_cons]
      exact ⟨le_alignUp _ (align_isAlign ty).pos, ih _⟩

theorem placeFields_aligned (off : Nat) (fields : List Ty) :
    ∀ f ∈ (placeFields off fields).1, f.1.align ∣ f.2 := by
  induction fields generalizing off with
  | nil => simp [placeFields]
  | cons ty fields ih =>
      intro f hf
      simp only [placeFields, List.mem_cons] at hf
      rcases hf with rfl | hf
      · exact dvd_alignUp _ _
      · exact ih _ f hf

theorem placeFields_types (off : Nat) (fields : List Ty) :
    (placeFields off fields).1.map (·.1) = fields := by
  induction fields generalizing off with
  | nil => rfl
  | cons ty fields ih => simp only [placeFields, List.map_cons, ih]

theorem placeNames_chained (ty : Ty) (off : Nat) (names : List String) :
    Chained off (off + names.length * ty.size) ((placeNames ty off names).map Field.span) := by
  induction names generalizing off with
  | nil => simp [placeNames, Chained]
  | cons name names ih =>
      refine ⟨Nat.le_refl _, ?_⟩
      have hlast : off + (name :: names).length * ty.size =
          off + ty.size + names.length * ty.size := by
        rw [List.length_cons, Nat.succ_mul]
        omega
      exact hlast ▸ ih (off + ty.size)

theorem layoutFields_chained (base : Nat) (decls : List VarDecl) :
    Chained base (layoutFields base decls).2 ((layoutFields base decls).1.map Field.span) := by
  induction decls generalizing base with
  | nil => exact Nat.le_refl _
  | cons v decls ih =>
      rw [layoutFields]
      split
      · exact ih base
      · next ty _ =>
        rw [List.map_append]
        exact ((placeNames_chained ty _ v.names).mono_left
          (le_alignUp _ (align_isAlign ty).pos)).append (ih _)

theorem placeNames_aligned {ty : Ty} {off : Nat} (hoff : ty.align ∣ off)
    (hsize : ty.align ∣ ty.size) (names : List String) :
    ∀ f ∈ placeNames ty off names, f.ty.align ∣ f.off := by
  induction names generalizing off with
  | nil => simp [placeNames]
  | cons name names ih =>
      intro f hf
      rcases List.mem_cons.mp hf with rfl | hf
      · exact hoff
      · exact ih (Nat.dvd_add hoff hsize) f hf

theorem placeNames_aligned_iff {ty : Ty} {off : Nat} (hoff : ty.align ∣ off)
    (names : List String) :
    (∀ f ∈ placeNames ty off names, f.ty.align ∣ f.off) ↔
      names.length ≤ 1 ∨ ty.align ∣ ty.size := by
  match names with
  | [] => simp [placeNames]
  | [_] => simpa [placeNames] using hoff
  | _ :: second :: names =>
      constructor
      · intro h
        have hsecond := h ⟨second, ty, off + ty.size⟩ (by simp [placeNames])
        exact .inr ((Nat.dvd_add_right hoff).mp hsecond)
      · rintro (h | h)
        · simp at h
        · exact placeNames_aligned hoff h _

/-- Every declaration names one field only, or fields whose width is a multiple of their
alignment. -/
def EvenlyPlaced (decls : List VarDecl) : Prop :=
  ∀ v ∈ decls, ∀ ty, v.ty = some ty → v.names.length ≤ 1 ∨ ty.align ∣ ty.size

theorem layoutFields_aligned_iff (base : Nat) (decls : List VarDecl) :
    (∀ f ∈ (layoutFields base decls).1, f.ty.align ∣ f.off) ↔ EvenlyPlaced decls := by
  induction decls generalizing base with
  | nil => simp [layoutFields, EvenlyPlaced]
  | cons v decls ih =>
      rw [layoutFields, EvenlyPlaced, List.forall_mem_cons]
      cases hty : v.ty with
      | none => simpa [EvenlyPlaced] using ih base
      | some ty =>
          simp only [List.forall_mem_append, placeNames_aligned_iff (dvd_alignUp _ _), ih,
            Option.some.injEq, forall_eq', EvenlyPlaced]

theorem placeNames_four_dvd {ty : Ty} {off : Nat} (hoff : 4 ∣ off) (names : List String) :
    ∀ f ∈ placeNames ty off names, 4 ∣ f.off := by
  induction names generalizing off with
  | nil => simp [placeNames]
  | cons name names ih =>
      intro f hf
      rcases List.mem_cons.mp hf with rfl | hf
      · exact hoff
      · exact ih (Nat.dvd_add hoff (four_dvd_size ty)) f hf

theorem layoutFields_four_dvd (base : Nat) (decls : List VarDecl) :
    ∀ f ∈ (layoutFields base decls).1, 4 ∣ f.off := by
  induction decls generalizing base with
  | nil => simp [layoutFields]
  | cons v decls ih =>
      rw [layoutFields]
      split
      · exact ih base
      · next ty _ =>
        intro f hf
        rcases List.mem_append.mp hf with hf | hf
        · exact placeNames_four_dvd (four_dvd_alignUp _ ty) _ f hf
        · exact ih _ f hf

/-- The bit of word `word` in a pointer map. -/
def bitAt (bytes : List Byte) (word : Nat) : Bool :=
  ((bytes[word / 8]?).getD 0#8).getMsbD (word % 8)

theorem mem_traceMap_iff {bytes : List Byte} {stride off : Nat} :
    off ∈ (TraceMap.new bytes stride).offsets ↔
      4 ∣ off ∧ off + 4 ≤ stride ∧ bitAt bytes (off / 4) := by
  simp only [TraceMap.new, List.mem_flatMap, Prod.exists, List.mem_filterMap, List.mem_range,
    List.mem_zipIdx_iff_getElem?, Option.ite_none_right_eq_some, Option.some.injEq,
    Bool.and_eq_true, decide_eq_true_eq, bitAt]
  constructor
  · rintro ⟨mapByte, byteIdx, hbyte, bit, hbit, ⟨hset, hroom⟩, rfl⟩
    have hdiv : (byteIdx * 8 + bit) * 4 / 4 / 8 = byteIdx := by omega
    have hmod : (byteIdx * 8 + bit) * 4 / 4 % 8 = bit := by omega
    exact ⟨Nat.dvd_mul_left .., hroom, by rw [hdiv, hmod, hbyte]; exact hset⟩
  · rintro ⟨hdvd, hroom, hset⟩
    have hoff : (off / 4 / 8 * 8 + off / 4 % 8) * 4 = off := by omega
    cases hbyte : bytes[off / 4 / 8]? with
    | none => simp [hbyte] at hset
    | some mapByte =>
        rw [hbyte] at hset
        exact ⟨mapByte, off / 4 / 8, hbyte, off / 4 % 8, by omega, ⟨hset, by omega⟩, hoff⟩

theorem getMsbD_bit : ∀ k < 8, ∀ j < 8, (1#8 <<< (7 - k)).getMsbD j = decide (k = j) := by decide

theorem bitAt_modify (bytes : List Byte) (v w : Nat) :
    bitAt (bytes.modify (v / 8) (· ||| (1#8 <<< (7 - v % 8)))) w =
      (bitAt bytes w || decide (v = w ∧ v / 8 < bytes.length)) := by
  have hbit := getMsbD_bit (v % 8) (Nat.mod_lt _ (by decide)) (w % 8) (Nat.mod_lt _ (by decide))
  rw [bitAt, bitAt, List.getElem?_modify]
  by_cases hvw : v / 8 = w / 8
  · cases hbyte : bytes[w / 8]? with
    | none =>
        have := List.getElem?_eq_none_iff.mp hbyte
        have : ¬ (v = w ∧ v / 8 < bytes.length) := by omega
        simp [this]
    | some byte =>
        have := (List.getElem?_eq_some_iff.mp hbyte).1
        have hiff : v % 8 = w % 8 ↔ v = w ∧ v / 8 < bytes.length := by omega
        simp [hvw, hbit, hiff]
  · have : v ≠ w := fun h => hvw (h ▸ rfl)
    simp [hvw, this]

theorem bitAt_foldl (size : Nat) (offsets : List Nat) (bytes : List Byte) (w : Nat)
    (hlen : ((size + 3) / 4 + 7) / 8 ≤ bytes.length) :
    bitAt (offsets.foldl (fun bytes off =>
      if off + 4 > size then bytes
      else bytes.modify (off / 4 / 8) (· ||| (1#8 <<< (7 - off / 4 % 8)))) bytes) w =
      (bitAt bytes w || offsets.any fun off => decide (off + 4 ≤ size ∧ off / 4 = w)) := by
  induction offsets generalizing bytes with
  | nil => simp
  | cons off offsets ih =>
      rw [List.foldl_cons, List.any_cons]
      by_cases hroom : off + 4 > size
      · have : ¬ (off + 4 ≤ size ∧ off / 4 = w) := by omega
        rw [if_pos hroom, ih bytes hlen, decide_eq_false this, Bool.false_or]
      · have hiff : (off / 4 = w ∧ off / 4 / 8 < bytes.length) ↔ (off + 4 ≤ size ∧ off / 4 = w) := by
          omega
        rw [if_neg hroom, ih _ (by simpa using hlen), bitAt_modify, Bool.or_assoc]
        simp only [hiff]

/-- The collector reads back from a pointer map the offsets it was made from. -/
theorem mem_pointerMapFor_iff {size off : Nat} {offsets : List Nat}
    (hdvd : ∀ o ∈ offsets, 4 ∣ o) :
    off ∈ (TraceMap.new (pointerMapFor size offsets) size).offsets ↔
      off ∈ offsets ∧ off + 4 ≤ size := by
  have hzero : ∀ w, bitAt (List.replicate (((size + 3) / 4 + 7) / 8) 0#8) w = false := by
    intro w
    rw [bitAt, List.getElem?_replicate]
    split <;> simp
  rw [mem_traceMap_iff, pointerMapFor, bitAt_foldl _ _ _ _ (by simp), hzero, Bool.false_or,
    List.any_eq_true]
  simp only [decide_eq_true_eq]
  constructor
  · rintro ⟨hoff, hroom, o, ho, -, hword⟩
    have : o = off := by
      have := hdvd o ho
      omega
    exact ⟨this ▸ ho, hroom⟩
  · rintro ⟨hoff, hroom⟩
    exact ⟨hdvd off hoff, hroom, off, hoff, hroom, rfl⟩

/-- Where moves put references. -/
def refDsts (moves : List Move) : List Nat := (moves.filter (·.op = .movp)).map (·.dst)

theorem refDsts_append (xs ys : List Move) : refDsts (xs ++ ys) = refDsts xs ++ refDsts ys := by
  simp [refDsts]

mutual
/-- The moves that copy a value put a reference exactly where the value has one. -/
theorem refDsts_copyValue {src dst : Nat} (hne : src ≠ dst) : ∀ ty : Ty,
    refDsts (copyValue src dst ty) = ty.refWords.map (dst + ·)
  | .tuple fields => by
      rw [copyValue, if_neg hne, Ty.refWords]
      exact refDsts_copyFields hne 0 fields
  | .basic b => by
      cases b <;> simp [copyValue, hne, Ty.refWords, movOpcodeForType, refDsts]
  | .array _ | .list _ | .chan _ | .bufChan _ | .ref _ | .func | .named _ | .module => by
      simp [copyValue, hne, Ty.refWords, movOpcodeForType, refDsts]

theorem refDsts_copyFields {src dst : Nat} (hne : src ≠ dst) (off : Nat) : ∀ fields : List Ty,
    refDsts (copyFields src dst off fields) = (refWordsFrom off fields).map (dst + ·)
  | [] => rfl
  | ty :: fields => by
      rw [copyFields, refWordsFrom, refDsts_append, refDsts_copyValue (by omega) ty,
        refDsts_copyFields hne _ fields, List.map_append, List.map_map]
      simp [Function.comp_def, Nat.add_assoc]
end

mutual
theorem refWords_within : ∀ ty : Ty, ∀ w ∈ ty.refWords, 4 ∣ w ∧ w + 4 ≤ ty.size
  | .tuple fields => by
      intro w hw
      rw [Ty.refWords] at hw
      obtain ⟨hdvd, hend⟩ := refWordsFrom_within 0 fields w hw
      have := @le_alignUp (placeFields 0 fields).2 4 (by decide)
      have hsize : Ty.size (.tuple fields) = max (alignUp (placeFields 0 fields).2 4) 4 := by
        rw [Ty.size, typeSizeAlign]
      exact ⟨hdvd, by omega⟩
  | .basic b => by cases b <;> simp [Ty.refWords, typeSizeAlign, Ty.size]
  | .array _ | .list _ | .chan _ | .bufChan _ | .ref _ | .func | .named _ | .module => by
      simp [Ty.refWords, typeSizeAlign, Ty.size]

theorem refWordsFrom_within (off : Nat) : ∀ fields : List Ty,
    ∀ w ∈ refWordsFrom off fields, 4 ∣ w ∧ w + 4 ≤ (placeFields off fields).2
  | [] => by simp [refWordsFrom]
  | ty :: fields => by
      intro w hw
      rw [refWordsFrom, List.mem_append, List.mem_map] at hw
      rcases hw with ⟨v, hv, rfl⟩ | hw
      · obtain ⟨hdvd, hend⟩ := refWords_within ty v hv
        have := (placeFields_chained (alignUp off ty.align + ty.size) fields).le
        refine ⟨Nat.dvd_add (four_dvd_alignUp off ty) hdvd, ?_⟩
        rw [placeFields]
        change alignUp off ty.align + v + 4 ≤
          (placeFields (alignUp off ty.align + ty.size) fields).2
        omega
      · exact refWordsFrom_within _ fields w hw
end

theorem typeIsPtr_of_refWords {ty : Ty} {w : Nat} (h : w ∈ ty.refWords) : typeIsPtr ty := by
  unfold Ty.refWords at h
  split at h
  all_goals first | exact absurd h List.not_mem_nil | rfl | skip
  unfold typeIsPtr
  split <;> simp_all

/-- The words of a field that the one move that fills it writes. -/
theorem refWords_moved {ty : Ty} {w : Nat} (h : w ∈ ty.refWords)
    (hmoved : w < moveWidth (fieldMoveOpcode ty)) : w = 0 := by
  obtain ⟨hdvd, -⟩ := refWords_within ty w h
  have hwidth : moveWidth (fieldMoveOpcode ty) = 4 := by
    unfold fieldMoveOpcode
    split <;> simp_all [moveWidth, Ty.refWords]
  omega

theorem mem_refWordsFrom_iff (off : Nat) (fields : List Ty) (w : Nat) :
    w ∈ refWordsFrom off fields ↔
      ∃ f ∈ (placeFields off fields).1, ∃ v ∈ f.1.refWords, w = f.2 + v := by
  induction fields generalizing off with
  | nil => simp [refWordsFrom, placeFields]
  | cons ty fields ih =>
      simp only [refWordsFrom, placeFields, List.mem_append, List.mem_map, ih, List.mem_cons,
        or_and_right, exists_or, exists_eq_left, eq_comm]

/-- The offsets the collector follows in a record of this shape. -/
def RecordShape.followed (shape : RecordShape) : List Nat :=
  (TraceMap.new (pointerMapFor shape.size shape.ptrOffsets) shape.size).offsets

def TupleLayout.shape (layout : TupleLayout) : RecordShape := ⟨layout.size, layout.ptrOffsets⟩

/-- The fields of a record lie at aligned offsets, apart, after the first `base` bytes and
inside the record, and the collector follows each word in which a field's move puts a
reference. -/
structure RecordSound (base : Nat) (layout : List Field) (shape : RecordShape) : Prop where
  aligned : ∀ f ∈ layout, f.ty.align ∣ f.off
  apart : layout.Pairwise fun f g => f.span.stop ≤ g.span.off
  within : ∀ f ∈ layout, base ≤ f.off ∧ f.span.stop ≤ shape.size
  followed : ∀ f ∈ layout, ∀ w ∈ f.ty.refWords, w < moveWidth (fieldMoveOpcode f.ty) →
    f.off + w ∈ shape.followed

/-- All records of an ADT are sound; its common fields lie at the same offsets in each
variant, each variant fits the base record, whose map covers the variants' references, and no two
variants share a tag. -/
structure AdtSound (adt : AdtDecl) : Prop where
  record : ∀ r ∈ recordAdt adt, RecordSound (adtFieldBase adt) r.layout r.shape
  common : ∀ r ∈ recordAdt adt, computeAdtLayout adt <+: r.layout
  fits : ∀ r ∈ recordAdt adt, r.shape.size ≤ (computeAdtShape adt).size
  covered : ∀ r ∈ recordAdt adt, ∀ w ∈ r.shape.followed, w ∈ (computeAdtShape adt).followed
  tags : (((recordAdt adt).filterMap (·.variant)).map (·.1)).Nodup

/-- The fields of a tuple lie at aligned offsets, apart and inside it, and the collector
follows each word in which a copy of the tuple puts a reference. -/
structure TupleSound (fields : List Ty) : Prop where
  aligned : ∀ f ∈ (computeTupleLayout fields).fields, f.1.align ∣ f.2
  apart : (computeTupleLayout fields).fields.Pairwise fun f g => (spanOf f).stop ≤ (spanOf g).off
  within : ∀ f ∈ (computeTupleLayout fields).fields,
    (spanOf f).stop ≤ (computeTupleLayout fields).size
  followed : ∀ src dst, ∀ d ∈ refDsts (copyValue src dst (.tuple fields)),
    ∃ w ∈ (computeTupleLayout fields).shape.followed, d = dst + w

/-- A declaration that lays out data. -/
inductive Layout where
  | adt (decl : AdtDecl)
  | tuple (fields : List Ty)

def Layout.Sound : Layout → Prop
  | .adt decl => AdtSound decl
  | .tuple fields => TupleSound fields

/-- No two fields share a declaration whose type is narrower than a multiple of its alignment;
no field of a tuple is a tuple with a reference after its first word. -/
def Layout.Plain : Layout → Prop
  | .adt decl =>
    EvenlyPlaced (adtFieldDecls decl) ∧
      ∀ case ∈ decl.pick.getD [], case.tags = [] ∨ EvenlyPlaced case.fields
  | .tuple fields => ∀ ty ∈ fields, ∀ w ∈ ty.refWords, w = 0

theorem mem_filter_map_off {α : Type} {p : α → Bool} {off : α → Nat} {xs : List α}
    (h : ∀ x ∈ xs, 4 ∣ off x) : ∀ o ∈ (xs.filter p).map off, 4 ∣ o := by
  intro o ho
  obtain ⟨x, hx, rfl⟩ := List.mem_map.mp ho
  exact h x (List.mem_filter.mp hx).1

theorem tuple_four_dvd (fields : List Ty) : ∀ f ∈ (placeFields 0 fields).1, 4 ∣ f.2 :=
  fun f hf => Nat.dvd_trans (align_isAlign f.1).four_dvd (placeFields_aligned 0 fields f hf)

theorem tuple_within (fields : List Ty) : ∀ f ∈ (placeFields 0 fields).1,
    (spanOf f).stop ≤ (computeTupleLayout fields).size := by
  intro f hf
  have hend := ((placeFields_chained 0 fields).within (List.mem_map_of_mem hf)).2
  have := @le_alignUp (placeFields 0 fields).2 4 (by decide)
  simp only [computeTupleLayout]
  omega

theorem tuple_apart (fields : List Ty) :
    (placeFields 0 fields).1.Pairwise fun f g => (spanOf f).stop ≤ (spanOf g).off :=
  List.pairwise_map.mp (placeFields_chained 0 fields).apart

theorem mem_tuple_followed_iff (fields : List Ty) (off : Nat) :
    off ∈ (computeTupleLayout fields).shape.followed ↔
      ∃ f ∈ (placeFields 0 fields).1, typeIsPtr f.1 ∧ f.2 = off := by
  have hdvd : ∀ o ∈ (computeTupleLayout fields).ptrOffsets, 4 ∣ o :=
    mem_filter_map_off (tuple_four_dvd fields)
  simp only [RecordShape.followed, TupleLayout.shape, mem_pointerMapFor_iff hdvd]
  simp only [computeTupleLayout, List.mem_map, List.mem_filter, and_assoc]
  constructor
  · rintro ⟨⟨f, hf, hptr, hoff⟩, -⟩
    exact ⟨f, hf, hptr, hoff⟩
  · rintro ⟨f, hf, hptr, rfl⟩
    have hstop := tuple_within fields f hf
    have := four_le_size f.1
    simp only [computeTupleLayout, spanOf, Span.stop] at hstop
    exact ⟨⟨f, hf, hptr, rfl⟩, by omega⟩

theorem apart_of_ne {xs : List (Ty × Nat)}
    (h : xs.Pairwise fun f g => (spanOf f).stop ≤ (spanOf g).off) {f g : Ty × Nat} (hf : f ∈ xs)
    (hg : g ∈ xs) (hne : f ≠ g) :
    (spanOf f).stop ≤ (spanOf g).off ∨ (spanOf g).stop ≤ (spanOf f).off := by
  induction h with
  | nil => cases hf
  | cons hrest _ ih =>
      rcases List.mem_cons.mp hf with heqf | hf <;> rcases List.mem_cons.mp hg with heqg | hg
      · exact absurd (heqf.trans heqg.symm) hne
      · exact .inl (heqf ▸ hrest g hg)
      · exact .inr (heqg ▸ hrest f hf)
      · exact ih hf hg

/-- A word inside one field of a tuple is where no other field starts. -/
theorem start_eq_of_within {fields : List Ty} {f g : Ty × Nat}
    (hf : f ∈ (placeFields 0 fields).1) (hg : g ∈ (placeFields 0 fields).1)
    (hle : f.2 ≤ g.2) (hlt : g.2 < (spanOf f).stop) : g.2 = f.2 := by
  have hsize := four_le_size g.1
  rcases eq_or_ne f g with rfl | hne
  · rfl
  · rcases apart_of_ne (tuple_apart fields) hf hg hne with h | h
    · exact absurd h (Nat.not_le.mpr hlt)
    · change g.2 + g.1.size ≤ f.2 at h
      omega

theorem tuple_sound_iff (fields : List Ty) :
    TupleSound fields ↔ (Layout.tuple fields).Plain := by
  constructor
  · intro h ty hty w hw
    rw [← placeFields_types 0 fields] at hty
    obtain ⟨⟨ty, off⟩, hf, rfl⟩ := List.mem_map.mp hty
    have hmem : off + w ∈ refWordsFrom 0 fields :=
      (mem_refWordsFrom_iff 0 fields _).mpr ⟨_, hf, w, hw, rfl⟩
    obtain ⟨o, ho, heq⟩ := h.followed 0 1 (1 + (off + w)) (by
      rw [refDsts_copyValue (by decide), Ty.refWords]
      exact List.mem_map_of_mem hmem)
    obtain ⟨g, hg, -, hgo⟩ := (mem_tuple_followed_iff fields o).mp ho
    have := (refWords_within _ w hw).2
    change w + 4 ≤ ty.size at this
    have hlt : g.2 < off + ty.size := by omega
    have hle : off ≤ g.2 := by omega
    have hstart : g.2 = off := start_eq_of_within hf hg hle hlt
    omega
  · intro h
    refine ⟨placeFields_aligned 0 fields, tuple_apart fields, tuple_within fields, ?_⟩
    intro src dst d hd
    by_cases heq : src = dst
    · simp [copyValue, heq, refDsts] at hd
    · rw [refDsts_copyValue heq, Ty.refWords] at hd
      obtain ⟨w, hw, rfl⟩ := List.mem_map.mp hd
      obtain ⟨f, hf, v, hv, rfl⟩ := (mem_refWordsFrom_iff 0 fields w).mp hw
      have hty : f.1 ∈ fields := placeFields_types 0 fields ▸ List.mem_map_of_mem hf
      refine ⟨_, (mem_tuple_followed_iff fields _).mpr ⟨f, hf, typeIsPtr_of_refWords hv, ?_⟩, rfl⟩
      rw [h f.1 hty v hv, Nat.add_zero]

theorem foldl_last_le (fields : List Field) (last : Nat) :
    last ≤ fields.foldl (fun last f => max last (f.off + f.ty.size)) last ∧
      ∀ f ∈ fields, f.off + f.ty.size ≤
        fields.foldl (fun last f => max last (f.off + f.ty.size)) last := by
  induction fields generalizing last with
  | nil => simp
  | cons f fields ih =>
      obtain ⟨hlast, hfields⟩ := ih (max last (f.off + f.ty.size))
      rw [List.foldl_cons, List.forall_mem_cons]
      exact ⟨by omega, by omega, hfields⟩

theorem shapeOf_within (base : Nat) (fields : List Field) :
    ∀ f ∈ fields, f.span.stop ≤ (shapeOf base fields).size := by
  intro f hf
  have hlast := (foldl_last_le fields base).2 f hf
  refine Nat.le_trans (Nat.le_trans hlast (Nat.le_max_left _ 4)) ?_
  exact le_alignUp _ (by decide)

theorem mem_foldl_union_iff (xs offs : List Nat) (off : Nat) :
    off ∈ xs.foldl (fun offs off => if off ∈ offs then offs else offs ++ [off]) offs ↔
      off ∈ offs ∨ off ∈ xs := by
  induction xs generalizing offs with
  | nil => simp
  | cons x xs ih =>
      rw [List.foldl_cons, ih, List.mem_cons]
      split
      · next hx =>
        constructor
        · exact fun h => h.imp_right .inr
        · rintro (h | rfl | h)
          · exact .inl h
          · exact .inl hx
          · exact .inr h
      · rw [List.mem_append, List.mem_singleton, or_assoc]

/-- The base record has room for each variant and marks what it marks. -/
theorem foldl_overlay (shape : RecordShape) (variant : PickCase → RecordShape)
    (cases : List PickCase) :
    let all := cases.foldl (fun shape case => shape.overlay (variant case)) shape
    shape.size ≤ all.size ∧ (∀ case ∈ cases, (variant case).size ≤ all.size) ∧
      ∀ off, off ∈ all.ptrOffsets ↔
        off ∈ shape.ptrOffsets ∨ ∃ case ∈ cases, off ∈ (variant case).ptrOffsets := by
  induction cases generalizing shape with
  | nil => simp
  | cons case cases ih =>
      obtain ⟨hsize, hcases, hoffs⟩ := ih (shape.overlay (variant case))
      simp only [RecordShape.overlay] at hsize
      refine ⟨?_, ?_, ?_⟩
      · rw [List.foldl_cons]
        exact Nat.le_trans (Nat.le_max_left _ _) hsize
      · rw [List.foldl_cons, List.forall_mem_cons]
        exact ⟨Nat.le_trans (Nat.le_max_right _ _) hsize, hcases⟩
      · intro off
        rw [List.foldl_cons, hoffs]
        simp only [RecordShape.overlay, mem_foldl_union_iff, List.mem_cons, or_and_right,
          exists_or, exists_eq_left, or_assoc]

theorem variantLayout_chained (adt : AdtDecl) (case : PickCase) :
    ∃ last, Chained (adtFieldBase adt) last ((computeVariantLayout adt case).map Field.span) := by
  rw [computeVariantLayout, List.map_append]
  exact ⟨_, (layoutFields_chained _ _).append (layoutFields_chained _ _)⟩

theorem variantLayout_four_dvd (adt : AdtDecl) (case : PickCase) :
    ∀ f ∈ computeVariantLayout adt case, 4 ∣ f.off := by
  intro f hf
  rcases List.mem_append.mp hf with hf | hf
  · exact layoutFields_four_dvd _ _ f hf
  · exact layoutFields_four_dvd _ _ f hf

theorem variantLayout_aligned_iff (adt : AdtDecl) (case : PickCase) :
    (∀ f ∈ computeVariantLayout adt case, f.ty.align ∣ f.off) ↔
      EvenlyPlaced (adtFieldDecls adt) ∧ EvenlyPlaced case.fields := by
  rw [computeVariantLayout, List.forall_mem_append, layoutFields_aligned_iff,
    layoutFields_aligned_iff]

theorem mem_variantRecords {adt : AdtDecl} {tag group : Nat} {cases : List PickCase}
    {r : AdtRecord} (h : r ∈ variantRecords adt tag group cases) :
    ∃ case ∈ cases, case.tags ≠ [] ∧ r.layout = computeVariantLayout adt case ∧
      r.shape = shapeOf (adtFieldBase adt) (computeVariantLayout adt case) := by
  induction cases generalizing tag group with
  | nil => cases h
  | cons case cases ih =>
      rcases List.mem_append.mp h with h | h
      · obtain ⟨⟨name, t⟩, hname, rfl⟩ := List.mem_map.mp h
        refine ⟨case, List.mem_cons_self, fun hnil => ?_, rfl, rfl⟩
        rw [hnil] at hname
        cases hname
      · obtain ⟨c, hc, hrest⟩ := ih h
        exact ⟨c, List.mem_cons_of_mem _ hc, hrest⟩

theorem exists_variantRecord {adt : AdtDecl} (tag group : Nat) {cases : List PickCase}
    {case : PickCase} (hcase : case ∈ cases) (htags : case.tags ≠ []) :
    ∃ r ∈ variantRecords adt tag group cases, r.layout = computeVariantLayout adt case := by
  induction cases generalizing tag group with
  | nil => cases hcase
  | cons c cases ih =>
      rw [variantRecords]
      rcases List.mem_cons.mp hcase with rfl | hcase
      · obtain ⟨name, names, hnames⟩ := List.exists_cons_of_ne_nil htags
        exact ⟨_, List.mem_append_left _ (List.mem_map_of_mem (a := (name, tag))
          (by simp [hnames])), rfl⟩
      · obtain ⟨r, hr, hlayout⟩ := ih (tag + c.tags.length) (group + 1) hcase
        exact ⟨r, List.mem_append_right _ hr, hlayout⟩

/-- The tags of the variants count up from the first. -/
theorem variantRecords_tags (adt : AdtDecl) (tag group : Nat) (cases : List PickCase) :
    ∃ n, ((variantRecords adt tag group cases).filterMap (·.variant)).map (·.1) =
      List.range' tag n := by
  induction cases generalizing tag group with
  | nil => exact ⟨0, rfl⟩
  | cons case cases ih =>
      obtain ⟨n, hn⟩ := ih (tag + case.tags.length) (group + 1)
      refine ⟨case.tags.length + n, ?_⟩
      rw [variantRecords, List.filterMap_append, List.map_append, hn, ← List.range'_append_1]
      congr 1
      rw [List.filterMap_map, List.map_filterMap, ← List.zipIdx_map_snd tag case.tags,
        ← List.filterMap_eq_map]
      rfl

theorem mem_recordAdt {adt : AdtDecl} {r : AdtRecord} (h : r ∈ recordAdt adt) :
    (r.layout = computeAdtLayout adt ∧ r.shape = computeAdtShape adt) ∨
      ∃ case ∈ adt.pick.getD [], case.tags ≠ [] ∧ r.layout = computeVariantLayout adt case ∧
        r.shape = shapeOf (adtFieldBase adt) (computeVariantLayout adt case) := by
  rcases List.mem_cons.mp h with rfl | h
  · exact .inl ⟨rfl, rfl⟩
  · exact .inr (mem_variantRecords h)

/-- A record is sound once its shape covers the shape of its own fields. -/
theorem recordSound_of_cover {base last : Nat} {layout : List Field} {shape : RecordShape}
    (haligned : ∀ f ∈ layout, f.ty.align ∣ f.off)
    (hchained : Chained base last (layout.map Field.span)) (h4 : ∀ o ∈ shape.ptrOffsets, 4 ∣ o)
    (hsize : (shapeOf base layout).size ≤ shape.size)
    (hptrs : ∀ o ∈ (shapeOf base layout).ptrOffsets, o ∈ shape.ptrOffsets) :
    RecordSound base layout shape := by
  have hwithin : ∀ f ∈ layout, f.span.stop ≤ shape.size := fun f hf =>
    Nat.le_trans (shapeOf_within base layout f hf) hsize
  refine ⟨haligned, List.pairwise_map.mp hchained.apart, fun f hf =>
    ⟨(hchained.within (List.mem_map_of_mem hf)).1, hwithin f hf⟩, ?_⟩
  intro f hf w hw hmoved
  rw [refWords_moved hw hmoved, Nat.add_zero, RecordShape.followed, mem_pointerMapFor_iff h4]
  have hptr : f.off ∈ (shapeOf base layout).ptrOffsets :=
    List.mem_map_of_mem (List.mem_filter.mpr ⟨hf, typeIsPtr_of_refWords hw⟩)
  have hstop : f.off + f.ty.size ≤ shape.size := hwithin f hf
  have := four_le_size f.ty
  exact ⟨hptrs _ hptr, by omega⟩

theorem computeAdtShape_covers (adt : AdtDecl) :
    let shape := computeAdtShape adt
    let base := adtFieldBase adt
    ((shapeOf base (computeAdtLayout adt)).size ≤ shape.size ∧
      ∀ o ∈ (shapeOf base (computeAdtLayout adt)).ptrOffsets, o ∈ shape.ptrOffsets) ∧
    (∀ case ∈ adt.pick.getD [], (shapeOf base (computeVariantLayout adt case)).size ≤ shape.size ∧
      ∀ o ∈ (shapeOf base (computeVariantLayout adt case)).ptrOffsets, o ∈ shape.ptrOffsets) ∧
    ∀ o ∈ shape.ptrOffsets, 4 ∣ o := by
  obtain ⟨hsize, hcases, hoffs⟩ := foldl_overlay
    (shapeOf (adtFieldBase adt) (computeAdtLayout adt))
    (fun case => shapeOf (adtFieldBase adt) (computeVariantLayout adt case)) (adt.pick.getD [])
  refine ⟨⟨hsize, fun o ho => (hoffs o).mpr (.inl ho)⟩, fun case hcase => ⟨hcases case hcase,
    fun o ho => (hoffs o).mpr (.inr ⟨case, hcase, ho⟩)⟩, fun o ho => ?_⟩
  rcases (hoffs o).mp ho with ho | ⟨case, -, ho⟩
  · exact mem_filter_map_off (layoutFields_four_dvd _ _) o ho
  · exact mem_filter_map_off (variantLayout_four_dvd adt case) o ho

theorem adt_sound_iff (adt : AdtDecl) : AdtSound adt ↔ (Layout.adt adt).Plain := by
  obtain ⟨hbase, hcases, h4⟩ := computeAdtShape_covers adt
  constructor
  · intro h
    refine ⟨(layoutFields_aligned_iff _ _).mp (h.record _ List.mem_cons_self).aligned, ?_⟩
    intro case hcase
    by_cases htags : case.tags = []
    · exact .inl htags
    · obtain ⟨r, hr, hlayout⟩ := exists_variantRecord 0 0 hcase htags
      have haligned := (h.record r (List.mem_cons_of_mem _ hr)).aligned
      rw [hlayout] at haligned
      exact .inr ((variantLayout_aligned_iff adt case).mp haligned).2
  · rintro ⟨hcommon, hplain⟩
    refine ⟨fun r hr => ?_, fun r hr => ?_, fun r hr => ?_, fun r hr w hw => ?_, ?_⟩
    · rcases mem_recordAdt hr with ⟨hlayout, hshape⟩ | ⟨case, hcase, htags, hlayout, hshape⟩
      · rw [hlayout, hshape]
        exact recordSound_of_cover ((layoutFields_aligned_iff _ _).mpr hcommon)
          (layoutFields_chained _ _) h4 hbase.1 hbase.2
      · rw [hlayout, hshape]
        obtain ⟨last, hchained⟩ := variantLayout_chained adt case
        have heven := (hplain case hcase).resolve_left htags
        exact recordSound_of_cover ((variantLayout_aligned_iff adt case).mpr ⟨hcommon, heven⟩)
          hchained (mem_filter_map_off (variantLayout_four_dvd adt case)) (Nat.le_refl _)
          (fun _ => id)
    · rcases mem_recordAdt hr with ⟨hlayout, -⟩ | ⟨case, -, -, hlayout, -⟩
      · exact hlayout ▸ List.prefix_refl _
      · rw [hlayout]
        exact List.prefix_append _ _
    · rcases mem_recordAdt hr with ⟨-, hshape⟩ | ⟨case, hcase, -, -, hshape⟩
      · rw [hshape]
      · rw [hshape]
        exact (hcases case hcase).1
    · rcases mem_recordAdt hr with ⟨-, hshape⟩ | ⟨case, hcase, -, -, hshape⟩
      · rwa [hshape] at hw
      · obtain ⟨hsize, hptrs⟩ := hcases case hcase
        have hvariant : ∀ o ∈
            (shapeOf (adtFieldBase adt) (computeVariantLayout adt case)).ptrOffsets, 4 ∣ o :=
          mem_filter_map_off (variantLayout_four_dvd adt case)
        rw [hshape, RecordShape.followed, mem_pointerMapFor_iff hvariant] at hw
        rw [RecordShape.followed, mem_pointerMapFor_iff h4]
        exact ⟨hptrs w hw.1, Nat.le_trans hw.2 hsize⟩
    · obtain ⟨n, htags⟩ := variantRecords_tags adt 0 0 (adt.pick.getD [])
      rw [recordAdt, List.filterMap_cons_none rfl, htags]
      exact List.nodup_range'

/-- A layout is sound exactly when it is plain. -/
theorem layout_sound_iff (layout : Layout) : layout.Sound ↔ layout.Plain := by
  cases layout with
  | adt decl => exact adt_sound_iff decl
  | tuple fields => exact tuple_sound_iff fields

/-- A message `((int, string), int)` holds a string in its second word, which the descriptor of
its channel does not mark. -/
theorem nested_tuple_unsound :
    ¬ (Layout.tuple [.tuple [.basic .int, .basic .string], .basic .int]).Sound := by
  intro h
  obtain ⟨w, hw, heq⟩ := TupleSound.followed h 0 100 104 (by decide)
  have hfollowed : (computeTupleLayout
      [.tuple [.basic .int, .basic .string], .basic .int]).shape.followed = [0] := by decide
  rw [hfollowed, List.mem_singleton] at hw
  omega

end RiceVM.Limbo
