import RiceVM.Loader.Instantiate

/-!
What a data section does to the module data and the heap: each item changes the selected buffer
at its own offset and nothing else, an object is made only where its id can be stored, and a scope
whose selections are all taken gives the enclosing selection back.
-/
namespace RiceVM.Data
open Memory Buffer

variable {types : List TypeDescriptor} {items : List DataItem} {s t u : Init} {off : Nat}
  {bytes : List Byte}

/-- The array that items are written into; the module data is where there is none. -/
def target (s : Init) : Option HeapId := (activeArray s).map Prod.fst

/-- The bytes of as many values as fit between an offset and the end of a buffer. -/
def fitting {α : Type} (size : Nat) (encode : α → List Byte) (len off : Nat) (values : List α) :
    List Byte :=
  (values.take ((len - off) / size)).flatMap encode

/-- The bytes stand at an offset inside the selected buffer. Nothing else has changed, an object
that was not there before apart. -/
structure Written (s t : Init) (fresh : Option HeapId) (off : Nat) (bytes : List Byte) : Prop where
  inside : bytes = [] ∨ off + bytes.length ≤ (activeBuffer s).length
  buffer : activeBuffer t = splice (activeBuffer s) off bytes
  selected : target t = target s
  stack : t.arrayStack = s.arrayStack
  mp : target s ≠ none → t.mp = s.mp
  array : ∀ id obj, target s = some id → s.heap.get id = some obj →
    t.heap.get id = some { obj with data := obj.data.setBuffer (activeBuffer t) }
  others : ∀ id, target s ≠ some id → fresh ≠ some id → t.heap.get id = s.heap.get id

/-- A list of values at an offset, cut where the buffer ends. -/
def Fills {α : Type} (size : Nat) (encode : α → List Byte) (offset : Word) (values : List α)
    (s t : Init) : Prop :=
  match offset.toUsize? with
  | some off => Written s t none off (fitting size encode (activeBuffer s).length off values)
  | none => t = s

/-- A new object whose id stands at an offset, or nothing where the id has no room. -/
def Stores (offset : Word) (typeId : BitVec 32) (data : HeapData) (s t : Init) : Prop :=
  match offset.toUsize? with
  | some off =>
    if off + 4 ≤ (activeBuffer s).length then
      ∃ id, s.heap.get id = none ∧ t.heap.get id = some ⟨1, typeId, none, data⟩ ∧
        Written s t (some id) off (leBytes 4 id.toNat)
    else t = s
  | none => t = s

/-- The array that a selection names: an id stored in the selected buffer, and an element index
whose offset is a host word. -/
def Selects (s : Init) (offset index : Word) (id : HeapId) : Prop :=
  ∃ off idx, offset.toUsize? = some off ∧ index.toUsize? = some idx ∧ arrayIdAt s off = id ∧
    id ≠ nil ∧ idx * elemSizeOf s id < 2 ^ 64

/-- What one item does. -/
def Effect (types : List TypeDescriptor) : DataItem → Init → Init → Prop
  | .bytes offset values, s, t => Fills 1 (fun b => [b]) offset values s t
  | .words offset values, s, t => Fills 4 (fun w => leBytes 4 w.toNat) offset values s t
  | .bigs offset values, s, t | .reals offset values, s, t =>
      Fills 8 (fun b => leBytes 8 b.toNat) offset values s t
  | .string offset value, s, t => Stores offset 0 (.str value) s t
  | .array offset elementType length, s, t =>
      let elemSize := max (((types[elementType.asUsize]?).map (·.size.asUsize)).getD 4) 1
      match length.toUsize? with
      | some len =>
        if len * elemSize ≤ maxArrayBytes then
          Stores offset elementType
            (.array elementType elemSize (List.replicate (len * elemSize) 0) len) s t
        else t = s
      | none => t = s
  | .setArray offset index, s, t =>
      t.mp = s.mp ∧ t.heap = s.heap ∧
        ((∃ id, Selects s offset index id ∧ t.arrayStack = id :: s.arrayStack) ∨
          (∀ id, ¬ Selects s offset index id) ∧ t.arrayStack = s.arrayStack)
  | .restoreBase, s, t => t = { s with arrayStack := s.arrayStack.tail }

theorem activeArray_eq_some {id : HeapId} {data : List Byte} :
    activeArray s = some (id, data) ↔ s.arrayStack.head? = some id ∧
      ∃ obj elemType elemSize length, s.heap.get id = some obj ∧
        obj.data = .array elemType elemSize data length := by
  unfold activeArray
  simp only [Option.bind_eq_bind, Option.bind_eq_some_iff]
  constructor
  · rintro ⟨id', hhead, obj, hget, h⟩
    split at h
    · next elemType elemSize data' length hdata =>
        cases h
        exact ⟨hhead, obj, elemType, elemSize, length, hget, hdata⟩
    · cases h
  · rintro ⟨hhead, obj, elemType, elemSize, length, hget, hdata⟩
    refine ⟨id, hhead, obj, hget, ?_⟩
    rw [hdata]

theorem target_eq_none : target s = none ↔ activeArray s = none := Option.map_eq_none_iff

/-- The selected buffer is replaced, and every other one stays. -/
theorem written_setActiveBuffer (h : bytes = [] ∨ off + bytes.length ≤ (activeBuffer s).length) :
    Written s (setActiveBuffer s (splice (activeBuffer s) off bytes)) none off bytes := by
  cases ha : activeArray s with
  | none =>
      have hset : ∀ buf, setActiveBuffer s buf = { s with mp := buf } := fun buf => by
        rw [setActiveBuffer, ha]
      have hsame : ∀ buf, activeArray { s with mp := buf } = none := fun _ => ha
      rw [hset]
      refine ⟨h, ?_, ?_, rfl, fun hne => absurd (target_eq_none.mpr ha) hne, ?_, fun _ _ _ => rfl⟩
      · rw [activeBuffer, hsame]
      · rw [target_eq_none.mpr ha, target_eq_none.mpr (hsame _)]
      · intro id obj hid
        rw [target_eq_none.mpr ha] at hid
        cases hid
  | some found =>
      obtain ⟨id, data⟩ := found
      obtain ⟨hhead, obj, elemType, elemSize, length, hget, hdata⟩ := activeArray_eq_some.mp ha
      have hset : ∀ buf, setActiveBuffer s buf = { s with
          heap := s.heap.update id fun obj => { obj with data := obj.data.setBuffer buf } } :=
        fun buf => by rw [setActiveBuffer, ha]
      have hnow : ∀ buf, activeArray (setActiveBuffer s buf) = some (id, buf) := fun buf => by
        rw [hset]
        refine activeArray_eq_some.mpr ⟨hhead, { obj with data := obj.data.setBuffer buf },
          elemType, elemSize, length, ?_, ?_⟩
        · dsimp only
          rw [Heap.get_update, if_pos rfl, hget, Option.map_some]
        · dsimp only
          rw [hdata]
          rfl
      have hbuf : ∀ buf, activeBuffer (setActiveBuffer s buf) = buf := fun buf => by
        rw [activeBuffer, hnow]
      have htarget : target s = some id := by rw [target, ha, Option.map_some]
      refine ⟨h, hbuf _, ?_, ?_, ?_, ?_, ?_⟩
      · rw [htarget, target, hnow, Option.map_some]
      · rw [hset]
      · intro _
        rw [hset]
      · intro id' obj' hid hget'
        rw [htarget] at hid
        cases hid
        rw [hbuf, hset]
        dsimp only
        rw [Heap.get_update, if_pos rfl, hget', Option.map_some]
      · intro id' hne _
        rw [htarget] at hne
        rw [hset]
        dsimp only
        rw [Heap.get_update, if_neg fun e => hne (by rw [e])]

/-- The loop over the values of an item, as one overwritten range. -/
theorem writeElements_eq {α : Type} {write : List Byte → Nat → α → List Byte} {size : Nat}
    {encode : α → List Byte} (hlen : ∀ v, (encode v).length = size) (hsize : 0 < size)
    (hwrite : ∀ buf pos v, pos + size ≤ buf.length → write buf pos v = splice buf pos (encode v))
    (values : List α) (buf : List Byte) (pos : Nat) :
    writeElements write size buf pos values =
      splice buf pos (fitting size encode buf.length pos values) := by
  induction values generalizing buf pos with
  | nil => rw [writeElements, fitting, List.take_nil, List.flatMap_nil, splice_nil]
  | cons v values ih =>
      rw [writeElements]
      split
      · next hfit =>
          have hinside : pos + (encode v).length ≤ buf.length := by rw [hlen]; exact hfit
          -- One more value fits now than after this one.
          have hcount : (buf.length - pos) / size = (buf.length - (pos + size)) / size + 1 := by
            rw [← Nat.add_div_right _ hsize]
            congr 1
            omega
          rw [hwrite buf pos v hfit, ih, length_splice hinside, fitting, fitting, hcount,
            List.take_succ_cons, List.flatMap_cons, ← splice_splice_append hinside, hlen]
      · next hfit =>
          have hcount : (buf.length - pos) / size = 0 := Nat.div_eq_of_lt (by omega)
          rw [fitting, hcount, List.take_zero, List.flatMap_nil, splice_nil]

theorem length_fitting {α : Type} {size : Nat} {encode : α → List Byte}
    (hlen : ∀ v, (encode v).length = size) (len : Nat) (values : List α) :
    fitting size encode len off values = [] ∨
      off + (fitting size encode len off values).length ≤ len := by
  have hlength : (fitting size encode len off values).length =
      min ((len - off) / size) values.length * size := by
    rw [fitting, List.length_flatMap, List.map_congr_left (fun v _ => hlen v), List.map_const',
      List.sum_replicate_nat, List.length_take]
  by_cases hzero : (fitting size encode len off values).length = 0
  · exact .inl (List.length_eq_zero_iff.mp hzero)
  · right
    have hle : min ((len - off) / size) values.length * size ≤ (len - off) / size * size :=
      Nat.mul_le_mul_right _ (Nat.min_le_left _ _)
    have := Nat.div_mul_le_self (len - off) size
    omega

theorem fills_putElements {α : Type} {write : List Byte → Nat → α → List Byte} {size : Nat}
    {encode : α → List Byte} (hlen : ∀ v, (encode v).length = size) (hsize : 0 < size)
    (hwrite : ∀ buf pos v, pos + size ≤ buf.length → write buf pos v = splice buf pos (encode v))
    (offset : Word) (values : List α) (s : Init) :
    Fills size encode offset values s (putElements write size offset values s) := by
  unfold Fills putElements
  cases offset.toUsize? with
  | none => rfl
  | some off =>
      dsimp only
      rw [writeElements_eq hlen hsize hwrite]
      exact written_setActiveBuffer (length_fitting hlen _ _)

/-- A new object changes the selected buffer only where it is an array and the selected id is the
one it was given. -/
theorem activeArray_alloc {h' : Heap} {id : HeapId} {new : HeapObject}
    (hget : ∀ id', h'.get id' = if id' = id then some new else s.heap.get id')
    (hold : s.heap.get id = none)
    (hnew : s.arrayStack.head? = some id → ∀ elemType elemSize data length,
      new.data ≠ .array elemType elemSize data length) :
    activeArray { s with heap := h' } = activeArray s := by
  apply Option.ext
  rintro ⟨id', data⟩
  rw [activeArray_eq_some, activeArray_eq_some]
  dsimp only
  refine and_congr_right fun hhead => ?_
  by_cases hid : id' = id
  · subst hid
    simp only [hget, if_true, hold]
    constructor
    · rintro ⟨obj, elemType, elemSize, length, hobj, hdata⟩
      cases hobj
      exact absurd hdata (hnew hhead _ _ _ _)
    · rintro ⟨obj, elemType, elemSize, length, hobj, -⟩
      cases hobj
  · simp only [hget, if_neg hid]

theorem written_putObject {typeId : BitVec 32} {data : HeapData}
    (hfit : off + 4 ≤ (activeBuffer s).length)
    (hnew : s.arrayStack.head? = some s.heap.nextId → ∀ elemType elemSize buf length,
      data ≠ .array elemType elemSize buf length)
    (h : putObject off typeId data s = some t) :
    ∃ id, s.heap.get id = none ∧ t.heap.get id = some ⟨1, typeId, none, data⟩ ∧
      Written s t (some id) off (leBytes 4 id.toNat) := by
  simp only [putObject, Option.bind_eq_bind, Option.bind_eq_some_iff] at h
  obtain ⟨⟨id, heap⟩, halloc, h⟩ := h
  cases h
  obtain ⟨hid, -, hget⟩ := Heap.alloc_cases halloc
  have hold : s.heap.get id = none := Heap.get_of_nextId_le (hid ▸ BitVec.le_refl _)
  have hactive := activeArray_alloc (s := s) hget hold (by rw [hid]; exact hnew)
  have hbuf : activeBuffer { s with heap := heap } = activeBuffer s := by
    rw [activeBuffer, activeBuffer, hactive]
  have htarget : target { s with heap := heap } = target s := by rw [target, target, hactive]
  have hselected : ∀ id', target s = some id' → s.heap.get id' ≠ none := fun id' hid' hnone => by
    rw [target, Option.map_eq_some_iff] at hid'
    obtain ⟨⟨_, buf⟩, ha, rfl⟩ := hid'
    obtain ⟨-, obj, _, _, _, hobj, -⟩ := activeArray_eq_some.mp ha
    rw [hobj] at hnone
    cases hnone
  have hne : target s ≠ some id := fun e => hselected id e hold
  have hlen : (leBytes 4 id.toNat).length = 4 := length_leBytes _ _
  have hword : writeWord (activeBuffer { s with heap := heap }) off id =
      splice (activeBuffer { s with heap := heap }) off (leBytes 4 id.toNat) := by
    rw [writeWord, hbuf, if_pos hfit]
  have hw := @written_setActiveBuffer { s with heap := heap } off (leBytes 4 id.toNat)
    (.inr (by rw [hbuf, hlen]; exact hfit))
  rw [← hword] at hw
  refine ⟨id, hold, ?_, ?_⟩
  · rw [hw.others id (by rw [htarget]; exact hne) (by simp), hget, if_pos rfl]
  · refine ⟨?_, ?_, ?_, hw.stack, ?_, ?_, ?_⟩
    · exact .inr (by rw [hlen]; exact hfit)
    · rw [← hbuf]
      exact hw.buffer
    · rw [← htarget]
      exact hw.selected
    · rw [← htarget]
      exact hw.mp
    · intro id' obj hid' hobj
      have hid'ne : id' ≠ id := fun e => hne (e ▸ hid')
      refine hw.array id' obj (by rw [htarget]; exact hid') ?_
      rw [hget, if_neg hid'ne]
      exact hobj
    · intro id' hid' hfresh
      have hid'ne : id' ≠ id := fun e => hfresh (by rw [e])
      rw [hw.others id' (by rw [htarget]; exact hid') (by simp), hget, if_neg hid'ne]

/-- One item of a section. An array is made where the selected id names something. -/
theorem effect_initItem {item : DataItem}
    (hnamed : ∀ offset elementType length, item = .array offset elementType length →
      s.arrayStack.head? ≠ some s.heap.nextId)
    (h : initItem types item s = some t) : Effect types item s t := by
  cases item with
  | bytes offset values =>
      cases h
      refine fills_putElements (fun _ => List.length_singleton) Nat.one_pos ?_ _ _ _
      intro buf pos v hfit
      rw [writeByte, splice, List.set_eq_take_append_cons_drop, if_pos (by omega),
        List.append_assoc]
      rfl
  | words offset values =>
      cases h
      refine fills_putElements (fun _ => length_leBytes _ _) (by omega) ?_ _ _ _
      intro buf pos v hfit
      rw [writeWord, if_pos hfit]
  | bigs offset values | reals offset values =>
      cases h
      refine fills_putElements (fun _ => length_leBytes _ _) (by omega) ?_ _ _ _
      intro buf pos v hfit
      rw [writeBig, if_pos hfit]
  | string offset value =>
      simp only [initItem, wordSlotFits, decide_eq_true_eq] at h
      simp only [Effect, Stores]
      cases hoff : offset.toUsize? with
      | none =>
          simp only [hoff, Option.some.injEq] at h
          exact h.symm
      | some off =>
          simp only [hoff] at h ⊢
          split at h
          · next hfit =>
              rw [if_pos hfit]
              exact written_putObject hfit (fun _ _ _ _ _ h => by cases h) h
          · next hfit =>
              rw [if_neg hfit]
              exact (Option.some.inj h).symm
  | array offset elementType length =>
      have hhead := hnamed offset elementType length rfl
      simp only [initItem, wordSlotFits, decide_eq_true_eq] at h
      simp only [Effect, Stores]
      cases hoff : offset.toUsize? with
      | none =>
          simp only [hoff, Option.some.injEq] at h
          subst h
          split
          · split <;> rfl
          · rfl
      | some off =>
          cases hlen : length.toUsize? with
          | none =>
              simp only [hoff, hlen, Option.some.injEq] at h
              exact h.symm
          | some len =>
              simp only [hoff, hlen] at h ⊢
              split at h
              · next hfit =>
                  rw [if_pos hfit]
                  split at h
                  · next hsize =>
                      rw [if_pos hsize]
                      exact written_putObject hfit (fun e => absurd e hhead) h
                  · next hsize =>
                      rw [if_neg hsize]
                      exact (Option.some.inj h).symm
              · next hfit =>
                  rw [if_neg hfit, ite_self]
                  exact (Option.some.inj h).symm
  | setArray offset index =>
      simp only [initItem] at h
      cases hoff : offset.toUsize? with
      | none =>
          simp only [hoff, Option.some.injEq] at h
          subst h
          refine ⟨rfl, rfl, .inr ⟨?_, rfl⟩⟩
          rintro id ⟨off, idx, hoff', -⟩
          rw [hoff] at hoff'
          cases hoff'
      | some off =>
          cases hidx : index.toUsize? with
          | none =>
              simp only [hoff, hidx, Option.some.injEq] at h
              subst h
              refine ⟨rfl, rfl, .inr ⟨?_, rfl⟩⟩
              rintro id ⟨off, idx, -, hidx', -⟩
              rw [hidx] at hidx'
              cases hidx'
          | some idx =>
              simp only [hoff, hidx, Option.some.injEq] at h
              subst h
              split
              · next hbad =>
                  refine ⟨rfl, rfl, .inr ⟨?_, rfl⟩⟩
                  rintro id ⟨off', idx', hoff', hidx', hid, hne, hlt⟩
                  rw [hoff] at hoff'
                  rw [hidx] at hidx'
                  cases hoff'
                  cases hidx'
                  rw [hid] at hbad
                  exact hbad.elim hne (Nat.not_le_of_lt hlt)
              · next hgood =>
                  rw [not_or, Nat.not_le] at hgood
                  exact ⟨rfl, rfl, .inl ⟨_, ⟨off, idx, hoff, hidx, rfl, hgood⟩, rfl⟩⟩
  | restoreBase => exact (Option.some.inj h).symm

/-! Runs. -/

/-- The heap holds an array under an id. -/
def IsArray (h : Heap) (id : HeapId) : Prop :=
  ∃ obj elemType elemSize data length, h.get id = some obj ∧
    obj.data = .array elemType elemSize data length

theorem target_eq_some {id : HeapId} :
    target s = some id ↔ s.arrayStack.head? = some id ∧ IsArray s.heap id := by
  rw [target, Option.map_eq_some_iff]
  constructor
  · rintro ⟨⟨_, data⟩, ha, rfl⟩
    obtain ⟨hhead, obj, elemType, elemSize, length, hget, hdata⟩ := activeArray_eq_some.mp ha
    exact ⟨hhead, obj, elemType, elemSize, data, length, hget, hdata⟩
  · rintro ⟨hhead, obj, elemType, elemSize, data, length, hget, hdata⟩
    exact ⟨(id, data), activeArray_eq_some.mpr ⟨hhead, obj, elemType, elemSize, length, hget, hdata⟩,
      rfl⟩

theorem ne_none_of_target {id : HeapId} (h : target s = some id) : s.heap.get id ≠ none := by
  obtain ⟨-, obj, _, _, _, _, hget, -⟩ := target_eq_some.mp h
  rw [hget]
  exact nofun

theorem activeBuffer_of_target (h : target s = none) : activeBuffer s = s.mp := by
  rw [activeBuffer, target_eq_none.mp h]

namespace Written
variable {fresh : Option HeapId}

theorem eq_fresh (h : Written s t fresh off bytes) {id : HeapId} (hold : s.heap.get id = none)
    (hnew : t.heap.get id ≠ none) : fresh = some id := by
  by_contra hne
  refine hnew ?_
  rw [h.others id (fun e => ne_none_of_target e hold) hne, hold]

theorem isArray (h : Written s t fresh off bytes)
    (hfresh : ∀ id, fresh = some id → s.heap.get id = none) {id : HeapId}
    (ha : IsArray s.heap id) : IsArray t.heap id := by
  obtain ⟨obj, elemType, elemSize, data, length, hget, hdata⟩ := ha
  by_cases htarget : target s = some id
  · refine ⟨_, elemType, elemSize, activeBuffer t, length, h.array id obj htarget hget, ?_⟩
    dsimp only
    rw [hdata]
    rfl
  · refine ⟨obj, elemType, elemSize, data, length, ?_, hdata⟩
    rw [h.others id htarget (fun e => by rw [hfresh id e] at hget; cases hget), hget]

theorem length_mp (h : Written s t fresh off bytes) : t.mp.length = s.mp.length := by
  by_cases htarget : target s = none
  · have hbuf := h.buffer
    rw [activeBuffer_of_target htarget, activeBuffer_of_target (h.selected.trans htarget)] at hbuf
    have hinside := h.inside
    rw [activeBuffer_of_target htarget] at hinside
    rw [hbuf]
    rcases hinside with rfl | hinside
    · rw [splice_nil]
    · exact length_splice hinside
  · rw [h.mp htarget]

end Written

/-- What every item has in common: arrays stay arrays and the module data keeps its length. -/
structure Steady (s t : Init) : Prop where
  arrays : ∀ id, IsArray s.heap id → IsArray t.heap id
  length : t.mp.length = s.mp.length

theorem Steady.refl (s : Init) : Steady s s := ⟨fun _ h => h, rfl⟩

theorem Steady.trans (h : Steady s t) (h' : Steady t u) : Steady s u :=
  ⟨fun id ha => h'.arrays id (h.arrays id ha), h'.length.trans h.length⟩

theorem Written.steady {fresh : Option HeapId} (h : Written s t fresh off bytes)
    (hfresh : ∀ id, fresh = some id → s.heap.get id = none) : Steady s t :=
  ⟨fun _ => h.isArray hfresh, h.length_mp⟩

/-- The id of an object that was not there before, at its place in the selected buffer. -/
def StoredIn (t : Init) (id : HeapId) : Prop :=
  ∃ off, off + 4 ≤ (activeBuffer t).length ∧ readWord (activeBuffer t) off = id

/-- The stack, the arrays and the new objects after an item that selects nothing. -/
structure Stored (s t : Init) : Prop where
  stack : t.arrayStack = s.arrayStack
  steady : Steady s t
  new : ∀ id, s.heap.get id = none → t.heap.get id ≠ none → StoredIn t id

theorem Stored.refl (s : Init) : Stored s s :=
  ⟨rfl, .refl s, fun _ hold hnew => absurd hold hnew⟩

theorem Fills.stored {α : Type} {size : Nat} {encode : α → List Byte} {offset : Word}
    {values : List α} (h : Fills size encode offset values s t) : Stored s t := by
  unfold Fills at h
  split at h
  · exact ⟨h.stack, h.steady nofun, fun id hold hnew => nomatch h.eq_fresh hold hnew⟩
  · subst h
    exact .refl t

theorem Stores.stored {offset : Word} {typeId : BitVec 32} {data : HeapData}
    (h : Stores offset typeId data s t) : Stored s t := by
  unfold Stores at h
  split at h
  · next off _ =>
      split at h
      · next hfit =>
          obtain ⟨id, hold, -, h⟩ := h
          refine ⟨h.stack, h.steady fun id' e => by cases e; exact hold, fun id' hold' hnew => ?_⟩
          cases h.eq_fresh hold' hnew
          have hinside : off + (leBytes 4 id.toNat).length ≤ (activeBuffer s).length := by
            rw [length_leBytes]
            exact hfit
          have hlength : (activeBuffer t).length = (activeBuffer s).length := by
            rw [h.buffer, length_splice hinside]
          have hword : writeWord (activeBuffer s) off id = activeBuffer t := by
            rw [writeWord, if_pos hfit, h.buffer]
          refine ⟨off, by rw [hlength]; exact hfit, ?_⟩
          rw [← hword]
          exact readWord_writeWord_self id hfit
      · subst h
        exact .refl t
  · subst h
    exact .refl t

/-- Every item but a selection and its end leaves the stack alone. -/
theorem Effect.stored {item : DataItem} (h : Effect types item s t)
    (hset : ∀ offset index, item ≠ .setArray offset index) (hrestore : item ≠ .restoreBase) :
    Stored s t := by
  cases item with
  | bytes offset values | words offset values | bigs offset values | reals offset values =>
      exact Fills.stored h
  | string offset value => exact Stores.stored h
  | array offset elementType length =>
      dsimp only [Effect] at h
      split at h
      · split at h
        · exact Stores.stored h
        · subst h
          exact .refl t
      · subst h
        exact .refl t
  | setArray offset index => exact absurd rfl (hset offset index)
  | restoreBase => exact absurd rfl hrestore

theorem Effect.steady_new {item : DataItem} (h : Effect types item s t) :
    Steady s t ∧ ∀ id, s.heap.get id = none → t.heap.get id ≠ none → StoredIn t id := by
  cases item with
  | setArray offset index =>
      obtain ⟨hmp, hheap, -⟩ := h
      refine ⟨⟨fun id ha => by rw [hheap]; exact ha, by rw [hmp]⟩, fun id hold hnew => ?_⟩
      rw [hheap] at hnew
      exact absurd hold hnew
  | restoreBase =>
      cases h
      exact ⟨⟨fun _ ha => ha, rfl⟩, fun _ hold hnew => absurd hold hnew⟩
  | bytes offset values | words offset values | bigs offset values | reals offset values
  | string offset value | array offset elementType length =>
      have hs := Effect.stored h nofun nofun
      exact ⟨hs.steady, hs.new⟩

/-- A property of each item and the state it is met in. -/
def Along (types : List TypeDescriptor) (P : DataItem → Init → Prop) : List DataItem → Init → Prop
  | [], _ => True
  | item :: items, s =>
    P item s ∧ ∀ u, initItem types item s = some u → Along types P items u

theorem initItems_append (first second : List DataItem) (s : Init) :
    initItems types (first ++ second) s = (initItems types first s).bind (initItems types second) := by
  induction first generalizing s with
  | nil => rfl
  | cons item first ih =>
      rw [List.cons_append, initItems, initItems]
      cases initItem types item s with
      | none => rfl
      | some u => exact ih u

theorem along_append {P : DataItem → Init → Prop} {first second : List DataItem} :
    Along types P (first ++ second) s ↔
      Along types P first s ∧ ∀ u, initItems types first s = some u → Along types P second u := by
  induction first generalizing s with
  | nil =>
      refine ⟨fun h => ⟨trivial, fun u hu => ?_⟩, fun h => h.2 s rfl⟩
      cases hu
      exact h
  | cons item first ih =>
      rw [List.cons_append]
      constructor
      · rintro ⟨hitem, hrest⟩
        refine ⟨⟨hitem, fun u hu => (ih.mp (hrest u hu)).1⟩, fun v hv => ?_⟩
        rw [initItems, Option.bind_eq_bind, Option.bind_eq_some_iff] at hv
        obtain ⟨u, hu, hv⟩ := hv
        exact (ih.mp (hrest u hu)).2 v hv
      · rintro ⟨⟨hitem, hfirst⟩, hsecond⟩
        refine ⟨hitem, fun u hu => ih.mpr ⟨hfirst u hu, fun v hv => hsecond v ?_⟩⟩
        rw [initItems, hu, Option.bind_eq_bind, Option.bind_some]
        exact hv

/-- An array is made where the selected id is not the one it will be given. -/
def Unclaimed (item : DataItem) (s : Init) : Prop :=
  ∀ offset elementType length, item = .array offset elementType length →
    s.arrayStack.head? ≠ some s.heap.nextId

/-- A selection finds an array to select. -/
def Taken (item : DataItem) (s : Init) : Prop :=
  ∀ offset index, item = .setArray offset index → ∃ id, Selects s offset index id

/-- Lists in which every selection has its end. -/
inductive Balanced : List DataItem → Prop where
  | nil : Balanced []
  | item {item : DataItem} {items : List DataItem}
      (hset : ∀ offset index, item ≠ .setArray offset index) (hrestore : item ≠ .restoreBase) :
      Balanced items → Balanced (item :: items)
  | scope {offset index : Word} {body items : List DataItem} : Balanced body → Balanced items →
      Balanced (.setArray offset index :: (body ++ .restoreBase :: items))

theorem initItems_cons {item : DataItem} :
    initItems types (item :: items) s = some t ↔
      ∃ u, initItem types item s = some u ∧ initItems types items u = some t := by
  rw [initItems, Option.bind_eq_bind, Option.bind_eq_some_iff]

/-- A run changes nothing but what its items do, one after the other. -/
theorem along_effect (hu : Along types Unclaimed items s) (h : initItems types items s = some t) :
    Along types (fun item u => ∃ v, initItem types item u = some v ∧ Effect types item u v) items s
      ∧ Steady s t := by
  induction items generalizing s with
  | nil =>
      cases h
      exact ⟨trivial, .refl _⟩
  | cons item items ih =>
      obtain ⟨v, hv, h⟩ := initItems_cons.mp h
      have heffect := effect_initItem hu.1 hv
      obtain ⟨hrest, hsteady⟩ := ih (hu.2 v hv) h
      refine ⟨⟨⟨v, hv, heffect⟩, fun w hw => ?_⟩, heffect.steady_new.1.trans hsteady⟩
      rw [hv] at hw
      cases hw
      exact hrest

/-- Every object of a run was made by an item that stored its id. -/
theorem stored_of_new (hu : Along types Unclaimed items s) (h : initItems types items s = some t)
    {id : HeapId} (hold : s.heap.get id = none) (hnew : t.heap.get id ≠ none) :
    ∃ pre item post u v, items = pre ++ item :: post ∧ initItems types pre s = some u ∧
      initItem types item u = some v ∧ u.heap.get id = none ∧ StoredIn v id := by
  induction items generalizing s with
  | nil =>
      cases h
      exact absurd hold hnew
  | cons item items ih =>
      obtain ⟨v, hv, h⟩ := initItems_cons.mp h
      by_cases hmade : v.heap.get id = none
      · obtain ⟨pre, item', post, u, w, rfl, hpre, hitem, hnone, hstored⟩ :=
          ih (hu.2 v hv) h hmade
        exact ⟨item :: pre, item', post, u, w, rfl, initItems_cons.mpr ⟨v, hv, hpre⟩, hitem,
          hnone, hstored⟩
      · exact ⟨[], item, items, s, v, rfl, rfl, hv, hold,
          (effect_initItem hu.1 hv).steady_new.2 id hold hmade⟩

/-- A balanced run whose selections are all taken leaves the stack as it was. -/
theorem stack_of_balanced (hb : Balanced items) (hu : Along types Unclaimed items s)
    (ht : Along types Taken items s) (h : initItems types items s = some t) :
    t.arrayStack = s.arrayStack := by
  induction hb generalizing s t with
  | nil =>
      cases h
      rfl
  | item hset hrestore _ ih =>
      obtain ⟨v, hv, h⟩ := initItems_cons.mp h
      rw [ih (hu.2 v hv) (ht.2 v hv) h]
      exact ((effect_initItem hu.1 hv).stored hset hrestore).stack
  | @scope offset index body items _ _ ihbody ihitems =>
      obtain ⟨v, hv, h⟩ := initItems_cons.mp h
      rw [initItems_append, Option.bind_eq_some_iff] at h
      obtain ⟨w, hw, h⟩ := h
      obtain ⟨x, hx, h⟩ := initItems_cons.mp h
      obtain ⟨hubody, hurest⟩ := along_append.mp (hu.2 v hv)
      obtain ⟨htbody, htrest⟩ := along_append.mp (ht.2 v hv)
      -- The selection pushed one id, the body kept it, and the end took it away.
      obtain ⟨-, -, hstack⟩ := effect_initItem hu.1 hv
      have hpush : v.arrayStack.tail = s.arrayStack := by
        obtain ⟨id, hid⟩ := ht.1 offset index rfl
        rcases hstack with ⟨id', -, hstack⟩ | ⟨hnone, -⟩
        · rw [hstack, List.tail_cons]
        · exact absurd hid (hnone id)
      have hpop : x = { w with arrayStack := w.arrayStack.tail } :=
        effect_initItem (hurest w hw).1 hx
      rw [ihitems ((hurest w hw).2 x hx) ((htrest w hw).2 x hx) h, hpop]
      dsimp only
      rw [ihbody hubody htbody hw, hpush]

/-- Module data that holds nothing yet. -/
def start (size : Nat) (heap : Heap) : Init := ⟨List.replicate size 0, heap, []⟩

theorem initMpWithTypes_eq_some {dataSize : Word} {heap : Heap} {size : Nat}
    {result : List Byte × Heap} (hsize : dataSize.toUsize? = some size) :
    initMpWithTypes dataSize items heap types = some result ↔
      ∃ t, initItems types items (start size heap) = some t ∧ (t.mp, t.heap) = result := by
  simp only [initMpWithTypes, hsize, Option.bind_eq_bind, Option.bind_some,
    Option.bind_eq_some_iff, Option.pure_def, Option.some.injEq]
  rfl

/-- A section is read to its end while the heap has ids. Each item changes what its own effect
says, every new object was stored where it was made, and a scope gives its selection back. -/
theorem initMpWithTypes_effects {dataSize : Word} {heap : Heap} {size : Nat}
    (hsize : dataSize.toUsize? = some size)
    (hunclaimed : Along types Unclaimed items (start size heap)) :
    (items.length ≤ heap.room → (initMpWithTypes dataSize items heap types).isSome) ∧
    ∀ mp heap', initMpWithTypes dataSize items heap types = some (mp, heap') →
      mp.length = size ∧
      Along types (fun item u => ∃ v, initItem types item u = some v ∧ Effect types item u v)
        items (start size heap) ∧
      (∀ id, heap.get id = none → heap'.get id ≠ none →
        ∃ pre item post u v, items = pre ++ item :: post ∧
          initItems types pre (start size heap) = some u ∧ initItem types item u = some v ∧
          u.heap.get id = none ∧ StoredIn v id) ∧
      ∀ pre body post, items = pre ++ (body ++ post) → Balanced body →
        ∃ u v, initItems types pre (start size heap) = some u ∧
          initItems types body u = some v ∧
          (Along types Taken body u → v.arrayStack = u.arrayStack ∧
            ∀ id, target u = some id → target v = some id) := by
  constructor
  · intro hroom
    obtain ⟨t, ht, -⟩ := initItems_isSome types items (s := start size heap) hroom
    rw [(initMpWithTypes_eq_some hsize).mpr ⟨t, ht, rfl⟩, Option.isSome_some]
  · intro mp heap' h
    obtain ⟨t, ht, hresult⟩ := (initMpWithTypes_eq_some hsize).mp h
    cases hresult
    obtain ⟨heffects, hsteady⟩ := along_effect hunclaimed ht
    refine ⟨hsteady.length.trans List.length_replicate, heffects,
      fun id hold hnew => stored_of_new hunclaimed ht hold hnew, ?_⟩
    rintro pre body post rfl hb
    rw [initItems_append, Option.bind_eq_some_iff] at ht
    obtain ⟨u, hu, ht⟩ := ht
    rw [initItems_append, Option.bind_eq_some_iff] at ht
    obtain ⟨v, hv, -⟩ := ht
    have hbody := (along_append.mp ((along_append.mp hunclaimed).2 u hu)).1
    refine ⟨u, v, hu, hv, fun htaken => ?_⟩
    have hstack := stack_of_balanced hb hbody htaken hv
    refine ⟨hstack, fun id hid => ?_⟩
    obtain ⟨hhead, harray⟩ := target_eq_some.mp hid
    exact target_eq_some.mpr ⟨by rw [hstack]; exact hhead, (along_effect hbody hv).2.arrays id harray⟩

theorem initMpWithTypes_effects_nested :
    (initMpWithTypes 4 [.array 0 0 2, .setArray 0 1, .words 4 [7], .restoreBase] Heap.new []).isSome
      := by
  refine (@initMpWithTypes_effects [] _ 4 Heap.new 4 rfl ?_).1 (by decide +kernel)
  refine ⟨?_, fun u _ => ⟨nofun, fun u _ => ⟨nofun, fun u _ => ⟨nofun, fun u _ => trivial⟩⟩⟩⟩
  intro _ _ _ _
  exact nofun

/-- An item behind the end of the module data is passed over without an error. A selection that
is not taken leaves its end to take the enclosing one away. An array that is given the selected
id is where the id is looked for, so that no buffer holds it. -/
theorem data_slips :
    (initMpWithTypes 4 [.words 4 [5]] Heap.new []).map (·.1) = some [0, 0, 0, 0] ∧
    (initItems [] [.array 0 0 4, .setArray 0 0] (start 4 Heap.new)).map target =
      some (some heapIdBase) ∧
    Balanced [.setArray 4 0, .restoreBase] ∧
    (initItems [] [.array 0 0 4, .setArray 0 0, .setArray 4 0, .restoreBase]
      (start 4 Heap.new)).map target = some none ∧
    (initMpWithTypes 4 [.words 0 [heapIdBase], .setArray 0 0, .words 0 [0], .array 0 0 0]
      Heap.new []).map (fun r => (r.1, r.2.get heapIdBase)) =
        some ([0, 0, 0, 0], some ⟨1, 0, none, .array 0 4 [] 0⟩) := by
  refine ⟨by decide +kernel, by decide +kernel, .scope .nil .nil, by decide +kernel,
    by decide +kernel⟩

end RiceVM.Data
