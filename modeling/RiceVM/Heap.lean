import Mathlib.Data.List.AList
import RiceVM.Core
import RiceVM.Lib.Buffer

/-!
The reference-counted heap. Ids are handed out in order and never used twice, so
an object and every id below `nextId` stay apart from whatever is allocated
later. `below` carries that fact with the heap.
-/
namespace RiceVM
open Buffer

/-- The nil heap pointer. -/
def nil : HeapId := 0

/-- Ids start above every frame offset and module data address. -/
def heapIdBase : HeapId := 0x10000000

/-- Byte offsets of the pointer words of one element, and the element's size. -/
structure TraceMap where
  offsets : List Nat
  stride : Nat
  deriving DecidableEq, Repr

namespace TraceMap

/-- The map of a type descriptor, read most significant bit first. -/
def new (mapBytes : List Byte) (stride : Nat) : TraceMap where
  offsets := mapBytes.zipIdx.flatMap fun (mapByte, byteIdx) =>
    (List.range 8).filterMap fun bit =>
      if mapByte.getMsbD bit && (byteIdx * 8 + bit) * 4 + 4 ≤ stride
      then some ((byteIdx * 8 + bit) * 4) else none
  stride := stride

def pointerOffsets (m : TraceMap) (bufLen : Nat) : List Nat :=
  let elements := if m.stride = 0 then 0 else (bufLen + m.stride - 1) / m.stride
  (List.range elements).flatMap fun element =>
    (m.offsets.map (element * m.stride + ·)).filter (· + 4 ≤ bufLen)

end TraceMap

inductive HeapData where
  | record (data : List Byte)
  | str (value : String)
  | array (elemType : BitVec 32) (elemSize : Nat) (data : List Byte) (length : Nat)
  | list (head : List Byte) (tail : HeapId)
  | moduleRef (moduleId : Nat) (funcMap : List (Option Nat))
  | mainModule (funcMap : List (Option Nat))
  | loadedModule (moduleIdx : Nat) (funcMap : List (Option Nat))
  /-- A channel holds at most one value that was sent and not yet received. -/
  | channel (elemSize : Nat) (pending : Option (List Byte))
  | adt (tag : BitVec 32) (data : List Byte)
  /-- A view of `length` elements of another array. -/
  | arraySlice (parentId : HeapId) (byteStart : Nat) (elemType : BitVec 32)
      (elemSize length : Nat)
  deriving DecidableEq, Repr

namespace HeapData

def channel? : HeapData → Option (Nat × Option (List Byte))
  | .channel elemSize pending => some (elemSize, pending)
  | _ => none

/-- Module handles outlive their reference count. -/
def isPermanent : HeapData → Bool
  | .moduleRef .. | .mainModule _ | .loadedModule .. => true
  | _ => false

/-- The references an object owns and releases when it is freed. -/
def childRefs : HeapData → List HeapId
  | .list _ tail => if tail = nil then [] else [tail]
  | .arraySlice parentId .. => if parentId = nil then [] else [parentId]
  | _ => []

/-- The bytes of a record, array or ADT. -/
def buffer? : HeapData → Option (List Byte)
  | .record data | .array _ _ data _ | .adt _ data => some data
  | _ => none

def setBuffer (data : List Byte) : HeapData → HeapData
  | .record _ => .record data
  | .array elemType elemSize _ length => .array elemType elemSize data length
  | .adt tag _ => .adt tag data
  | d => d

@[simp] theorem channel?_setBuffer (data : List Byte) (d : HeapData) :
    (d.setBuffer data).channel? = d.channel? := by
  cases d <;> rfl

end HeapData

structure HeapObject where
  refCount : BitVec 32
  typeId : BitVec 32
  trace : Option TraceMap
  data : HeapData
  deriving DecidableEq, Repr

/-- The object with `n` references less, of a count that stops at 0. -/
def HeapObject.drop (n : Nat) (obj : HeapObject) : HeapObject :=
  { obj with refCount := .ofNat 32 (obj.refCount.toNat - n) }

/-- The object with `n` references more. -/
def HeapObject.take (n : Nat) (obj : HeapObject) : HeapObject :=
  { obj with refCount := obj.refCount + .ofNat 32 n }

namespace HeapObject

@[simp] theorem refCount_drop (n : Nat) (obj : HeapObject) :
    (obj.drop n).refCount.toNat = obj.refCount.toNat - n := by
  have := obj.refCount.isLt
  simp only [drop, BitVec.toNat_ofNat]
  omega

@[simp] theorem drop_zero (obj : HeapObject) : obj.drop 0 = obj := by
  simp [drop]

theorem refCount_take {n : Nat} {obj : HeapObject} (h : obj.refCount.toNat + n < 2 ^ 32) :
    (obj.take n).refCount.toNat = obj.refCount.toNat + n := by
  simp only [take, BitVec.toNat_add, BitVec.toNat_ofNat]
  omega

@[simp] theorem take_zero (obj : HeapObject) : obj.take 0 = obj := by
  simp [take]

@[simp] theorem data_take (n : Nat) (obj : HeapObject) : (obj.take n).data = obj.data := rfl

@[simp] theorem take_take (n m : Nat) (obj : HeapObject) :
    (obj.take n).take m = obj.take (n + m) := by
  simp only [take, BitVec.ofNat_add, BitVec.add_assoc]

@[simp] theorem data_drop (n : Nat) (obj : HeapObject) : (obj.drop n).data = obj.data := rfl

@[simp] theorem drop_drop (n m : Nat) (obj : HeapObject) :
    (obj.drop n).drop m = obj.drop (n + m) := by
  have hcount := refCount_drop n obj
  rw [drop, hcount, Nat.sub_sub]
  rfl

end HeapObject

structure Heap where
  objects : AList fun _ : HeapId => HeapObject
  nextId : HeapId
  below : ∀ id ∈ objects, id < nextId
  base : heapIdBase ≤ nextId

namespace Heap

def new : Heap where
  objects := ∅
  nextId := heapIdBase
  below := fun _ h => absurd h (AList.notMem_empty _)
  base := BitVec.le_refl _

def get (h : Heap) (id : HeapId) : Option HeapObject :=
  if id = nil then none else h.objects.lookup id

def contains (h : Heap) (id : HeapId) : Bool :=
  id ≠ nil && (h.objects.lookup id).isSome

/-- Allocate an object. The id counter is a `u32` and overflowing it panics. -/
def alloc (h : Heap) (typeId : BitVec 32) (data : HeapData) (trace : Option TraceMap) :
    Option (HeapId × Heap) :=
  if hlt : h.nextId < h.nextId + 1 then
    some (h.nextId,
      { objects := h.objects.insert h.nextId ⟨1, typeId, trace, data⟩
        nextId := h.nextId + 1
        below := by
          intro id hid
          rcases (AList.mem_insert _).mp hid with rfl | hold
          · exact hlt
          · exact BitVec.lt_trans (h.below id hold) hlt
        base := BitVec.le_trans h.base (BitVec.le_of_lt hlt) })
  else none

/-- Change the object named by `id`, if there is one. -/
def update (h : Heap) (id : HeapId) (f : HeapObject → HeapObject) : Heap :=
  match hl : h.objects.lookup id with
  | none => h
  | some obj =>
    { objects := h.objects.insert id (f obj)
      nextId := h.nextId
      below := by
        intro id' hid
        rcases (AList.mem_insert _).mp hid with rfl | hold
        · exact h.below _ (AList.lookup_isSome.mp (by rw [hl]; rfl))
        · exact h.below _ hold
      base := h.base }

def remove (h : Heap) (id : HeapId) : Heap where
  objects := h.objects.erase id
  nextId := h.nextId
  below := fun id' hid => h.below id' (AList.mem_erase.mp hid).2
  base := h.base

/-- The number of references counted for an object, 0 without one. -/
def refs (h : Heap) (id : HeapId) : Nat := (h.get id).elim 0 (·.refCount.toNat)

/-- The largest count. -/
def maxRefs : Nat := 0xffffffff

/-- One more reference to the object, if it is there. -/
def addRef (h : Heap) (id : HeapId) : Heap :=
  if id = nil then h else h.update id (·.take 1)

/-- Take a reference. The count is a `u32` and overflowing it panics. -/
def incRef (h : Heap) (id : HeapId) : Option Heap :=
  if h.refs id < maxRefs then some (h.addRef id) else none

/-- The release loop: every turn frees an object or drops an id from `pending`. -/
def decRefLoop (h : Heap) : Nat → List HeapId → Heap
  | 0, _ | _, [] => h
  | fuel + 1, id :: pending =>
    match h.objects.lookup id with
    | none => h.decRefLoop fuel pending
    | some obj =>
      if obj.refCount.toNat ≤ 1 ∧ ¬ obj.data.isPermanent then
        (h.remove id).decRefLoop fuel (obj.data.childRefs ++ pending)
      else
        (h.update id (·.drop 1)).decRefLoop fuel pending

/-- Release a reference and what the freed objects own. -/
def decRef (h : Heap) (id : HeapId) : Heap :=
  if id = nil then h else h.decRefLoop (h.objects.entries.length + 1) [id]

def getString (h : Heap) (id : HeapId) : Option String :=
  match h.get id with
  | some ⟨_, _, _, .str s⟩ => some s
  | _ => none

/-- Read through a chain of slices; a chain visits each object at most once. -/
def heapSliceLoop (h : Heap) : Nat → HeapId → Nat → Nat → Option (List Byte)
  | 0, _, _, _ => none
  | fuel + 1, id, offset, len =>
    match h.get id with
    | none => none
    | some obj =>
      match obj.data with
      | .record data | .array _ _ data _ | .adt _ data =>
        some (if offset + len ≤ data.length then slice data offset len else List.replicate len 0)
      | .arraySlice parentId byteStart .. => h.heapSliceLoop fuel parentId (byteStart + offset) len
      | _ => some (List.replicate len 0)

def heapSlice (h : Heap) (id : HeapId) (offset len : Nat) : Option (List Byte) :=
  h.heapSliceLoop (h.objects.entries.length + 1) id offset len

/-- Write a whole range, or nothing where it does not fit. -/
def heapWriteLoop (h : Heap) : Nat → HeapId → Nat → List Byte → Heap
  | 0, _, _, _ => h
  | fuel + 1, id, offset, bytes =>
    match h.get id with
    | none => h
    | some obj =>
      match obj.data with
      | .arraySlice parentId byteStart .. =>
        h.heapWriteLoop fuel parentId (byteStart + offset) bytes
      | .record data | .array _ _ data _ | .adt _ data =>
        if offset + bytes.length ≤ data.length then
          h.update id fun obj =>
            { obj with data := obj.data.setBuffer (splice data offset bytes) }
        else h
      | _ => h

def heapWrite (h : Heap) (id : HeapId) (offset : Nat) (bytes : List Byte) : Heap :=
  h.heapWriteLoop (h.objects.entries.length + 1) id offset bytes

/-- The number of bytes of an array or of a slice. -/
def arrayByteLen (h : Heap) (id : HeapId) : Option Nat :=
  match h.get id with
  | none => none
  | some obj =>
    match obj.data with
    | .array _ _ data _ => some data.length
    | .arraySlice _ _ _ elemSize length => some (length * elemSize)
    | _ => none

/-- Read bytes of an array or of the array behind a slice; a range past its end reads as zeros. -/
def arrayReadLoop (h : Heap) : Nat → HeapId → Nat → Nat → Option (List Byte)
  | 0, _, _, _ => none
  | fuel + 1, id, offset, len =>
    match h.get id with
    | none => none
    | some obj =>
      match obj.data with
      | .array _ _ data _ =>
        some (if offset + len ≤ data.length then slice data offset len else List.replicate len 0)
      | .arraySlice parentId byteStart .. => h.arrayReadLoop fuel parentId (byteStart + offset) len
      | _ => none

def arrayRead (h : Heap) (id : HeapId) (offset len : Nat) : Option (List Byte) :=
  h.arrayReadLoop (h.objects.entries.length + 1) id offset len

/-- Write as much of the bytes as an array or the array behind a slice holds. -/
def arrayWriteLoop (h : Heap) : Nat → HeapId → Nat → List Byte → Heap
  | 0, _, _, _ => h
  | fuel + 1, id, offset, bytes =>
    match h.get id with
    | none => h
    | some obj =>
      match obj.data with
      | .arraySlice parentId byteStart .. =>
        h.arrayWriteLoop fuel parentId (byteStart + offset) bytes
      | .array _ _ data _ =>
        h.update id fun obj => { obj with data := obj.data.setBuffer (overlay data offset bytes) }
      | _ => h

def arrayWrite (h : Heap) (id : HeapId) (offset : Nat) (bytes : List Byte) : Heap :=
  h.arrayWriteLoop (h.objects.entries.length + 1) id offset bytes

/-- Drop every object that is neither marked nor permanent. -/
def sweep (h : Heap) (marked : HeapId → Bool) : Heap where
  objects :=
    ⟨h.objects.entries.filter fun e => marked e.1 || e.2.data.isPermanent,
      List.NodupKeys.sublist List.filter_sublist h.objects.nodupKeys⟩
  nextId := h.nextId
  below := by
    intro id hid
    refine h.below id ?_
    rw [AList.mem_keys] at hid ⊢
    exact (List.filter_sublist.map _).subset hid
  base := h.base

/-! What the operations leave of an object, and of a channel in particular. -/

@[simp]
theorem decRefLoop_nil (h : Heap) (fuel : Nat) : h.decRefLoop fuel [] = h := by
  cases fuel <;> rfl

theorem get_of_nextId_le {h : Heap} {id : HeapId} (hid : h.nextId ≤ id) : h.get id = none := by
  unfold get
  split
  · rfl
  · refine AList.lookup_eq_none.mpr fun hmem => ?_
    exact absurd (h.below id hmem) (BitVec.not_lt.mpr hid)

theorem nil_lt_nextId (h : Heap) : nil < h.nextId := by
  have := h.base
  simp only [nil, heapIdBase] at *
  bv_omega

theorem alloc_cases {h h' : Heap} {typeId : BitVec 32} {data : HeapData}
    {trace : Option TraceMap} {id : HeapId}
    (ha : h.alloc typeId data trace = some (id, h')) :
    id = h.nextId ∧ h.nextId < h'.nextId ∧
      ∀ id', h'.get id' =
        if id' = id then some ⟨1, typeId, trace, data⟩ else h.get id' := by
  unfold alloc at ha
  split at ha
  · next hlt =>
      cases ha
      refine ⟨rfl, hlt, fun id' => ?_⟩
      by_cases hid : id' = h.nextId
      · subst hid
        have hne : h.nextId ≠ nil := fun e =>
          absurd h.nil_lt_nextId (by rw [e]; exact BitVec.lt_irrefl _)
        rw [get, if_neg hne, if_pos rfl, AList.lookup_insert]
      · rw [if_neg hid, get, get, AList.lookup_insert_ne hid]
  · cases ha

theorem get_update (h : Heap) (id id' : HeapId) (f : HeapObject → HeapObject) :
    (h.update id f).get id' = if id' = id then (h.get id').map f else h.get id' := by
  unfold update
  split
  · next hl =>
      split
      · next heq =>
          subst heq
          rw [get, hl, ite_self]
          rfl
      · rfl
  · next obj hl =>
      by_cases heq : id' = id
      · subst heq
        rw [if_pos rfl, get, get, AList.lookup_insert, hl]
        split <;> rfl
      · rw [if_neg heq, get, get, AList.lookup_insert_ne heq]

@[simp] theorem nextId_update (h : Heap) (id : HeapId) (f : HeapObject → HeapObject) :
    (h.update id f).nextId = h.nextId := by
  unfold update
  split <;> rfl

theorem get_remove (h : Heap) (id id' : HeapId) :
    (h.remove id).get id' = if id' = id then none else h.get id' := by
  by_cases heq : id' = id
  · subst heq
    rw [if_pos rfl, get, remove, AList.lookup_erase, ite_self]
  · rw [if_neg heq, get, get, remove, AList.lookup_erase_ne heq]

theorem get_sweep (h : Heap) (marked : HeapId → Bool) (id : HeapId) :
    (h.sweep marked).get id = h.get id ∨ (h.sweep marked).get id = none := by
  by_cases hnil : id = nil
  · exact .inr (if_pos hnil)
  rw [get, get, if_neg hnil, if_neg hnil]
  cases hl : (h.sweep marked).objects.lookup id with
  | none => exact .inr rfl
  | some obj =>
      have hmem := List.mem_of_mem_filter (AList.mem_lookup_iff.mp hl)
      exact .inl (AList.mem_lookup_iff.mpr hmem).symm

/-- A sweep keeps the marked and the permanent objects as they are. -/
theorem get_sweep_some {h : Heap} {marked : HeapId → Bool} {id : HeapId} {obj : HeapObject} :
    (h.sweep marked).get id = some obj ↔
      h.get id = some obj ∧ (marked id || obj.data.isPermanent) = true := by
  by_cases hnil : id = nil
  · simp only [get, hnil, if_true, reduceCtorEq, false_and]
  · have hmem : ⟨id, obj⟩ ∈ (h.sweep marked).objects.entries ↔
        ⟨id, obj⟩ ∈ h.objects.entries ∧ (marked id || obj.data.isPermanent) = true :=
      List.mem_filter
    rw [get, get, if_neg hnil, if_neg hnil]
    exact AList.mem_lookup_iff.trans (hmem.trans (and_congr_left' AList.mem_lookup_iff.symm))

/-- The channel named by `c`: its element size and the value in flight. -/
def chan (h : Heap) (c : HeapId) : Option (Nat × Option (List Byte)) :=
  (h.get c).bind (·.data.channel?)

@[simp] theorem chan_new (c : HeapId) : new.chan c = none := by
  unfold chan get
  split <;> rfl

theorem chan_of_nextId_le {h : Heap} {c : HeapId} (hc : h.nextId ≤ c) : h.chan c = none := by
  rw [chan, get_of_nextId_le hc]
  rfl

theorem lt_nextId_of_chan {h : Heap} {c : HeapId} {ch : Nat × Option (List Byte)}
    (hc : h.chan c = some ch) : c < h.nextId := by
  refine BitVec.not_le.mp fun hle => ?_
  rw [chan_of_nextId_le hle] at hc
  cases hc

/-! ### What is done to a heap -/

/-- What the rest of the machine asks of the heap. -/
inductive Act where
  | acquire (id : HeapId)
  | release (id : HeapId)
  | new (typeId : BitVec 32) (data : HeapData) (trace : Option TraceMap)
  /-- Other contents for an object, which keeps its count. -/
  | store (id : HeapId) (f : HeapObject → HeapObject)
  | sweep (marked : HeapId → Bool)

def Act.Step : Act → Heap → Heap → Prop
  | .acquire id, h, h' => h' = h.addRef id
  | .release id, h, h' => h' = h.decRef id
  | .new typeId data trace, h, h' => ∃ id, h.alloc typeId data trace = some (id, h')
  | .store id f, h, h' => (∀ obj, (f obj).refCount = obj.refCount) ∧ h' = h.update id f
  | .sweep marked, h, h' => h' = h.sweep marked

/-- What is done to the heap one after another, and to which heap each. -/
inductive Run : Heap → List (Heap × Act) → Heap → Prop
  | nil (h : Heap) : Run h [] h
  | cons {h h' h'' : Heap} {a : Act} {acts : List (Heap × Act)} : a.Step h h' → Run h' acts h'' →
      Run h ((h, a) :: acts) h''

theorem Run.append {h h' h'' : Heap} {acts acts' : List (Heap × Act)} (a : Run h acts h')
    (b : Run h' acts' h'') : Run h (acts ++ acts') h'' := by
  induction a with
  | nil => exact b
  | cons hstep _ ih => exact .cons hstep (ih b)

/-- The heap is changed by such acts only. -/
def Ran (h h' : Heap) : Prop := ∃ acts, Run h acts h'

theorem Ran.refl (h : Heap) : Ran h h := ⟨[], .nil h⟩

theorem Ran.trans {h h' h'' : Heap} : Ran h h' → Ran h' h'' → Ran h h''
  | ⟨_, a⟩, ⟨_, b⟩ => ⟨_, a.append b⟩

theorem Act.Step.ran {a : Act} {h h' : Heap} (hstep : a.Step h h') : Ran h h' :=
  ⟨_, .cons hstep (.nil h')⟩

/-- No channel is created or changed, though one may be freed, and ids are only ever handed out
upwards. -/
structure Quiet (h h' : Heap) : Prop where
  chan : ∀ c, h'.chan c = h.chan c ∨ h'.chan c = none
  nextId : h.nextId ≤ h'.nextId

theorem Quiet.refl (h : Heap) : Quiet h h := ⟨fun _ => .inl rfl, BitVec.le_refl _⟩

theorem Quiet.trans {h h' h'' : Heap} (a : Quiet h h') (b : Quiet h' h'') : Quiet h h'' := by
  refine ⟨fun c => ?_, BitVec.le_trans a.nextId b.nextId⟩
  rcases b.chan c with hb | hb
  · rw [hb]; exact a.chan c
  · exact .inr hb

/-- A heap change that transfers nothing. -/
structure Plain (h h' : Heap) : Prop extends Quiet h h' where
  ran : Ran h h'

theorem Plain.refl (h : Heap) : Plain h h := ⟨.refl h, .refl h⟩

theorem Plain.trans {h h' h'' : Heap} (a : Plain h h') (b : Plain h' h'') : Plain h h'' :=
  ⟨a.toQuiet.trans b.toQuiet, a.ran.trans b.ran⟩

/-- Objects may go away or change, as long as what a channel holds does not. -/
theorem Quiet.of_get {h h' : Heap} (hn : h.nextId ≤ h'.nextId)
    (hg : ∀ id, h'.get id = none ∨ ∃ obj, h'.get id = some obj ∧
      (obj.data.channel? = none ∨
        ∃ old, h.get id = some old ∧ obj.data.channel? = old.data.channel?)) :
    Quiet h h' := by
  refine ⟨fun c => ?_, hn⟩
  simp only [Heap.chan]
  rcases hg c with hnone | ⟨obj, hobj, hdata | ⟨old, hold, hdata⟩⟩
  · exact .inr (by rw [hnone]; rfl)
  · exact .inr (by rw [hobj]; exact hdata)
  · exact .inl (by rw [hobj, hold]; exact hdata)

theorem quiet_update {h : Heap} {id : HeapId} {f : HeapObject → HeapObject}
    (hf : ∀ obj, h.get id = some obj → (f obj).data.channel? = obj.data.channel?) :
    Quiet h (h.update id f) := by
  refine .of_get (by rw [nextId_update]; exact BitVec.le_refl _) fun id' => ?_
  rw [get_update]
  cases hg : h.get id' with
  | none => exact .inl (by split <;> rfl)
  | some old =>
      refine .inr ?_
      split
      · next heq =>
          subst heq
          exact ⟨_, rfl, .inr ⟨old, rfl, hf old hg⟩⟩
      · exact ⟨_, rfl, .inr ⟨old, rfl, rfl⟩⟩

theorem plain_update {h : Heap} {id : HeapId} {f : HeapObject → HeapObject}
    (hcount : ∀ obj, (f obj).refCount = obj.refCount)
    (hf : ∀ obj, h.get id = some obj → (f obj).data.channel? = obj.data.channel?) :
    Plain h (h.update id f) :=
  ⟨quiet_update hf, Act.Step.ran (show Act.Step (.store id f) h _ from ⟨hcount, rfl⟩)⟩

theorem quiet_remove (h : Heap) (id : HeapId) : Quiet h (h.remove id) := by
  refine .of_get (BitVec.le_refl _) fun id' => ?_
  rw [get_remove]
  split
  · exact .inl rfl
  · cases hg : h.get id' with
    | none => exact .inl rfl
    | some old => exact .inr ⟨old, rfl, .inr ⟨old, rfl, rfl⟩⟩

theorem plain_alloc {h h' : Heap} {typeId : BitVec 32} {data : HeapData}
    {trace : Option TraceMap} {id : HeapId} (ha : h.alloc typeId data trace = some (id, h'))
    (hd : data.channel? = none) : Plain h h' := by
  obtain ⟨_, hlt, hget⟩ := alloc_cases ha
  refine ⟨.of_get (BitVec.le_of_lt hlt) fun id' => ?_,
    Act.Step.ran (show Act.Step (.new typeId data trace) h h' from ⟨id, ha⟩)⟩
  rw [hget]
  split
  · exact .inr ⟨_, rfl, .inl hd⟩
  · cases hg : h.get id' with
    | none => exact .inl rfl
    | some old => exact .inr ⟨old, rfl, .inr ⟨old, rfl, rfl⟩⟩

theorem plain_addRef (h : Heap) (id : HeapId) : Plain h (h.addRef id) := by
  refine ⟨?_, Act.Step.ran (show Act.Step (.acquire id) h _ from rfl)⟩
  unfold addRef
  split
  · exact .refl h
  · exact quiet_update fun _ _ => rfl

theorem refs_of_alloc {h h' : Heap} {typeId : BitVec 32} {data : HeapData}
    {trace : Option TraceMap} {id : HeapId} (ha : h.alloc typeId data trace = some (id, h')) :
    h'.refs id = 1 := by
  rw [refs, (alloc_cases ha).2.2, if_pos rfl]
  rfl

theorem refs_alloc {h h' : Heap} {typeId : BitVec 32} {data : HeapData}
    {trace : Option TraceMap} {id : HeapId} (ha : h.alloc typeId data trace = some (id, h'))
    (i : HeapId) : h'.refs i = h.refs i + if i = id then 1 else 0 := by
  obtain ⟨hid, _, hget⟩ := alloc_cases ha
  rw [refs, hget]
  split
  · next heq =>
      have hnone : h.get i = none := get_of_nextId_le (by rw [heq, hid]; exact BitVec.le_refl _)
      simp [refs, hnone]
  · rfl

theorem incRef_eq_some {h h' : Heap} {id : HeapId} :
    h.incRef id = some h' ↔ h.refs id < maxRefs ∧ h' = h.addRef id := by
  unfold incRef
  split
  · next hroom => simp [hroom, eq_comm]
  · next hfull => simp [hfull]

theorem plain_incRef {h h' : Heap} {id : HeapId} (hinc : h.incRef id = some h') : Plain h h' :=
  (incRef_eq_some.mp hinc).2 ▸ plain_addRef h id

theorem quiet_decRefLoop (h : Heap) (fuel : Nat) (pending : List HeapId) :
    Quiet h (h.decRefLoop fuel pending) := by
  induction fuel generalizing h pending with
  | zero => unfold decRefLoop; exact .refl h
  | succ fuel ih =>
      cases pending with
      | nil => exact .refl h
      | cons id pending =>
          unfold decRefLoop
          split
          · exact ih h pending
          · split
            · exact (quiet_remove h id).trans (ih _ _)
            · refine Quiet.trans ?_ (ih _ _)
              exact quiet_update fun _ _ => rfl

theorem plain_decRef (h : Heap) (id : HeapId) : Plain h (h.decRef id) := by
  refine ⟨?_, Act.Step.ran (show Act.Step (.release id) h _ from rfl)⟩
  unfold decRef
  split
  · exact .refl h
  · exact quiet_decRefLoop h _ _

theorem plain_heapWriteLoop (h : Heap) (fuel : Nat) (id : HeapId) (offset : Nat)
    (bytes : List Byte) : Plain h (h.heapWriteLoop fuel id offset bytes) := by
  induction fuel generalizing id offset with
  | zero => exact .refl h
  | succ fuel ih =>
      unfold heapWriteLoop
      split
      · exact .refl h
      · split
        · exact ih _ _
        all_goals try exact .refl h
        all_goals
          split
          · exact plain_update (fun _ => rfl) fun _ _ => HeapData.channel?_setBuffer _ _
          · exact .refl h

theorem plain_heapWrite (h : Heap) (id : HeapId) (offset : Nat) (bytes : List Byte) :
    Plain h (h.heapWrite id offset bytes) := plain_heapWriteLoop h _ id offset bytes

theorem plain_arrayWriteLoop (h : Heap) (fuel : Nat) (id : HeapId) (offset : Nat)
    (bytes : List Byte) : Plain h (h.arrayWriteLoop fuel id offset bytes) := by
  induction fuel generalizing id offset with
  | zero => exact .refl h
  | succ fuel ih =>
      unfold arrayWriteLoop
      split
      · exact .refl h
      · split
        · exact ih _ _
        · exact plain_update (fun _ => rfl) fun _ _ => HeapData.channel?_setBuffer _ _
        · exact .refl h

theorem plain_arrayWrite (h : Heap) (id : HeapId) (offset : Nat) (bytes : List Byte) :
    Plain h (h.arrayWrite id offset bytes) := plain_arrayWriteLoop h _ id offset bytes

theorem plain_sweep (h : Heap) (marked : HeapId → Bool) : Plain h (h.sweep marked) := by
  refine ⟨.of_get (BitVec.le_refl _) fun id => ?_,
    Act.Step.ran (show Act.Step (.sweep marked) h _ from rfl)⟩
  rcases get_sweep h marked id with hs | hs
  · rw [hs]
    cases hg : h.get id with
    | none => exact .inl rfl
    | some old => exact .inr ⟨old, rfl, .inr ⟨old, rfl, rfl⟩⟩
  · exact .inl hs

/-- Store into or empty the slot of a channel. -/
def setPending (h : Heap) (c : HeapId) (pending : Option (List Byte)) : Heap :=
  h.update c fun obj =>
    match obj.data with
    | .channel elemSize _ => { obj with data := .channel elemSize pending }
    | _ => obj

theorem chan_setPending (h : Heap) (c c' : HeapId) (pending : Option (List Byte)) :
    (h.setPending c pending).chan c' =
      if c' = c then (h.chan c').map fun ch => (ch.1, pending) else h.chan c' := by
  simp only [chan, setPending, get_update]
  split
  · cases h.get c' with
    | none => rfl
    | some obj =>
        obtain ⟨refCount, typeId, trace, data⟩ := obj
        cases data <;> rfl
  · rfl

@[simp] theorem nextId_setPending (h : Heap) (c : HeapId) (pending : Option (List Byte)) :
    (h.setPending c pending).nextId = h.nextId := nextId_update h c _

end Heap
end RiceVM
