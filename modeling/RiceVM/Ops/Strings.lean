import RiceVM.Ops.Data

/-!
Characters of strings. A string object is shared by those who hold its id. `insc` changes it in
place, or a copy of it where its count says that it has more than one holder.
-/
namespace RiceVM
open Exec Buffer Memory

/-- `char::from_u32`, with the replacement character for what is no scalar value. -/
def charOfRune (rune : Word) : Char :=
  if h : UInt32.isValidChar ⟨rune⟩ then ⟨⟨rune⟩, h⟩ else '\uFFFD'

/-- `str::replace_range` of one character, past the end of a string after zeros. -/
def replaceChar (s : String) (index : Nat) (ch : Char) : String :=
  String.ofList ((s.toList ++ List.replicate (index + 1 - s.length) '\x00').set index ch)

namespace Heap

def setString (h : Heap) (id : HeapId) (s : String) : Heap :=
  h.update id fun obj => { obj with data := .str s }

end Heap

namespace Ops

/-- The id of the string to change and its text. -/
def cowString (id : HeapId) : VM (HeapId × String) := do
  let vm ← get
  match vm.heap.get id with
  | some ⟨refCount, typeId, _, .str s⟩ =>
    if 1 < refCount.toNat then
      modifyHeap (·.decRef id)
      let newId ← alloc typeId (.str s)
      return (newId, s)
    else return (id, s)
  | _ => throw (.threadFault "insc on non-string")

def opInsc : VM Unit := do
  let rune ← srcWord
  let index := (← midWord).asUsize
  let strId ← dstPtr
  let ch := charOfRune rune
  if strId = nil then
    setDstPtr (← alloc 0 (.str (replaceChar "" index ch)))
  else
    let (newId, s) ← cowString strId
    modifyHeap (·.setString newId (replaceChar s index ch))
    if newId ≠ strId then setDstPtr newId

end Ops

/-! ### Characters -/

theorem charOfRune_val (c : Char) : charOfRune c.val.toBitVec = c := by
  unfold charOfRune
  rw [dif_pos c.valid]

/-- A string with its character `i` replaced, or with one more where `i` is its length. -/
def withChar (s : String) (i : Nat) (c : Char) : String :=
  String.ofList (if i < s.length then s.toList.set i c else s.toList ++ [c])

theorem replaceChar_eq {s : String} {i : Nat} (hi : i ≤ s.length) (c : Char) :
    replaceChar s i c = withChar s i c := by
  unfold replaceChar withChar
  by_cases hlt : i < s.length
  · have hpad : i + 1 - s.length = 0 := by omega
    rw [hpad, if_pos hlt, List.replicate_zero, List.append_nil]
  · have heq : i = s.toList.length := by
      rw [String.length_toList]
      omega
    have hpad : i + 1 - s.length = 1 := by omega
    rw [hpad, if_neg hlt, heq, List.replicate_one, List.set_append_right _ _ (Nat.le_refl _),
      Nat.sub_self, List.set_cons_zero]

theorem withChar_eq_self {s : String} {i : Nat} {c : Char} :
    withChar s i c = s ↔ s.toList[i]? = some c := by
  have hofList (cs : List Char) : String.ofList cs = s ↔ cs = s.toList := by
    constructor
    · intro h
      rw [← h, String.toList_ofList]
    · intro h
      rw [h, String.ofList_toList]
  rw [withChar, hofList]
  by_cases hlt : i < s.length
  · have hlen : i < s.toList.length := by rwa [String.length_toList]
    rw [if_pos hlt, List.getElem?_eq_getElem hlen, Option.some.injEq]
    constructor
    · intro h
      rw [List.getElem_of_eq h.symm hlen, List.getElem_set_self]
    · intro h
      rw [← h, List.set_getElem_self]
  · have hlen : s.toList.length ≤ i := by
      rw [String.length_toList]
      omega
    rw [if_neg hlt, List.getElem?_eq_none hlen]
    constructor
    · intro h
      have hlength := congrArg List.length h
      simp at hlength
    · exact nofun

/-! ### Words of objects -/

namespace HeapData

/-- What of an object may hold pointers: all of it that is stored as bytes. -/
def words? : HeapData → Option (List Byte)
  | .record data | .array _ _ data _ | .adt _ data | .list data _ => some data
  | .channel _ pending => pending
  | _ => none

end HeapData

namespace Heap

def words? (h : Heap) (id : HeapId) : Option (List Byte) := (h.get id).bind (·.data.words?)

/-- The heaps differ in strings and counts only. -/
def SameWords (h h' : Heap) : Prop := ∀ id, h'.words? id = h.words? id

/-- The text of a string; a nil pointer is the empty string. -/
def text (h : Heap) (id : HeapId) : String := (h.getString id).getD ""

/-- An id that no object has, or a string has. -/
def StringAt (h : Heap) (id : HeapId) : Prop :=
  ∀ obj, h.get id = some obj → ∃ s, obj.data = .str s

theorem SameWords.refl (h : Heap) : SameWords h h := fun _ => rfl

theorem SameWords.trans {h h' h'' : Heap} (a : SameWords h h') (b : SameWords h' h'') :
    SameWords h h'' := fun id => (b id).trans (a id)

theorem sameWords_update {h : Heap} {id : HeapId} {f : HeapObject → HeapObject}
    (hf : ∀ obj, h.get id = some obj → (f obj).data.words? = obj.data.words?) :
    SameWords h (h.update id f) := by
  intro id'
  rw [words?, words?, get_update]
  by_cases heq : id' = id
  · subst heq
    rw [if_pos rfl]
    cases hget : h.get id' with
    | none => rfl
    | some obj => exact hf obj hget
  · rw [if_neg heq]

theorem sameWords_addRef (h : Heap) (id : HeapId) : SameWords h (h.addRef id) := by
  unfold addRef
  split
  · exact .refl h
  · exact sameWords_update fun _ _ => rfl

theorem get_addRef (h : Heap) (id id' : HeapId) : (h.addRef id).get id' =
    if id' = id then (h.get id').map (·.take 1)
    else h.get id' := by
  unfold addRef
  split
  · next hnil =>
      split
      · next heq => rw [heq, hnil, get, if_pos rfl]; rfl
      · rfl
  · exact get_update ..

theorem nextId_addRef (h : Heap) (id : HeapId) : (h.addRef id).nextId = h.nextId := by
  unfold addRef
  split
  · rfl
  · exact nextId_update ..

theorem stringAt_addRef {h : Heap} {id : HeapId} (hstr : StringAt h id) (id' : HeapId) :
    StringAt (h.addRef id') id := by
  intro obj hobj
  rw [get_addRef] at hobj
  split at hobj
  · obtain ⟨obj', hget, rfl⟩ := Option.map_eq_some_iff.mp hobj
    exact hstr obj' hget
  · exact hstr obj hobj

theorem sameWords_remove {h : Heap} {id : HeapId} (hstr : StringAt h id) :
    SameWords h (h.remove id) := by
  intro id'
  rw [words?, words?, get_remove]
  by_cases heq : id' = id
  · subst heq
    rw [if_pos rfl]
    cases hget : h.get id' with
    | none => rfl
    | some obj =>
        obtain ⟨s, hs⟩ := hstr obj hget
        simp [hs, HeapData.words?]
  · rw [if_neg heq]

theorem sameWords_alloc {h h' : Heap} {typeId : BitVec 32} {s : String} {id : HeapId}
    (ha : h.alloc typeId (.str s) none = some (id, h')) : SameWords h h' := by
  obtain ⟨hid, -, hget⟩ := alloc_cases ha
  intro id'
  rw [words?, words?, hget]
  by_cases heq : id' = id
  · rw [if_pos heq, heq, hid, get_of_nextId_le (BitVec.le_refl _)]
    rfl
  · rw [if_neg heq]

theorem sameWords_setString {h : Heap} {id : HeapId} (hstr : StringAt h id) (s : String) :
    SameWords h (h.setString id s) := by
  refine sameWords_update fun obj hget => ?_
  obtain ⟨s', hs⟩ := hstr obj hget
  simp only [hs, HeapData.words?]

theorem text_of_get {h : Heap} {id : HeapId} {obj : HeapObject} {s : String}
    (hget : h.get id = some obj) (hs : obj.data = .str s) : h.text id = s := by
  obtain ⟨_, _, _, data⟩ := obj
  cases hs
  rw [text, getString, hget]
  rfl

theorem text_nil (h : Heap) : h.text nil = "" := by
  rw [text, getString, get, if_pos rfl]
  rfl

theorem exists_alloc {h : Heap} (hroom : h.nextId < h.nextId + 1) (typeId : BitVec 32)
    (data : HeapData) : ∃ h', h.alloc typeId data none = some (h.nextId, h') := by
  unfold alloc
  rw [dif_pos hroom]
  exact ⟨_, rfl⟩

/-! ### Counts of strings -/

/-- What is left of an object that lost a reference. -/
def released (obj : HeapObject) : Option HeapObject :=
  if obj.refCount.toNat ≤ 1 then none else some (obj.drop 1)

/-- Releasing a string releases nothing else. -/
theorem decRef_string {h : Heap} {id : HeapId} (hstr : StringAt h id) :
    SameWords h (h.decRef id) ∧ (h.decRef id).nextId = h.nextId ∧
      ∀ id', (h.decRef id).get id' = if id' = id then (h.get id').bind released else h.get id' := by
  unfold decRef
  by_cases hnil : id = nil
  · rw [if_pos hnil]
    refine ⟨.refl h, rfl, fun id' => ?_⟩
    split
    · next heq => rw [heq, hnil, get, if_pos rfl]; rfl
    · rfl
  have hlookup : h.objects.lookup id = h.get id := by rw [get, if_neg hnil]
  rw [if_neg hnil, decRefLoop, hlookup]
  cases hget : h.get id with
  | none =>
      dsimp only
      rw [decRefLoop_nil]
      refine ⟨.refl h, rfl, fun id' => ?_⟩
      split
      · next heq => rw [heq, hget]; rfl
      · rfl
  | some obj =>
      obtain ⟨s, hs⟩ := hstr obj hget
      simp only [hs, HeapData.isPermanent, HeapData.childRefs, Bool.false_eq_true,
        not_false_eq_true, and_true, List.nil_append, decRefLoop_nil]
      by_cases hone : obj.refCount.toNat ≤ 1
      · rw [if_pos hone]
        refine ⟨sameWords_remove hstr, rfl, fun id' => ?_⟩
        rw [get_remove]
        split
        · next heq => rw [heq, hget, Option.bind_some, released, if_pos hone]
        · rfl
      · rw [if_neg hone]
        refine ⟨sameWords_update fun _ _ => rfl, nextId_update _ _ _, fun id' => ?_⟩
        rw [get_update]
        split
        · next heq =>
            rw [heq, hget, Option.map_some, Option.bind_some, released, if_neg hone]
        · rfl

end Heap

/-! ### `insc` -/

namespace Ops

variable {vm : VmState}

theorem setDstPtr_frame {off : Nat} (hdst : vm.dst = .frame off) (id : HeapId) :
    setDstPtr id vm = .ok () { vm with
      frames := { vm.frames with data := writeWord vm.frames.data off id } } := by
  simp only [setDstPtr, setDstWord, bind_apply, get_apply, hdst, writeWordAt, writeAt, modify_apply,
    VmState.modifyBuffer]

/-- A pointer is moved to a word of the frames. -/
theorem movePtrToDst_frame {off : Nat} (hdst : vm.dst = .frame off) {id : HeapId}
    (hroom : vm.heap.refs id < Heap.maxRefs) : movePtrToDst id vm = .ok () { vm with
      frames := { vm.frames with data := writeWord vm.frames.data off id }
      heap := (vm.heap.addRef id).decRef (readWord vm.frames.data off) } := by
  let u : VmState := { vm with heap := vm.heap.addRef id }
  have htaken : tryHeap (·.incRef id) vm = .ok () u :=
    tryHeap_apply (Heap.incRef_eq_some.mpr ⟨hroom, rfl⟩)
  have hset := setDstPtr_frame (show u.dst = .frame off from hdst) id
  have hold : vm.readWordAt vm.dst vm.immDst = readWord vm.frames.data off := by
    rw [hdst]
    rfl
  simp only [movePtrToDst, bind_apply, dstPtr_apply, hold, htaken, modifyHeap, modify_apply]
  rw [hset]

/-- In an empty slot `insc` leaves a new string. -/
theorem opInsc_nil {id : HeapId} {h' : Heap} (hnil : vm.readWordAt vm.dst vm.immDst = nil)
    (halloc : vm.heap.alloc 0 (.str (replaceChar "" (vm.readWordAt vm.mid vm.immMid).asUsize
      (charOfRune (vm.readWordAt vm.src vm.immSrc)))) none = some (id, h')) :
    opInsc vm = setDstPtr id { vm with heap := h' } := by
  simp only [opInsc, bind_apply, srcWord_apply, midWord_apply, dstPtr_apply, hnil, if_true, alloc,
    allocTyped, get_apply, halloc, unwrap_some, set_apply, pure_apply]

/-- What `insc` takes: nil, or a string. -/
def TakesChar (h : Heap) (p : HeapId) : Prop :=
  p = nil ∨ ∃ obj s, h.get p = some obj ∧ obj.data = .str s

theorem opInsc_fault {p : HeapId} (hp : vm.readWordAt vm.dst vm.immDst = p)
    (h : ¬ TakesChar vm.heap p) : opInsc vm = .error (.threadFault "insc on non-string") vm := by
  have hnil : p ≠ nil := fun heq => h (.inl heq)
  have hcow : cowString p vm = .error (.threadFault "insc on non-string") vm := by
    unfold cowString
    rw [bind_ok (get_apply vm)]
    cases hget : vm.heap.get p with
    | none => rfl
    | some obj =>
        obtain ⟨_, _, _, data⟩ := obj
        cases data with
        | str s => exact absurd (.inr ⟨_, _, hget, rfl⟩) h
        | _ => rfl
  simp only [opInsc, bind_apply, srcWord_apply, midWord_apply, dstPtr_apply, hp, if_neg hnil, hcow]

/-- A string with more than one reference is copied, and loses one. -/
theorem opInsc_copies {p id : HeapId} {count : BitVec 32} {typeId : BitVec 32} {trace : Option TraceMap}
    {s : String} {h' : Heap} (hp : vm.readWordAt vm.dst vm.immDst = p)
    (hget : vm.heap.get p = some ⟨count, typeId, trace, .str s⟩) (hcount : 1 < count.toNat)
    (halloc : (vm.heap.decRef p).alloc typeId (.str s) none = some (id, h')) (hne : id ≠ p) :
    opInsc vm = setDstPtr id { vm with
      heap := h'.setString id (replaceChar s (vm.readWordAt vm.mid vm.immMid).asUsize
        (charOfRune (vm.readWordAt vm.src vm.immSrc))) } := by
  have hnil : p ≠ nil := by
    rintro rfl
    rw [Heap.get, if_pos rfl] at hget
    cases hget
  simp only [opInsc, bind_apply, srcWord_apply, midWord_apply, dstPtr_apply, hp, if_neg hnil,
    cowString, get_apply, hget, if_pos hcount, modifyHeap, modify_apply, alloc, allocTyped, halloc,
    unwrap_some, set_apply, pure_apply, if_pos hne]

/-- A string with one reference is changed where it is. -/
theorem opInsc_in_place {p : HeapId} {count : BitVec 32} {typeId : BitVec 32} {trace : Option TraceMap}
    {s : String} (hp : vm.readWordAt vm.dst vm.immDst = p)
    (hget : vm.heap.get p = some ⟨count, typeId, trace, .str s⟩) (hcount : ¬ 1 < count.toNat) :
    opInsc vm = .ok () { vm with
      heap := vm.heap.setString p (replaceChar s (vm.readWordAt vm.mid vm.immMid).asUsize
        (charOfRune (vm.readWordAt vm.src vm.immSrc))) } := by
  have hnil : p ≠ nil := by
    rintro rfl
    rw [Heap.get, if_pos rfl] at hget
    cases hget
  simp only [opInsc, bind_apply, srcWord_apply, midWord_apply, dstPtr_apply, hp, if_neg hnil,
    cowString, get_apply, hget, if_neg hcount, modifyHeap, modify_apply, pure_apply, ne_eq,
    not_true_eq_false, if_false]

end Ops
end RiceVM
