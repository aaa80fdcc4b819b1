import RiceVM.SentPointers
import RiceVM.Splice

/-!
Slices of slices of an array. Whatever the depth, the last slice names the array itself with the
starts of the chain added up, and its elements are elements of the array.
-/
namespace RiceVM
open Exec Memory Buffer Ops
namespace Heap

/-! What a store leaves of the objects. -/

theorem viewOf_setBuffer (i : HeapId) (data : List Byte) (d : HeapData) :
    viewOf i (d.setBuffer data) = viewOf i d := by
  cases d <;> rfl

theorem buffer?_setBuffer {d : HeapData} {old : List Byte} (data : List Byte)
    (h : d.buffer? = some old) : (d.setBuffer data).buffer? = some data := by
  cases d with
  | record | array | adt => rfl
  | str | list | moduleRef | mainModule | loadedModule | channel | arraySlice => cases h

/-- Every object is still there with its count, its kind and its extent. -/
def Shaped (h h' : Heap) : Prop := ∀ i, SameShape h h' i ∧ h'.refs i = h.refs i

theorem Shaped.refl (h : Heap) : Shaped h h :=
  fun _ => ⟨fun obj hget => ⟨obj, hget, rfl, rfl⟩, rfl⟩

theorem shaped_update {h : Heap} {id : HeapId} {obj : HeapObject} {old data : List Byte}
    (hget : h.get id = some obj) (hold : obj.data.buffer? = some old)
    (hlength : data.length = old.length) :
    Shaped h (h.update id fun obj => { obj with data := obj.data.setBuffer data }) := by
  intro i
  by_cases heq : i = id
  · subst heq
    have hget' : (h.update i fun obj => { obj with data := obj.data.setBuffer data }).get i =
        some { obj with data := obj.data.setBuffer data } := by
      rw [get_update, if_pos rfl, hget]
      rfl
    refine ⟨fun obj' hobj' => ⟨_, hget', ?_⟩, by rw [refs, hget', refs, hget]; rfl⟩
    obtain rfl : obj = obj' := Option.some.inj (hget.symm.trans hobj')
    refine ⟨viewOf_setBuffer i data obj.data, ?_⟩
    rw [buffer?_setBuffer data hold, hold, Option.map_some, Option.map_some, hlength]
  · have hget' : (h.update id fun obj => { obj with data := obj.data.setBuffer data }).get i =
        h.get i := by rw [get_update, if_neg heq]
    exact ⟨fun obj' hobj' => ⟨obj', hget'.trans hobj', rfl, rfl⟩, by rw [refs, hget', refs]⟩

theorem shaped_heapWrite (h : Heap) (id : HeapId) (offset : Nat) (bytes : List Byte) :
    Shaped h (h.heapWrite id offset bytes) := by
  unfold heapWrite
  generalize h.objects.entries.length + 1 = fuel
  induction fuel generalizing id offset with
  | zero => exact .refl h
  | succ fuel ih =>
      simp only [heapWriteLoop]
      split
      · exact .refl h
      · next obj hget =>
          split
          · exact ih _ _
          iterate 3
            next hdata =>
              split
              · next hfit =>
                  exact shaped_update hget (by rw [hdata]; rfl) (length_splice hfit)
              · exact .refl h
          · exact .refl h

end Heap

theorem shaped_writeWordAt {target : AddrTarget} {val : Word} {vm vm' : VmState}
    (h : writeWordAt target val vm = .ok () vm') : vm.heap.Shaped vm'.heap := by
  unfold writeWordAt writeAt at h
  cases target with
  | immediate => cases h
  | heapArray id offset =>
      cases h
      exact Heap.shaped_heapWrite _ _ _ _
  | frame | mp | moduleMp | none =>
      cases h
      rw [heap_modifyBuffer]
      exact .refl _

namespace Heap
section
variable {h : Heap} {id root : HeapId} {start length elemSize : Nat} {data : List Byte}

/-- A release of an array or a slice frees at most the slice while the array behind it has
another reference. -/
theorem Part.not_givesUpLast (hp : Part h id root start length elemSize data)
    (hrefs : 1 < h.refs root) {i : HeapId} (hi : i = root ∨ i ≠ id) : ¬ GivesUpLast h id i := by
  obtain ⟨array, _, _, hroot, _⟩ := hp.array
  have hcount : ¬ (array.refCount.toNat ≤ 1 ∧ ¬ array.data.isPermanent) := by
    rw [refs, hroot, Option.elim_some] at hrefs
    omega
  have hstays : ∀ children, h.view root ≠ some (true, children) := by
    intro children hview
    rw [view_of_get hroot, decide_eq_false hcount] at hview
    cases hview
  rintro ⟨hg, children, hlast⟩
  cases hg with
  | self =>
      rcases hi with rfl | hne
      · exact hstays children hlast
      · exact hne rfl
  | @child _ c children' hview hmem hgives =>
      rcases hp.cases with ⟨rfl, -, -⟩ | ⟨obj, elemType, hget, hslice⟩
      · exact hstays _ hview
      · rw [view_of_get hget] at hview
        obtain ⟨_, rfl⟩ := Prod.mk.inj (Option.some.inj hview)
        obtain ⟨_, ⟨_, hlist⟩ | ⟨_, _, _, _, hparent⟩⟩ := HeapData.mem_childRefs hmem
        · rw [hslice] at hlist
          cases hlist
        · rw [hslice] at hparent
          cases hparent
          cases hgives with
          | self => exact hstays _ hlast
          | child hfreed _ _ => exact hstays _ hfreed

/-- An object a release does not free keeps its contents, and has a reference if it had one. -/
theorem sameShape_decRef {i : HeapId} (hkept : ¬ GivesUpLast h id i) :
    SameShape h (h.decRef id) i ∧
      ((∃ obj, h.get i = some obj ∧ obj.data.isPermanent = false ∧ 0 < obj.refCount.toNat) →
        0 < (h.decRef id).refs i) := by
  by_cases hid : id = nil
  · rw [Heap.decRef, if_pos hid]
    refine ⟨fun obj hget => ⟨obj, hget, rfl, rfl⟩, ?_⟩
    rintro ⟨obj, hget, _, hpos⟩
    rwa [refs, hget]
  obtain ⟨released, _, hrelease⟩ := decRef_released (h := h) hid
  have hget' : ∀ obj, h.get i = some obj →
      (h.decRef id).get i = some (obj.drop (released.count i)) ∧
        ¬ (0 < released.count i ∧ obj.refCount.toNat ≤ released.count i ∧ ¬ obj.data.isPermanent) := by
    intro obj hget
    have hsome := (isSome_decRef h i id).mpr ⟨by rw [hget]; rfl, hkept⟩
    rw [hrelease, hget, Option.bind_some] at hsome ⊢
    unfold HeapObject.release at hsome ⊢
    split at hsome
    · cases hsome
    · next hnot => exact ⟨if_neg hnot, hnot⟩
  constructor
  · intro obj hget
    exact ⟨_, (hget' obj hget).1, rfl, rfl⟩
  · rintro ⟨obj, hget, hperm, hpos⟩
    obtain ⟨hafter, hnot⟩ := hget' obj hget
    rw [refs, hafter, Option.elim_some, HeapObject.refCount_drop]
    rw [hperm] at hnot
    by_contra hzero
    exact hnot ⟨by omega, by omega, Bool.false_ne_true⟩

/-! One slice of a part. -/

theorem SameShape.trans {h' h'' : Heap} {i : HeapId} (a : SameShape h h' i)
    (b : SameShape h' h'' i) : SameShape h h'' i := by
  intro obj hget
  obtain ⟨obj', hget', hview, hlength⟩ := a obj hget
  obtain ⟨obj'', hget'', hview', hlength'⟩ := b obj' hget'
  exact ⟨obj'', hget'', hview'.trans hview, hlength'.trans hlength⟩

theorem sameShape_alloc {h' : Heap} {typeId : BitVec 32} {d : HeapData} {trace : Option TraceMap}
    {newId : HeapId} (ha : h.alloc typeId d trace = some (newId, h')) (i : HeapId) :
    SameShape h h' i := by
  obtain ⟨rfl, -, hget⟩ := alloc_cases ha
  intro obj hobj
  have hne : i ≠ h.nextId := by
    rintro rfl
    rw [get_of_nextId_le (BitVec.le_refl _)] at hobj
    cases hobj
  exact ⟨obj, by rw [hget, if_neg hne, hobj], rfl, rfl⟩

theorem sameShape_addRef (id i : HeapId) : SameShape h (h.addRef id) i := by
  intro obj hobj
  by_cases hnil : id = nil
  · exact ⟨obj, by rw [addRef, if_pos hnil, hobj], rfl, rfl⟩
  · rw [addRef, if_neg hnil, get_update, hobj]
    split
    · exact ⟨_, rfl, rfl, rfl⟩
    · exact ⟨_, rfl, rfl, rfl⟩

/-- A slice of a part that was just allocated. -/
theorem Part.slice {h' : Heap} (hp : Part h id root start length elemSize data)
    {elemType : BitVec 32} {newId : HeapId} {s e : Nat} (hse : s ≤ e) (he : e ≤ length)
    (ha : h.alloc elemType (.arraySlice root ((start + s) * elemSize) elemType elemSize (e - s))
      none = some (newId, h')) :
    Part h' newId root (start + s) (e - s) elemSize data := by
  obtain ⟨array, arrayType, n, hroot, hdata, hlength, hle⟩ := hp.array
  obtain ⟨rfl, -, hget⟩ := alloc_cases ha
  have hne : root ≠ h.nextId := by
    rintro rfl
    rw [get_of_nextId_le (BitVec.le_refl _)] at hroot
    cases hroot
  refine ⟨⟨_, elemType, by rw [hget, if_pos rfl], rfl⟩, array, arrayType, n, ?_, hdata, hlength,
    by omega⟩
  rw [hget, if_neg hne, hroot]

end
end Heap

/-- The bounds of a slice, a negative one counting as zero. -/
def sliceStart (vm : VmState) : Nat := clampIndex (vm.readWordAt vm.src vm.immSrc)
def sliceEnd (vm : VmState) : Nat := clampIndex (vm.readWordAt vm.mid vm.immMid)

section
variable {vm vm' : VmState} {root : HeapId} {start length elemSize : Nat} {data : List Byte}

/-- What slicing does to an array or a slice that is there. -/
theorem opSlicea_part (hp : vm.heap.Part (vm.readWordAt vm.dst vm.immDst) root start length elemSize
    data) : ∃ elemType, opSlicea vm =
      (if length < sliceEnd vm ∨ sliceEnd vm < sliceStart vm then
        throw (.threadFault
          s!"array slice out of bounds: [{sliceStart vm}..{sliceEnd vm}] for length {length}")
      else do
        let newId ← alloc elemType (.arraySlice root ((start + sliceStart vm) * elemSize) elemType
          elemSize (sliceEnd vm - sliceStart vm))
        tryHeap (·.incRef root)
        setDstPtr newId
        modifyHeap (·.decRef (vm.readWordAt vm.dst vm.immDst)) : VM Unit) vm := by
  obtain ⟨obj, elemType, hget, hview⟩ := hp.view
  refine ⟨elemType, ?_⟩
  unfold opSlicea
  rw [bind_ok (show srcWord vm = _ from srcWord_apply vm), bind_ok (midWord_apply vm),
    bind_ok (dstPtr_apply vm), if_neg hp.ne_nil, bind_ok (get_apply vm), hget]
  change (ofOption _ (viewOf _ obj.data) >>= _) vm = _
  rw [hview, Nat.add_mul]
  rfl

/-- A slice within bounds is a part of the same root, and the root keeps a reference. -/
theorem opSlicea_slice (hp : vm.heap.Part (vm.readWordAt vm.dst vm.immDst) root start length
    elemSize data) (hrefs : 0 < vm.heap.refs root) (h : opSlicea vm = .ok () vm') :
    (∃ data', data'.length = data.length ∧ vm'.heap.Part vm.heap.nextId root
      (start + sliceStart vm) (sliceEnd vm - sliceStart vm) elemSize data') ∧
    sliceStart vm ≤ sliceEnd vm ∧ sliceEnd vm ≤ length ∧ 0 < vm'.heap.refs root := by
  obtain ⟨elemType, hop⟩ := opSlicea_part hp
  rw [hop] at h
  split at h
  · cases h
  next hbounds =>
  rw [not_or, Nat.not_lt, Nat.not_lt] at hbounds
  obtain ⟨newId, s₁, halloc, h⟩ := bind_eq_ok.mp h
  obtain ⟨_, s₂, hinc, h⟩ := bind_eq_ok.mp h
  obtain ⟨_, s₃, hset, hdec⟩ := bind_eq_ok.mp h
  cases hdec
  obtain ⟨h₁, hheap, rfl⟩ : ∃ heap, vm.heap.alloc elemType _ none = some (newId, heap) ∧
      s₁ = { vm with heap } := alloc_eq_ok halloc
  obtain ⟨_, htaken, rfl⟩ := tryHeap_eq_ok hinc
  obtain ⟨hroom, rfl⟩ := Heap.incRef_eq_some.mp htaken
  have hnew : newId = vm.heap.nextId := (Heap.alloc_cases hheap).1
  have hnext : vm.heap.get newId = none := Heap.get_of_nextId_le (hnew ▸ BitVec.le_refl _)
  -- what the allocation, the new reference and the store leave of the objects
  have hshaped := shaped_writeWordAt hset
  have hsame : ∀ i, Heap.SameShape h₁ s₃.heap i := fun i =>
    (Heap.sameShape_addRef root i).trans (hshaped i).1
  have hsliced := hp.slice hbounds.2 hbounds.1 hheap
  obtain ⟨_, hlength₁, hp₁⟩ := hp.sameShape (Heap.sameShape_alloc hheap _)
    (Heap.sameShape_alloc hheap root)
  obtain ⟨_, hlength₃, hp₃⟩ := hp₁.sameShape (hsame _) (hsame root)
  obtain ⟨_, hlength₄, hsliced₃⟩ := hsliced.sameShape (hsame _) (hsame root)
  have hrefs₃ : 1 < s₃.heap.refs root := by
    have hisSome : (h₁.get root).isSome := by
      obtain ⟨_, _, _, hroot, _⟩ := hp₁.array
      rw [hroot]
      rfl
    rw [(hshaped root).2]
    change 1 < (h₁.addRef root).refs root
    rw [Heap.refs_addRef hisSome hroom, if_pos rfl]
    have hne : root ≠ newId := by
      rintro rfl
      rw [Heap.refs, hnext] at hrefs
      cases hrefs
    have hkept : h₁.refs root = vm.heap.refs root := by
      rw [Heap.refs, (Heap.alloc_cases hheap).2.2, if_neg hne, Heap.refs]
    omega
  have hne : newId ≠ vm.readWordAt vm.dst vm.immDst := by
    intro heq
    obtain ⟨_, _, hget, _⟩ := hp.view
    rw [← heq, hnext] at hget
    cases hget
  have hrootShape := Heap.sameShape_decRef (hp₃.not_givesUpLast hrefs₃ (.inl rfl))
  have hnewShape := Heap.sameShape_decRef (hp₃.not_givesUpLast hrefs₃ (.inr hne))
  obtain ⟨data', hlength', hsliced'⟩ := hsliced₃.sameShape hnewShape.1 hrootShape.1
  refine ⟨⟨data', hlength'.trans hlength₄, hnew ▸ hsliced'⟩, hbounds.2, hbounds.1, ?_⟩
  obtain ⟨array, _, _, hroot, hdata, _⟩ := hp₃.array
  refine hrootShape.2 ⟨array, hroot, by rw [hdata]; rfl, ?_⟩
  rw [Heap.refs, hroot] at hrefs₃
  exact Nat.lt_of_succ_lt hrefs₃

/-- An index is an element of the root, or a fault that leaves everything as it was. -/
theorem opIndx_part (hp : vm.heap.Part (vm.readWordAt vm.src vm.immSrc) root start length elemSize
    data) :
    let index := vm.readWordAt vm.dst vm.immDst
    (0 ≤ index.toInt ∧ index.toInt < length → opIndx vm =
      (pushHeapRef root ((start + index.toNat) * elemSize) >>= writeWordAt vm.mid) vm) ∧
    (¬ (0 ≤ index.toInt ∧ index.toInt < length) →
      ∃ msg, opIndx vm = .error (.threadFault msg) vm) := by
  intro index
  by_cases hneg : index.msb = true
  · have hlow : ¬ 0 ≤ index.toInt := by
      rw [BitVec.msb_eq_toInt, decide_eq_true_eq] at hneg
      omega
    refine ⟨fun h => absurd h.1 hlow, fun _ => ⟨s!"array index negative: {index.toInt}", ?_⟩⟩
    unfold opIndx
    rw [bind_ok (show srcPtr vm = _ from srcWord_apply vm),
      bind_ok (show dstWord vm = .ok index vm from rfl), if_pos hneg]
    rfl
  rw [Bool.not_eq_true] at hneg
  have hint : index.toInt = index.toNat := BitVec.toInt_eq_toNat_of_msb hneg
  obtain ⟨obj, elemType, hget, hview⟩ := hp.view
  have hrun : opIndx vm = (if length ≤ index.toNat then
      throw (.threadFault s!"array index out of bounds: {index.toNat} >= {length}")
    else pushHeapRef root ((start + index.toNat) * elemSize) >>= writeWordAt vm.mid : VM Unit)
      vm := by
    unfold opIndx
    rw [bind_ok (show srcPtr vm = _ from srcWord_apply vm),
      bind_ok (show dstWord vm = .ok index vm from rfl), hneg, if_neg (by decide),
      bind_ok (get_apply vm), hget, Word.asUsize_of_msb_false hneg, Nat.add_mul]
    cases hdata : obj.data with
    | array elemType' elemSize' data' n =>
        rw [hdata] at hview
        simp only [viewOf, Option.some.injEq, ArrayView.mk.injEq] at hview
        obtain ⟨rfl, hzero, rfl, rfl, rfl⟩ := hview
        rw [← hzero, Nat.zero_add, Option.map_some, hdata]
    | arraySlice parentId byteStart elemType' elemSize' n =>
        rw [hdata] at hview
        simp only [viewOf, Option.some.injEq, ArrayView.mk.injEq] at hview
        obtain ⟨rfl, rfl, rfl, rfl, rfl⟩ := hview
        rw [Option.map_some, hdata]
    | record | str | list | moduleRef | mainModule | loadedModule | channel | adt =>
        rw [hdata] at hview
        cases hview
  rw [hrun, hint]
  constructor
  · intro hin
    rw [if_neg (by omega)]
  · intro hout
    rw [if_pos (by omega)]
    exact ⟨_, rfl⟩

end

/-- `id` and `root` are two names of the same bytes: a store through either is the same store,
and is read back through both. -/
def SameStorage (h : Heap) (id root : HeapId) (start length elemSize : Nat) : Prop :=
  ∀ offset bytes, offset + bytes.length ≤ length * elemSize → ∃ h' : Heap,
    (h.heapWrite id offset bytes = h' ∧ h.heapWrite root (start * elemSize + offset) bytes = h' ∧
      h.arrayWrite id offset bytes = h' ∧
      h.arrayWrite root (start * elemSize + offset) bytes = h') ∧
    h'.heapSlice id offset bytes.length = some bytes ∧
    h'.heapSlice root (start * elemSize + offset) bytes.length = some bytes ∧
    h'.arrayRead id offset bytes.length = some bytes ∧
    h'.arrayRead root (start * elemSize + offset) bytes.length = some bytes

theorem Heap.Part.sameStorage {h : Heap} {id root : HeapId} {start length elemSize : Nat}
    {data : List Byte} (hp : h.Part id root start length elemSize data) :
    SameStorage h id root start length elemSize := by
  intro offset bytes hin
  obtain ⟨n, hroot, _⟩ := hp.whole
  have hinside := hp.inside
  rw [Nat.add_mul] at hinside
  have hfit : start * elemSize + offset + bytes.length ≤ data.length := by omega
  have hoverlay := overlay_of_le hfit
  have hlength := length_splice hfit
  have hread := slice_splice_self hfit
  generalize hstored : splice data (start * elemSize + offset) bytes = stored at *
  have hp' := hp.update (f := fun obj => { obj with data := obj.data.setBuffer stored }) hlength
    fun _ _ => rfl
  obtain ⟨n', hroot', _⟩ := hp'.whole
  refine ⟨h.update root fun obj => { obj with data := obj.data.setBuffer stored },
    ⟨?_, ?_, ?_, ?_⟩, ?_, ?_, ?_, ?_⟩
  · rw [hp.heapWrite_eq, if_pos hfit, hstored]
  · rw [hroot.heapWrite_eq, Nat.zero_mul, Nat.zero_add, if_pos hfit, hstored]
  · rw [hp.arrayWrite_eq, hoverlay]
  · rw [hroot.arrayWrite_eq, Nat.zero_mul, Nat.zero_add, hoverlay]
  · rw [hp'.heapSlice_eq, hlength, if_pos hfit, hread]
  · rw [hroot'.heapSlice_eq, hlength, Nat.zero_mul, Nat.zero_add, if_pos hfit, hread]
  · rw [hp'.arrayRead_eq, hlength, if_pos hfit, hread]
  · rw [hroot'.arrayRead_eq, hlength, Nat.zero_mul, Nat.zero_add, if_pos hfit, hread]

/-- What a chain of slices of the array `root` came to in a state: the last slice, the starts
added up and the length. Between two slices anything may happen that frees neither the slice nor
the array and leaves the extent of both alone. -/
inductive SliceChain (root : HeapId) : VmState → HeapId → Nat → Nat → Prop
  | array {vm : VmState} {obj : HeapObject} {elemType : BitVec 32} {elemSize n : Nat}
      {data : List Byte} : vm.heap.get root = some obj →
      obj.data = .array elemType elemSize data n → data.length = n * elemSize →
      0 < obj.refCount.toNat → SliceChain root vm root 0 n
  | slice {vm vm' : VmState} {id : HeapId} {start length : Nat} :
      SliceChain root vm id start length → vm.readWordAt vm.dst vm.immDst = id →
      opSlicea vm = .ok () vm' →
      SliceChain root vm' vm.heap.nextId (start + sliceStart vm) (sliceEnd vm - sliceStart vm)
  | other {vm vm' : VmState} {id : HeapId} {start length : Nat} :
      SliceChain root vm id start length → vm.heap.SameShape vm'.heap id →
      vm.heap.SameShape vm'.heap root → 0 < vm'.heap.refs root →
      SliceChain root vm' id start length

theorem SliceChain.part {root id : HeapId} {vm : VmState} {start length : Nat}
    (hc : SliceChain root vm id start length) :
    (∃ elemSize data, vm.heap.Part id root start length elemSize data) ∧ 0 < vm.heap.refs root := by
  induction hc with
  | array hget hdata hlength hpos =>
      exact ⟨⟨_, _, .self hget hdata hlength⟩, by rwa [Heap.refs, hget]⟩
  | slice _ hid hop ih =>
      obtain ⟨⟨elemSize, data, hp⟩, hrefs⟩ := ih
      rw [← hid] at hp
      obtain ⟨⟨data', _, hp'⟩, _, _, hrefs'⟩ := opSlicea_slice hp hrefs hop
      exact ⟨⟨elemSize, data', hp'⟩, hrefs'⟩
  | other _ hid hroot hrefs ih =>
      obtain ⟨⟨elemSize, data, hp⟩, _⟩ := ih
      obtain ⟨data', _, hp'⟩ := hp.sameShape hid hroot
      exact ⟨⟨elemSize, data', hp'⟩, hrefs⟩

/-- A part of the array that was copied into, as far as nothing of it was freed. -/
theorem BlockCopied.part {h h' : Heap} {id root : HeapId} {start length elemSize : Nat}
    {data data' : List Byte} {acquired given : List HeapId}
    (hc : BlockCopied h h' root data' acquired given) (hp : h.Part id root start length elemSize data)
    (hlength : data'.length = data.length) (hid : (h'.get id).isSome)
    (hroot : (h'.get root).isSome) :
    h'.Part id root start length elemSize data' := by
  obtain ⟨released, -, hget⟩ := hc.exact
  have hkept : ∀ i obj, h.get i = some obj → (h'.get i).isSome → ∃ obj', h'.get i = some obj' ∧
      obj'.data = if i = root then obj.data.setBuffer data' else obj.data := by
    intro i obj hobj hsome
    rw [hget, hobj, Option.map_some, Option.bind_some] at hsome ⊢
    exact ⟨_, HeapObject.release_of_isSome hsome, rfl⟩
  obtain ⟨part, elemType, hpart, hview⟩ := hp.view
  obtain ⟨array, arrayType, n, harray, hdata, hn, hle⟩ := hp.array
  obtain ⟨part', hpart', hview'⟩ := hkept id part hpart hid
  obtain ⟨array', harray', hdata'⟩ := hkept root array harray hroot
  refine ⟨⟨part', elemType, hpart', ?_⟩, array', arrayType, n, harray', ?_, hlength.trans hn, hle⟩
  · rw [hview']
    split
    · rw [Heap.viewOf_setBuffer, hview]
    · exact hview
  · rw [hdata', if_pos rfl, hdata]
    rfl

/-- A store at a place of the view is a store at the same place of the array it began with. -/
theorem opSlicela_stored {vm : VmState} {id root srcRoot : HeapId} {data srcData : List Byte}
    {start length elemSize start' m pos : Nat}
    (hsrc : vm.heap.Part (vm.readWordAt vm.src vm.immSrc) srcRoot start' m elemSize srcData)
    (hp : vm.heap.Part id root start length elemSize data)
    (hdst : vm.readWordAt vm.dst vm.immDst = id ∧ insertIndex vm = pos ∨
      vm.readWordAt vm.dst vm.immDst = root ∧ insertIndex vm = start + pos)
    (hfit : pos + m ≤ length)
    (hroom : vm.heap.RefsLeft (liveWords vm.heap (slice srcData (start' * elemSize) (m * elemSize))
      (pointerSlots ((vm.heap.get root).bind (·.trace)) elemSize m))) :
    ∃ heap, opSlicela vm = .ok () { vm with heap } ∧
      ∃ acquired given, BlockCopied vm.heap heap root (splice data ((start + pos) * elemSize)
        (slice srcData (start' * elemSize) (m * elemSize))) acquired given := by
  obtain ⟨total, hroot, hle⟩ := hp.whole
  rcases hdst with ⟨rfl, hpos⟩ | ⟨rfl, hpos⟩
  · have hop := opSlicela_part hsrc hp
    rw [hpos, if_neg (by omega)] at hop
    obtain ⟨heap, hrun, hcopied⟩ := hop.1 hroom
    exact ⟨heap, hrun, _, _, hcopied⟩
  · have hop := opSlicela_part hsrc hroot
    rw [hpos, if_neg (by omega), Nat.zero_add] at hop
    obtain ⟨heap, hrun, hcopied⟩ := hop.1 hroom
    exact ⟨heap, hrun, _, _, hcopied⟩

/-- The view and the array read the block where it was stored. -/
theorem BlockCopied.reads {h h' : Heap} {id root : HeapId} {start length elemSize pos : Nat}
    {data block : List Byte} {acquired given : List HeapId}
    (hc : BlockCopied h h' root (splice data ((start + pos) * elemSize) block) acquired given)
    (hp : h.Part id root start length elemSize data)
    (hwithin : (start + pos) * elemSize + block.length ≤ data.length)
    (hid : (h'.get id).isSome) (hroot : (h'.get root).isSome) :
    h'.arrayRead id (pos * elemSize) block.length = some block ∧
      h'.arrayRead root ((start + pos) * elemSize) block.length = some block := by
  have hlength := length_splice hwithin
  have hread := slice_splice_self hwithin
  have hp' := hc.part hp hlength hid hroot
  obtain ⟨_, hroot', _⟩ := hp'.whole
  constructor
  · rw [hp'.arrayRead_eq, hlength, ← Nat.add_mul, if_pos hwithin, hread]
  · rw [hroot'.arrayRead_eq, hlength, Nat.zero_mul, Nat.zero_add, if_pos hwithin, hread]

/-- A chain of slices of any depth ends in a view of the array it began with. A store through it
needs room in the counts of what it copies. -/
theorem slices_are_views {root id : HeapId} {vm : VmState} {start length : Nat}
    (hc : SliceChain root vm id start length) :
    ∃ elemSize data, vm.heap.Part id root start length elemSize data ∧
      SameStorage vm.heap id root start length elemSize ∧
      (∀ offset n, vm.heap.heapSlice id offset n =
          vm.heap.heapSlice root (start * elemSize + offset) n ∧
        vm.heap.arrayRead id offset n = vm.heap.arrayRead root (start * elemSize + offset) n) ∧
      (vm.readWordAt vm.src vm.immSrc = id →
        let index := vm.readWordAt vm.dst vm.immDst
        (0 ≤ index.toInt ∧ index.toInt < length → opIndx vm =
          (pushHeapRef root ((start + index.toNat) * elemSize) >>= writeWordAt vm.mid) vm) ∧
        (¬ (0 ≤ index.toInt ∧ index.toInt < length) →
          ∃ msg, opIndx vm = .error (.threadFault msg) vm)) ∧
      (vm.readWordAt vm.dst vm.immDst = id →
        length < sliceEnd vm ∨ sliceEnd vm < sliceStart vm →
          ∃ msg, opSlicea vm = .error (.threadFault msg) vm) ∧
      ∀ srcRoot start' m srcData pos,
        vm.heap.Part (vm.readWordAt vm.src vm.immSrc) srcRoot start' m elemSize srcData →
        (vm.readWordAt vm.dst vm.immDst = id ∧ insertIndex vm = pos ∨
          vm.readWordAt vm.dst vm.immDst = root ∧ insertIndex vm = start + pos) →
        pos + m ≤ length →
        vm.heap.RefsLeft (liveWords vm.heap (slice srcData (start' * elemSize) (m * elemSize))
          (pointerSlots ((vm.heap.get root).bind (·.trace)) elemSize m)) →
        ∃ heap, opSlicela vm = .ok () { vm with heap } ∧
          ((heap.get id).isSome → (heap.get root).isSome →
            let block := slice srcData (start' * elemSize) (m * elemSize)
            heap.arrayRead id (pos * elemSize) (m * elemSize) = some block ∧
              heap.arrayRead root ((start + pos) * elemSize) (m * elemSize) = some block) := by
  obtain ⟨⟨elemSize, data, hp⟩, -⟩ := hc.part
  obtain ⟨total, hroot, hle⟩ := hp.whole
  refine ⟨elemSize, data, hp, hp.sameStorage, fun offset n => ⟨?_, ?_⟩, ?_, ?_, ?_⟩
  · rw [hp.heapSlice_eq, hroot.heapSlice_eq, Nat.zero_mul, Nat.zero_add]
  · rw [hp.arrayRead_eq, hroot.arrayRead_eq, Nat.zero_mul, Nat.zero_add]
  · intro hsrc
    rw [← hsrc] at hp
    exact opIndx_part hp
  · intro hdst hbounds
    rw [← hdst] at hp
    obtain ⟨elemType, hop⟩ := opSlicea_part hp
    rw [if_pos hbounds] at hop
    exact ⟨_, hop⟩
  · intro srcRoot start' m srcData pos hsrc hdst hfit hroom
    have hinside := hp.inside
    have hsrcInside := hsrc.inside
    rw [Nat.add_mul] at hsrcInside
    have hblock : (slice srcData (start' * elemSize) (m * elemSize)).length = m * elemSize := by
      rw [length_slice]
      omega
    have hplace : (start + pos + m) * elemSize ≤ data.length :=
      Nat.le_trans (Nat.mul_le_mul_right _ (by omega)) hinside
    obtain ⟨heap, hrun, acquired, given, hcopied⟩ := opSlicela_stored hsrc hp hdst hfit hroom
    refine ⟨heap, hrun, fun hidSome hrootSome => ?_⟩
    have hreads := hcopied.reads hp (by rwa [hblock, ← Nat.add_mul]) hidSome hrootSome
    rwa [hblock] at hreads

/-- A machine about to slice the array its first word of data names. -/
def slicing (first last : Word) (vm : VmState) : VmState :=
  { vm with
    mp := [0, 0, 0, 0x10], dst := .mp 0, src := .immediate, immSrc := first
    mid := .immediate, immMid := last }

def fourBytes : HeapObject := ⟨2, 0, none, .array 0 1 [5, 6, 7, 8] 4⟩

/-- The middle two of four bytes. -/
theorem middle_is_view : ∃ (vm : VmState) (elemSize : Nat) (data : List Byte),
    vm.heap.Part 0x10000001 0x10000000 1 2 elemSize data ∧
    SameStorage vm.heap 0x10000001 0x10000000 1 2 elemSize := by
  obtain ⟨vm, vm', hrun, hget, hdst, hnext, hstart, hend⟩ := exists_run [fourBytes] (slicing 1 3)
    opSlicea (fun vm _ => vm.heap.get 0x10000000 = some fourBytes ∧
      vm.readWordAt vm.dst vm.immDst = 0x10000000 ∧ vm.heap.nextId = 0x10000001 ∧
      sliceStart vm = 1 ∧ sliceEnd vm = 3) (by decide +kernel)
  have hchain := SliceChain.slice (.array hget rfl rfl (by decide)) hdst hrun
  obtain ⟨elemSize, data, hp, hstorage, -⟩ := slices_are_views hchain
  rw [hnext, hstart, hend] at hp hstorage
  exact ⟨vm', elemSize, data, hp, hstorage⟩

/-- A slice from below the start of an array is no fault. -/
theorem slice_below_start : ∃ vm vm' : VmState, opSlicea vm = .ok () vm' ∧
    vm.heap.get 0x10000000 = some fourBytes ∧ vm.readWordAt vm.dst vm.immDst = 0x10000000 ∧
    vm.readWordAt vm.src vm.immSrc = -1 ∧ vm.readWordAt vm.mid vm.immMid = 1 ∧
    vm'.heap.contains 0x10000001 := by
  refine exists_run [fourBytes] (slicing (-1) 1) opSlicea (fun vm vm' => _ ∧ _) ?_
  decide +kernel

end RiceVM
