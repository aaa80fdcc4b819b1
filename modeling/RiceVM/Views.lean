import RiceVM.Ops.Pointer
import RiceVM.Programs
import RiceVM.RefCounts

/-!
Arrays and slices as parts of a root array. A slice names the root itself, however many slices
were taken on the way, so all reads and writes end at the bytes of the root.
-/
namespace RiceVM
open Buffer Ops
namespace Heap

/-- `id` is the array `root` or a slice of it, and holds `length` elements from `start` on. -/
structure Part (h : Heap) (id root : HeapId) (start length elemSize : Nat) (data : List Byte) :
    Prop where
  view : ∃ obj elemType, h.get id = some obj ∧
    viewOf id obj.data = some ⟨root, start * elemSize, elemType, elemSize, length⟩
  array : ∃ obj elemType n, h.get root = some obj ∧ obj.data = .array elemType elemSize data n ∧
    data.length = n * elemSize ∧ start + length ≤ n

section
variable {h : Heap} {id root : HeapId} {start length elemSize : Nat} {data : List Byte}

theorem Part.self {obj : HeapObject} {elemType : BitVec 32} {n : Nat} (hget : h.get id = some obj)
    (hdata : obj.data = .array elemType elemSize data n) (hlength : data.length = n * elemSize) :
    Part h id id 0 n elemSize data where
  view := ⟨obj, elemType, hget, by rw [hdata, Nat.zero_mul]; rfl⟩
  array := ⟨obj, elemType, n, hget, hdata, hlength, by omega⟩

/-- A part is the root itself or a slice that names it. -/
theorem Part.cases (hp : Part h id root start length elemSize data) :
    (id = root ∧ start = 0 ∧ data.length = length * elemSize) ∨
      ∃ obj elemType, h.get id = some obj ∧
        obj.data = .arraySlice root (start * elemSize) elemType elemSize length := by
  obtain ⟨obj, elemType, hget, hview⟩ := hp.view
  cases hdata : obj.data with
  | array elemType' elemSize' data' n =>
      rw [hdata] at hview
      simp only [viewOf, Option.some.injEq, ArrayView.mk.injEq] at hview
      obtain ⟨rfl, _, rfl, rfl, rfl⟩ := hview
      obtain ⟨root', _, n', hroot, hdata', hlength, hle⟩ := hp.array
      obtain rfl : obj = root' := Option.some.inj (hget.symm.trans hroot)
      rw [hdata] at hdata'
      cases hdata'
      exact .inl ⟨rfl, by omega, hlength⟩
  | arraySlice parentId byteStart elemType' elemSize' n =>
      rw [hdata] at hview
      simp only [viewOf, Option.some.injEq, ArrayView.mk.injEq] at hview
      obtain ⟨rfl, rfl, rfl, rfl, rfl⟩ := hview
      exact .inr ⟨obj, _, hget, hdata⟩
  | record | str | list | moduleRef | mainModule | loadedModule | channel | adt =>
      rw [hdata] at hview
      cases hview

theorem Part.whole (hp : Part h id root start length elemSize data) :
    ∃ n, Part h root root 0 n elemSize data ∧ start + length ≤ n := by
  obtain ⟨obj, elemType, n, hget, hdata, hlength, hle⟩ := hp.array
  exact ⟨n, .self hget hdata hlength, hle⟩

theorem Part.inside (hp : Part h id root start length elemSize data) :
    (start + length) * elemSize ≤ data.length := by
  obtain ⟨_, _, n, _, _, hlength, hle⟩ := hp.array
  rw [hlength]
  exact Nat.mul_le_mul_right _ hle

theorem Part.ne_nil (hp : Part h id root start length elemSize data) : id ≠ nil := by
  obtain ⟨obj, _, hget, _⟩ := hp.view
  rintro rfl
  rw [get, if_pos rfl] at hget
  cases hget

theorem exists_length {obj : HeapObject} (hget : h.get id = some obj) :
    ∃ k, h.objects.entries.length = k + 1 := by
  have hperm := entries_of_lookup (lookup_of_get hget)
  exact ⟨_, hperm.length_eq⟩

/-! The root is read and written at once. -/

section
variable {obj : HeapObject} {elemType : BitVec 32} {n : Nat} (hget : h.get root = some obj)
  (hdata : obj.data = .array elemType elemSize data n)
include hget hdata

theorem heapSliceLoop_array (fuel offset len : Nat) : h.heapSliceLoop (fuel + 1) root offset len =
    some (if offset + len ≤ data.length then slice data offset len else List.replicate len 0) := by
  simp only [heapSliceLoop, hget, hdata]

theorem arrayReadLoop_array (fuel offset len : Nat) : h.arrayReadLoop (fuel + 1) root offset len =
    some (if offset + len ≤ data.length then slice data offset len else List.replicate len 0) := by
  simp only [arrayReadLoop, hget, hdata]

theorem heapWriteLoop_array (fuel offset : Nat) (bytes : List Byte) :
    h.heapWriteLoop (fuel + 1) root offset bytes =
      if offset + bytes.length ≤ data.length then h.update root fun obj =>
        { obj with data := obj.data.setBuffer (splice data offset bytes) }
      else h := by
  simp only [heapWriteLoop, hget, hdata]

theorem arrayWriteLoop_array (fuel offset : Nat) (bytes : List Byte) :
    h.arrayWriteLoop (fuel + 1) root offset bytes = h.update root fun obj =>
      { obj with data := obj.data.setBuffer (overlay data offset bytes) } := by
  simp only [arrayWriteLoop, hget, hdata]

end

/-! A part is read and written as the root is. -/

theorem Part.heapSlice_eq (hp : Part h id root start length elemSize data) (offset len : Nat) :
    h.heapSlice id offset len =
      some (if start * elemSize + offset + len ≤ data.length then
        slice data (start * elemSize + offset) len else List.replicate len 0) := by
  obtain ⟨obj, elemType, n, hget, hdata, _, _⟩ := hp.array
  unfold heapSlice
  rcases hp.cases with ⟨rfl, hzero, _⟩ | ⟨part, _, hpart, hslice⟩
  · rw [heapSliceLoop_array hget hdata, hzero, Nat.zero_mul, Nat.zero_add]
  · obtain ⟨k, hk⟩ := exists_length hpart
    rw [hk, heapSliceLoop]
    simp only [hpart, hslice]
    exact heapSliceLoop_array hget hdata k _ _

theorem Part.arrayRead_eq (hp : Part h id root start length elemSize data) (offset len : Nat) :
    h.arrayRead id offset len =
      some (if start * elemSize + offset + len ≤ data.length then
        slice data (start * elemSize + offset) len else List.replicate len 0) := by
  obtain ⟨obj, elemType, n, hget, hdata, _, _⟩ := hp.array
  unfold arrayRead
  rcases hp.cases with ⟨rfl, hzero, _⟩ | ⟨part, _, hpart, hslice⟩
  · rw [arrayReadLoop_array hget hdata, hzero, Nat.zero_mul, Nat.zero_add]
  · obtain ⟨k, hk⟩ := exists_length hpart
    rw [hk, arrayReadLoop]
    simp only [hpart, hslice]
    exact arrayReadLoop_array hget hdata k _ _

theorem Part.heapWrite_eq (hp : Part h id root start length elemSize data) (offset : Nat)
    (bytes : List Byte) : h.heapWrite id offset bytes =
      if start * elemSize + offset + bytes.length ≤ data.length then h.update root fun obj =>
        { obj with data := obj.data.setBuffer (splice data (start * elemSize + offset) bytes) }
      else h := by
  obtain ⟨obj, elemType, n, hget, hdata, _, _⟩ := hp.array
  unfold heapWrite
  rcases hp.cases with ⟨rfl, hzero, _⟩ | ⟨part, _, hpart, hslice⟩
  · rw [heapWriteLoop_array hget hdata, hzero, Nat.zero_mul, Nat.zero_add]
  · obtain ⟨k, hk⟩ := exists_length hpart
    rw [hk, heapWriteLoop]
    simp only [hpart, hslice]
    exact heapWriteLoop_array hget hdata k _ _

theorem Part.arrayWrite_eq (hp : Part h id root start length elemSize data) (offset : Nat)
    (bytes : List Byte) : h.arrayWrite id offset bytes = h.update root fun obj =>
      { obj with data := obj.data.setBuffer (overlay data (start * elemSize + offset) bytes) } := by
  obtain ⟨obj, elemType, n, hget, hdata, _, _⟩ := hp.array
  unfold arrayWrite
  rcases hp.cases with ⟨rfl, hzero, _⟩ | ⟨part, _, hpart, hslice⟩
  · rw [arrayWriteLoop_array hget hdata, hzero, Nat.zero_mul, Nat.zero_add]
  · obtain ⟨k, hk⟩ := exists_length hpart
    rw [hk, arrayWriteLoop]
    simp only [hpart, hslice]
    exact arrayWriteLoop_array hget hdata k _ _

theorem Part.arrayByteLen_eq (hp : Part h id root start length elemSize data) :
    h.arrayByteLen id = some (length * elemSize) := by
  obtain ⟨obj, elemType, n, hget, hdata, _, _⟩ := hp.array
  unfold arrayByteLen
  rcases hp.cases with ⟨rfl, _, hlength⟩ | ⟨part, _, hpart, hslice⟩
  · simp only [hget, hdata, hlength]
  · simp only [hpart, hslice]

/-- What stays of a part: the objects it is made of keep their kind and their extent. -/
def SameShape (h h' : Heap) (i : HeapId) : Prop :=
  ∀ obj, h.get i = some obj → ∃ obj', h'.get i = some obj' ∧
    viewOf i obj'.data = viewOf i obj.data ∧
    (obj'.data.buffer?.map List.length) = obj.data.buffer?.map List.length

theorem Part.sameShape {h' : Heap} (hp : Part h id root start length elemSize data)
    (hid : SameShape h h' id) (hroot : SameShape h h' root) :
    ∃ data', data'.length = data.length ∧ Part h' id root start length elemSize data' := by
  obtain ⟨part, elemType, hpart, hview⟩ := hp.view
  obtain ⟨obj, elemType', n, hget, hdata, hlength, hle⟩ := hp.array
  obtain ⟨part', hpart', hview', _⟩ := hid part hpart
  obtain ⟨obj', hget', hsame, hbuffer⟩ := hroot obj hget
  rw [hdata] at hsame hbuffer
  cases hdata' : obj'.data with
  | array elemType'' elemSize' data' n' =>
      rw [hdata'] at hsame hbuffer
      simp only [viewOf, Option.some.injEq, ArrayView.mk.injEq, true_and] at hsame
      obtain ⟨rfl, rfl, rfl⟩ := hsame
      have hlength' : data'.length = data.length := Option.some.inj hbuffer
      exact ⟨data', hlength', ⟨part', elemType, hpart', hview'.trans hview⟩,
        obj', _, _, hget', hdata', hlength'.trans hlength, hle⟩
  | arraySlice parentId byteStart elemType'' elemSize' n' =>
      rw [hdata'] at hbuffer
      cases hbuffer
  | record | str | list | moduleRef | mainModule | loadedModule | channel | adt =>
      rw [hdata'] at hsame
      cases hsame

/-- A part after a change of the bytes of its root. -/
theorem Part.update (hp : Part h id root start length elemSize data) {data' : List Byte}
    {f : HeapObject → HeapObject} (hlength' : data'.length = data.length)
    (hf : ∀ obj, h.get root = some obj → (f obj).data = obj.data.setBuffer data') :
    Part (h.update root f) id root start length elemSize data' := by
  obtain ⟨obj, elemType, n, hget, hdata, hlength, hle⟩ := hp.array
  have hroot : (h.update root f).get root = some (f obj) := by
    rw [get_update, if_pos rfl, hget]
    rfl
  have hdata' : (f obj).data = .array elemType elemSize data' n := by
    rw [hf obj hget, hdata]
    rfl
  refine ⟨?_, f obj, elemType, n, hroot, hdata', hlength'.trans hlength, hle⟩
  obtain ⟨part, elemType', hpart, hview⟩ := hp.view
  by_cases heq : id = root
  · subst heq
    rw [hget] at hpart
    cases hpart
    rw [hdata] at hview
    exact ⟨f obj, elemType', hroot, by rw [hdata']; exact hview⟩
  · refine ⟨part, elemType', ?_, hview⟩
    rw [get_update, if_neg heq, hpart]

end

/-- A heap with the given objects, the last allocated first. -/
def ofObjects : List HeapObject → Option Heap
  | [] => some .new
  | obj :: objs => do
    let h ← ofObjects objs
    let (id, h) ← h.alloc obj.typeId obj.data obj.trace
    return h.update id fun _ => obj

end Heap

/-- A machine at the start of a program, with some objects and what `setup` puts in place. -/
def machineWith (objs : List HeapObject) (setup : VmState → VmState) : Option VmState := do
  let vm ← VmState.withArgs [] true (.ofCode "main" [] 0) []
  let heap ← Heap.ofObjects objs
  return setup { vm with heap }

/-- A run of one instruction that is found by computation. -/
theorem exists_run (objs : List HeapObject) (setup : VmState → VmState) (op : VM Unit)
    (p : VmState → VmState → Prop) [∀ vm vm', Decidable (p vm vm')]
    (h : ((machineWith objs setup).any fun vm =>
      match op vm with
      | .ok () vm' => decide (p vm vm')
      | _ => false) = true) :
    ∃ vm vm', op vm = .ok () vm' ∧ p vm vm' := by
  rw [Option.any_eq_true] at h
  obtain ⟨vm, -, h⟩ := h
  cases hrun : op vm with
  | ok a vm' =>
      rw [hrun] at h
      exact ⟨vm, vm', hrun, of_decide_eq_true h⟩
  | error | panic | diverge =>
      rw [hrun] at h
      cases h

end RiceVM
