import RiceVM.Ops.Blocks
import RiceVM.Results
import RiceVM.Slices

/-!
Locations of blocks: the frame stack, the data of a module, an object of the heap. Inside its
buffer a block is read as it is there, and a store replaces just that range.
-/
namespace RiceVM
open Exec Memory Buffer Ops
namespace Heap

/-- The object whose bytes a reference reaches, and where in it the reference begins: a slice
reaches the array it is of. -/
def reach (h : Heap) (id : HeapId) : HeapId × Nat :=
  match (h.get id).map HeapObject.data with
  | some (.arraySlice parentId byteStart _ _ _) => (parentId, byteStart)
  | _ => (id, 0)

/-- The range lies in the bytes of the object the reference reaches. -/
def HoldsRange (h : Heap) (id : HeapId) (offset size : Nat) : Prop :=
  ∃ obj data, h.get (h.reach id).1 = some obj ∧ obj.data.buffer? = some data ∧
    (h.reach id).2 + offset + size ≤ data.length

theorem reach_cases (h : Heap) (id : HeapId) :
    h.reach id = (id, 0) ∨ ∃ obj parentId byteStart elemType elemSize length,
      h.get id = some obj ∧ obj.data = .arraySlice parentId byteStart elemType elemSize length ∧
      h.reach id = (parentId, byteStart) := by
  unfold reach
  cases hget : h.get id with
  | none => exact .inl rfl
  | some obj =>
      rw [Option.map_some]
      cases hdata : obj.data with
      | arraySlice parentId byteStart elemType elemSize length =>
          exact .inr ⟨obj, parentId, byteStart, elemType, elemSize, length, rfl, hdata, rfl⟩
      | record | str | array | list | moduleRef | mainModule | loadedModule | channel | adt =>
          exact .inl rfl

theorem length_heapSlice {h : Heap} {id : HeapId} {offset len : Nat} {bytes : List Byte}
    (hslice : h.heapSlice id offset len = some bytes) : bytes.length = len := by
  unfold heapSlice at hslice
  generalize h.objects.entries.length + 1 = fuel at hslice
  induction fuel generalizing id offset with
  | zero => cases hslice
  | succ fuel ih =>
      simp only [heapSliceLoop] at hslice
      split at hslice
      · cases hslice
      split at hslice
      iterate 3
        split at hslice
        · next hin =>
            cases hslice
            rw [length_slice]
            omega
        · cases hslice
          exact List.length_replicate
      · exact ih hslice
      · cases hslice
        exact List.length_replicate

section
variable {h : Heap} {root : HeapId} {obj : HeapObject} {data : List Byte}
  (hget : h.get root = some obj) (hdata : obj.data.buffer? = some data)
include hget hdata

theorem heapSliceLoop_buffer {offset len : Nat} (fuel : Nat) (hin : offset + len ≤ data.length) :
    h.heapSliceLoop (fuel + 1) root offset len = some (slice data offset len) := by
  unfold heapSliceLoop
  rw [hget]
  dsimp only
  cases hd : obj.data with
  | record | array | adt =>
      rw [hd] at hdata
      cases hdata
      exact congrArg some (if_pos hin)
  | str | list | moduleRef | mainModule | loadedModule | channel | arraySlice =>
      rw [hd] at hdata
      cases hdata

theorem heapWriteLoop_buffer {offset : Nat} {bytes : List Byte} (fuel : Nat)
    (hin : offset + bytes.length ≤ data.length) :
    h.heapWriteLoop (fuel + 1) root offset bytes = h.update root fun obj =>
      { obj with data := obj.data.setBuffer (splice data offset bytes) } := by
  unfold heapWriteLoop
  rw [hget]
  dsimp only
  cases hd : obj.data with
  | record | array | adt =>
      rw [hd] at hdata
      cases hdata
      exact if_pos hin
  | str | list | moduleRef | mainModule | loadedModule | channel | arraySlice =>
      rw [hd] at hdata
      cases hdata

end

theorem HoldsRange.heapSlice {h : Heap} {id : HeapId} {offset size : Nat}
    (hh : h.HoldsRange id offset size) : ∃ obj data, h.get (h.reach id).1 = some obj ∧
      obj.data.buffer? = some data ∧ (h.reach id).2 + offset + size ≤ data.length ∧
      h.heapSlice id offset size = some (slice data ((h.reach id).2 + offset) size) := by
  obtain ⟨obj, data, hget, hdata, hin⟩ := hh
  refine ⟨obj, data, hget, hdata, hin, ?_⟩
  unfold Heap.heapSlice
  rcases h.reach_cases id with hreach | ⟨part, _, _, _, _, _, hpart, hslice, hreach⟩
  · rw [hreach] at hget hin ⊢
    rw [Nat.zero_add] at hin ⊢
    exact heapSliceLoop_buffer hget hdata _ hin
  · rw [hreach] at hget hin ⊢
    obtain ⟨k, hk⟩ := exists_length hpart
    rw [hk, heapSliceLoop]
    simp only [hpart, hslice]
    exact heapSliceLoop_buffer hget hdata k hin

theorem HoldsRange.heapWrite {h : Heap} {id : HeapId} {offset : Nat} {bytes : List Byte}
    (hh : h.HoldsRange id offset bytes.length) : ∃ obj data, h.get (h.reach id).1 = some obj ∧
      obj.data.buffer? = some data ∧ (h.reach id).2 + offset + bytes.length ≤ data.length ∧
      h.heapWrite id offset bytes = h.update (h.reach id).1 fun obj =>
        { obj with
          data := obj.data.setBuffer (splice data ((h.reach id).2 + offset) bytes) } := by
  obtain ⟨obj, data, hget, hdata, hin⟩ := hh
  refine ⟨obj, data, hget, hdata, hin, ?_⟩
  unfold Heap.heapWrite
  rcases h.reach_cases id with hreach | ⟨part, _, _, _, _, _, hpart, hslice, hreach⟩
  · rw [hreach] at hget hin ⊢
    rw [Nat.zero_add] at hin ⊢
    exact heapWriteLoop_buffer hget hdata _ hin
  · rw [hreach] at hget hin ⊢
    obtain ⟨k, hk⟩ := exists_length hpart
    rw [hk, heapWriteLoop]
    simp only [hpart, hslice]
    exact heapWriteLoop_buffer hget hdata k hin

/-- What an object holds after a store through a reference. -/
def storedData (h : Heap) (id : HeapId) (offset : Nat) (bytes : List Byte) (i : HeapId)
    (d : HeapData) : HeapData :=
  if i = (h.reach id).1 then
    match d.buffer? with
    | some data => d.setBuffer (splice data ((h.reach id).2 + offset) bytes)
    | none => d
  else d

theorem get_heapWrite {h : Heap} {id : HeapId} {offset : Nat} {bytes : List Byte}
    (hh : h.HoldsRange id offset bytes.length) (i : HeapId) :
    (h.heapWrite id offset bytes).get i = (h.get i).map fun obj =>
      { obj with data := h.storedData id offset bytes i obj.data } := by
  obtain ⟨obj, data, hget, hdata, -, hwrite⟩ := hh.heapWrite
  rw [hwrite, get_update]
  unfold storedData
  split
  · next heq =>
      rw [heq, hget, Option.map_some, Option.map_some, hdata]
  · cases h.get i <;> rfl

/-- Heaps with the same objects behind a reference agree on what it reaches. -/
theorem reach_congr {h h' : Heap} {id : HeapId}
    (hsame : (h'.get id).map HeapObject.data = (h.get id).map HeapObject.data) :
    h'.reach id = h.reach id := by
  rw [reach, reach, hsame]

theorem reach_of_buffer {h : Heap} {id : HeapId} {obj : HeapObject} {data : List Byte}
    (hget : h.get id = some obj) (hdata : obj.data.buffer? = some data) : h.reach id = (id, 0) := by
  rcases h.reach_cases id with hreach | ⟨part, _, _, _, _, _, hpart, hslice, _⟩
  · exact hreach
  · rw [hget] at hpart
    cases hpart
    rw [hslice] at hdata
    cases hdata

theorem HoldsRange.isSome {h : Heap} {id : HeapId} {offset size : Nat}
    (hh : h.HoldsRange id offset size) : (h.get id).isSome := by
  obtain ⟨obj, _, hget, -⟩ := hh
  rcases h.reach_cases id with hreach | ⟨part, _, _, _, _, _, hpart, _, _⟩
  · rw [hreach] at hget
    rw [hget]
    rfl
  · rw [hpart]
    rfl

/-- A range is held wherever the objects behind it hold what they held. -/
theorem HoldsRange.of_data {h h' : Heap} {id : HeapId} {offset size : Nat}
    (hh : h.HoldsRange id offset size)
    (hsame : ∀ i old obj, h.get i = some old → h'.get i = some obj → obj.data = old.data)
    (hid : (h'.get id).isSome) (hroot : (h'.get (h.reach id).1).isSome) :
    h'.reach id = h.reach id ∧ h'.HoldsRange id offset size := by
  obtain ⟨part, hpart⟩ := Option.isSome_iff_exists.mp hh.isSome
  obtain ⟨part', hpart'⟩ := Option.isSome_iff_exists.mp hid
  obtain ⟨obj', hget'⟩ := Option.isSome_iff_exists.mp hroot
  have hreach : h'.reach id = h.reach id := by
    refine reach_congr ?_
    rw [hpart, hpart', Option.map_some, Option.map_some, hsame id part part' hpart hpart']
  obtain ⟨obj, data, hget, hdata, hin⟩ := hh
  refine ⟨hreach, obj', data, ?_, ?_, ?_⟩
  · rw [hreach, hget']
  · rw [hsame _ obj obj' hget hget', hdata]
  · rwa [hreach]

theorem storedData_slice {h : Heap} {id i : HeapId} {offset : Nat} {bytes : List Byte}
    {d : HeapData} {parentId : HeapId} {byteStart : Nat} {elemType : BitVec 32}
    {elemSize length : Nat} (hd : d = .arraySlice parentId byteStart elemType elemSize length) :
    h.storedData id offset bytes i d = d := by
  subst hd
  unfold storedData
  split <;> rfl

end Heap

namespace VmState

/-- The range lies inside the buffer of the location; no buffer is larger than an allocation. -/
def Holds (vm : VmState) (target : AddrTarget) (size : Nat) : Prop :=
  size ≤ maxAlloc ∧
    match target with
    | .heapArray id offset => vm.heap.HoldsRange id offset size
    | _ => ∃ buf off, vm.buffer? target = some (buf, off) ∧ off + size ≤ buf.length

/-- The bytes of a range that lies inside the buffer of its location. -/
def bytesAt (vm : VmState) (target : AddrTarget) (size : Nat) : List Byte :=
  match target with
  | .heapArray id offset =>
    (((vm.heap.get (vm.heap.reach id).1).bind (·.data.buffer?)).map
      (slice · ((vm.heap.reach id).2 + offset) size)).getD []
  | _ => ((vm.buffer? target).map fun b => slice b.1 b.2 size).getD []

/-- What an object holds after a store of a block at a location. -/
def storedAt (vm : VmState) (target : AddrTarget) (block : List Byte) (i : HeapId) (d : HeapData) :
    HeapData :=
  match target with
  | .heapArray id offset => vm.heap.storedData id offset block i d
  | _ => d

/-- A store of a block and nothing else: the frame stack and the data of the modules hold it at
the location, and so do the objects of the heap that were there and still are. -/
structure Written (vm vm' : VmState) (target : AddrTarget) (block : List Byte) : Prop where
  buffers : { vm' with heap := vm.heap } = vm.modifyBuffer target fun buf off => splice buf off block
  objects : ∀ i old obj, vm.heap.get i = some old → vm'.heap.get i = some obj →
    obj.data = vm.storedAt target block i old.data

variable {vm vm' : VmState} {target : AddrTarget} {block : List Byte} {size : Nat}

theorem buffer?_modifyBuffer (f : List Byte → Nat → List Byte) :
    (vm.modifyBuffer target f).buffer? target =
      (vm.buffer? target).map fun b => (f b.1 b.2, b.2) := by
  cases target with
  | moduleMp moduleIdx offset =>
      simp only [buffer?, modifyBuffer, moduleMp_modifyModuleMp, Option.map_map]
      rfl
  | frame | mp | immediate | none | heapArray => rfl

/-- Only the buffer that is there matters. -/
theorem modifyBuffer_congr {f g : List Byte → Nat → List Byte}
    (h : ∀ buf off, vm.buffer? target = some (buf, off) → f buf off = g buf off) :
    vm.modifyBuffer target f = vm.modifyBuffer target g := by
  cases target with
  | frame off =>
      simp only [modifyBuffer]
      rw [h _ _ rfl]
  | mp off =>
      simp only [modifyBuffer]
      rw [h _ _ rfl]
  | moduleMp moduleIdx offset =>
      refine modifyModuleMp_congr fun mp hmp => h mp offset ?_
      rw [buffer?, hmp]
      rfl
  | immediate | none | heapArray => rfl

theorem modifyBuffer_heap (vm : VmState) (h : Heap) (target : AddrTarget)
    (f : List Byte → Nat → List Byte) :
    { vm with heap := h }.modifyBuffer target f = { vm.modifyBuffer target f with heap := h } := by
  cases target with
  | moduleMp moduleIdx offset =>
      have hslot : { vm with heap := h }.parkedSlot moduleIdx = vm.parkedSlot moduleIdx := rfl
      have hcurrent : { vm with heap := h }.currentModuleVirtIdx = vm.currentModuleVirtIdx := rfl
      simp only [modifyBuffer, modifyModuleMp, hslot, hcurrent]
      split
      · rfl
      split
      · rfl
      split <;> rfl
  | frame | mp | immediate | none | heapArray => rfl

/-- Another heap still has the objects that a location of the machine is in. -/
def StaysIn (vm : VmState) (h : Heap) (target : AddrTarget) : Prop :=
  ∀ id offset, target = .heapArray id offset →
    (h.get id).isSome ∧ (h.get (vm.heap.reach id).1).isSome

theorem holds_of_heap {h : Heap}
    (hsame : ∀ i old obj, vm.heap.get i = some old → h.get i = some obj → obj.data = old.data)
    (hstay : vm.StaysIn h target) (hh : vm.Holds target size) :
    { vm with heap := h }.Holds target size ∧
      ∀ block i d, { vm with heap := h }.storedAt target block i d =
        vm.storedAt target block i d := by
  obtain ⟨hmax, hinside⟩ := hh
  cases target with
  | heapArray id offset =>
      obtain ⟨hid, hroot⟩ := hstay id offset rfl
      obtain ⟨hreach, hrange⟩ := Heap.HoldsRange.of_data hinside hsame hid hroot
      refine ⟨⟨hmax, hrange⟩, fun block i d => ?_⟩
      simp only [storedAt, Heap.storedData, hreach]
  | moduleMp moduleIdx offset => exact ⟨⟨hmax, hinside⟩, fun _ _ _ => rfl⟩
  | frame | mp | immediate | none => exact ⟨⟨hmax, hinside⟩, fun _ _ _ => rfl⟩

/-- Inside its buffer a block is read as it is there. -/
theorem readBlock_eq (h : vm.Holds target size) :
    readBlock vm target size = vm.bytesAt target size := by
  obtain ⟨-, hinside⟩ := h
  cases target with
  | heapArray id offset =>
      obtain ⟨obj, data, hget, hdata, -, hslice⟩ := Heap.HoldsRange.heapSlice hinside
      simp only [readBlock, bytesAt, hslice, hget, Option.bind_some, hdata, Option.map_some,
        Option.getD_some]
  | frame off =>
      obtain ⟨buf, off', hbuf, hin⟩ := hinside
      cases hbuf
      have hlength : (slice vm.frames.data off size).length = size := by
        rw [length_slice]
        omega
      simp only [readBlock, padded, hlength, Nat.sub_self, List.replicate_zero, List.append_nil]
      rfl
  | mp | moduleMp | immediate | none =>
      obtain ⟨buf, off, hbuf, hin⟩ := hinside
      simp only [readBlock, bytesAt, hbuf, if_pos hin, Option.map_some, Option.getD_some]

theorem length_readBlock (vm : VmState) (target : AddrTarget) (size : Nat) :
    (readBlock vm target size).length = size := by
  unfold readBlock
  split
  · next id offset =>
      cases hslice : vm.heap.heapSlice id offset size with
      | none => exact List.length_replicate
      | some bytes => exact Heap.length_heapSlice hslice
  · exact length_padded 0 _ _ _
  · split
    · next buf off _ =>
        split
        · next hin =>
            rw [length_slice]
            omega
        · exact List.length_replicate
    · exact List.length_replicate

/-- A store outside the heap. -/
theorem written_modifyBuffer (hoff : target.OffHeap) (block : List Byte) :
    Written vm (vm.modifyBuffer target fun buf off => splice buf off block) target block := by
  have hheap := heap_modifyBuffer vm target fun buf off => splice buf off block
  constructor
  · generalize vm.modifyBuffer target (fun buf off => splice buf off block) = after at hheap
    rw [← hheap]
  · intro i old obj hold hobj
    rw [hheap, hold] at hobj
    cases hobj
    cases target with
    | heapArray id offset => exact absurd rfl (hoff id offset)
    | frame | mp | moduleMp | immediate | none => rfl

theorem writeBlock_buffer (hoff : target.OffHeap) {buf : List Byte} {off : Nat}
    (hbuf : vm.buffer? target = some (buf, off)) (hin : off + block.length ≤ buf.length) :
    writeBlock target block vm = vm.modifyBuffer target fun buf off => splice buf off block := by
  have hfits : ∀ buf' off', vm.buffer? target = some (buf', off') →
      overlay buf' off' block = splice buf' off' block ∧
        writeFitting block buf' off' = splice buf' off' block := by
    intro buf' off' hbuf'
    rw [hbuf] at hbuf'
    cases hbuf'
    exact ⟨overlay_of_le hin, if_pos hin⟩
  cases target with
  | heapArray id offset => exact absurd rfl (hoff id offset)
  | frame off' => exact modifyBuffer_congr fun buf' off' hbuf' => (hfits buf' off' hbuf').1
  | mp | moduleMp | immediate | none =>
      exact modifyBuffer_congr fun buf' off' hbuf' => (hfits buf' off' hbuf').2

/-- A block that fits is stored, and every object stays with its count. -/
theorem writeBlock_written (h : vm.Holds target block.length) :
    Written vm (writeBlock target block vm) target block ∧
      ∀ i, ((writeBlock target block vm).heap.get i).map (·.refCount) =
        (vm.heap.get i).map (·.refCount) := by
  obtain ⟨-, hinside⟩ := h
  cases htarget : target with
  | heapArray id offset =>
      rw [htarget] at hinside
      have hget := Heap.get_heapWrite hinside
      refine ⟨⟨rfl, fun i old obj hold hobj => ?_⟩, fun i => ?_⟩
      · change (vm.heap.heapWrite id offset block).get i = some obj at hobj
        rw [hget, hold] at hobj
        cases hobj
        rfl
      · change ((vm.heap.heapWrite id offset block).get i).map _ = _
        rw [hget, Option.map_map]
        rfl
  | frame | mp | moduleMp | immediate | none =>
      have hoff : target.OffHeap := fun id offset heq => by
        rw [htarget] at heq
        cases heq
      rw [htarget] at hinside
      obtain ⟨buf, off, hbuf, hin⟩ := hinside
      rw [← htarget] at hbuf ⊢
      rw [writeBlock_buffer hoff hbuf hin]
      exact ⟨written_modifyBuffer hoff block, fun i => by rw [heap_modifyBuffer]⟩

/-- What a store did to the machine with another heap is what it did to the machine. -/
theorem Written.of_heap {h : Heap} (hw : Written { vm with heap := h } vm' target block)
    (hsame : ∀ i old obj, vm.heap.get i = some old → h.get i = some obj → obj.data = old.data)
    (hstored : ∀ block i d, { vm with heap := h }.storedAt target block i d =
      vm.storedAt target block i d)
    (hthere : ∀ i old obj, vm.heap.get i = some old → vm'.heap.get i = some obj →
      (h.get i).isSome) : Written vm vm' target block := by
  refine ⟨?_, fun i old obj hold hobj => ?_⟩
  · have hbuffers := congrArg (fun t : VmState => { t with heap := vm.heap }) hw.buffers
    rw [modifyBuffer_heap] at hbuffers
    exact hbuffers.trans (modifyBuffer_heap vm vm.heap target _).symm
  · obtain ⟨obj₁, hobj₁⟩ := Option.isSome_iff_exists.mp (hthere i old obj hold hobj)
    rw [hw.objects i obj₁ obj hobj₁ hobj, hstored, hsame i old obj₁ hold hobj₁]

/-- A block stored after counts changed and objects went, where those it goes to are left. -/
theorem writeBlock_of_heap {h : Heap}
    (hsame : ∀ i old obj, vm.heap.get i = some old → h.get i = some obj → obj.data = old.data)
    (hstay : vm.StaysIn h target) (hh : vm.Holds target block.length) :
    Written vm (writeBlock target block { vm with heap := h }) target block ∧
      ∀ i, ((writeBlock target block { vm with heap := h }).heap.get i).map (·.refCount) =
        (h.get i).map (·.refCount) := by
  obtain ⟨hholds, hstored⟩ := holds_of_heap hsame hstay hh
  obtain ⟨hw, hcounts⟩ := writeBlock_written hholds
  refine ⟨hw.of_heap hsame hstored fun i _ obj _ hobj => ?_, hcounts⟩
  have hcount := hcounts i
  rw [hobj] at hcount
  obtain ⟨obj₁, hobj₁, -⟩ := Option.map_eq_some_iff.mp hcount.symm
  exact Option.isSome_iff_exists.mpr ⟨obj₁, hobj₁⟩

/-- A change of the counts after a store leaves what was stored. -/
theorem Written.recount {h : Heap} (hw : Written vm vm' target block)
    (hsame : ∀ i obj, h.get i = some obj →
      ∃ obj', vm'.heap.get i = some obj' ∧ obj.data = obj'.data) :
    Written vm { vm' with heap := h } target block := by
  refine ⟨hw.buffers, fun i old obj hold hobj => ?_⟩
  obtain ⟨obj', hobj', hdata⟩ := hsame i obj hobj
  rw [hdata, hw.objects i old obj' hold hobj']

theorem buffer?_written {buf : List Byte} {off : Nat} (hw : Written vm vm' target block)
    (hbuf : vm.buffer? target = some (buf, off)) :
    vm'.buffer? target = some (splice buf off block, off) := by
  have hsame : vm'.buffer? target = { vm' with heap := vm.heap }.buffer? target := by
    cases target <;> rfl
  rw [hsame, hw.buffers, buffer?_modifyBuffer, hbuf]
  rfl

/-- What was stored is there. -/
theorem bytesAt_written (h : vm.Holds target block.length) (hw : Written vm vm' target block)
    (hstay : vm.StaysIn vm'.heap target) : vm'.bytesAt target block.length = block := by
  obtain ⟨-, hinside⟩ := h
  cases htarget : target with
  | heapArray id offset =>
      rw [htarget] at hinside hw
      obtain ⟨hid, hroot⟩ := hstay id offset htarget
      obtain ⟨part, hpart⟩ := Option.isSome_iff_exists.mp hinside.isSome
      obtain ⟨part', hpart'⟩ := Option.isSome_iff_exists.mp hid
      obtain ⟨obj, data, hget, hdata, hin⟩ := hinside
      obtain ⟨obj', hget'⟩ := Option.isSome_iff_exists.mp hroot
      have hdata' : obj'.data.buffer? =
          some (splice data ((vm.heap.reach id).2 + offset) block) := by
        rw [hw.objects _ obj obj' hget hget']
        simp only [storedAt, Heap.storedData, if_true, hdata]
        exact Heap.buffer?_setBuffer _ hdata
      have hreach : vm'.heap.reach id = vm.heap.reach id := by
        rcases vm.heap.reach_cases id with hreach | ⟨_, _, _, _, _, _, hslice, hsliced, _⟩
        · rw [hreach] at hget' ⊢
          exact Heap.reach_of_buffer hget' hdata'
        · rw [hpart] at hslice
          cases hslice
          refine Heap.reach_congr ?_
          rw [hpart, hpart', Option.map_some, Option.map_some, hw.objects id part part' hpart hpart']
          exact congrArg some (Heap.storedData_slice hsliced)
      simp only [bytesAt, hreach, hget', Option.bind_some, hdata', Option.map_some,
        Option.getD_some]
      exact slice_splice_self hin
  | frame | mp | moduleMp | immediate | none =>
      rw [htarget] at hinside hw
      obtain ⟨buf, off, hbuf, hin⟩ := hinside
      simp only [bytesAt, buffer?_written hw hbuf, Option.map_some, Option.getD_some]
      exact slice_splice_self hin

end VmState
end RiceVM
