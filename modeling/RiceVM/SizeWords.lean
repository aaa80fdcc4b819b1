import Mathlib.Data.List.Range
import RiceVM.Loader.Instantiate
import RiceVM.BlockCounts
import RiceVM.TraceMaps
import RiceVM.CharBytes

/-!
Sizes, counts and indices from the guest. An operation is safe in a state when it ends there
without a panic and its loops take no more turns than the objects have parts. A size or count that
is refused before it becomes a host length is safe whatever it is; the moves and the built-in that
take one as it is are not.
-/
namespace RiceVM
open Exec Memory Buffer

namespace Heap

theorem room_addRef (h : Heap) (id : HeapId) : (h.addRef id).room = h.room := by
  rw [room, nextId_addRef, room]

theorem room_addRefs (h : Heap) (ids : List HeapId) : (ids.foldl addRef h).room = h.room := by
  rw [room, nextId_addRefs, room]

/-- The number of bytes of the array behind an id. -/
def storageLoop (h : Heap) : Nat → HeapId → Option Nat
  | 0, _ => none
  | fuel + 1, id =>
    match h.get id with
    | none => none
    | some obj =>
      match obj.data with
      | .array _ _ data _ => some data.length
      | .arraySlice parentId .. => h.storageLoop fuel parentId
      | _ => none

def storage (h : Heap) (id : HeapId) : Option Nat := h.storageLoop (h.objects.entries.length + 1) id

/-- Reading gives as many bytes as were asked for wherever there is an array to read. -/
theorem length_arrayReadLoop (h : Heap) (fuel : Nat) (id : HeapId) (offset len : Nat) :
    (h.arrayReadLoop fuel id offset len).map List.length =
      (h.storageLoop fuel id).map fun _ => len := by
  induction fuel generalizing id offset with
  | zero => rfl
  | succ fuel ih =>
      rw [arrayReadLoop, storageLoop]
      cases h.get id with
      | none => rfl
      | some obj =>
          dsimp only
          cases obj.data with
          | array elemType elemSize data length =>
              dsimp only
              rw [Option.map_some, Option.map_some]
              congr 1
              split
              · rw [length_slice]
                omega
              · exact List.length_replicate
          | arraySlice parentId byteStart elemType elemSize length => exact ih parentId _
          | record | str | list | moduleRef | mainModule | loadedModule | channel | adt => rfl

end Heap

open Ops

/-- The operations that take a size, a count or an index from the guest. -/
inductive SizedOp where
  | movm
  | movmp
  | consm
  | consmp
  | headm
  | headmp
  | insc
  | byte2char
  | char2byte
  | utfbytes
  deriving DecidableEq, Repr

namespace SizedOp

def run : SizedOp → VM Unit
  | movm => opMovm
  | movmp => opMovmp
  | consm => opConsm
  | consmp => opConsmp
  | headm => opHeadm
  | headmp => opHeadmp
  | insc => opInsc
  | byte2char => sysByte2char
  | char2byte => sysChar2byte
  | utfbytes => sysUtfbytes

/-- Those that make an object, for which the heap must have an id. -/
def allocates : SizedOp → Prop
  | consm | consmp | insc => True
  | _ => False

/-- The text that `insc` changes, where its destination names a string or nothing. -/
def inscText (vm : VmState) : Option String :=
  let id := vm.readWordAt vm.dst vm.immDst
  if id = nil then some "" else vm.heap.getString id

/-- What `utfbytes` is asked to scan. -/
def scanCount (vm : VmState) : Word := argWord vm 1

def scanStorage (vm : VmState) : Option Nat := vm.heap.storage (argWord vm 0)

/-- The turns of an operation's loops: one for each pointer of a typed block, for each character
of the string that zeros are added to, and for each byte that is scanned or written. The buffer of
a block is one allocation and no loop. -/
def steps (vm : VmState) : SizedOp → Nat
  | movm | consm | headm => 0
  | movmp | consmp | headmp => (typedSlots vm).length
  | insc => ((inscText vm).map fun s => max s.length (midIndex vm + 1)).getD 0
  | byte2char =>
    min ((vm.heap.arrayByteLen (argWord vm 0)).getD 0 - (argWord vm 1).asUsize) 6
  | char2byte => (Utf8.encode (charOfRune (argWord vm 0))).length
  | utfbytes =>
    ((vm.heap.arrayRead (argWord vm 0) 0 (scanCount vm).asUsize).map List.length).getD 0

/-- The size of what an operation works on: the block of a type, the string with one more
character, the bytes of an array, the bytes of a character. -/
def extent (vm : VmState) : SizedOp → Nat
  | movm | consm | headm => 0
  | movmp | consmp | headmp => typedSize vm
  | insc => ((inscText vm).map fun s => s.length + 1).getD 0
  | byte2char => (vm.heap.arrayByteLen (argWord vm 0)).getD 0
  | char2byte => 4
  | utfbytes => (scanStorage vm).getD 0

/-- No count overflows when the operation takes references. -/
def CountsFit (vm : VmState) : SizedOp → Prop
  | movmp => RefsRoom vm (readBlock vm vm.src (typedSize vm))
  | consm => ConsRoom vm []
  | consmp => ∀ head, readConsHead vm (typedSize vm) = .ok head →
      ConsRoom vm (blockRefs vm.heap head (typedSlots vm))
  | headmp => ∀ head, headRead vm (vm.readWordAt vm.src vm.immSrc) = .ok head → HeadRoom vm head
  | _ => True

/-- The operation completes or raises a fault, in steps that the objects bound. -/
structure Safe (op : SizedOp) (vm : VmState) : Prop where
  ends : Ends op.run (fun _ _ => True) vm
  bounded : op.steps vm ≤ op.extent vm

/-- The block that a head overwrites lies inside the destination, or a buffer may be as long. -/
def DstFits (vm : VmState) (size : Nat) : Prop :=
  match vm.dst with
  | .frame off => off + size ≤ vm.frames.data.length ∨ size ≤ maxAlloc
  | .mp off => off + size ≤ vm.mp.length ∨ size ≤ maxAlloc
  | .moduleMp moduleIdx offset =>
    (∃ mp, vm.moduleMp moduleIdx = some mp ∧ offset + size ≤ mp.length) ∨ size ≤ maxAlloc
  | _ => True

/-- The sizes for which an operation is safe. -/
def InRange (vm : VmState) : SizedOp → Prop
  | movm => (vm.readWordAt vm.mid vm.immMid).msb = false
  | movmp => typedSize vm ≤ maxAlloc
  | headmp => (vm.traceMapForType (midIndex vm)).isSome → DstFits vm (typedSize vm)
  | insc => ∀ s, inscText vm = some s → midIndex vm ≤ s.length
  | utfbytes => ∀ size, scanStorage vm = some size →
      (scanCount vm).msb = false ∧ (scanCount vm).toNat ≤ size
  | consm | consmp | headm | byte2char | char2byte => True

end SizedOp

/-! ### What ends -/

section
variable {vm : VmState} {α : Type}

/-- A buffer of zeros is had exactly when the host can allocate it. -/
theorem ends_zeroed {size : Nat} {f : List Byte → VM α}
    (hf : Ends (f (List.replicate size 0)) (fun _ _ => True) vm) :
    Ends (unwrap (zeroed size) >>= f) (fun _ _ => True) vm ↔ size ≤ maxAlloc := by
  by_cases hsize : size ≤ maxAlloc
  · have hzeros : (unwrap (zeroed size) : VM (List Byte)) vm = .ok (List.replicate size 0) vm := by
      rw [zeroed, if_pos hsize]
      rfl
    rw [ends_bind_ok hzeros]
    exact ⟨fun _ => hsize, fun _ => hf⟩
  · refine ⟨fun h => ?_, fun h => absurd h hsize⟩
    rw [zeroed, if_neg hsize] at h
    exact h.of_bind.elim

/-- References are taken where the counts have room for them. -/
theorem ends_tryHeap {f : Heap → Option Heap} {heap : Heap} {Q : Unit → VmState → Prop}
    (hf : f vm.heap = some heap) (h : Q () { vm with heap }) : Ends (tryHeap f) Q vm := by
  rw [Ends, tryHeap_apply hf]
  exact h

theorem ends_opMovm (vm : VmState) :
    Ends opMovm (fun _ _ => True) vm ↔ (vm.readWordAt vm.mid vm.immMid).msb = false := by
  rw [← asUsize_le_maxAlloc_iff]
  rw [opMovm, ends_bind_ok (midWord_apply vm)]
  by_cases hzero : (vm.readWordAt vm.mid vm.immMid).asUsize = 0
  · rw [if_pos hzero, hzero]
    exact ⟨fun _ => Nat.zero_le _, fun _ => trivial⟩
  · rw [if_neg hzero]
    exact ends_zeroed (Ends.modify trivial)

theorem ends_opMovmp (hroom : RefsRoom vm (readBlock vm vm.src (typedSize vm))) :
    Ends opMovmp (fun _ _ => True) vm ↔ typedSize vm ≤ maxAlloc := by
  rw [opMovmp, ends_bind_ok (midWord_apply vm), ends_bind_ok (get_apply vm), ← midIndex,
    ← typedSize]
  by_cases hzero : typedSize vm = 0
  · rw [if_pos hzero, hzero]
    exact ⟨fun _ => Nat.zero_le _, fun _ => trivial⟩
  · rw [if_neg hzero]
    refine ends_zeroed ?_
    have hacquire := Heap.acquirePointers_of_room hroom
    unfold typedSlots at hacquire
    cases hmap : vm.traceMapForType (midIndex vm) with
    | none => exact Ends.andThen (Ends.pure trivial) fun _ _ => Ends.modify trivial
    | some ptrMap =>
        rw [hmap, Option.elim_some] at hacquire
        refine Ends.andThen (m := tryHeap _) (ends_tryHeap hacquire trivial) fun _ _ => ?_
        exact Ends.andThen (m := modifyHeap _) (Ends.modify trivial) fun _ _ => Ends.modify trivial

theorem ends_consBytes (size : Nat) (hids : 0 < vm.heap.room)
    (hroom : vm.heap.refs (vm.readWordAt vm.dst vm.immDst) < Heap.maxRefs) :
    Ends (consBytes size) (fun _ _ => True) vm := by
  rw [consBytes, ends_bind_ok (dstPtr_apply vm), ends_bind_ok (get_apply vm)]
  refine Ends.bind (Ends.ofExcept (Q := fun _ u => u = vm) fun _ _ => rfl) fun head u hu => ?_
  subst hu
  refine Ends.bind (m := tryHeap _) (Q := fun _ v => 0 < v.heap.room)
    (ends_tryHeap (Heap.incRef_eq_some.mpr ⟨hroom, rfl⟩) (by rwa [Heap.room_addRef])) fun _ v hv => ?_
  refine (ends_allocTyped 0 _ none hv).bind fun listId w _ => ?_
  refine Ends.andThen (m := dstPtr) trivial fun _ _ => ?_
  exact (ends_setDstWord listId _).andThen fun _ _ => Ends.modify trivial

theorem ends_opConsm (hids : 0 < vm.heap.room) (hroom : ConsRoom vm []) :
    Ends opConsm (fun _ _ => True) vm := by
  refine Ends.bind (m := midWord) (Q := fun _ t => t = vm) rfl fun size t ht => ?_
  subst ht
  split
  · exact Ends.throw _
  · split
    · exact Ends.throw _
    · exact ends_consBytes _ hids (Heap.refsLeft_cons.mp hroom).1

theorem ends_opConsmp (hids : 0 < vm.heap.room)
    (hroom : ∀ head, readConsHead vm (typedSize vm) = .ok head →
      ConsRoom vm (blockRefs vm.heap head (typedSlots vm))) :
    Ends opConsmp (fun _ _ => True) vm := by
  rw [opConsmp, ends_bind_ok (midWord_apply vm), ends_bind_ok (get_apply vm), ← midIndex,
    ← typedSize]
  dsimp only
  split
  · exact Ends.throw _
  cases hhead : readConsHead vm (typedSize vm) with
  | error e =>
      have hcons : Ends (consBytes (typedSize vm)) (fun _ _ => True) vm := by
        rw [consBytes, ends_bind_ok (dstPtr_apply vm), ends_bind_ok (get_apply vm), hhead]
        exact trivial
      cases vm.traceMapForType (midIndex vm) with
      | none => exact hcons
      | some ptrMap => exact trivial
  | ok head =>
      have hleft := hroom head hhead
      have hacquire := Heap.acquirePointers_of_room hleft.tail
      unfold typedSlots at hleft hacquire
      cases hmap : vm.traceMapForType (midIndex vm) with
      | none =>
          rw [hmap] at hleft
          exact ends_consBytes _ hids (Heap.refsLeft_cons.mp hleft).1
      | some ptrMap =>
          rw [hmap, Option.elim_some] at hleft hacquire
          refine Ends.bind (m := tryHeap _) (ends_tryHeap (Q := fun _ v => 0 < v.heap.room ∧
            v.heap.refs (v.readWordAt v.dst v.immDst) < Heap.maxRefs) hacquire
            ⟨by rwa [Heap.room_addRefs], ?_⟩) fun _ v hv => ends_consBytes _ hv.1 hv.2
          dsimp only
          rw [readWordAt_addRefs]
          exact hleft.head

theorem ends_opHeadm (vm : VmState) : Ends opHeadm (fun _ _ => True) vm := by
  refine Ends.andThen (m := srcPtr) trivial fun _ _ => Ends.get_bind ?_
  exact Ends.andThen (Ends.ofExcept fun _ _ => trivial) fun _ _ => Ends.modify trivial

theorem ends_readDstBlock (size : Nat) :
    Ends (readDstBlock size) (fun _ _ => True) vm ↔ SizedOp.DstFits vm size := by
  have hzeros : Ends (do return some (← unwrap (zeroed size)) : VM (Option (List Byte)))
      (fun _ _ => True) vm ↔ size ≤ maxAlloc := ends_zeroed (Ends.pure trivial)
  have hblock : ∀ (buf : List Byte) off,
      Ends (if off + size ≤ buf.length then return some (slice buf off size)
        else return some (← unwrap (zeroed size)) : VM (Option (List Byte))) (fun _ _ => True) vm ↔
      off + size ≤ buf.length ∨ size ≤ maxAlloc := by
    intro buf off
    by_cases hfit : off + size ≤ buf.length
    · rw [if_pos hfit]
      exact ⟨fun _ => .inl hfit, fun _ => Ends.pure trivial⟩
    · rw [if_neg hfit, or_iff_right hfit]
      exact hzeros
  rw [readDstBlock, ends_bind_ok (get_apply vm), SizedOp.DstFits]
  cases vm.dst with
  | frame off => exact hblock vm.frames.data off
  | mp off => exact hblock vm.mp off
  | moduleMp moduleIdx offset =>
      dsimp only
      cases vm.moduleMp moduleIdx with
      | none => simpa using hzeros
      | some mp => simpa using hblock mp offset
  | immediate | none | heapArray => exact ⟨fun _ => trivial, fun _ => trivial⟩

theorem ends_opHeadmp (hroom : ∀ head,
      headRead vm (vm.readWordAt vm.src vm.immSrc) = .ok head → HeadRoom vm head) :
    Ends opHeadmp (fun _ _ => True) vm ↔
    ((vm.traceMapForType (midIndex vm)).isSome → SizedOp.DstFits vm (typedSize vm)) := by
  rw [opHeadmp, ends_bind_ok (midWord_apply vm), ends_bind_ok (get_apply vm), ← midIndex,
    ← typedSize]
  cases hmap : vm.traceMapForType (midIndex vm) with
  | none => exact ⟨fun _ h => absurd h Bool.false_ne_true, fun _ => ends_opHeadm vm⟩
  | some ptrMap =>
      rw [← ends_readDstBlock]
      refine ⟨fun h _ => h.of_bind, fun h => ?_⟩
      rcases readDstBlock_cases vm (typedSize vm) with hpanic | ⟨block, hblock⟩
      · have hends := h rfl
        rw [Ends, hpanic] at hends
        exact hends.elim
      rw [ends_bind_ok hblock]
      cases block with
      | none => exact ends_opHeadm vm
      | some overwritten =>
          dsimp only
          rw [ends_bind_ok (show srcPtr vm = _ from srcWord_apply vm)]
          cases hhead : headRead vm (vm.readWordAt vm.src vm.immSrc) with
          | error e => exact trivial
          | ok head =>
              have hacquire := Heap.acquirePointers_of_room (hroom head hhead)
              unfold headSlots typedSlots at hacquire
              rw [hmap, Option.elim_some] at hacquire
              refine Ends.andThen (m := tryHeap _) (ends_tryHeap hacquire trivial) fun _ w => ?_
              exact Ends.andThen (m := modifyHeap _) (Ends.modify trivial) fun _ x => ends_opHeadm x

theorem ends_cowString (id : HeapId) (hroom : 0 < vm.heap.room) :
    Ends (cowString id) (fun _ _ => True) vm := by
  refine Ends.get_bind ?_
  split
  · next refCount typeId trace s hget =>
      split
      · have hstr : vm.heap.StringAt id := fun obj hobj => by
          rw [hget] at hobj
          cases hobj
          exact ⟨s, rfl⟩
        have hleft : 0 < (vm.heap.decRef id).room := by
          rw [Heap.room, (Heap.decRef_string hstr).2.1]
          exact hroom
        refine Ends.bind (m := modifyHeap _) (Q := fun _ v => 0 < v.heap.room)
          (Ends.modify hleft) fun _ v hv => ?_
        exact (ends_allocTyped typeId _ none hv).bind fun _ _ _ => Ends.pure trivial
      · exact Ends.pure trivial
  · exact Ends.throw _

theorem ends_opInsc (hroom : 0 < vm.heap.room) : Ends opInsc (fun _ _ => True) vm := by
  rw [opInsc, ends_bind_ok (srcWord_apply vm), ends_bind_ok (midWord_apply vm),
    ends_bind_ok (dstPtr_apply vm)]
  dsimp only
  split
  · exact (ends_allocTyped 0 _ none hroom).bind fun newId t _ => ends_setDstWord newId t
  · refine (ends_cowString _ hroom).andThen fun found t => ?_
    refine Ends.andThen (m := modifyHeap _) (Ends.modify trivial) fun _ u => ?_
    split
    · exact ends_setDstWord _ u
    · exact Ends.pure trivial

theorem ends_writeThrough (retPtr : Word) (fieldOffset : Nat) (val : Word) :
    Ends (writeThrough retPtr fieldOffset val) (fun _ _ => True) vm := by
  unfold writeThrough
  split
  · split
    · exact Ends.modify trivial
    · exact Ends.modify trivial
    · exact Ends.pure trivial
  · exact Ends.pure trivial

theorem ends_writeRetWords (frameBase fieldOffset : Nat) (words : List Word) :
    Ends (writeRetWords frameBase fieldOffset words) (fun _ _ => True) vm := by
  induction words generalizing fieldOffset vm with
  | nil => exact Ends.pure trivial
  | cons w words ih =>
      refine Ends.andThen ?_ fun _ t => ih (fieldOffset + 4)
      refine Ends.get_bind ((ends_writeThrough _ _ _).andThen fun _ t => ?_)
      split
      · exact Ends.modify trivial
      · exact Ends.pure trivial

theorem ends_sysByte2char (vm : VmState) : Ends sysByte2char (fun _ _ => True) vm := by
  refine Ends.get_bind (Ends.andThen ?_ fun found t => ends_writeRetWords _ _ _)
  refine Ends.get_bind ?_
  dsimp only
  split
  · exact Ends.pure trivial
  · split <;> exact Ends.pure trivial

theorem ends_sysChar2byte (vm : VmState) : Ends sysChar2byte (fun _ _ => True) vm := by
  refine Ends.get_bind (Ends.andThen ?_ fun written t => Ends.modify trivial)
  refine Ends.get_bind ?_
  exact Ends.andThen (m := modifyHeap _) (Ends.modify trivial) fun _ _ => Ends.pure trivial

/-- A scan reads as many bytes as its count, where there is an array to scan. -/
theorem length_scanned (vm : VmState) (count : Nat) :
    (vm.heap.arrayRead (argWord vm 0) 0 count).map List.length =
      (SizedOp.scanStorage vm).map fun _ => count :=
  vm.heap.length_arrayReadLoop _ (argWord vm 0) 0 count

theorem ends_sysUtfbytes (vm : VmState) : Ends sysUtfbytes (fun _ _ => True) vm ↔
    ((SizedOp.scanStorage vm).isSome → (SizedOp.scanCount vm).msb = false) := by
  have hlength := length_scanned vm (SizedOp.scanCount vm).asUsize
  have hlimit : 2 ^ 63 ≤ (SizedOp.scanCount vm).asUsize ↔ ¬ (SizedOp.scanCount vm).msb = false := by
    rw [← asUsize_le_maxAlloc_iff, maxAlloc]
    omega
  have hends : Ends utfbytes (fun _ _ => True) vm ↔
      ((SizedOp.scanStorage vm).isSome → (SizedOp.scanCount vm).msb = false) := by
    rw [utfbytes, ends_bind_ok (get_apply vm), ← SizedOp.scanCount]
    dsimp only
    cases hstorage : SizedOp.scanStorage vm with
    | none =>
        rw [hstorage, Option.map_none, Option.map_eq_none_iff] at hlength
        rw [hlength]
        exact ⟨fun _ h => absurd h Bool.false_ne_true, fun _ => Ends.pure trivial⟩
    | some size =>
        rw [hstorage, Option.map_some, Option.map_eq_some_iff] at hlength
        obtain ⟨data, hdata, -⟩ := hlength
        rw [hdata]
        dsimp only
        by_cases hbig : 2 ^ 63 ≤ (SizedOp.scanCount vm).asUsize
        · rw [if_pos hbig]
          exact ⟨False.elim, fun h => absurd (h rfl) (hlimit.mp hbig)⟩
        · rw [if_neg hbig]
          refine ⟨fun _ _ => not_not.mp (mt hlimit.mpr hbig), fun _ => ?_⟩
          split <;> exact Ends.pure trivial
  rw [sysUtfbytes, ends_bind_ok (get_apply vm), ← hends]
  exact ⟨Ends.of_bind, fun h => h.andThen fun _ _ => Ends.modify trivial⟩

end

/-! ### Steps -/

/-- A block has no more pointers than bytes. -/
theorem length_typedSlots_le (vm : VmState) : (typedSlots vm).length ≤ typedSize vm := by
  unfold typedSlots VmState.traceMapForType
  cases vm.currentType (midIndex vm) with
  | none => exact Nat.zero_le _
  | some td =>
      rw [Option.map_some, Option.elim_some]
      have hincreasing : ((TraceMap.new td.pointerMap td.size.asUsize).pointerOffsets
          (typedSize vm)).Pairwise (· < ·) :=
        TraceMap.pointerOffsets_increasing (TraceMap.offsets_new_increasing _ _)
          fun _ => TraceMap.fits_of_mem_offsets
      have hnodup := hincreasing.imp Nat.ne_of_lt
      have hsub : (TraceMap.new td.pointerMap td.size.asUsize).pointerOffsets (typedSize vm) ⊆
          List.range (typedSize vm) := fun offset hoffset => by
        obtain ⟨-, -, -, -, -, -, hfits⟩ := TraceMap.mem_pointerOffsets.mp hoffset
        exact List.mem_range.mpr (by omega)
      have hlength := (List.subperm_of_subset hnodup hsub).length_le
      rwa [List.length_range] at hlength

namespace SizedOp

theorem steps_insc_le_iff (vm : VmState) :
    insc.steps vm ≤ insc.extent vm ↔ ∀ s, inscText vm = some s → midIndex vm ≤ s.length := by
  unfold steps extent
  cases inscText vm with
  | none => exact ⟨fun _ => nofun, fun _ => Nat.le_refl _⟩
  | some s =>
      simp only [Option.map_some, Option.getD_some, Option.some.injEq, forall_eq']
      omega

theorem steps_utfbytes_le_iff (vm : VmState) : utfbytes.steps vm ≤ utfbytes.extent vm ↔
    ∀ size, scanStorage vm = some size → (scanCount vm).asUsize ≤ size := by
  unfold steps extent
  rw [length_scanned]
  cases scanStorage vm with
  | none => exact ⟨fun _ => nofun, fun _ => Nat.le_refl _⟩
  | some size =>
      simp only [Option.map_some, Option.getD_some, Option.some.injEq, forall_eq']

/-- Where no count overflows an operation is safe exactly when its size is in range: the list instructions refuse the sizes
that are not, the block moves and `utfbytes` do not, and `insc` takes every index. -/
theorem safe_iff_inRange (op : SizedOp) (vm : VmState)
    (hroom : op.allocates → 0 < vm.heap.room) (hcounts : op.CountsFit vm) : op.Safe vm ↔ op.InRange vm := by
  have hsafe : op.Safe vm ↔ Ends op.run (fun _ _ => True) vm ∧ op.steps vm ≤ op.extent vm :=
    ⟨fun h => ⟨h.ends, h.bounded⟩, fun h => ⟨h.1, h.2⟩⟩
  rw [hsafe]
  cases op with
  | movm => exact ⟨fun h => (ends_opMovm vm).mp h.1, fun h => ⟨(ends_opMovm vm).mpr h, Nat.le_refl _⟩⟩
  | movmp =>
      exact ⟨fun h => (ends_opMovmp hcounts).mp h.1,
        fun h => ⟨(ends_opMovmp hcounts).mpr h, length_typedSlots_le vm⟩⟩
  | consm => exact ⟨fun _ => trivial, fun _ => ⟨ends_opConsm (hroom trivial) hcounts, Nat.le_refl _⟩⟩
  | consmp =>
      exact ⟨fun _ => trivial, fun _ =>
        ⟨ends_opConsmp (hroom trivial) hcounts, length_typedSlots_le vm⟩⟩
  | headm => exact ⟨fun _ => trivial, fun _ => ⟨ends_opHeadm vm, Nat.le_refl _⟩⟩
  | headmp =>
      exact ⟨fun h => (ends_opHeadmp hcounts).mp h.1,
        fun h => ⟨(ends_opHeadmp hcounts).mpr h, length_typedSlots_le vm⟩⟩
  | insc =>
      exact ⟨fun h => (steps_insc_le_iff vm).mp h.2,
        fun h => ⟨ends_opInsc (hroom trivial), (steps_insc_le_iff vm).mpr h⟩⟩
  | byte2char =>
      refine ⟨fun _ => trivial, fun _ => ⟨ends_sysByte2char vm, ?_⟩⟩
      dsimp only [steps, extent]
      omega
  | char2byte =>
      refine ⟨fun _ => trivial, fun _ => ⟨ends_sysChar2byte vm, ?_⟩⟩
      dsimp only [steps, extent]
      rw [Utf8.length_encode]
      exact Char.utf8Size_le_four _
  | utfbytes =>
      have hmsb : (scanCount vm).msb = false → (scanCount vm).asUsize = (scanCount vm).toNat :=
        Word.asUsize_of_msb_false
      constructor
      · rintro ⟨hends, hsteps⟩ size hsize
        have hsign := (ends_sysUtfbytes vm).mp hends (by rw [hsize]; rfl)
        have hle := (steps_utfbytes_le_iff vm).mp hsteps size hsize
        exact ⟨hsign, by rwa [hmsb hsign] at hle⟩
      · intro h
        refine ⟨(ends_sysUtfbytes vm).mpr fun hsome => ?_,
          (steps_utfbytes_le_iff vm).mpr fun size hsize => ?_⟩
        · obtain ⟨size, hsize⟩ := Option.isSome_iff_exists.mp hsome
          exact (h size hsize).1
        · rw [hmsb (h size hsize).1]
          exact (h size hsize).2

/-- A list cell for a block of one byte. -/
theorem consm_safe : ∃ vm : VmState, consm.Safe vm := by
  obtain ⟨vm, -, -, hroom, htail⟩ := exists_run []
    (fun vm => { vm with mid := .immediate, immMid := 1 }) (pure ())
    (fun vm _ => 0 < vm.heap.room ∧ vm.heap.refs (vm.readWordAt vm.dst vm.immDst) < Heap.maxRefs)
    (by decide +kernel)
  have hcounts : ConsRoom vm [] := Heap.refsLeft_cons.mpr ⟨htail, fun i _ => Heap.refs_le _ i⟩
  exact ⟨vm, (safe_iff_inRange consm vm (fun _ => hroom) hcounts).mpr trivial⟩

/-- A move of minus one byte panics, and so does a scan of as many. An index past the end of a
string is filled up to. -/
theorem sizes_unchecked :
    (∃ vm : VmState, (vm.readWordAt vm.mid vm.immMid).toInt = -1 ∧ opMovm vm = .panic) ∧
    (∃ vm : VmState, scanStorage vm = some 2 ∧ (scanCount vm).toInt = -1 ∧
      sysUtfbytes vm = .panic) ∧
    ∃ vm : VmState, inscText vm = some "ab" ∧ midIndex vm = 1000000 ∧ insc.extent vm = 3 ∧
      insc.steps vm = 1000001 := by
  have htoInt : (-1 : Word).toInt = -1 := by decide
  have hhuge : ¬ (-1 : Word).asUsize ≤ maxAlloc := by decide +kernel
  refine ⟨?_, ?_, ?_⟩
  · obtain ⟨vm, -, -, hmid⟩ := exists_run []
      (fun vm => { vm with mid := .immediate, immMid := -1 }) (pure ())
      (fun vm _ => vm.readWordAt vm.mid vm.immMid = -1) (by decide +kernel)
    have hpos : (-1 : Word).asUsize ≠ 0 := by decide +kernel
    refine ⟨vm, by rw [hmid]; exact htoInt, ?_⟩
    rw [opMovm, bind_ok (midWord_apply vm), hmid, if_neg hpos, zeroed, if_neg hhuge]
    rfl
  · obtain ⟨vm, -, -, hstorage, hcount⟩ := exists_run [⟨1, 0, none, .array 0 1 [104, 105] 2⟩]
      (calling [0x10000000, -1]) (pure ())
      (fun vm _ => scanStorage vm = some 2 ∧ scanCount vm = -1) (by decide +kernel)
    refine ⟨vm, hstorage, by rw [hcount]; exact htoInt, ?_⟩
    have hlength := length_scanned vm (-1 : Word).asUsize
    rw [hstorage, Option.map_some, Option.map_eq_some_iff] at hlength
    obtain ⟨data, hdata, -⟩ := hlength
    have hbig : 2 ^ 63 ≤ (-1 : Word).asUsize := by decide +kernel
    rw [sysUtfbytes, bind_ok (get_apply vm), bind_apply, Ops.utfbytes, bind_ok (get_apply vm),
      ← scanCount, hcount, hdata]
    dsimp only
    rw [if_pos hbig]
    rfl
  · obtain ⟨vm, -, -, htext, hmid⟩ := exists_run [⟨1, 0, none, .str "ab"⟩]
      (fun vm => { vm with
        mp := [0, 0, 0, 16], dst := .mp 0, mid := .immediate, immMid := 1000000 }) (pure ())
      (fun vm _ => inscText vm = some "ab" ∧ midIndex vm = 1000000) (by decide +kernel)
    refine ⟨vm, htext, hmid, ?_, ?_⟩
    · rw [extent, htext]
      rfl
    · rw [steps, htext, hmid]
      rfl

end SizedOp

end RiceVM
