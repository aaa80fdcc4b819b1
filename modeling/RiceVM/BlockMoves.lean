import RiceVM.Locations
import RiceVM.Ops.Strings

/-!
What a block move does where its ranges lie inside their buffers: the references of the words
that come and go, and the bytes of the destination.
-/
namespace RiceVM
open Exec Memory Buffer Ops

/-- The objects that the pointers of a block name. -/
def blockRefs (h : Heap) (block : List Byte) (offsets : List Nat) : List HeapId :=
  (offsets.map (readWord block)).filter fun id => heapIdBase ≤ id ∧ h.contains id

namespace Heap

theorem contains_eq (h : Heap) (id : HeapId) : h.contains id = (h.get id).isSome := by
  unfold contains get
  split
  · next hnil => rw [decide_eq_false (not_not.mpr hnil), Bool.false_and, Option.isSome_none]
  · next hne => rw [decide_eq_true hne, Bool.true_and]

theorem addRef_of_none {h : Heap} {id : HeapId} (hid : h.get id = none) : h.addRef id = h := by
  rw [addRef]
  split
  · rfl
  · next hne =>
      rw [get, if_neg hne] at hid
      unfold update
      split
      · rfl
      · next hl =>
          rw [hl] at hid
          cases hid

theorem decRef_of_none {h : Heap} {id : HeapId} (hid : h.get id = none) : h.decRef id = h := by
  rw [decRef]
  split
  · rfl
  · next hne =>
      rw [get, if_neg hne] at hid
      rw [decRefLoop, hid]
      exact decRefLoop_nil _ _

theorem nextId_addRefs (h : Heap) (ids : List HeapId) :
    (ids.foldl addRef h).nextId = h.nextId := by
  induction ids generalizing h with
  | nil => rfl
  | cons id ids ih => rw [List.foldl_cons, ih, nextId_addRef]

theorem heapSliceLoop_congr {h h' : Heap}
    (hsame : ∀ i, (h'.get i).map HeapObject.data = (h.get i).map HeapObject.data) (fuel : Nat)
    (id : HeapId) (offset len : Nat) :
    h'.heapSliceLoop fuel id offset len = h.heapSliceLoop fuel id offset len := by
  induction fuel generalizing id offset with
  | zero => rfl
  | succ fuel ih =>
      have hid := hsame id
      simp only [heapSliceLoop]
      cases hold : h.get id with
      | none =>
          rw [hold, Option.map_none, Option.map_eq_none_iff] at hid
          rw [hid]
      | some obj =>
          rw [hold, Option.map_some] at hid
          obtain ⟨obj', hobj', hdata⟩ := Option.map_eq_some_iff.mp hid
          rw [hobj']
          simp only [hdata, ih]

/-- References taken leave what the objects hold. -/
theorem heapSlice_addRefs (h : Heap) (ids : List HeapId) (id : HeapId) (offset len : Nat) :
    (ids.foldl addRef h).heapSlice id offset len = h.heapSlice id offset len := by
  have hlength : (ids.foldl addRef h).objects.entries.length = h.objects.entries.length := by
    induction ids generalizing h with
    | nil => rfl
    | cons id ids ih =>
        rw [List.foldl_cons, ih, addRef]
        split
        · rfl
        · exact length_update _ _ _
  unfold heapSlice
  rw [hlength]
  refine heapSliceLoop_congr (fun i => ?_) _ id offset len
  rw [get_addRefs, Option.map_map]
  rfl

theorem blockRefs_cons (h : Heap) (block : List Byte) (offset : Nat) (offsets : List Nat) :
    blockRefs h block (offset :: offsets) =
      if heapIdBase ≤ readWord block offset ∧ h.contains (readWord block offset) then
        readWord block offset :: blockRefs h block offsets
      else blockRefs h block offsets := by
  rw [blockRefs, List.map_cons, List.filter_cons, ← blockRefs]
  simp only [decide_eq_true_eq]

/-- References are taken to what is there, and taking them adds nothing to that. -/
theorem acquirePointers_eq {h h₀ : Heap} (hsame : ∀ i, (h.get i).isSome = (h₀.get i).isSome)
    (block : List Byte) (offsets : List Nat) :
    acquirePointers block offsets h = (blockRefs h₀ block offsets).foldlM incRef h := by
  induction offsets generalizing h with
  | nil => rfl
  | cons offset offsets ih =>
      have hstep : acquirePointers block (offset :: offsets) h =
          (if heapIdBase ≤ readWord block offset ∧ h.contains (readWord block offset) then
            h.incRef (readWord block offset) else some h) >>= acquirePointers block offsets := rfl
      rw [hstep, blockRefs_cons, contains_eq, contains_eq, hsame]
      split
      · rw [List.foldlM_cons]
        cases hinc : h.incRef (readWord block offset) with
        | none => rfl
        | some h' =>
            refine ih fun i => ?_
            rw [(incRef_eq_some.mp hinc).2, isSome_addRef, hsame]
      · exact ih hsame

theorem acquirePointers_of_room {h : Heap} {block : List Byte} {offsets : List Nat}
    (hroom : h.RefsLeft (blockRefs h block offsets)) :
    acquirePointers block offsets h = some ((blockRefs h block offsets).foldl addRef h) := by
  rw [acquirePointers_eq fun _ => rfl]
  exact foldlM_incRef.mpr ⟨hroom, rfl⟩

/-- What a release frees is not there to be released again. -/
theorem releasePointers_eq {h h₀ : Heap} (hsub : ∀ i, (h.get i).isSome → (h₀.get i).isSome)
    (block : List Byte) (offsets : List Nat) :
    releasePointers block offsets h = (blockRefs h₀ block offsets).foldl decRef h := by
  induction offsets generalizing h with
  | nil => rfl
  | cons offset offsets ih =>
      rw [releasePointers, List.foldl_cons, ← releasePointers, blockRefs_cons]
      dsimp only
      generalize readWord block offset = id
      by_cases hthere : heapIdBase ≤ id ∧ h₀.contains id = true
      · rw [if_pos hthere, List.foldl_cons]
        by_cases hstill : h.contains id = true
        · rw [if_pos ⟨hthere.1, hstill⟩]
          refine ih fun i hi => hsub i ?_
          obtain ⟨obj, hobj⟩ := Option.isSome_iff_exists.mp hi
          obtain ⟨old, hold, -⟩ := data_decRef hobj
          rw [hold]
          rfl
        · rw [if_neg fun both => hstill both.2]
          rw [contains_eq, Option.not_isSome_iff_eq_none] at hstill
          rw [decRef_of_none hstill]
          exact ih hsub
      · rw [if_neg hthere, if_neg]
        · exact ih hsub
        · intro both
          rw [contains_eq] at hthere both
          exact hthere ⟨both.1, hsub id both.2⟩

end Heap

theorem blockRefs_live {h : Heap} {block : List Byte} {offsets : List Nat} {id : HeapId}
    (hid : id ∈ blockRefs h block offsets) : id ≠ nil ∧ (h.get id).isSome := by
  have hthere := (of_decide_eq_true (List.mem_filter.mp hid).2).2
  rw [Heap.contains_eq] at hthere
  refine ⟨?_, hthere⟩
  rintro rfl
  rw [Heap.get, if_pos rfl] at hthere
  cases hthere

/-- The heap after the pointers of one block were acquired and those of another released. -/
def recountedHeap (h : Heap) (block before : List Byte) (offsets : List Nat) : Heap :=
  releasePointers before offsets ((blockRefs h block offsets).foldl Heap.addRef h)

theorem recounted_blocks {h : Heap} {block : List Byte} {offsets : List Nat}
    (hroom : h.RefsLeft (blockRefs h block offsets)) (before : List Byte) :
    Recounted h (recountedHeap h block before offsets) (blockRefs h block offsets)
      (blockRefs h before offsets) := by
  rw [recountedHeap, @Heap.releasePointers_eq _ h]
  · exact recounted hroom fun id hid => blockRefs_live hid
  · intro i hi
    rwa [Heap.get_addRefs, Option.isSome_map] at hi

/-- What stays after counts changed holds what it held. -/
theorem Recounted.data {h h' : Heap} {acquired given : List HeapId}
    (hr : Recounted h h' acquired given) {i : HeapId} {old obj : HeapObject}
    (hold : h.get i = some old) (hobj : h'.get i = some obj) : obj.data = old.data := by
  obtain ⟨released, -, hget⟩ := hr.exact
  rw [hget, hold, Option.map_some, Option.bind_some] at hobj
  unfold HeapObject.release at hobj
  split at hobj
  · cases hobj
  · cases hobj
    rfl

/-! Stores and the counts. -/

theorem Heap.get_refCount_heapWrite (h : Heap) (id : HeapId) (offset : Nat) (bytes : List Byte)
    (i : HeapId) : ((h.heapWrite id offset bytes).get i).map (·.refCount) =
      (h.get i).map (·.refCount) := by
  have hrefs := (Heap.shaped_heapWrite h id offset bytes i).2
  have hview := (Heap.sameRefs_heapWrite h id offset bytes).view i
  have hsome := congrArg Option.isSome hview
  rw [Heap.isSome_view, Heap.isSome_view] at hsome
  unfold Heap.refs at hrefs
  cases hnew : (h.heapWrite id offset bytes).get i with
  | none =>
      rw [hnew] at hsome
      cases hold : h.get i with
      | none => rfl
      | some obj =>
          rw [hold] at hsome
          cases hsome
  | some obj =>
      rw [hnew] at hsome hrefs
      cases hold : h.get i with
      | none =>
          rw [hold] at hsome
          cases hsome
      | some old =>
          rw [hold] at hrefs
          exact congrArg some (BitVec.eq_of_toNat_eq hrefs)

theorem Heap.owned_heapWrite (h : Heap) (id : HeapId) (offset : Nat) (bytes : List Byte) :
    (h.heapWrite id offset bytes).owned = h.owned := by
  unfold Heap.heapWrite
  generalize h.objects.entries.length + 1 = fuel
  induction fuel generalizing id offset with
  | zero => rfl
  | succ fuel ih =>
      simp only [Heap.heapWriteLoop]
      split
      · rfl
      split
      · exact ih _ _
      iterate 3
        split
        · exact Heap.owned_update fun _ _ => HeapData.childRefs_setBuffer _ _
        · rfl
      · rfl

section
variable (target : AddrTarget) (block : List Byte) (vm : VmState)

theorem refCount_writeBlock (i : HeapId) :
    ((writeBlock target block vm).heap.get i).map (·.refCount) =
      (vm.heap.get i).map (·.refCount) := by
  cases target with
  | heapArray id offset => exact Heap.get_refCount_heapWrite vm.heap id offset block i
  | frame | mp | moduleMp | immediate | none => rw [writeBlock, heap_modifyBuffer] <;> nofun

theorem owned_writeBlock : (writeBlock target block vm).heap.owned = vm.heap.owned := by
  cases target with
  | heapArray id offset => exact Heap.owned_heapWrite vm.heap id offset block
  | frame | mp | moduleMp | immediate | none => rw [writeBlock, heap_modifyBuffer] <;> nofun

end

/-- Where counts agree the same objects are there. -/
theorem isSome_of_refCount {h h' : Heap} {i : HeapId}
    (hcounts : (h'.get i).map (·.refCount) = (h.get i).map (·.refCount)) :
    (h'.get i).isSome = (h.get i).isSome := by
  have hsome := congrArg Option.isSome hcounts
  rwa [Option.isSome_map, Option.isSome_map] at hsome

/-! The operands of the typed moves. -/

/-- The middle operand: a number of bytes or the index of a type. -/
def midIndex (vm : VmState) : Nat := (vm.readWordAt vm.mid vm.immMid).asUsize

/-- The size of a typed block. -/
def typedSize (vm : VmState) : Nat := blockSize vm (midIndex vm)

/-- Where a typed block has its pointers. -/
def typedSlots (vm : VmState) : List Nat :=
  (vm.traceMapForType (midIndex vm)).elim [] (·.pointerOffsets (typedSize vm))

section
variable {vm : VmState}

theorem written_nil (target : AddrTarget) : vm.Written vm target [] := by
  constructor
  · simp only [splice_nil]
    cases target with
    | moduleMp moduleIdx offset =>
        simp only [VmState.modifyBuffer, VmState.modifyModuleMp]
        have hkeep : ∀ {α : Type} (f : α → α) (xs : List α) i, (∀ x, f x = x) →
            xs.modify i f = xs := fun f xs i hf => by
          rw [show f = id from funext hf, List.modify_id]
        split
        · rfl
        split
        · rw [hkeep _ _ _ fun _ => rfl]
        · split
          · rfl
          · rw [hkeep _ _ _ fun _ => rfl]
    | frame | mp | immediate | none | heapArray => rfl
  · intro i old obj hold hobj
    rw [hold] at hobj
    cases hobj
    cases target with
    | heapArray id offset =>
        simp only [VmState.storedAt, Heap.storedData, splice_nil]
        split
        · cases hdata : old.data <;> rfl
        · rfl
    | frame | mp | moduleMp | immediate | none => rfl

/-- An untyped move inside its buffers. -/
theorem opMovm_inside (hdst : vm.Holds vm.dst (midIndex vm)) :
    ∃ vm', opMovm vm = .ok () vm' ∧
      vm.Written vm' vm.dst (readBlock vm vm.src (midIndex vm)) ∧
      ∀ i, (vm'.heap.get i).map (·.refCount) = (vm.heap.get i).map (·.refCount) := by
  have hlength := vm.length_readBlock vm.src (midIndex vm)
  unfold opMovm
  rw [bind_ok (midWord_apply vm)]
  change ∃ vm', (if midIndex vm = 0 then pure () else _ : VM Unit) vm = _ ∧ _
  split
  · next hzero =>
      refine ⟨vm, rfl, ?_, fun _ => rfl⟩
      rw [List.eq_nil_of_length_eq_zero (hlength.trans hzero)]
      exact written_nil vm.dst
  · have hzeroed : zeroed (midIndex vm) = some (List.replicate (midIndex vm) 0) := if_pos hdst.1
    rw [← midIndex, hzeroed, bind_ok (unwrap_some _ _)]
    rw [← hlength] at hdst
    exact ⟨_, rfl, (VmState.writeBlock_written hdst).1, refCount_writeBlock vm.dst _ vm⟩

/-- The heap after the pointers of a typed move were counted. -/
def movedHeap (vm : VmState) : Heap :=
  recountedHeap vm.heap (readBlock vm vm.src (typedSize vm)) (readBlock vm vm.dst (typedSize vm))
    (typedSlots vm)

/-- No count overflows when the pointers of a typed block are copied. -/
def RefsRoom (vm : VmState) (block : List Byte) : Prop :=
  vm.heap.RefsLeft (blockRefs vm.heap block (typedSlots vm))

theorem opMovmp_apply (hsize : typedSize vm ≤ maxAlloc)
    (hroom : RefsRoom vm (readBlock vm vm.src (typedSize vm))) :
    opMovmp vm = .ok () (if typedSize vm = 0 then vm else
      writeBlock vm.dst (readBlock vm vm.src (typedSize vm)) { vm with heap := movedHeap vm }) := by
  have hzeroed : zeroed (typedSize vm) = some (List.replicate (typedSize vm) 0) := if_pos hsize
  have hacquire := Heap.acquirePointers_of_room hroom
  unfold opMovmp
  rw [bind_ok (midWord_apply vm), bind_ok (get_apply vm), ← midIndex, ← typedSize]
  split
  · rfl
  · rw [hzeroed, bind_ok (unwrap_some _ _)]
    unfold movedHeap recountedHeap
    unfold typedSlots at hacquire ⊢
    cases hmap : vm.traceMapForType (midIndex vm) with
    | none => rfl
    | some ptrMap =>
        rw [hmap, Option.elim_some] at hacquire
        dsimp only
        rw [bind_ok (tryHeap_apply hacquire)]
        rfl

/-- No pointer lies in an empty block. -/
theorem blockRefs_nil (h : Heap) (offsets : List Nat) : blockRefs h [] offsets = [] := by
  refine List.filter_eq_nil_iff.mpr fun id hid => ?_
  obtain ⟨offset, -, rfl⟩ := List.mem_map.mp hid
  have hzero : readWord [] offset = 0 := if_neg (by rw [List.length_nil]; omega)
  have hlow : ¬ heapIdBase ≤ (0 : HeapId) := by decide
  rw [hzero, decide_eq_false fun both => hlow both.1]
  exact Bool.false_ne_true

/-- A typed move inside its buffers; the objects its destination is in are to stay. -/
theorem opMovmp_inside (hdst : vm.Holds vm.dst (typedSize vm))
    (hroom : RefsRoom vm (readBlock vm vm.src (typedSize vm))) :
    ∃ vm', opMovmp vm = .ok () vm' ∧ (vm.StaysIn vm'.heap vm.dst →
      vm.Written vm' vm.dst (readBlock vm vm.src (typedSize vm))) := by
  have hlength := vm.length_readBlock vm.src (typedSize vm)
  refine ⟨_, opMovmp_apply hdst.1 hroom, fun hstay => ?_⟩
  by_cases hzero : typedSize vm = 0
  · rw [if_pos hzero, List.eq_nil_of_length_eq_zero (hlength.trans hzero)]
    exact written_nil vm.dst
  · rw [if_neg hzero] at hstay ⊢
    rw [← hlength] at hdst
    have hcounts := refCount_writeBlock vm.dst (readBlock vm vm.src (typedSize vm))
      { vm with heap := movedHeap vm }
    refine (VmState.writeBlock_of_heap ?_ ?_ hdst).1
    · intro i old obj hold hobj
      exact (recounted_blocks hroom _).data hold hobj
    · intro id offset heq
      obtain ⟨hid, hroot⟩ := hstay id offset heq
      rw [isSome_of_refCount (hcounts _)] at hid hroot
      exact ⟨hid, hroot⟩

/-! Lists. -/

/-- Inside its buffer the head of a list is read as it is there. -/
theorem readConsHead_inside {size : Nat} (h : vm.Holds vm.src size) :
    readConsHead vm size = .ok (vm.bytesAt vm.src size) := by
  have hread := VmState.readBlock_eq h
  obtain ⟨-, hinside⟩ := h
  unfold readConsHead
  dsimp only
  cases hsrc : vm.src with
  | heapArray id offset =>
      rw [hsrc] at hread
      rw [← hread]
      rfl
  | frame off | mp off =>
      rw [hsrc] at hinside
      obtain ⟨buf, off', hbuf, hin⟩ := hinside
      cases hbuf
      exact if_pos hin
  | moduleMp moduleIdx offset =>
      rw [hsrc] at hinside
      obtain ⟨buf, off', hbuf, hin⟩ := hinside
      obtain ⟨mp, hmp, hpair⟩ := Option.map_eq_some_iff.mp hbuf
      cases hpair
      simp only [hmp, VmState.bytesAt, VmState.buffer?, Option.map_some, Option.getD_some]
      exact if_pos hin
  | immediate | none =>
      rw [hsrc] at hinside
      obtain ⟨_, _, hbuf, -⟩ := hinside
      cases hbuf

/-- A word is read the same wherever the objects it is in hold what they held. -/
theorem readWordAt_of_heap {target : AddrTarget} {h : Heap} (imm : Word)
    (hsame : ∀ i old obj, vm.heap.get i = some old → h.get i = some obj → obj.data = old.data)
    (hstay : vm.StaysIn h target) (hh : vm.Holds target 4) :
    { vm with heap := h }.readWordAt target imm = vm.readWordAt target imm := by
  cases target with
  | heapArray id offset =>
      obtain ⟨hid, hroot⟩ := hstay id offset rfl
      obtain ⟨hreach, hrange⟩ := Heap.HoldsRange.of_data hh.2 hsame hid hroot
      obtain ⟨old, data, hold, hdata, -, hslice⟩ := Heap.HoldsRange.heapSlice hh.2
      obtain ⟨obj, data', hobj, hdata', -, hslice'⟩ := hrange.heapSlice
      rw [hreach] at hobj hslice'
      rw [hsame _ old obj hold hobj, hdata] at hdata'
      cases hdata'
      simp only [VmState.readWordAt, VmState.readAt, hslice, hslice']
  | frame | mp | moduleMp | immediate | none => rfl

theorem writeWordAt_inside {target : AddrTarget} (hh : vm.Holds target 4) (w : Word) :
    writeWordAt target w vm = .ok () (writeBlock target (leBytes 4 w.toNat) vm) := by
  have hlength : (leBytes 4 w.toNat).length = 4 := length_leBytes 4 _
  have hword : ∀ (buf : List Byte) off, off + 4 ≤ buf.length →
      writeWord buf off w = splice buf off (leBytes 4 w.toNat) := fun _ _ hin => if_pos hin
  cases htarget : target with
  | heapArray id offset =>
      have hzeros : writeWord (List.replicate 4 0) 0 w = leBytes 4 w.toNat := by
        rw [hword _ _ (Nat.le_refl 4), splice, hlength]
        exact List.append_nil _
      simp only [writeWordAt, writeAt, hzeros]
      rfl
  | immediate | none =>
      rw [htarget] at hh
      obtain ⟨-, _, _, hbuf, -⟩ := hh
      cases hbuf
  | frame | mp | moduleMp =>
      have hoff : target.OffHeap := fun id offset heq => by
        rw [htarget] at heq
        cases heq
      obtain ⟨-, hinside⟩ := hh
      rw [htarget] at hinside
      obtain ⟨buf, off, hbuf, hin⟩ := hinside
      have hsame : vm.modifyBuffer target (fun buf off => writeWord buf off w) =
          writeBlock target (leBytes 4 w.toNat) vm := by
        rw [← htarget] at hbuf
        rw [VmState.writeBlock_buffer hoff hbuf (by rw [hlength]; exact hin)]
        refine VmState.modifyBuffer_congr fun buf' off' hbuf' => ?_
        rw [hbuf] at hbuf'
        cases hbuf'
        exact hword _ _ hin
      rw [htarget] at hsame
      rw [← hsame]
      rfl

/-- A new list: its head and its tail, the pointer to it, and the counts of the others, where
references to `acquired` were taken. -/
structure Consed (vm vm' : VmState) (head : List Byte) (acquired : List HeapId) : Prop where
  made : ∃ obj, vm'.heap.get vm.heap.nextId = some obj ∧ obj.refCount = 1 ∧
    obj.data = .list head (vm.readWordAt vm.dst vm.immDst)
  written : vm.Written vm' vm.dst (leBytes 4 vm.heap.nextId.toNat)
  counts : ∀ i, i ≠ vm.heap.nextId → (vm'.heap.get i).map (·.refCount.toNat) =
    (vm.heap.get i).map (·.refCount.toNat + acquired.count i)

/-- Where every object stays, those of a location do. -/
theorem staysIn_of_holds {target : AddrTarget} {size : Nat} (hh : vm.Holds target size) {h : Heap}
    (hstay : ∀ i, (vm.heap.get i).isSome → (h.get i).isSome) : vm.StaysIn h target := by
  rintro id offset rfl
  obtain ⟨-, hinside⟩ := hh
  refine ⟨hstay id hinside.isSome, hstay _ ?_⟩
  obtain ⟨obj, _, hget, -⟩ := hinside
  rw [hget]
  rfl

theorem get_nextId (h : Heap) : h.get h.nextId = none := Heap.get_of_nextId_le (BitVec.le_refl _)

/-- The reference that was taken to the tail is given back for the one in the destination. -/
theorem Consed.of_released {vm' : VmState} {head : List Byte} {tail : HeapId}
    (htail : vm.readWordAt vm.dst vm.immDst = tail) (hpos : tail = nil ∨ 0 < vm.heap.refs tail)
    (hroom : vm.heap.refs tail < Heap.maxRefs)
    (hlist : ∃ obj, vm'.heap.get vm.heap.nextId = some obj ∧ obj.refCount = 1 ∧
      obj.data = .list head tail)
    (hw : vm.Written vm' vm.dst (leBytes 4 vm.heap.nextId.toNat))
    (hcounts : ∀ i, i ≠ vm.heap.nextId → (vm'.heap.get i).map (·.refCount) =
      ((vm.heap.addRef tail).get i).map (·.refCount)) :
    Consed vm { vm' with heap := vm'.heap.decRef tail } head [] := by
  have hinc := Heap.get_addRef vm.heap tail
  have hkept : ∀ i, i ≠ vm.heap.nextId → i ≠ tail →
      (vm'.heap.get i).map (·.refCount.toNat) = (vm.heap.get i).map (·.refCount.toNat) := by
    intro i hi hother
    have hsame := congrArg (Option.map BitVec.toNat) (hcounts i hi)
    rw [hinc, if_neg hother, Option.map_map, Option.map_map] at hsame
    exact hsame
  rcases hpos with hnil | hpos
  · have hkeep : vm'.heap.decRef tail = vm'.heap := by
      rw [hnil]
      rfl
    rw [hkeep]
    refine ⟨htail ▸ hlist, hw, fun i hne => ?_⟩
    by_cases heq : i = tail
    · rw [heq, hnil, Heap.get, Heap.get, if_pos rfl]
      rfl
    · exact hkept i hne heq
  obtain ⟨old, hold⟩ : ∃ old, vm.heap.get tail = some old := by
    unfold Heap.refs at hpos
    cases hget : vm.heap.get tail with
    | none =>
        rw [hget] at hpos
        cases hpos
    | some old => exact ⟨old, rfl⟩
  rw [Heap.refs, hold, Option.elim_some] at hpos hroom
  have hne : tail ≠ vm.heap.nextId := by
    rintro rfl
    rw [get_nextId] at hold
    cases hold
  have hmore := hcounts tail hne
  rw [hinc, if_pos rfl, hold, Option.map_some, Option.map_some] at hmore
  obtain ⟨obj, hobj, hcount⟩ := Option.map_eq_some_iff.mp hmore
  have htaken : obj.refCount.toNat = old.refCount.toNat + 1 := by
    rw [Heap.maxRefs] at hroom
    rw [hcount, HeapObject.refCount_take (by omega)]
  rw [Heap.decRef_of_keep hobj (by omega)]
  refine ⟨?_, hw.recount fun i obj hget => ?_, fun i hi => ?_⟩
  · obtain ⟨list, hget, hone, hdata⟩ := hlist
    refine ⟨list, ?_, hone, htail ▸ hdata⟩
    change (vm'.heap.update _ _).get _ = _
    rw [Heap.get_update, if_neg (Ne.symm hne), hget]
  · rw [Heap.get_update] at hget
    split at hget
    · obtain ⟨obj', hobj', rfl⟩ := Option.map_eq_some_iff.mp hget
      exact ⟨obj', hobj', rfl⟩
    · exact ⟨obj, hget, rfl⟩
  · change ((vm'.heap.update _ _).get i).map _ = _
    rw [Heap.get_update]
    split
    · next heq =>
        rw [heq, hobj, hold, Option.map_some, Option.map_some, Option.map_some,
          HeapObject.refCount_drop, htaken]
        rfl
    · next hother => exact hkept i hi hother

theorem consBytes_inside {size : Nat} {head : List Byte} (hhead : readConsHead vm size = .ok head)
    (hdst : vm.Holds vm.dst 4) (htail : vm.readWordAt vm.dst vm.immDst = nil ∨
      0 < vm.heap.refs (vm.readWordAt vm.dst vm.immDst))
    (hroom : vm.heap.refs (vm.readWordAt vm.dst vm.immDst) < Heap.maxRefs)
    (hid : vm.heap.nextId < vm.heap.nextId + 1) :
    ∃ vm', consBytes size vm = .ok () vm' ∧ Consed vm vm' head [] := by
  generalize htailId : vm.readWordAt vm.dst vm.immDst = tail at htail hroom
  have hinc := Heap.get_addRefs vm.heap [tail]
  rw [List.foldl_cons, List.foldl_nil] at hinc
  -- the allocation
  obtain ⟨h₂, halloc⟩ : ∃ h₂, (vm.heap.addRef tail).alloc 0 (.list head tail) none =
      some (vm.heap.nextId, h₂) := by
    unfold Heap.alloc
    rw [dif_pos (by rw [Heap.nextId_addRef]; exact hid)]
    simp only [Heap.nextId_addRef]
    exact ⟨_, rfl⟩
  have hget₂ := (Heap.alloc_cases halloc).2.2
  have hsame : ∀ i old obj, vm.heap.get i = some old → h₂.get i = some obj →
      obj.data = old.data := by
    intro i old obj hold hobj
    have hne : i ≠ vm.heap.nextId := by
      rintro rfl
      rw [get_nextId] at hold
      cases hold
    rw [hget₂, if_neg hne, hinc, hold] at hobj
    cases hobj
    rfl
  have hstay : vm.StaysIn h₂ vm.dst := staysIn_of_holds hdst fun i hi => by
    rw [hget₂]
    split
    · rfl
    · rwa [hinc, Option.isSome_map]
  -- the store
  have hdst₂ := (VmState.holds_of_heap hsame hstay hdst).1
  have hread := (readWordAt_of_heap vm.immDst hsame hstay hdst).trans htailId
  have hset := writeWordAt_inside hdst₂ vm.heap.nextId
  have hlength : (leBytes 4 vm.heap.nextId.toNat).length = 4 := length_leBytes 4 _
  rw [← hlength] at hdst hdst₂
  obtain ⟨hw, hcounts⟩ := VmState.writeBlock_of_heap hsame hstay hdst
  obtain ⟨hw₂, -⟩ := VmState.writeBlock_written hdst₂
  generalize writeBlock vm.dst (leBytes 4 vm.heap.nextId.toNat) { vm with heap := h₂ } = vm₃
    at hset hw hw₂ hcounts
  have hrun : consBytes size vm = .ok () { vm₃ with heap := vm₃.heap.decRef tail } := by
    unfold consBytes
    rw [bind_ok (dstPtr_apply vm), bind_ok (get_apply vm), hhead, bind_ok (ofExcept_ok _ _), htailId]
    unfold alloc allocTyped
    rw [bind_ok (tryHeap_apply (Heap.incRef_eq_some.mpr ⟨hroom, rfl⟩)), bind_ok]
    swap
    · rw [bind_ok (get_apply _), halloc]
      rfl
    rw [bind_ok (dstPtr_apply _)]
    have hstore : setDstPtr vm.heap.nextId { vm with heap := h₂ } = .ok () vm₃ := hset
    rw [bind_ok hstore, hread]
    rfl
  have hlist : ∃ obj, vm₃.heap.get vm.heap.nextId = some obj ∧ obj.refCount = 1 ∧
      obj.data = .list head tail := by
    have hthere := hget₂ vm.heap.nextId
    rw [if_pos rfl] at hthere
    have hcount := hcounts vm.heap.nextId
    rw [hthere, Option.map_some] at hcount
    obtain ⟨obj, hobj, hone⟩ := Option.map_eq_some_iff.mp hcount
    refine ⟨obj, hobj, hone, ?_⟩
    rw [hw₂.objects _ _ obj hthere hobj]
    cases vm.dst with
    | heapArray id offset =>
        simp only [VmState.storedAt, Heap.storedData]
        split <;> rfl
    | frame | mp | moduleMp | immediate | none => rfl
  refine ⟨_, hrun, .of_released htailId htail hroom hlist hw fun i hne => ?_⟩
  rw [hcounts, hget₂, if_neg hne]

/-- References are counted without a change to what the objects hold. -/
theorem data_of_addRefs (h : Heap) (ids : List HeapId) : ∀ i old obj, h.get i = some old →
    (ids.foldl Heap.addRef h).get i = some obj → obj.data = old.data := by
  intro i old obj hold hobj
  rw [Heap.get_addRefs, hold] at hobj
  cases hobj
  rfl

theorem staysIn_addRefs {target : AddrTarget} {size : Nat} (h : vm.Holds target size)
    (ids : List HeapId) : vm.StaysIn (ids.foldl Heap.addRef vm.heap) target :=
  staysIn_of_holds h fun i hi => by rwa [Heap.get_addRefs, Option.isSome_map]

/-- The block a list is made of was counted first. -/
theorem Consed.of_acquired {vm' : VmState} {head : List Byte} {acquired : List HeapId}
    (hdst : vm.Holds vm.dst 4) (hroom : vm.heap.RefsLeft acquired)
    (hc : Consed { vm with heap := acquired.foldl Heap.addRef vm.heap } vm' head []) :
    Consed vm vm' head acquired := by
  have hinc := Heap.get_addRefs vm.heap acquired
  have hsame := data_of_addRefs vm.heap acquired
  have hstay := staysIn_addRefs hdst acquired
  have hstored := (VmState.holds_of_heap hsame hstay hdst).2
  have hread := readWordAt_of_heap vm.immDst hsame hstay hdst
  have hnextId : (acquired.foldl Heap.addRef vm.heap).nextId = vm.heap.nextId :=
    Heap.nextId_addRefs vm.heap acquired
  generalize acquired.foldl Heap.addRef vm.heap = h₁ at *
  obtain ⟨hmade, hwritten, hcounts⟩ := hc
  dsimp only at hmade hcounts hwritten
  rw [hnextId] at hmade hcounts hwritten
  rw [hread] at hmade
  refine ⟨hmade, hwritten.of_heap hsame hstored fun i old obj hold _ => ?_, fun i hne => ?_⟩
  · rw [hinc, hold]
    rfl
  · rw [hcounts i hne, hinc]
    cases hold : vm.heap.get i with
    | none => rfl
    | some old => exact congrArg some (hroom.refCount hold)

/-- A list may be put on nothing or on a list that is counted. -/
def ConsTail (vm : VmState) : Prop :=
  vm.readWordAt vm.dst vm.immDst = nil ∨ 0 < vm.heap.refs (vm.readWordAt vm.dst vm.immDst)

/-- An id is left for a new object. -/
def IdLeft (vm : VmState) : Prop := vm.heap.nextId < vm.heap.nextId + 1

/-- No count overflows when a list with these pointers in its head is put on the tail. -/
def ConsRoom (vm : VmState) (acquired : List HeapId) : Prop :=
  vm.heap.RefsLeft (vm.readWordAt vm.dst vm.immDst :: acquired)

theorem opConsm_inside (hneg : (vm.readWordAt vm.mid vm.immMid).msb = false)
    (hsize : midIndex vm ≤ maxConsBytes) (hsrc : vm.Holds vm.src (midIndex vm))
    (hdst : vm.Holds vm.dst 4) (htail : ConsTail vm) (hroom : ConsRoom vm []) (hid : IdLeft vm) :
    ∃ vm', opConsm vm = .ok () vm' ∧ Consed vm vm' (vm.bytesAt vm.src (midIndex vm)) [] := by
  obtain ⟨vm', hrun, hc⟩ := consBytes_inside (readConsHead_inside hsrc) hdst htail
    (Heap.refsLeft_cons.mp hroom).1 hid
  refine ⟨vm', ?_, hc⟩
  unfold opConsm
  rw [bind_ok (midWord_apply vm), if_neg (by rw [hneg]; exact Bool.false_ne_true), ← midIndex,
    if_neg (Nat.not_lt.mpr hsize)]
  exact hrun

/-- References taken leave the head that is read. -/
theorem readConsHead_addRefs {size : Nat} {head : List Byte}
    (hhead : readConsHead vm size = .ok head) (acquired : List HeapId) :
    readConsHead { vm with heap := acquired.foldl Heap.addRef vm.heap } size = .ok head := by
  rw [← hhead]
  unfold readConsHead
  cases hsrc : vm.src with
  | heapArray id offset => simp only [Heap.heapSlice_addRefs]
  | frame | mp | moduleMp | immediate | none => rfl

theorem readWordAt_addRefs (target : AddrTarget) (imm : Word) (acquired : List HeapId) :
    { vm with heap := acquired.foldl Heap.addRef vm.heap }.readWordAt target imm =
      vm.readWordAt target imm := by
  cases target with
  | heapArray id offset =>
      simp only [VmState.readWordAt, VmState.readAt, Heap.heapSlice_addRefs]
  | frame | mp | moduleMp | immediate | none => rfl

/-- A typed head, whatever its source, that can be read. -/
theorem opConsmp_head {head : List Byte} (hsize : typedSize vm ≤ maxConsBytes)
    (hhead : readConsHead vm (typedSize vm) = .ok head) (hdst : vm.Holds vm.dst 4)
    (htail : ConsTail vm) (hroom : ConsRoom vm (blockRefs vm.heap head (typedSlots vm)))
    (hid : IdLeft vm) :
    ∃ vm', opConsmp vm = .ok () vm' ∧
      Consed vm vm' head (blockRefs vm.heap head (typedSlots vm)) := by
  have hleft := hroom.tail
  have hacquire := Heap.acquirePointers_of_room hleft
  have hcons : ∃ vm', consBytes (typedSize vm)
        { vm with heap := (blockRefs vm.heap head (typedSlots vm)).foldl Heap.addRef vm.heap } =
          .ok () vm' ∧
      Consed vm vm' head (blockRefs vm.heap head (typedSlots vm)) := by
    have hmore := hroom.head
    generalize blockRefs vm.heap head (typedSlots vm) = acquired at hleft hmore
    have hinc := Heap.get_addRefs vm.heap acquired
    have hsame := data_of_addRefs vm.heap acquired
    have hstay := staysIn_addRefs hdst acquired
    have hread := readWordAt_of_heap vm.immDst hsame hstay hdst
    have hhead₁ := readConsHead_addRefs hhead acquired
    obtain ⟨vm', hrun, hc⟩ := consBytes_inside hhead₁
      (VmState.holds_of_heap hsame hstay hdst).1
      (htail.imp (fun hnil => hread.trans hnil) fun hpos => by
        dsimp only
        rw [hread]
        refine Nat.lt_of_lt_of_le hpos ?_
        have hthere := Heap.isSome_of_refs_pos hpos
        rw [Heap.refs_addRefs hleft hthere]
        exact Nat.le_add_right _ _)
      (by
        dsimp only
        rwa [hread])
      (by rw [Heap.nextId_addRefs]; exact hid)
    exact ⟨vm', hrun, .of_acquired hdst hleft hc⟩
  obtain ⟨vm', hrun, hc⟩ := hcons
  refine ⟨vm', ?_, hc⟩
  rw [← hrun]
  unfold opConsmp
  rw [bind_ok (midWord_apply vm), bind_ok (get_apply vm), ← midIndex, ← typedSize,
    if_neg (Nat.not_lt.mpr hsize)]
  unfold typedSlots at hacquire ⊢
  cases hmap : vm.traceMapForType (midIndex vm) with
  | none => rfl
  | some ptrMap =>
      rw [hmap, Option.elim_some] at hacquire
      dsimp only
      rw [hhead, bind_ok (ofExcept_ok _ _), bind_ok (tryHeap_apply hacquire)]
      rfl

/-! Heads. -/

theorem headRead_list {listId tail : HeapId} {obj : HeapObject} {head : List Byte}
    (hget : vm.heap.get listId = some obj) (hdata : obj.data = .list head tail) :
    headRead vm listId = .ok head := by
  have hne : listId ≠ nil := by
    rintro rfl
    rw [Heap.get, if_pos rfl] at hget
    cases hget
  rw [headRead, if_neg hne, hget, Option.map_some, hdata]

theorem opHeadm_inside {head : List Byte}
    (hhead : headRead vm (vm.readWordAt vm.src vm.immSrc) = .ok head) (hoff : vm.dst.OffHeap)
    (hdst : vm.Holds vm.dst head.length) :
    ∃ vm', opHeadm vm = .ok () vm' ∧ vm.Written vm' vm.dst head ∧ vm'.heap = vm.heap := by
  have hstore : vm.modifyBuffer vm.dst (writeFitting head) =
      vm.modifyBuffer vm.dst fun buf off => splice buf off head := by
    obtain ⟨-, hinside⟩ := hdst
    cases hloc : vm.dst with
    | heapArray id offset => exact absurd hloc (hoff id offset)
    | frame | mp | moduleMp | immediate | none =>
        rw [hloc] at hinside
        obtain ⟨buf, off, hbuf, hin⟩ := hinside
        refine VmState.modifyBuffer_congr fun buf' off' hbuf' => ?_
        rw [hbuf] at hbuf'
        cases hbuf'
        exact if_pos hin
  refine ⟨vm.modifyBuffer vm.dst fun buf off => splice buf off head, ?_,
    VmState.written_modifyBuffer hoff head, heap_modifyBuffer _ _ _⟩
  unfold opHeadm
  rw [bind_ok (show srcPtr vm = _ from srcWord_apply vm), bind_ok (get_apply vm), hhead,
    bind_ok (ofExcept_ok _ _), ← hstore]
  rfl

/-- The pointers of a typed head that the head has. -/
def headSlots (vm : VmState) (head : List Byte) : List Nat :=
  (typedSlots vm).filter (· + 4 ≤ head.length)

/-- The heap after the pointers of a typed head were counted. -/
def headHeap (vm : VmState) (head : List Byte) : Heap :=
  recountedHeap vm.heap head (vm.bytesAt vm.dst (typedSize vm)) (headSlots vm head)

/-- No count overflows when the pointers of a head are copied. -/
def HeadRoom (vm : VmState) (head : List Byte) : Prop :=
  vm.heap.RefsLeft (blockRefs vm.heap head (headSlots vm head))

theorem readDstBlock_inside {size : Nat} (hoff : vm.dst.OffHeap) (hdst : vm.Holds vm.dst size) :
    readDstBlock size vm = .ok (some (vm.bytesAt vm.dst size)) vm := by
  obtain ⟨-, hinside⟩ := hdst
  unfold readDstBlock
  rw [bind_ok (get_apply vm)]
  cases hloc : vm.dst with
  | heapArray id offset => exact absurd hloc (hoff id offset)
  | frame off | mp off =>
      rw [hloc] at hinside
      obtain ⟨buf, off', hbuf, hin⟩ := hinside
      cases hbuf
      dsimp only
      rw [if_pos hin]
      rfl
  | moduleMp moduleIdx offset =>
      rw [hloc] at hinside
      obtain ⟨buf, off', hbuf, hin⟩ := hinside
      obtain ⟨mp, hmp, hpair⟩ := Option.map_eq_some_iff.mp hbuf
      cases hpair
      dsimp only
      simp only [hmp, VmState.bytesAt, VmState.buffer?, Option.map_some, Option.getD_some,
        if_pos hin]
      rfl
  | immediate | none =>
      rw [hloc] at hinside
      obtain ⟨_, _, hbuf, -⟩ := hinside
      cases hbuf

/-- A typed head is counted, then copied as an untyped one. -/
theorem opHeadmp_apply {head : List Byte}
    (hhead : headRead vm (vm.readWordAt vm.src vm.immSrc) = .ok head) (hoff : vm.dst.OffHeap)
    (hdst : vm.Holds vm.dst (typedSize vm)) (hroom : HeadRoom vm head) :
    opHeadmp vm = opHeadm { vm with heap := headHeap vm head } := by
  have hblock := readDstBlock_inside hoff hdst
  unfold opHeadmp
  rw [bind_ok (midWord_apply vm), bind_ok (get_apply vm), ← midIndex, ← typedSize]
  have hacquire := Heap.acquirePointers_of_room hroom
  unfold headHeap recountedHeap
  unfold headSlots typedSlots at hacquire ⊢
  cases hmap : vm.traceMapForType (midIndex vm) with
  | none => rfl
  | some ptrMap =>
      rw [hmap, Option.elim_some] at hacquire
      dsimp only [Option.elim_some]
      rw [bind_ok hblock]
      dsimp only
      rw [bind_ok (show srcPtr vm = _ from srcWord_apply vm), hhead, bind_ok (ofExcept_ok _ _),
        bind_ok (tryHeap_apply hacquire)]
      rfl

/-- A typed head copied; the list is to stay where it is named. -/
theorem opHeadmp_inside {head : List Byte}
    (hhead : headRead vm (vm.readWordAt vm.src vm.immSrc) = .ok head) (hoff : vm.dst.OffHeap)
    (hdst : vm.Holds vm.dst (typedSize vm)) (hlength : vm.Holds vm.dst head.length)
    (hroom : HeadRoom vm head)
    (hstill : headRead { vm with heap := headHeap vm head }
      ({ vm with heap := headHeap vm head }.readWordAt vm.src vm.immSrc) = .ok head) :
    ∃ vm', opHeadmp vm = .ok () vm' ∧ vm.Written vm' vm.dst head := by
  have hsame : ∀ i old obj, vm.heap.get i = some old → (headHeap vm head).get i = some obj →
      obj.data = old.data := fun _ _ _ hold hobj => (recounted_blocks hroom _).data hold hobj
  have hstay : vm.StaysIn (headHeap vm head) vm.dst := fun id offset heq =>
    absurd heq (hoff id offset)
  obtain ⟨vm', hrun, hw, hheap⟩ := opHeadm_inside hstill hoff
    (VmState.holds_of_heap hsame hstay hlength).1
  refine ⟨vm', (opHeadmp_apply hhead hoff hdst hroom).trans hrun, ?_⟩
  refine VmState.Written.of_heap hw hsame (VmState.holds_of_heap hsame hstay hlength).2
    fun i old obj _ hobj => ?_
  have hheld : (headHeap vm head).get i = some obj := by rwa [hheap] at hobj
  rw [hheld]
  rfl

end

/-- A block moved: it is at its destination, and nothing else holds anything new. -/
structure Moved (vm vm' : VmState) (target : AddrTarget) (block : List Byte) : Prop where
  written : vm.Written vm' target block
  held : vm'.bytesAt target block.length = block

/-- Blocks move between any two locations whose ranges lie inside their buffers: the frame stack,
the data of any module, and records, arrays and slices on the heap. The destination holds what
the source held before, also where they overlap, and nothing else changes. The head of a list is
one of its own bytes; it goes to the frame stack or to the data of a module. Where pointers are
counted every count has to have room, and what counting frees is not to be what the block goes to
or comes from; where none are counted every object stays. -/
theorem block_moves (vm : VmState) :
    (vm.Holds vm.src (midIndex vm) → vm.Holds vm.dst (midIndex vm) → ∃ vm',
      opMovm vm = .ok () vm' ∧ Moved vm vm' vm.dst (vm.bytesAt vm.src (midIndex vm)) ∧
        ∀ i, (vm'.heap.get i).isSome = (vm.heap.get i).isSome) ∧
    (vm.Holds vm.src (typedSize vm) → vm.Holds vm.dst (typedSize vm) →
      RefsRoom vm (vm.bytesAt vm.src (typedSize vm)) → ∃ vm',
      opMovmp vm = .ok () vm' ∧ (vm.StaysIn vm'.heap vm.dst →
        Moved vm vm' vm.dst (vm.bytesAt vm.src (typedSize vm)))) ∧
    (vm.Holds vm.dst 4 → ConsTail vm → IdLeft vm →
      ((vm.readWordAt vm.mid vm.immMid).msb = false → midIndex vm ≤ maxConsBytes →
        vm.Holds vm.src (midIndex vm) → ConsRoom vm [] → ∃ vm', opConsm vm = .ok () vm' ∧
          Consed vm vm' (vm.bytesAt vm.src (midIndex vm)) []) ∧
      (typedSize vm ≤ maxConsBytes → vm.Holds vm.src (typedSize vm) →
        ConsRoom vm (blockRefs vm.heap (vm.bytesAt vm.src (typedSize vm)) (typedSlots vm)) → ∃ vm',
        opConsmp vm = .ok () vm' ∧ Consed vm vm' (vm.bytesAt vm.src (typedSize vm))
          (blockRefs vm.heap (vm.bytesAt vm.src (typedSize vm)) (typedSlots vm)))) ∧
    ∀ obj head tail, vm.heap.get (vm.readWordAt vm.src vm.immSrc) = some obj →
      obj.data = .list head tail → vm.dst.OffHeap → vm.Holds vm.dst head.length →
      (∃ vm', opHeadm vm = .ok () vm' ∧ Moved vm vm' vm.dst head ∧ vm'.heap = vm.heap) ∧
      (vm.Holds vm.dst (typedSize vm) → HeadRoom vm head →
        headRead { vm with heap := headHeap vm head }
          ({ vm with heap := headHeap vm head }.readWordAt vm.src vm.immSrc) = .ok head →
        ∃ vm', opHeadmp vm = .ok () vm' ∧ Moved vm vm' vm.dst head) := by
  have hmoved : ∀ {vm' : VmState} {block : List Byte}, vm.Holds vm.dst block.length →
      vm.StaysIn vm'.heap vm.dst → vm.Written vm' vm.dst block → Moved vm vm' vm.dst block :=
    fun hdst hstay hw => ⟨hw, VmState.bytesAt_written hdst hw hstay⟩
  refine ⟨fun hsrc hdst => ?_, fun hsrc hdst hroom => ?_, fun hdst htail hid =>
    ⟨fun hneg hsize hsrc hroom => opConsm_inside hneg hsize hsrc hdst htail hroom hid,
      fun hsize hsrc hroom =>
        opConsmp_head hsize (readConsHead_inside hsrc) hdst htail hroom hid⟩,
    fun obj head tail hget hdata hoff hlength => ?_⟩
  · obtain ⟨vm', hrun, hw, hcounts⟩ := opMovm_inside hdst
    rw [← vm.length_readBlock vm.src (midIndex vm)] at hdst
    rw [VmState.readBlock_eq hsrc] at hw hdst
    have hsame := fun i => isSome_of_refCount (hcounts i)
    refine ⟨vm', hrun, hmoved hdst (staysIn_of_holds hdst fun i hi => ?_) hw, hsame⟩
    rwa [hsame i]
  · rw [← VmState.readBlock_eq hsrc] at hroom
    obtain ⟨vm', hrun, hw⟩ := opMovmp_inside hdst hroom
    rw [← vm.length_readBlock vm.src (typedSize vm)] at hdst
    rw [VmState.readBlock_eq hsrc] at hw hdst
    exact ⟨vm', hrun, fun hstay => hmoved hdst hstay (hw hstay)⟩
  · have hhead := headRead_list hget hdata
    have hstay : ∀ h : Heap, vm.StaysIn h vm.dst := fun h id offset heq =>
      absurd heq (hoff id offset)
    refine ⟨?_, fun hdst hroom hstill => ?_⟩
    · obtain ⟨vm', hrun, hw, hheap⟩ := opHeadm_inside hhead hoff hlength
      exact ⟨vm', hrun, hmoved hlength (hstay _) hw, hheap⟩
    · obtain ⟨vm', hrun, hw⟩ := opHeadmp_inside hhead hoff hdst hlength hroom hstill
      exact ⟨vm', hrun, hmoved hlength (hstay _) hw⟩

/-- Three bytes of a module's data moved up by one. -/
theorem overlapping_ranges_move : ∃ vm vm' : VmState, vm.mp = [1, 2, 3, 4, 5] ∧
    opMovm vm = .ok () vm' ∧ vm'.mp = [1, 1, 2, 3, 5] := by
  obtain ⟨vm, -⟩ : ∃ vm, VmState.withArgs [] true (.ofCode "main" [] 0) [] = some vm := ⟨_, rfl⟩
  let s : VmState := { vm with
    mp := [1, 2, 3, 4, 5], src := .mp 0, mid := .immediate, immMid := 3, dst := .mp 1 }
  have hin : ∀ off ≤ 2, s.Holds (.mp off) (midIndex s) := fun off hoff =>
    ⟨show (3 : Word).asUsize ≤ maxAlloc by decide, _, _, rfl, Nat.add_le_add_right hoff 3⟩
  obtain ⟨vm', hrun, hmoved, -⟩ :=
    (block_moves s).1 (hin 0 (Nat.zero_le 2)) (hin 1 (Nat.le_succ 1))
  exact ⟨s, vm', rfl, hrun, congrArg VmState.mp hmoved.written.buffers⟩

/-- Operands of a move of a block of one pointer. -/
def movingPointer (src dst : AddrTarget) (vm : VmState) : VmState :=
  { vm with
    module := { vm.module with types := [⟨0, 4, [0x80], 1⟩] }
    src, dst, mid := .immediate, immMid := 0 }

/-- A head is not made of more than a megabyte; a record is gone where the block that it takes
replaces the last reference to it. -/
theorem block_not_moved :
    (∃ vm : VmState, vm.Holds vm.src (midIndex vm) ∧ vm.Holds vm.dst 4 ∧ ConsTail vm ∧ IdLeft vm ∧
      ∃ msg, opConsm vm = .error (.threadFault msg) vm) ∧
    ∃ vm vm' : VmState, opMovmp vm = .ok () vm' ∧ vm.bytesAt vm.src 4 = [7, 0, 0, 0] ∧
      vm.bytesAt vm.dst 4 = [0, 0, 0, 0x10] ∧ vm'.bytesAt vm.dst 4 = [] := by
  refine ⟨?_, ?_⟩
  · obtain ⟨vm, -⟩ : ∃ vm, VmState.withArgs [] true (.ofCode "main" [] 0) [] = some vm := ⟨_, rfl⟩
    have hindex : (0x100001 : Word).asUsize = 0x100001 := by decide
    obtain ⟨mp, hmp⟩ : ∃ mp : List Byte, mp = List.replicate 0x100001 0 := ⟨_, rfl⟩
    have hlength : mp.length = 0x100001 := by rw [hmp, List.length_replicate]
    have hzero : readWord mp 0 = 0 := by
      rw [readWord, if_pos (by rw [hlength]; omega), slice, List.drop_zero, hmp,
        List.take_replicate, Nat.min_eq_left (by omega)]
      rfl
    let s : VmState := { vm with
      mp, heap := .new, src := .mp 0, mid := .immediate, immMid := 0x100001, dst := .mp 0 }
    have hmid : midIndex s = 0x100001 := hindex
    have hin : ∀ n ≤ 0x100001, s.Holds (.mp 0) n := fun n hn =>
      ⟨by rw [maxAlloc]; omega, mp, 0, rfl, by rw [hlength]; omega⟩
    refine ⟨s, hin _ (Nat.le_of_eq hmid), hin 4 (by omega), .inl hzero, ?_, ?_⟩
    · change heapIdBase < heapIdBase + 1
      decide
    · have hneg : ¬ (s.readWordAt s.mid s.immMid).msb = true := by
        change ¬ (0x100001 : Word).msb = true
        decide
      have hlarge : maxConsBytes < midIndex s := by
        rw [hmid]
        decide
      refine ⟨s!"consm: block size too large: {midIndex s}", ?_⟩
      unfold opConsm
      rw [bind_ok (midWord_apply s), if_neg hneg, ← midIndex, if_pos hlarge]
      rfl
  · refine exists_run [⟨1, 0, none, .record [0, 0, 0, 0x10]⟩]
      (fun vm => movingPointer (.mp 0) (.heapArray 0x10000000 0) { vm with mp := [7, 0, 0, 0] })
      opMovmp (fun vm vm' => _ ∧ _) ?_
    decide +kernel

end RiceVM
