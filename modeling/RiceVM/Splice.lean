import RiceVM.Views

/-!
Slice assignment: the bytes of one array over part of another, and the references that come and
go with the pointers among them.
-/
namespace RiceVM
open Exec Memory Buffer Ops
namespace Heap

/-! Releases that free nothing. -/

theorem decRef_of_keep {h : Heap} {id : HeapId} {obj : HeapObject} (hget : h.get id = some obj)
    (hkeep : 1 < obj.refCount.toNat) : h.decRef id = h.update id (·.drop 1) := by
  have hne : id ≠ nil := by
    rintro rfl
    rw [get, if_pos rfl] at hget
    cases hget
  rw [decRef, if_neg hne, decRefLoop, lookup_of_get hget]
  simp only [if_neg (fun hfree : obj.refCount.toNat ≤ 1 ∧ _ => absurd hfree.1 (Nat.not_le.mpr hkeep))]
  exact decRefLoop_nil _ _

/-- Where every object keeps a reference, releases take away just the references given up. -/
theorem get_decRefs_of_keep (h : Heap) {ids : List HeapId} (hlive : ∀ id ∈ ids, (h.get id).isSome)
    (hkeep : ∀ i obj, h.get i = some obj → 0 < ids.count i →
      ids.count i < obj.refCount.toNat) (i : HeapId) :
    (ids.foldl decRef h).get i = (h.get i).map (·.drop (ids.count i)) := by
  induction ids generalizing h with
  | nil => simp
  | cons id ids ih =>
      obtain ⟨hid, hids⟩ := List.forall_mem_cons.mp hlive
      obtain ⟨obj, hobj⟩ := Option.isSome_iff_exists.mp hid
      have hcount : ∀ j, (id :: ids).count j = ids.count j + if id = j then 1 else 0 := by
        intro j
        rw [List.count_cons]
        simp only [beq_iff_eq]
      have hmore : 1 < obj.refCount.toNat := by
        have := hkeep id obj hobj (by rw [hcount, if_pos rfl]; omega)
        rw [hcount, if_pos rfl] at this
        omega
      rw [List.foldl_cons, decRef_of_keep hobj hmore, ih]
      · rw [get_update, hcount]
        by_cases heq : id = i
        · rw [if_pos heq.symm, if_pos heq, Option.map_map]
          congr 1
          funext o
          simp only [Function.comp_apply, HeapObject.drop_drop, Nat.add_comm 1]
        · rw [if_neg (Ne.symm heq), if_neg heq]
          rfl
      · intro j hj
        rw [get_update]
        split
        · rw [Option.isSome_map]
          exact hids j hj
        · exact hids j hj
      · intro j o hget hpos
        rw [get_update] at hget
        split at hget
        · next heq =>
            subst heq
            rw [hobj] at hget
            cases hget
            have := hkeep j obj hobj (by rw [hcount]; omega)
            rw [hcount, if_pos rfl] at this
            rw [HeapObject.refCount_drop]
            omega
        · next hne =>
            have := hkeep j o hget (by rw [hcount]; omega)
            rwa [hcount, if_neg (Ne.symm hne)] at this

end Heap

/-! The words of a block that are references. -/

theorem mem_pointerSlots {trace : Option TraceMap} {elemSize n off : Nat}
    (h : off ∈ pointerSlots trace elemSize n) : off + 4 ≤ n * elemSize := by
  unfold pointerSlots at h
  split at h
  · unfold TraceMap.pointerOffsets at h
    obtain ⟨_, _, hmem⟩ := List.mem_flatMap.mp h
    exact of_decide_eq_true (List.mem_filter.mp hmem).2
  split at h
  · next hsize =>
      obtain ⟨i, hi, rfl⟩ := List.mem_map.mp h
      rw [List.mem_range] at hi
      rw [hsize]
      omega
  · cases h

theorem readWord_slice {buf : List Byte} {start n off : Nat} (hin : start + n ≤ buf.length)
    (hoff : off + 4 ≤ n) : readWord (slice buf start n) off = readWord buf (start + off) := by
  have hlength : (slice buf start n).length = n := by
    rw [length_slice]
    omega
  rw [readWord, readWord, hlength, if_pos hoff, if_pos (by omega), slice, slice, slice,
    List.drop_take, List.drop_drop, List.take_take, Nat.min_eq_left (by omega)]

theorem liveWords_slice (h : Heap) {buf : List Byte} {start n : Nat} {slots : List Nat}
    (hin : start + n ≤ buf.length) (hslots : ∀ off ∈ slots, off + 4 ≤ n) :
    liveWords h buf (slots.map (start + ·)) = liveWords h (slice buf start n) slots := by
  have hlength : (slice buf start n).length = n := by
    rw [length_slice]
    omega
  have hall : (slots.map (start + ·)).filter (· + 4 ≤ buf.length) = slots.map (start + ·) := by
    refine List.filter_eq_self.mpr fun off hoff => ?_
    obtain ⟨off', hoff', rfl⟩ := List.mem_map.mp hoff
    have := hslots off' hoff'
    exact decide_eq_true (by omega)
  have hall' : slots.filter (· + 4 ≤ n) = slots :=
    List.filter_eq_self.mpr fun off hoff => decide_eq_true (hslots off hoff)
  unfold liveWords
  rw [hlength, hall, hall', List.map_map]
  congr 1
  exact List.map_congr_left fun off hoff => (readWord_slice hin (hslots off hoff)).symm

theorem live_of_mem {h : Heap} {buf : List Byte} {slots : List Nat} {id : HeapId}
    (hid : id ∈ liveWords h buf slots) : id ≠ nil ∧ (h.get id).isSome := by
  have hcontains := (List.mem_filter.mp hid).2
  unfold Heap.contains at hcontains
  rw [Bool.and_eq_true, decide_eq_true_eq] at hcontains
  exact ⟨hcontains.1, by rw [Heap.get, if_neg hcontains.1]; exact hcontains.2⟩

/-! What is copied, and where to. -/

section
variable {h : Heap} {id root : HeapId} {start n elemSize : Nat} {data : List Byte}

theorem sliceSource_part (hp : h.Part id root start n elemSize data) :
    ∃ obj buf, h.get id = some obj ∧ sliceSource h obj.data = some (buf, n, elemSize) ∧
      buf.length = n * elemSize ∧ buf = slice data (start * elemSize) (n * elemSize) := by
  rcases hp.cases with ⟨rfl, rfl, hlength⟩ | ⟨obj, elemType, hget, hslice⟩
  · obtain ⟨obj, elemType, hget, hview⟩ := hp.view
    obtain ⟨root, _, n', hroot, hdata, hlength', _⟩ := hp.array
    obtain rfl : obj = root := Option.some.inj (hget.symm.trans hroot)
    rw [hdata] at hview
    simp only [viewOf, Option.some.injEq, ArrayView.mk.injEq] at hview
    refine ⟨obj, data, hget, by rw [hdata, sliceSource, hview.2.2.2.2], hlength, ?_⟩
    rw [slice, Nat.zero_mul, List.drop_zero, List.take_of_length_le (Nat.le_of_eq hlength)]
  · obtain ⟨_, hroot, _⟩ := hp.whole
    have hinside := hp.inside
    rw [Nat.add_mul] at hinside
    have hread : h.arrayRead root (start * elemSize) (n * elemSize) =
        some (slice data (start * elemSize) (n * elemSize)) := by
      rw [hroot.arrayRead_eq, Nat.zero_mul, Nat.zero_add, if_pos hinside]
    refine ⟨obj, _, hget, by rw [hslice, sliceSource, hread]; rfl, ?_, rfl⟩
    rw [length_slice]
    omega

theorem sliceTarget_part (hp : h.Part id root start n elemSize data) :
    sliceTarget h id = some (root, start * elemSize, n) := by
  unfold sliceTarget
  rcases hp.cases with ⟨rfl, rfl, _⟩ | ⟨obj, elemType, hget, hslice⟩
  · obtain ⟨obj, elemType, hget, hview⟩ := hp.view
    obtain ⟨root, _, n', hroot, hdata, _, _⟩ := hp.array
    obtain rfl : obj = root := Option.some.inj (hget.symm.trans hroot)
    rw [hdata] at hview
    simp only [viewOf, Option.some.injEq, ArrayView.mk.injEq] at hview
    rw [hget, Option.map_some, hdata, Nat.zero_mul, hview.2.2.2.2]
  · rw [hget, Option.map_some, hslice]

theorem arrayData_part (hp : h.Part id root start n elemSize data) : arrayData h root = data := by
  obtain ⟨_, _, _, hget, hdata, _⟩ := hp.array
  rw [arrayData, hget, Option.map_some, hdata]

end

/-- Bytes over the elements `start` to `start + m` of an array that has them. -/
theorem copyInto_array {obj : HeapObject} {elemType : BitVec 32} {elemSize start m n : Nat}
    {data bytes : List Byte} (hdata : obj.data = .array elemType elemSize data n)
    (hbytes : bytes.length = m * elemSize) (hfit : (start + m) * elemSize ≤ data.length)
    {written : Nat} (hwritten : written ≤ n) :
    copyInto (start * elemSize) bytes written obj =
      { obj with data := obj.data.setBuffer (splice data (start * elemSize) bytes) } := by
  rw [Nat.add_mul] at hfit
  unfold copyInto
  rw [hdata]
  dsimp only [HeapData.setBuffer]
  rw [Nat.min_eq_left (by omega), overlay_of_le (by omega), Nat.max_eq_right hwritten]

theorem refCount_copyInto (start : Nat) (bytes : List Byte) (written : Nat) (obj : HeapObject) :
    (copyInto start bytes written obj).refCount = obj.refCount := by
  unfold copyInto
  split <;> rfl

/-- The heap after references were acquired and others given up. -/
structure Recounted (h h' : Heap) (acquired given : List HeapId) : Prop where
  exact : ∃ released : Multiset HeapId, h.owned + ↑given = h'.owned + released ∧
    ∀ i, h'.get i =
      ((h.get i).map (·.take (acquired.count i))).bind (·.release (released.count i))
  kept : (∀ i obj, h.get i = some obj → 0 < given.count i →
      given.count i < obj.refCount.toNat + acquired.count i) →
    ∀ i, h'.get i = (h.get i).map fun obj =>
      (obj.take (acquired.count i)).drop (given.count i)

theorem recounted {h : Heap} {acquired given : List HeapId} (hroom : h.RefsLeft acquired)
    (hgiven : ∀ id ∈ given, id ≠ nil ∧ (h.get id).isSome) :
    Recounted h (given.foldl Heap.decRef (acquired.foldl Heap.addRef h)) acquired given := by
  have hget := Heap.get_addRefs h acquired
  constructor
  · obtain ⟨released, hsum, hreleased⟩ := Heap.decRefs_released (acquired.foldl Heap.addRef h)
      fun hnil => (hgiven nil hnil).1 rfl
    refine ⟨released, Heap.owned_addRefs h acquired ▸ hsum, fun i => ?_⟩
    rw [hreleased, hget]
  · intro hkeep i
    rw [Heap.get_decRefs_of_keep, hget, Option.map_map]
    · rfl
    · intro id hid
      rw [hget, Option.isSome_map]
      exact (hgiven id hid).2
    · intro j obj hobj hpos
      rw [hget] at hobj
      obtain ⟨old, hold, rfl⟩ := Option.map_eq_some_iff.mp hobj
      rw [hroom.refCount hold]
      exact hkeep j old hold hpos

/-- The heap after a copy: the bytes of the target, and the references of every object, none of
whose counts overflows. -/
structure BlockCopied (h h' : Heap) (root : HeapId) (data : List Byte) (acquired given : List HeapId) :
    Prop where
  room : h.RefsLeft acquired
  exact : ∃ released : Multiset HeapId, h.owned + ↑given = h'.owned + released ∧
    ∀ i, h'.get i = ((h.get i).map fun obj =>
      { obj.take (acquired.count i) with
        data := if i = root then obj.data.setBuffer data else obj.data }).bind
      (·.release (released.count i))
  kept : (∀ i obj, h.get i = some obj → 0 < given.count i →
      given.count i < obj.refCount.toNat + acquired.count i) →
    ∀ i, h'.get i = (h.get i).map fun obj =>
      { (obj.take (acquired.count i)).drop (given.count i) with
        data := if i = root then obj.data.setBuffer data else obj.data }

theorem copied {h : Heap} {root : HeapId} (hroot : root ≠ nil) {data : List Byte}
    {f : HeapObject → HeapObject}
    (hf : ∀ obj, h.get root = some obj → f obj = { obj with data := obj.data.setBuffer data })
    {acquired given : List HeapId} (hroom : h.RefsLeft acquired)
    (hleft : (h.update root f).RefsLeft acquired) (hgiven : ∀ id ∈ given, id ≠ nil ∧ (h.get id).isSome) :
    BlockCopied h (given.foldl Heap.decRef (acquired.foldl Heap.addRef (h.update root f))) root data
      acquired given := by
  have hget : ∀ i, (h.update root f).get i = (h.get i).map fun obj =>
      { obj with data := if i = root then obj.data.setBuffer data else obj.data } := by
    intro i
    rw [Heap.get_update]
    split
    · next heq =>
        subst heq
        cases hobj : h.get i with
        | none => rfl
        | some obj => rw [Option.map_some, Option.map_some, hf obj hobj]
    · cases h.get i <;> rfl
  have howned : (h.update root f).owned = h.owned := by
    refine Heap.owned_update fun obj hl => ?_
    rw [hf obj ((if_neg hroot).trans hl)]
    exact HeapData.childRefs_setBuffer data obj.data
  have hrecounted := recounted hleft fun id (hid : id ∈ given) => by
    rw [hget, Option.isSome_map]
    exact hgiven id hid
  refine ⟨hroom, ?_, ?_⟩
  · obtain ⟨released, hsum, hreleased⟩ := hrecounted.exact
    refine ⟨released, howned ▸ hsum, fun i => ?_⟩
    rw [hreleased, hget, Option.map_map]
    rfl
  · intro hkeep i
    rw [hrecounted.kept, hget, Option.map_map]
    · rfl
    · intro j obj hobj hpos
      rw [hget] at hobj
      obtain ⟨old, hold, rfl⟩ := Option.map_eq_some_iff.mp hobj
      exact hkeep j old hold hpos

/-! The instruction. -/

section
variable {vm : VmState} {srcRoot dstRoot : HeapId} {start start' m n elemSize : Nat}
  {srcData dstData : List Byte}

/-- The index at which the source goes in. -/
def insertIndex (vm : VmState) : Nat := clampIndex (vm.readWordAt vm.mid vm.immMid)

theorem opSlicela_part
    (hsrc : vm.heap.Part (vm.readWordAt vm.src vm.immSrc) srcRoot start m elemSize srcData)
    (hdst : vm.heap.Part (vm.readWordAt vm.dst vm.immDst) dstRoot start' n elemSize dstData) :
    let pos := insertIndex vm
    let block := slice srcData (start * elemSize) (m * elemSize)
    let overwritten := slice dstData ((start' + pos) * elemSize) (m * elemSize)
    let slots := pointerSlots ((vm.heap.get dstRoot).bind (·.trace)) elemSize m
    if n < pos + m then
      opSlicela vm = .error (.threadFault
        s!"array slice out of bounds: [{pos}..{pos + m}] for length {n}") vm
    else
      (vm.heap.RefsLeft (liveWords vm.heap block slots) →
        ∃ heap, opSlicela vm = .ok () { vm with heap } ∧
          BlockCopied vm.heap heap dstRoot (splice dstData ((start' + pos) * elemSize) block)
            (liveWords vm.heap block slots) (liveWords vm.heap overwritten slots)) ∧
      (¬ vm.heap.RefsLeft (liveWords vm.heap block slots) → opSlicela vm = .panic) := by
  intro pos block overwritten slots
  obtain ⟨obj, buf, hget, hsource, hlength, hbuf⟩ := sliceSource_part hsrc
  have htarget := sliceTarget_part hdst
  have hrun : opSlicela vm = (if n < pos + m then
      throw (.threadFault s!"array slice out of bounds: [{pos}..{pos + m}] for length {n}")
    else do
      modifyHeap (·.update dstRoot (copyInto (start' * elemSize + pos * elemSize)
        (buf.take (m * elemSize)) (if start' * elemSize = 0 then pos + m else 0)))
      tryHeap fun h => (liveWords vm.heap buf slots).foldlM Heap.incRef h
      modifyHeap fun h => (liveWords vm.heap (arrayData vm.heap dstRoot)
        (slots.map (start' * elemSize + pos * elemSize + ·))).foldl Heap.decRef h :
        VM Unit) vm := by
    unfold opSlicela
    rw [bind_ok (show srcPtr vm = _ from srcWord_apply vm), bind_ok (midWord_apply vm),
      bind_ok (dstPtr_apply vm), if_neg hsrc.ne_nil, bind_ok (get_apply vm), hget]
    change (ofOption _ (sliceSource vm.heap obj.data) >>= _) vm = _
    rw [hsource]
    change (ofOption _ (sliceTarget vm.heap _) >>= _) vm = _
    rw [htarget]
    rfl
  rw [hrun]
  split
  · rfl
  · next hfit =>
      rw [Nat.not_lt] at hfit
      obtain ⟨root, _, total, hroot, hdata, htotal, hle⟩ := hdst.array
      have hinside : (start' + pos + m) * elemSize ≤ dstData.length := by
        rw [htotal]
        exact Nat.mul_le_mul_right _ (by omega)
      have hoverwritten : (start' + pos) * elemSize + m * elemSize ≤ dstData.length := by
        rwa [← Nat.add_mul]
      have hblock : buf.take (m * elemSize) = block := by
        rw [List.take_of_length_le (Nat.le_of_eq hlength)]
        exact hbuf
      have hslots : ∀ off ∈ slots, off + 4 ≤ m * elemSize := fun off hoff => mem_pointerSlots hoff
      rw [← Nat.add_mul, arrayData_part hdst, liveWords_slice _ hoverwritten hslots, hblock,
        show buf = block from hbuf]
      generalize hf : copyInto ((start' + pos) * elemSize) block _ = f
      have hsame : ∀ obj, (f obj).refCount = obj.refCount := fun obj => by
        rw [← hf, refCount_copyInto]
      rw [bind_ok (show modifyHeap (·.update dstRoot f) vm = .ok () _ from rfl)]
      refine ⟨fun hroom => ?_, fun hfull => ?_⟩
      · have hleft := (@Heap.RefsLeft.update _ _ dstRoot _ hsame).mpr hroom
        rw [bind_ok (tryHeap_apply (Heap.foldlM_incRef.mpr ⟨hleft, rfl⟩))]
        refine ⟨_, rfl, copied (hdst.whole.choose_spec.1.ne_nil) ?_ hroom hleft ?_⟩
        · intro obj hobj
          obtain rfl : obj = root := Option.some.inj (hobj.symm.trans hroot)
          rw [← hf]
          refine copyInto_array (m := m) hdata ?_ hinside ?_
          · rw [← show buf = block from hbuf, hlength]
          · split <;> omega
        · exact fun id hid => live_of_mem hid
      · have hnone : (liveWords vm.heap block slots).foldlM Heap.incRef
            (vm.heap.update dstRoot f) = none := by
          refine Option.eq_none_iff_forall_ne_some.mpr fun heap hsome => hfull ?_
          exact (Heap.RefsLeft.update hsame).mp (Heap.foldlM_incRef.mp hsome).1
        rw [bind_apply, tryHeap_panic hnone]

/-- What the destination holds where the source went in. -/
theorem splice_part (hdst : vm.heap.Part (vm.readWordAt vm.dst vm.immDst) dstRoot start' n
    elemSize dstData) {pos : Nat} {block : List Byte} (hblock : block.length = m * elemSize)
    (hfit : pos + m ≤ n) :
    slice (splice dstData ((start' + pos) * elemSize) block) (start' * elemSize) (n * elemSize) =
      slice dstData (start' * elemSize) (pos * elemSize) ++ block ++
        slice dstData ((start' + pos + m) * elemSize) ((n - pos - m) * elemSize) := by
  have hinside := hdst.inside
  have hlength : n * elemSize = pos * elemSize + m * elemSize + (n - pos - m) * elemSize := by
    rw [← Nat.add_mul, ← Nat.add_mul]
    congr 1
    omega
  rw [Nat.add_mul] at hinside
  rw [Nat.add_mul, Nat.add_mul, Nat.add_mul, hlength, ← hblock]
  exact slice_splice_around (by omega)

end

/-- A fault comes before anything is copied. -/
theorem opSlicela_error {vm vm' : VmState} {e : ExecError} (h : opSlicela vm = .error e vm') :
    vm' = vm := by
  unfold opSlicela at h
  rw [bind_ok (show srcPtr vm = _ from srcWord_apply vm), bind_ok (midWord_apply vm),
    bind_ok (dstPtr_apply vm)] at h
  split at h
  · cases h
  rw [bind_ok (get_apply vm)] at h
  cases hobj : vm.heap.get (vm.readWordAt vm.src vm.immSrc) with
  | none =>
      rw [hobj] at h
      cases h
      rfl
  | some obj =>
      rw [hobj] at h
      change (ofOption _ (sliceSource vm.heap obj.data) >>= _) vm = _ at h
      cases hsource : sliceSource vm.heap obj.data with
      | none =>
          rw [hsource] at h
          cases h
          rfl
      | some source =>
          rw [hsource] at h
          change (ofOption _ (sliceTarget vm.heap _) >>= _) vm = _ at h
          cases htarget : sliceTarget vm.heap (vm.readWordAt vm.dst vm.immDst) with
          | none =>
              rw [htarget] at h
              cases h
              rfl
          | some target =>
              rw [htarget] at h
              dsimp only [ofOption] at h
              rw [bind_ok (pure_apply _ _)] at h
              split at h
              · cases h
                rfl
              · rw [bind_ok (show modifyHeap _ vm = .ok () _ from rfl), bind_apply] at h
                split at h
                · cases h
                · next hmid =>
                    exact absurd hmid tryHeap_ne_error
                · cases h
                · cases h

/-- Slice assignment over an array or slice of an element size from one of the same size. A
source that does not fit is a fault that leaves everything as it was. One that fits takes the
place of as many elements, read before any is overwritten; nothing else in the heap changes but
counts. An object's count goes up by the references copied and down by those overwritten and by
those that an object freed with them owned. Where a count has no room for the references copied,
the host panics. -/
theorem slicela_splices {vm : VmState} {srcRoot dstRoot : HeapId} {start start' m n elemSize : Nat}
    {srcData dstData : List Byte}
    (hsrc : vm.heap.Part (vm.readWordAt vm.src vm.immSrc) srcRoot start m elemSize srcData)
    (hdst : vm.heap.Part (vm.readWordAt vm.dst vm.immDst) dstRoot start' n elemSize dstData) :
    let pos := insertIndex vm
    let block := slice srcData (start * elemSize) (m * elemSize)
    let overwritten := slice dstData ((start' + pos) * elemSize) (m * elemSize)
    let slots := pointerSlots ((vm.heap.get dstRoot).bind (·.trace)) elemSize m
    let result := splice dstData ((start' + pos) * elemSize) block
    (n < pos + m → ∃ msg, opSlicela vm = .error (.threadFault msg) vm) ∧
    (pos + m ≤ n →
      slice result (start' * elemSize) (n * elemSize) =
        slice dstData (start' * elemSize) (pos * elemSize) ++ block ++
          slice dstData ((start' + pos + m) * elemSize) ((n - pos - m) * elemSize) ∧
      (vm.heap.RefsLeft (liveWords vm.heap block slots) →
        ∃ heap, opSlicela vm = .ok () { vm with heap } ∧
          BlockCopied vm.heap heap dstRoot result (liveWords vm.heap block slots)
            (liveWords vm.heap overwritten slots)) ∧
      (¬ vm.heap.RefsLeft (liveWords vm.heap block slots) → opSlicela vm = .panic)) ∧
    ∀ e vm', opSlicela vm = .error e vm' → vm' = vm := by
  intro pos block overwritten slots result
  have hpart := opSlicela_part hsrc hdst
  refine ⟨fun hlong => ?_, fun hfit => ⟨?_, ?_⟩, fun _ _ => opSlicela_error⟩
  · rw [if_pos hlong] at hpart
    exact ⟨_, hpart⟩
  · refine splice_part hdst ?_ hfit
    have hinside := hsrc.inside
    rw [Nat.add_mul] at hinside
    rw [length_slice]
    omega
  · rwa [if_neg (Nat.not_lt.mpr hfit)] at hpart

/-- Operands of an instruction that copies one array over another. -/
def copying (srcId : HeapId) (index : Word) (dstId : HeapId) (vm : VmState) : VmState :=
  { vm with
    src := .immediate, immSrc := srcId, mid := .immediate, immMid := index
    dst := .immediate, immDst := dstId }

/-- A slice of the last two of four bytes over the last two of a slice of the first three. -/
theorem overlapping_slices_splice : ∃ vm heap,
    arrayData vm.heap 0x10000000 = [1, 2, 3, 4] ∧ opSlicela vm = .ok () { vm with heap } ∧
    BlockCopied vm.heap heap 0x10000000 [1, 3, 4, 4] [] [] := by
  obtain ⟨vm, -⟩ : ∃ vm, VmState.withArgs [] true (.ofCode "main" [] 0) [] = some vm := ⟨_, rfl⟩
  obtain ⟨h, hobjects⟩ : ∃ h, Heap.ofObjects [⟨1, 0, none, .arraySlice 0x10000000 2 0 1 2⟩,
      ⟨1, 0, none, .arraySlice 0x10000000 0 0 1 3⟩,
      ⟨3, 0, none, .array 0 1 [1, 2, 3, 4] 4⟩] = some h := ⟨_, rfl⟩
  have hroot : h.get 0x10000000 = some ⟨3, 0, none, .array 0 1 [1, 2, 3, 4] 4⟩ := by
    cases hobjects
    rfl
  have hdst : h.get 0x10000001 = some ⟨1, 0, none, .arraySlice 0x10000000 0 0 1 3⟩ := by
    cases hobjects
    rfl
  have hsrc : h.get 0x10000002 = some ⟨1, 0, none, .arraySlice 0x10000000 2 0 1 2⟩ := by
    cases hobjects
    rfl
  obtain ⟨-, hfits, -⟩ := @slicela_splices
    (copying 0x10000002 1 0x10000001 { vm with heap := h })
    0x10000000 0x10000000 2 0 2 3 1 [1, 2, 3, 4] [1, 2, 3, 4]
    ⟨⟨_, 0, hsrc, rfl⟩, ⟨_, 0, 4, hroot, rfl, rfl, by decide⟩⟩
    ⟨⟨_, 0, hdst, rfl⟩, ⟨_, 0, 4, hroot, rfl, rfl, by decide⟩⟩
  obtain ⟨-, hroom, -⟩ := hfits (show 1 + 2 ≤ 3 by decide)
  dsimp only [copying] at hroom
  rw [hroot] at hroom
  obtain ⟨heap, hrun, hcopied⟩ := hroom fun i _ => h.refs_le i
  refine ⟨_, heap, ?_, hrun, hcopied⟩
  change arrayData h 0x10000000 = _
  rw [arrayData, hroot]
  rfl

/-- An overwritten list is freed, and the list it ends in loses a reference that no element was;
an array of words reaches past the end of a slice of bytes; an index below zero counts as zero. -/
theorem copy_reaches_further :
    (∃ vm vm', opSlicela vm = .ok () vm' ∧
      liveWords vm.heap (arrayData vm.heap 0x10000002) [0] = [0x10000001] ∧
      liveWords vm.heap (arrayData vm.heap 0x10000003) [0] = [] ∧
      vm.heap.refs 0x10000000 = 2 ∧ vm'.heap.refs 0x10000000 = 1) ∧
    (∃ vm vm', opSlicela vm = .ok () vm' ∧
      sliceTarget vm.heap 0x10000001 = some (0x10000000, 0, 1) ∧
      arrayData vm.heap 0x10000000 = [0, 0, 0, 0] ∧ arrayData vm'.heap 0x10000000 = [1, 2, 3, 4]) ∧
    ∃ vm vm', opSlicela vm = .ok () vm' ∧ vm.readWordAt vm.mid vm.immMid = -1 ∧
      arrayData vm.heap 0x10000000 = [0] ∧ arrayData vm'.heap 0x10000000 = [5] := by
  refine ⟨?_, ?_, ?_⟩
  · refine exists_run [⟨1, 0, none, .array 0 4 [0, 0, 0, 0] 1⟩,
      ⟨1, 0, none, .array 0 4 [1, 0, 0, 0x10] 1⟩, ⟨1, 0, none, .list [] 0x10000000⟩,
      ⟨2, 0, none, .list [] 0⟩] (copying 0x10000003 0 0x10000002) opSlicela (fun vm vm' => _ ∧ _) ?_
    decide +kernel
  · refine exists_run [⟨1, 0, none, .array 0 4 [1, 2, 3, 4] 1⟩,
      ⟨1, 0, none, .arraySlice 0x10000000 0 0 1 1⟩, ⟨2, 0, none, .array 0 1 [0, 0, 0, 0] 4⟩]
      (copying 0x10000002 0 0x10000001) opSlicela (fun vm vm' => _ ∧ _) ?_
    decide +kernel
  · refine exists_run [⟨1, 0, none, .array 0 1 [5] 1⟩, ⟨1, 0, none, .array 0 1 [0] 1⟩]
      (copying 0x10000001 (-1) 0x10000000) opSlicela (fun vm vm' => _ ∧ _) ?_
    decide +kernel

end RiceVM
