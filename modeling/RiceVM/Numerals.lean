import RiceVM.Locations
import RiceVM.Ops.Convert

/-!
Numbers and their texts: a number that is converted to a string and back is itself, and a string
is read up to the end of the number it begins with.
-/
namespace RiceVM
open Exec Memory Ops

namespace Heap

/-- An object is freed once at most, for no object owns more than one reference. -/
theorem length_childRefs_le (d : HeapData) : d.childRefs.length ≤ 1 := by
  cases d with
  | list _ tail =>
      rw [HeapData.childRefs]
      split
      · exact Nat.zero_le 1
      · exact Nat.le_refl 1
  | arraySlice parentId =>
      rw [HeapData.childRefs]
      split
      · exact Nat.zero_le 1
      · exact Nat.le_refl 1
  | _ => exact Nat.zero_le 1

/-- One release does not free an object that has another reference. -/
theorem get_decRefLoop_shared {h : Heap} {n : HeapId} {obj : HeapObject} (fuel : Nat)
    {pending : List HeapId} (hone : pending.length ≤ 1) (hget : h.get n = some obj)
    (hcount : 1 < obj.refCount.toNat) :
    ∃ obj', (h.decRefLoop fuel pending).get n = some obj' ∧ obj'.data = obj.data := by
  induction fuel generalizing h pending with
  | zero => exact ⟨obj, hget, rfl⟩
  | succ fuel ih =>
      match pending, hone with
      | [], _ => exact ⟨obj, hget, rfl⟩
      | [id], _ =>
          rw [decRefLoop]
          cases hlookup : h.objects.lookup id with
          | none => exact ih (Nat.zero_le 1) hget
          | some freed =>
              dsimp only
              by_cases hfree : freed.refCount.toNat ≤ 1 ∧ ¬ freed.data.isPermanent
              · rw [if_pos hfree, List.append_nil]
                refine ih (length_childRefs_le freed.data) ?_
                rw [get_remove, if_neg]
                · exact hget
                · rintro rfl
                  rw [get] at hget
                  split at hget
                  · cases hget
                  · rw [hlookup] at hget
                    cases hget
                    omega
              · rw [if_neg hfree, decRefLoop_nil, get_update, hget]
                split <;> exact ⟨_, rfl, rfl⟩

theorem get_decRef_shared {h : Heap} {n : HeapId} {obj : HeapObject} (id : HeapId)
    (hget : h.get n = some obj) (hcount : 1 < obj.refCount.toNat) :
    ∃ obj', (h.decRef id).get n = some obj' ∧ obj'.data = obj.data := by
  unfold decRef
  split
  · exact ⟨obj, hget, rfl⟩
  · exact get_decRefLoop_shared _ (Nat.le_refl 1) hget hcount

/-- Words are stored in records and arrays only. -/
theorem get_heapWrite_str {h : Heap} {n : HeapId} {obj : HeapObject} {s : String}
    (hget : h.get n = some obj) (hs : obj.data = .str s) (id : HeapId) (offset : Nat)
    (bytes : List Byte) : (h.heapWrite id offset bytes).get n = some obj := by
  unfold heapWrite
  generalize h.objects.entries.length + 1 = fuel
  induction fuel generalizing id offset with
  | zero => exact hget
  | succ fuel ih =>
      have hother {target : HeapObject} (htarget : h.get id = some target)
          (hne : target.data ≠ .str s) : n ≠ id := by
        rintro rfl
        rw [hget] at htarget
        cases htarget
        exact hne hs
      simp only [heapWriteLoop]
      split
      · exact hget
      · next target htarget =>
          split
          · exact ih _ _
          all_goals first
            | exact hget
            | next hdata =>
                split
                · rw [get_update, if_neg (hother htarget (by simp [hdata]))]
                  exact hget
                · exact hget

end Heap

theorem writeWordAt_str {target : AddrTarget} {val : Word} {vm vm' : VmState} {n : HeapId}
    {obj : HeapObject} {s : String} (hget : vm.heap.get n = some obj) (hs : obj.data = .str s)
    (h : writeWordAt target val vm = .ok () vm') : vm'.heap.get n = some obj := by
  unfold writeWordAt writeAt at h
  cases target with
  | immediate => cases h
  | heapArray id offset =>
      cases h
      exact Heap.get_heapWrite_str hget hs _ _ _
  | frame | mp | moduleMp | none =>
      cases h
      rw [heap_modifyBuffer]
      exact hget

theorem getString_of_get {h : Heap} {id : HeapId} {obj : HeapObject} {s : String}
    (hget : h.get id = some obj) (hs : obj.data = .str s) : h.getString id = some s := by
  obtain ⟨_, _, _, data⟩ := obj
  cases hs
  rw [Heap.getString, hget]

theorem readWordAt_of_buffer {vm : VmState} {target : AddrTarget} {buf : List Byte} {off : Nat}
    (imm : Word) (h : vm.buffer? target = some (buf, off)) :
    vm.readWordAt target imm = readWord buf off := by
  cases target with
  | frame | mp | moduleMp =>
      unfold VmState.readWordAt VmState.readAt
      dsimp only
      rw [h]
      rfl
  | heapArray | immediate | none => cases h

/-- A word that is stored in a buffer is there. -/
theorem writeWordAt_buffer {vm vm' : VmState} {target : AddrTarget} {val : Word} {buf : List Byte}
    {off : Nat} (hbuf : vm.buffer? target = some (buf, off))
    (h : writeWordAt target val vm = .ok () vm') :
    vm'.buffer? target = some (writeWord buf off val, off) := by
  unfold writeWordAt writeAt at h
  cases target with
  | frame | mp | moduleMp =>
      cases h
      rw [VmState.buffer?_modifyBuffer, hbuf]
      rfl
  | heapArray | immediate | none => cases hbuf

/-- What a conversion to a string leaves: the text under the new id, which the destination holds
where it is a place for a word. -/
theorem moveStringToDst_text {t : String} {vm vm' : VmState}
    (h : moveStringToDst t vm = .ok () vm') :
    vm'.heap.getString vm.heap.nextId = some t ∧
      ∀ buf off, vm.buffer? vm.dst = some (buf, off) → off + 4 ≤ buf.length →
        vm'.readWordAt vm.dst vm.immDst = vm.heap.nextId := by
  obtain ⟨newId, u, halloc, hmove⟩ := bind_eq_ok.mp h
  obtain ⟨heap, ha, rfl⟩ := alloc_eq_ok halloc
  obtain ⟨rfl, -, hget⟩ := Heap.alloc_cases ha
  obtain ⟨v, hstore, rfl⟩ := movePtrToDst_cases hmove
  have hnew : (heap.addRef vm.heap.nextId).get vm.heap.nextId = some ⟨2, 0, none, .str t⟩ := by
    rw [Heap.get_addRef, if_pos rfl, hget, if_pos rfl]
    rfl
  constructor
  · have hstored : v.heap.get vm.heap.nextId = some ⟨2, 0, none, .str t⟩ :=
      writeWordAt_str hnew rfl hstore
    obtain ⟨obj, hkept, hdata⟩ := Heap.get_decRef_shared _ hstored (Nat.lt_succ_self 1)
    exact getString_of_get hkept hdata
  · intro buf off hbuf hin
    have hstart : VmState.buffer? { vm with heap := heap.addRef vm.heap.nextId } vm.dst =
        some (buf, off) := hbuf
    have hthere := writeWordAt_buffer hstart hstore
    refine (readWordAt_of_buffer vm.immDst ?_).trans (readWord_writeWord_self vm.heap.nextId hin)
    exact hthere

theorem opCvtcw_apply {u : VmState} {s : String}
    (h : u.heap.getString (u.readWordAt u.src u.immSrc) = some s) :
    opCvtcw u = setDstWord (strtolWord s) u := by
  unfold opCvtcw srcPtr
  rw [bind_ok (srcWord_apply u), bind_ok (get_apply u), h]
  rfl

theorem opCvtcl_apply {u : VmState} {s : String}
    (h : u.heap.getString (u.readWordAt u.src u.immSrc) = some s) :
    opCvtcl u = setDstBig (BitVec.ofInt 64 (parseStrtol s)) u := by
  unfold opCvtcl srcPtr
  rw [bind_ok (srcWord_apply u), bind_ok (get_apply u), h]
  rfl

theorem strtolWord_toString (w : Word) : strtolWord (toString w.toInt) = w := by
  have hle : -2 ^ 31 ≤ w.toInt := BitVec.le_toInt w
  have hlt : w.toInt < 2 ^ 31 := BitVec.toInt_lt
  rw [strtolWord_eq, leadingInt_toString, Int.min_eq_right (by omega), Int.max_eq_right hle,
    BitVec.ofInt_toInt]

theorem parseStrtol_big (b : Big) : BitVec.ofInt 64 (parseStrtol (toString b.toInt)) = b := by
  have hle : -2 ^ 63 ≤ b.toInt := BitVec.le_toInt b
  have hlt : b.toInt < 2 ^ 63 := BitVec.toInt_lt
  rw [parseStrtol_toString ⟨hle, Int.le_sub_one_of_lt hlt⟩, BitVec.ofInt_toInt]

/-- A number that was converted to a string is read back from it, by whatever instruction has the
string for its source. Any string is read as the number it begins with, saturated. -/
theorem conversions_invert :
    (∀ vm vm' : VmState, opCvtwc vm = .ok () vm' →
      (∀ buf off, vm.buffer? vm.dst = some (buf, off) → off + 4 ≤ buf.length →
        vm'.readWordAt vm.dst vm.immDst = vm.heap.nextId) ∧
      ∀ u : VmState, u.heap = vm'.heap → u.readWordAt u.src u.immSrc = vm.heap.nextId →
        opCvtcw u = setDstWord (vm.readWordAt vm.src vm.immSrc) u) ∧
    (∀ vm vm' : VmState, opCvtlc vm = .ok () vm' →
      (∀ buf off, vm.buffer? vm.dst = some (buf, off) → off + 4 ≤ buf.length →
        vm'.readWordAt vm.dst vm.immDst = vm.heap.nextId) ∧
      ∀ u : VmState, u.heap = vm'.heap → u.readWordAt u.src u.immSrc = vm.heap.nextId →
        opCvtcl u = setDstBig (vm.readBigAt vm.src vm.immSrc) u) ∧
    ∀ (u : VmState) s, u.heap.getString (u.readWordAt u.src u.immSrc) = some s →
      opCvtcw u = setDstWord
        (.ofInt 32 (max (-2 ^ 31) (min (2 ^ 31 - 1) (leadingInt s.toList)))) u ∧
      opCvtcl u = setDstBig
        (.ofInt 64 (max (-2 ^ 63) (min (2 ^ 63 - 1) (leadingInt s.toList)))) u := by
  refine ⟨fun vm vm' h => ?_, fun vm vm' h => ?_, fun u s hs => ⟨?_, ?_⟩⟩
  · obtain ⟨htext, hstored⟩ := moveStringToDst_text h
    refine ⟨hstored, fun u hheap hsrc => ?_⟩
    rw [← hheap, ← hsrc] at htext
    rw [opCvtcw_apply htext, strtolWord_toString]
  · obtain ⟨htext, hstored⟩ := moveStringToDst_text h
    refine ⟨hstored, fun u hheap hsrc => ?_⟩
    rw [← hheap, ← hsrc] at htext
    rw [opCvtcl_apply htext, parseStrtol_big]
  · rw [opCvtcw_apply hs, strtolWord_eq]
  · rw [opCvtcl_apply hs, parseStrtol_eq]
    rfl

/-- The least word and the least big there and back, and a text that goes on after its number. -/
theorem least_numbers_invert :
    (∃ vm vm' : VmState, vm.readWordAt vm.src vm.immSrc = 0x80000000 ∧
      opCvtwc vm = .ok () vm' ∧
      opCvtcw { vm' with src := vm.dst } = setDstWord 0x80000000 { vm' with src := vm.dst }) ∧
    (∃ vm vm' : VmState, vm.readBigAt vm.src vm.immSrc = 0x8000000000000000 ∧
      opCvtlc vm = .ok () vm' ∧
      opCvtcl { vm' with src := vm.dst } =
        setDstBig 0x8000000000000000 { vm' with src := vm.dst }) ∧
    ∃ u : VmState, opCvtcw u = setDstWord (-12) u ∧ opCvtcl u = setDstBig (-12) u := by
  obtain ⟨hword, hbig, hread⟩ := conversions_invert
  refine ⟨?_, ?_, ?_⟩
  · obtain ⟨vm, vm', hrun, hsrc, hdst⟩ := exists_run []
      (fun vm => { vm with
        mp := [0, 0, 0, 0], dst := .mp 0, src := .immediate, immSrc := 0x80000000 }) opCvtwc
      (fun vm vm' => vm.readWordAt vm.src vm.immSrc = 0x80000000 ∧
        vm'.readWordAt vm.dst vm'.immSrc = vm.heap.nextId) (by decide +kernel)
    have hback := (hword vm vm' hrun).2 { vm' with src := vm.dst } rfl hdst
    rw [hsrc] at hback
    exact ⟨vm, vm', hsrc, hrun, hback⟩
  · obtain ⟨vm, vm', hrun, hsrc, hdst⟩ := exists_run []
      (fun vm => { vm with
        mp := [0, 0, 0, 0, 0, 0, 0, 0x80, 0, 0, 0, 0], dst := .mp 8, src := .mp 0 }) opCvtlc
      (fun vm vm' => vm.readBigAt vm.src vm.immSrc = 0x8000000000000000 ∧
        vm'.readWordAt vm.dst vm'.immSrc = vm.heap.nextId) (by decide +kernel)
    have hback := (hbig vm vm' hrun).2 { vm' with src := vm.dst } rfl hdst
    rw [hsrc] at hback
    exact ⟨vm, vm', hsrc, hrun, hback⟩
  · obtain ⟨u, -, -, htext⟩ := exists_run [⟨1, 0, none, .str "\t -12 apples"⟩]
      (fun vm => { vm with src := .immediate, immSrc := 0x10000000 }) (pure ())
      (fun u _ => u.heap.getString (u.readWordAt u.src u.immSrc) = some "\t -12 apples")
      (by decide +kernel)
    obtain ⟨hcvtcw, hcvtcl⟩ := hread u _ htext
    have hnumber : leadingInt "\t -12 apples".toList = -12 := by decide
    rw [hnumber] at hcvtcw hcvtcl
    exact ⟨u, hcvtcw, hcvtcl⟩

end RiceVM
