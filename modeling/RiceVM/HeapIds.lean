import RiceVM.Address

/-!
The ids the heap hands out. The counter starts above every other window of the
address space and never comes back, but nothing keeps it below the flag that marks
a reference into an array.
-/
namespace RiceVM

/-- An address word that can only be a heap id: it is not nil, it lies above the frames and
the module data, it does not carry the heap reference flag, and it decodes to the object. -/
structure Distinguishable (id : HeapId) : Prop where
  notNil : id ≠ nil
  above : mpLimit ≤ id.toNat
  unflagged : id.msb = false
  decodes : ∀ register2, decodeVirtualAddr id register2 = .heapArray id register2

theorem distinguishable_iff {id : HeapId} (h : heapIdBase ≤ id) :
    Distinguishable id ↔ id < 0x80000000 := by
  have hbase : 0x10000000 ≤ id.toNat := h
  constructor
  · intro hd
    have hlt := BitVec.msb_eq_false_iff_two_mul_lt.mp hd.unflagged
    change id.toNat < 0x80000000
    omega
  · intro hlt
    have hlt : id.toNat < 0x80000000 := hlt
    have hmsb : id.msb = false := BitVec.msb_eq_false_iff_two_mul_lt.mpr (by omega)
    have hne : id ≠ 0 := by
      rintro rfl
      simp at hbase
    have hheap : heapIdBase.toNat ≤ id.toNat := h
    refine ⟨hne, ?_, hmsb, fun register2 => ?_⟩
    · simp only [mpLimit, mpBase, maxModules, mpStride]
      omega
    · simp only [decodeVirtualAddr, if_neg hne, hmsb, Bool.false_eq_true, if_false, if_pos hheap]

theorem nextId_alloc {h h' : Heap} {typeId : BitVec 32} {data : HeapData}
    {trace : Option TraceMap} {id : HeapId} (ha : h.alloc typeId data trace = some (id, h')) :
    h'.nextId = id + 1 := by
  unfold Heap.alloc at ha
  split at ha
  · cases ha
    rfl
  · cases ha

/-- An allocation returns an id that no object uses. The id is fit for an address exactly
while the counter has not reached the heap reference flag, whatever the heap holds. -/
theorem alloc_id_iff {h h' : Heap} {typeId : BitVec 32} {data : HeapData}
    {trace : Option TraceMap} {id : HeapId} (ha : h.alloc typeId data trace = some (id, h')) :
    (h.get id = none ∧ h'.get id = some ⟨1, typeId, trace, data⟩ ∧ h'.nextId = id + 1) ∧
      (Distinguishable id ↔ h.nextId < 0x80000000) := by
  obtain ⟨hid, _, hget⟩ := Heap.alloc_cases ha
  refine ⟨⟨?_, ?_, nextId_alloc ha⟩, ?_⟩
  · exact Heap.get_of_nextId_le (hid ▸ BitVec.le_refl _)
  · rw [hget, if_pos rfl]
  · rw [hid]
    exact distinguishable_iff h.base

/-- Heaps a program can reach with `n` allocations. -/
inductive Heap.After : Nat → Heap → Prop
  | new : Heap.After 0 Heap.new
  | alloc {n : Nat} {h h' : Heap} {typeId : BitVec 32} {data : HeapData}
      {trace : Option TraceMap} {id : HeapId} : Heap.After n h →
      h.alloc typeId data trace = some (id, h') → Heap.After (n + 1) h'
  | update {n : Nat} {h : Heap} (id : HeapId) (f : HeapObject → HeapObject) :
      Heap.After n h → Heap.After n (h.update id f)
  | remove {n : Nat} {h : Heap} (id : HeapId) : Heap.After n h → Heap.After n (h.remove id)
  | sweep {n : Nat} {h : Heap} (marked : HeapId → Bool) :
      Heap.After n h → Heap.After n (h.sweep marked)

theorem alloc_id_iff_first : Distinguishable heapIdBase := by
  obtain ⟨h', ha⟩ : ∃ h', Heap.new.alloc 0 (.str "") none = some (heapIdBase, h') := ⟨_, rfl⟩
  exact (alloc_id_iff ha).2.mpr (by decide)

theorem exists_after (n : Nat) (hn : n ≤ 0x70000000) :
    ∃ h, Heap.After n h ∧ h.nextId.toNat = 0x10000000 + n := by
  induction n with
  | zero => exact ⟨Heap.new, .new, rfl⟩
  | succ n ih =>
      obtain ⟨h, hafter, hnext⟩ := ih (by omega)
      have hlt : h.nextId < h.nextId + 1 := by bv_omega
      have ha : ∃ h', h.alloc 0 (.str "") none = some (h.nextId, h') := by
        rw [Heap.alloc, dif_pos hlt]
        exact ⟨_, rfl⟩
      obtain ⟨h', ha⟩ := ha
      refine ⟨h', .alloc hafter ha, ?_⟩
      rw [nextId_alloc ha]
      bv_omega

/-- After 0x70000000 allocations the next id is a heap reference flag without an index. -/
theorem lateAlloc_undecodable : ∃ h h' id, Heap.After 0x70000000 h ∧
    h.alloc 0 (.str "") none = some (id, h') ∧ id.msb = true ∧ ¬ Distinguishable id ∧
    decodeVirtualAddr id 0 = .none := by
  obtain ⟨h, hafter, hnext⟩ := exists_after 0x70000000 (Nat.le_refl _)
  have hid : h.nextId = 0x80000000 := by bv_omega
  have hlt : h.nextId < h.nextId + 1 := by rw [hid]; decide
  refine ⟨h, _, h.nextId, hafter, dif_pos hlt, ?_⟩
  rw [hid]
  exact ⟨by decide, fun hd => absurd hd.unflagged (by decide), by decide⟩

end RiceVM
