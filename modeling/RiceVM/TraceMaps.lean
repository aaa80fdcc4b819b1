import RiceVM.Heap

/-!
The slots a trace map names: the words of each element whose bit is set, as far as they lie in
the element and in the buffer, in their order.
-/
namespace RiceVM.TraceMap

/-- Within one element, the word that bit `i` of byte `j` of the map stands for. -/
def slot (j i : Nat) : Nat := 4 * (8 * j + i)

section
variable {mapBytes : List Byte} {stride bufLen offset : Nat}

theorem mem_offsets_new :
    offset ∈ (new mapBytes stride).offsets ↔
      ∃ j i mapByte, mapBytes[j]? = some mapByte ∧ i < 8 ∧ mapByte.getMsbD i = true ∧
        offset = slot j i ∧ slot j i + 4 ≤ stride := by
  have hslot (j i : Nat) : (j * 8 + i) * 4 = slot j i := by
    rw [slot]
    omega
  unfold new
  simp only [List.mem_flatMap, List.mem_filterMap, List.mem_range, Prod.exists,
    List.mem_zipIdx_iff_getElem?, hslot, Option.ite_none_right_eq_some, Bool.and_eq_true,
    decide_eq_true_eq, Option.some.injEq]
  constructor
  · rintro ⟨mapByte, j, hbyte, i, hi, ⟨hbit, hfits⟩, rfl⟩
    exact ⟨j, i, mapByte, hbyte, hi, hbit, rfl, hfits⟩
  · rintro ⟨j, i, mapByte, hbyte, hi, hbit, rfl, hfits⟩
    exact ⟨mapByte, j, hbyte, i, hi, ⟨hbit, hfits⟩, rfl⟩

/-- A bit past the end of the element describes nothing. -/
theorem fits_of_mem_offsets (h : offset ∈ (new mapBytes stride).offsets) : offset + 4 ≤ stride := by
  obtain ⟨j, i, mapByte, -, -, -, rfl, hfits⟩ := mem_offsets_new.mp h
  exact hfits

/-- The bits are read from the first byte on, each from its most significant bit on. -/
theorem offsets_new_increasing (mapBytes : List Byte) (stride : Nat) :
    (new mapBytes stride).offsets.Pairwise (· < ·) := by
  unfold new
  refine List.pairwise_flatMap.mpr ⟨fun ⟨mapByte, j⟩ _ => ?_, ?_⟩
  · rw [List.pairwise_filterMap]
    refine List.pairwise_lt_range.imp fun hlt a ha b hb => ?_
    simp only [Option.ite_none_right_eq_some, Option.some.injEq] at ha hb
    omega
  · have hindex : mapBytes.zipIdx.Pairwise fun a b => a.2 < b.2 := by
      rw [List.pairwise_iff_getElem]
      intro m n hm hn hlt
      rw [List.getElem_zipIdx, List.getElem_zipIdx]
      exact Nat.add_lt_add_left hlt 0
    refine hindex.imp fun {a b} hlt x hx y hy => ?_
    obtain ⟨i, hi, hx⟩ := List.mem_filterMap.mp hx
    obtain ⟨i', -, hy⟩ := List.mem_filterMap.mp hy
    simp only [Option.ite_none_right_eq_some, Option.some.injEq] at hx hy
    rw [List.mem_range] at hi
    omega

/-- Every slot of the buffer lies in one of the elements that are looked at. -/
theorem lt_elements {k n : Nat} (hpos : 0 < stride) (h : k * stride + n < bufLen) :
    k < (bufLen + stride - 1) / stride := by
  rw [Nat.lt_iff_add_one_le, Nat.le_div_iff_mul_le hpos, Nat.add_mul, Nat.one_mul]
  omega

theorem mem_pointerOffsets {m : TraceMap} :
    offset ∈ m.pointerOffsets bufLen ↔
      m.stride ≠ 0 ∧ ∃ k, ∃ inner ∈ m.offsets,
        k < (bufLen + m.stride - 1) / m.stride ∧ offset = k * m.stride + inner ∧
          offset + 4 ≤ bufLen := by
  unfold pointerOffsets
  simp only [List.mem_flatMap, List.mem_filter, List.mem_map, List.mem_range, decide_eq_true_eq]
  by_cases hzero : m.stride = 0
  · rw [if_pos hzero]
    simp [hzero]
  · rw [if_neg hzero]
    constructor
    · rintro ⟨k, hk, ⟨inner, hinner, rfl⟩, hfits⟩
      exact ⟨hzero, k, inner, hinner, hk, rfl, hfits⟩
    · rintro ⟨-, k, inner, hinner, hk, rfl, hfits⟩
      exact ⟨k, hk, ⟨inner, hinner, rfl⟩, hfits⟩

theorem pointerOffsets_increasing {m : TraceMap} (hsorted : m.offsets.Pairwise (· < ·))
    (hinside : ∀ inner ∈ m.offsets, inner + 4 ≤ m.stride) :
    (m.pointerOffsets bufLen).Pairwise (· < ·) := by
  unfold pointerOffsets
  refine List.pairwise_flatMap.mpr ⟨fun k _ => ?_, ?_⟩
  · refine List.Pairwise.filter _ (List.pairwise_map.mpr ?_)
    exact hsorted.imp fun hlt => Nat.add_lt_add_left hlt _
  · refine List.pairwise_lt_range.imp fun {k k'} hlt x hx y hy => ?_
    obtain ⟨inner, hinner, rfl⟩ := List.mem_map.mp (List.mem_of_mem_filter hx)
    obtain ⟨inner', -, rfl⟩ := List.mem_map.mp (List.mem_of_mem_filter hy)
    -- the element ends before the next one begins
    have hnext : (k + 1) * m.stride ≤ k' * m.stride := Nat.mul_le_mul_right _ hlt
    have hend := hinside inner hinner
    rw [Nat.add_mul, Nat.one_mul] at hnext
    omega

end

/-- A map names the words whose bits are set, in each element and in the buffer, and no others. -/
theorem pointerOffsets_exact (mapBytes : List Byte) (stride bufLen : Nat) :
    (∀ offset, offset ∈ (new mapBytes stride).pointerOffsets bufLen ↔
      ∃ k j i mapByte, mapBytes[j]? = some mapByte ∧ i < 8 ∧ mapByte.getMsbD i = true ∧
        offset = k * stride + slot j i ∧ slot j i + 4 ≤ stride ∧ offset + 4 ≤ bufLen) ∧
    ((new mapBytes stride).pointerOffsets bufLen).Pairwise (· < ·) ∧
    ((new mapBytes stride).pointerOffsets bufLen).Nodup := by
  have hincreasing : ((new mapBytes stride).pointerOffsets bufLen).Pairwise (· < ·) :=
    pointerOffsets_increasing (offsets_new_increasing mapBytes stride) fun _ => fits_of_mem_offsets
  refine ⟨fun offset => ?_, hincreasing, hincreasing.imp Nat.ne_of_lt⟩
  rw [mem_pointerOffsets]
  constructor
  · rintro ⟨-, k, inner, hinner, -, rfl, hbuf⟩
    obtain ⟨j, i, mapByte, hbyte, hi, hbit, rfl, hfits⟩ := mem_offsets_new.mp hinner
    exact ⟨k, j, i, mapByte, hbyte, hi, hbit, rfl, hfits, hbuf⟩
  · rintro ⟨k, j, i, mapByte, hbyte, hi, hbit, rfl, hfits, hbuf⟩
    have hpos : 0 < stride := by omega
    have hk : k < (bufLen + stride - 1) / stride := lt_elements (n := slot j i) hpos (by omega)
    refine ⟨Nat.ne_of_gt hpos, k, slot j i, ?_, hk, rfl, hbuf⟩
    exact mem_offsets_new.mpr ⟨j, i, mapByte, hbyte, hi, hbit, rfl, hfits⟩

example : (new [0b10000001] 32).pointerOffsets 40 = [0, 28, 32] := by decide

end RiceVM.TraceMap
