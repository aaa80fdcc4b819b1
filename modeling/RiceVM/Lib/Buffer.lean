import Mathlib.Algebra.Order.Ring.Int

/-!
Flat buffers: reading and overwriting a range, and numbers laid out in a buffer
of bytes with the least significant byte first.
-/
namespace Buffer
variable {α : Type}

/-- The `len` elements from `off`, fewer where the buffer ends first. -/
def slice (buf : List α) (off len : Nat) : List α := (buf.drop off).take len

/-- Overwrite the range at `off`; meant for a range inside the buffer. -/
def splice (buf : List α) (off : Nat) (vals : List α) : List α :=
  buf.take off ++ vals ++ buf.drop (off + vals.length)

/-- Overwrite as much of the range at `off` as the buffer holds. -/
def overlay (buf : List α) (off : Nat) (vals : List α) : List α :=
  splice buf off (vals.take (buf.length - off))

/-- Read `len` elements, with `fill` for those past the end. -/
def padded (fill : α) (buf : List α) (off len : Nat) : List α :=
  slice buf off len ++ List.replicate (len - (slice buf off len).length) fill

theorem length_slice (buf : List α) (off len : Nat) :
    (slice buf off len).length = min len (buf.length - off) := by
  simp only [slice, List.length_take, List.length_drop]

@[simp] theorem length_padded (fill : α) (buf : List α) (off len : Nat) :
    (padded fill buf off len).length = len := by
  simp only [padded, List.length_append, List.length_replicate, length_slice]
  omega

theorem length_splice {buf vals : List α} {off : Nat} (h : off + vals.length ≤ buf.length) :
    (splice buf off vals).length = buf.length := by
  simp only [splice, List.length_append, List.length_take, List.length_drop]
  omega

theorem splice_nil (buf : List α) (off : Nat) : splice buf off [] = buf := by
  rw [splice, List.append_nil, List.length_nil, Nat.add_zero, List.take_append_drop]

/-- Inside the buffer nothing is cut. -/
theorem overlay_of_le {buf vals : List α} {off : Nat} (h : off + vals.length ≤ buf.length) :
    overlay buf off vals = splice buf off vals := by
  rw [overlay, List.take_of_length_le (by omega)]

@[simp] theorem length_overlay (buf : List α) (off : Nat) (vals : List α) :
    (overlay buf off vals).length = buf.length := by
  simp only [overlay, splice, List.length_append, List.length_take, List.length_drop]
  omega

theorem getElem?_splice {buf vals : List α} {off : Nat} (h : off + vals.length ≤ buf.length)
    (i : Nat) :
    (splice buf off vals)[i]? =
      if off ≤ i ∧ i < off + vals.length then vals[i - off]? else buf[i]? := by
  have ht : (buf.take off).length = off := by rw [List.length_take]; omega
  simp only [splice]
  by_cases h₁ : i < off
  · rw [List.append_assoc, List.getElem?_append_left (by omega), List.getElem?_take_of_lt h₁,
      if_neg (by omega)]
  · by_cases h₂ : i < off + vals.length
    · rw [List.append_assoc, List.getElem?_append_right (by omega), ht,
        List.getElem?_append_left (by omega), if_pos ⟨by omega, h₂⟩]
    · rw [List.getElem?_append_right (by rw [List.length_append]; omega), List.length_append, ht,
        List.getElem?_drop, if_neg (by omega)]
      congr 1
      omega

/-- Two ranges overwritten side by side. -/
theorem splice_splice_append {buf vals rest : List α} {off : Nat}
    (h : off + vals.length ≤ buf.length) :
    splice (splice buf off vals) (off + vals.length) rest = splice buf off (vals ++ rest) := by
  have hlow : (buf.take off ++ vals).length = off + vals.length := by
    rw [List.length_append, List.length_take]
    omega
  have htake : (splice buf off vals).take (off + vals.length) = buf.take off ++ vals := by
    rw [splice, ← hlow, List.take_left]
  have hdrop : (splice buf off vals).drop (off + vals.length + rest.length) =
      buf.drop (off + (vals ++ rest).length) := by
    rw [splice, ← List.drop_drop, ← hlow, List.drop_left, hlow, List.drop_drop,
      List.length_append, Nat.add_assoc]
  rw [splice, htake, hdrop, List.append_assoc (buf.take off), splice]

theorem slice_splice_self {buf vals : List α} {off : Nat} (h : off + vals.length ≤ buf.length) :
    slice (splice buf off vals) off vals.length = vals := by
  have ht : (buf.take off).length = off := by rw [List.length_take]; omega
  rw [slice, splice, List.append_assoc, List.drop_left' ht, List.take_left]

/-- Overwriting one range leaves a disjoint one alone. -/
theorem slice_splice_disjoint {buf vals : List α} {off i n : Nat}
    (h : off + vals.length ≤ buf.length) (hd : i + n ≤ off ∨ off + vals.length ≤ i) :
    slice (splice buf off vals) i n = slice buf i n := by
  apply List.ext_getElem?
  intro k
  simp only [slice, List.getElem?_take, List.getElem?_drop]
  split
  · rw [getElem?_splice h, if_neg (by omega)]
  · rfl

/-- A range around what was overwritten is the old range with the new elements in it. -/
theorem slice_splice_around {buf vals : List α} {off before after : Nat}
    (h : off + before + vals.length + after ≤ buf.length) :
    slice (splice buf (off + before) vals) off (before + vals.length + after) =
      slice buf off before ++ vals ++ slice buf (off + before + vals.length) after := by
  have hlow : ((buf.drop off).take before).length = before := by
    rw [List.length_take, List.length_drop]
    omega
  have hsum : off + before - off = before := by omega
  have hdrop : (splice buf (off + before) vals).drop off =
      (buf.drop off).take before ++ (vals ++ buf.drop (off + before + vals.length)) := by
    rw [splice, List.append_assoc, List.drop_append_of_le_length (by rw [List.length_take]; omega),
      List.drop_take, hsum]
  have htake : (vals ++ buf.drop (off + before + vals.length)).take (vals.length + after) =
      vals ++ slice buf (off + before + vals.length) after := List.take_length_add_append _
  have hfirst : before + vals.length + after =
      ((buf.drop off).take before).length + (vals.length + after) := by omega
  rw [slice, hdrop, hfirst, List.take_length_add_append, htake, ← List.append_assoc]
  rfl

theorem slice_take {buf : List α} {off len n : Nat} (h : off + len ≤ n) :
    slice (buf.take n) off len = slice buf off len := by
  apply List.ext_getElem?
  intro i
  simp only [slice, List.getElem?_take, List.getElem?_drop]
  split
  · rw [if_pos (by omega)]
  · rfl

theorem slice_append {buf rest : List α} {off len : Nat} (h : off + len ≤ buf.length) :
    slice (buf ++ rest) off len = slice buf off len := by
  rw [slice, slice, List.drop_append_of_le_length (by omega),
    List.take_append_of_le_length (by rw [List.length_drop]; omega)]

theorem splice_append_right (low buf : List α) (off : Nat) (vals : List α) :
    splice (low ++ buf) (low.length + off) vals = low ++ splice buf off vals := by
  simp only [splice, List.append_assoc, List.take_append, List.drop_append]
  have htake : low.take (low.length + off) = low := List.take_of_length_le (by omega)
  have hdrop : low.drop (low.length + off + vals.length) = [] := List.drop_of_length_le (by omega)
  rw [htake, hdrop, List.nil_append, Nat.add_sub_cancel_left]
  congr 4
  omega

theorem splice_append_left {buf : List α} {off : Nat} {vals : List α}
    (h : off + vals.length ≤ buf.length) (high : List α) :
    splice (buf ++ high) off vals = splice buf off vals ++ high := by
  simp only [splice, List.append_assoc]
  rw [List.take_append_of_le_length (by omega), List.drop_append_of_le_length (by omega)]

/-! Numbers in bytes, least significant first. -/

def leNat : List (BitVec 8) → Nat
  | [] => 0
  | b :: bs => b.toNat + 256 * leNat bs

def leBytes : Nat → Nat → List (BitVec 8)
  | 0, _ => []
  | k + 1, n => BitVec.ofNat 8 n :: leBytes k (n / 256)

@[simp] theorem length_leBytes (k n : Nat) : (leBytes k n).length = k := by
  induction k generalizing n with
  | zero => rfl
  | succ k ih => simp only [leBytes, List.length_cons, ih]

theorem leNat_leBytes (k n : Nat) : leNat (leBytes k n) = n % 256 ^ k := by
  induction k generalizing n with
  | zero => simp only [leBytes, leNat, Nat.pow_zero, Nat.mod_one]
  | succ k ih =>
      simp only [leBytes, leNat, ih, BitVec.toNat_ofNat]
      have hp : 256 ^ (k + 1) = 256 * 256 ^ k := Nat.pow_succ'
      rw [hp, Nat.mod_mul]

end Buffer
