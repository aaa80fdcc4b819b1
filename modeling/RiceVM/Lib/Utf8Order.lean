import RiceVM.Lib.Utf8

/-!
The order of strings by their bytes is their order by characters: UTF-8 puts the leading bits of a
character first, and longer characters after shorter ones.
-/
namespace RiceVM.Utf8

theorem byte_lt_iff {m n : Nat} (hm : m < 256) (hn : n < 256) :
    (UInt8.ofNat m).toBitVec < (UInt8.ofNat n).toBitVec ↔ m < n := by
  rw [BitVec.lt_def]
  simp [UInt8.ofNat, Nat.mod_eq_of_lt hm, Nat.mod_eq_of_lt hn]

theorem byte_eq_iff {m n : Nat} (hm : m < 256) (hn : n < 256) :
    (UInt8.ofNat m).toBitVec = (UInt8.ofNat n).toBitVec ↔ m = n := by
  rw [← BitVec.toNat_inj]
  simp [UInt8.ofNat, Nat.mod_eq_of_lt hm, Nat.mod_eq_of_lt hn]

/-- The bytes of a character come before those of a greater one, whatever follows them. -/
theorem encode_lt {c d : Char} (h : c < d) (xs ys : List (BitVec 8)) :
    encode c ++ xs < encode d ++ ys := by
  have hlt : c.val.toNat < d.val.toNat := UInt32.lt_iff_toNat_lt.mp h
  have hmax : d.val.toNat < 0x110000 := by
    have := d.valid
    rcases this with h | h <;> omega
  unfold encode String.utf8EncodeChar
  generalize c.val.toNat = v at *
  generalize d.val.toNat = w at *
  dsimp only
  have hv : v / 4096 = v / 64 / 64 ∧ v / 262144 % 8 = v / 64 / 64 / 64 := by omega
  have hw : w / 4096 = w / 64 / 64 ∧ w / 262144 % 8 = w / 64 / 64 / 64 := by omega
  rw [hv.1, hv.2, hw.1, hw.2]
  -- By the lengths of the two characters: of equal lengths the first byte that differs decides, of
  -- different ones the first byte does.
  split_ifs <;>
    simp (disch := omega) only [List.map_cons, List.map_nil, List.cons_append, List.nil_append,
      List.cons_lt_cons_iff, byte_lt_iff, byte_eq_iff] <;>
    omega

theorem append_lt_append_iff (l : List (BitVec 8)) {xs ys : List (BitVec 8)} :
    l ++ xs < l ++ ys ↔ xs < ys := by
  induction l with
  | nil => rfl
  | cons b l ih =>
      rw [List.cons_append, List.cons_append, List.cons_lt_cons_iff, ih]
      constructor
      · rintro (hlt | ⟨-, hlt⟩)
        · exact absurd hlt (BitVec.lt_irrefl b)
        · exact hlt
      · exact fun hlt => .inr ⟨rfl, hlt⟩

theorem flatMap_encode_lt_iff (cs ds : List Char) :
    cs.flatMap encode < ds.flatMap encode ↔ cs < ds := by
  induction cs generalizing ds with
  | nil =>
      cases ds with
      | nil => simp
      | cons d ds =>
          obtain ⟨lead, tails, hbytes⟩ := encode_cons d
          simp [hbytes]
  | cons c cs ih =>
      cases ds with
      | nil => simp
      | cons d ds =>
          rw [List.flatMap_cons, List.flatMap_cons, List.cons_lt_cons_iff]
          rcases Nat.lt_trichotomy c.val.toNat d.val.toNat with hlt | heq | hgt
          · have hlt : c < d := UInt32.lt_iff_toNat_lt.mpr hlt
            exact iff_of_true (encode_lt hlt _ _) (.inl hlt)
          · obtain rfl : c = d := Char.ext (UInt32.toNat_inj.mp heq)
            rw [append_lt_append_iff, ih]
            constructor
            · exact fun h => .inr ⟨rfl, h⟩
            · rintro (h | ⟨-, h⟩)
              · exact absurd h (Char.lt_irrefl c)
              · exact h
          · have hgt : d < c := UInt32.lt_iff_toNat_lt.mpr hgt
            have hbytes := encode_lt hgt (ds.flatMap encode) (cs.flatMap encode)
            refine iff_of_false (fun h => List.lt_asymm h hbytes) ?_
            rintro (h | ⟨rfl, -⟩)
            · exact Char.lt_asymm h hgt
            · exact Char.lt_irrefl c hgt

/-- Strings are ordered by their bytes as they are by their characters. -/
theorem asBytes_lt_iff {s t : String} : asBytes s < asBytes t ↔ s < t := by
  rw [asBytes_eq, asBytes_eq, flatMap_encode_lt_iff, String.lt_iff]

theorem asBytes_inj {s t : String} : asBytes s = asBytes t ↔ s = t := by
  constructor
  · intro h
    rw [← fromLossy_asBytes s, h, fromLossy_asBytes]
  · exact congrArg asBytes

/-- `<[u8]>::cmp`: the first byte that differs decides, else the length does. -/
def cmpBytes : List (BitVec 8) → List (BitVec 8) → Ordering
  | [], [] => .eq
  | [], _ :: _ => .lt
  | _ :: _, [] => .gt
  | a :: as, b :: bs => if a < b then .lt else if b < a then .gt else cmpBytes as bs

theorem cmpBytes_spec (xs ys : List (BitVec 8)) :
    (cmpBytes xs ys = .lt ↔ xs < ys) ∧ (cmpBytes xs ys = .gt ↔ ys < xs) ∧
      (cmpBytes xs ys = .eq ↔ xs = ys) := by
  induction xs generalizing ys with
  | nil => cases ys <;> simp [cmpBytes]
  | cons a xs ih =>
      cases ys with
      | nil => simp [cmpBytes]
      | cons b ys =>
          obtain ⟨hlt, hgt, heq⟩ := ih ys
          rw [cmpBytes, List.cons_lt_cons_iff, List.cons_lt_cons_iff, List.cons_eq_cons]
          by_cases hab : a < b
          · have hne : a ≠ b := BitVec.ne_of_lt hab
            have hba : ¬ b < a := BitVec.lt_asymm hab
            simp [hab, hba, hne, hne.symm]
          · by_cases hba : b < a
            · have hne : a ≠ b := (BitVec.ne_of_lt hba).symm
              simp [hab, hba, hne, hne.symm]
            · obtain rfl : a = b := BitVec.le_antisymm (BitVec.not_lt.mp hba) (BitVec.not_lt.mp hab)
              simp [hlt, hgt, heq]

end RiceVM.Utf8
