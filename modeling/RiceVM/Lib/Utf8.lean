import Mathlib.Algebra.Order.Ring.Int
import Mathlib.Data.List.Basic
import Mathlib.Order.Bounds.Basic

/-!
UTF-8 over lists of bytes: what encodes a character, what a decoder makes of bytes that encode
none, and the longest prefix that is a whole number of characters.
-/
namespace RiceVM.Utf8

/-- `str::as_bytes`. -/
def asBytes (s : String) : List (BitVec 8) := (s.toList.flatMap String.utf8EncodeChar).map (·.toBitVec)

/-- The character the bytes begin with, where they begin with one. -/
def decodeChar? (bytes : List (BitVec 8)) : Option Char :=
  (bytes.map UInt8.ofBitVec).toByteArray.utf8DecodeChar? 0

/-- How many bytes continue a character after its first, and the range of the first of them. -/
def continuation (lead : Nat) : Nat × Nat × Nat :=
  if 0xC2 ≤ lead ∧ lead ≤ 0xDF then (1, 0x80, 0xBF)
  else if lead = 0xE0 then (2, 0xA0, 0xBF)
  else if lead = 0xED then (2, 0x80, 0x9F)
  else if 0xE1 ≤ lead ∧ lead ≤ 0xEF then (2, 0x80, 0xBF)
  else if lead = 0xF0 then (3, 0x90, 0xBF)
  else if 0xF1 ≤ lead ∧ lead ≤ 0xF3 then (3, 0x80, 0xBF)
  else if lead = 0xF4 then (3, 0x80, 0x8F)
  else (0, 0, 0)

/-- The length of the longest prefix that could have begun a character, at least one. -/
def illFormed : List (BitVec 8) → Nat
  | lead :: first :: rest =>
    let (count, low, high) := continuation lead.toNat
    if count ≠ 0 ∧ low ≤ first.toNat ∧ first.toNat ≤ high then
      2 + ((rest.take (count - 1)).takeWhile fun b => 0x80 ≤ b.toNat ∧ b.toNat ≤ 0xBF).length
    else 1
  | _ => 1

def lossyChars : Nat → List (BitVec 8) → List Char
  | 0, _ | _, [] => []
  | fuel + 1, b :: rest =>
    match decodeChar? (b :: rest) with
    | some c => c :: lossyChars fuel ((b :: rest).drop c.utf8Size)
    | none => '\uFFFD' :: lossyChars fuel ((b :: rest).drop (illFormed (b :: rest)))

/-- `String::from_utf8_lossy`: what is no character becomes a replacement character. -/
def fromLossy (bytes : List (BitVec 8)) : String := .ofList (lossyChars bytes.length bytes)

def encode (c : Char) : List (BitVec 8) := (String.utf8EncodeChar c).map (·.toBitVec)

def charsLoop : Nat → List (BitVec 8) → Option (List Char)
  | _, [] => some []
  | 0, _ => none
  | fuel + 1, b :: bytes => do
    let c ← decodeChar? (b :: bytes)
    let cs ← charsLoop fuel ((b :: bytes).drop c.utf8Size)
    return c :: cs

/-- `str::from_utf8`. -/
def fromUtf8? (bytes : List (BitVec 8)) : Option (List Char) := charsLoop bytes.length bytes

/-- The characters the bytes begin with. -/
def wholeChars : Nat → List (BitVec 8) → List Char
  | 0, _ => []
  | fuel + 1, bytes =>
    match decodeChar? bytes with
    | some c => c :: wholeChars fuel (bytes.drop c.utf8Size)
    | none => []

/-- `Utf8Error::valid_up_to`. -/
def validUpTo (bytes : List (BitVec 8)) : Nat :=
  ((wholeChars bytes.length bytes).flatMap encode).length

theorem decodeChar?_append (c : Char) (rest : List (BitVec 8)) :
    decodeChar? ((String.utf8EncodeChar c).map (·.toBitVec) ++ rest) = some c := by
  have hbytes : ((String.utf8EncodeChar c).map (·.toBitVec)).map UInt8.ofBitVec =
      String.utf8EncodeChar c := by
    rw [List.map_map]
    exact List.map_id _
  rw [decodeChar?, List.map_append, hbytes, List.toByteArray_append]
  exact ByteArray.utf8DecodeChar?_utf8EncodeChar_append

theorem lossyChars_flatMap (cs : List Char) (fuel : Nat)
    (hfuel : ((cs.flatMap String.utf8EncodeChar).map (·.toBitVec)).length ≤ fuel) :
    lossyChars fuel ((cs.flatMap String.utf8EncodeChar).map (·.toBitVec)) = cs := by
  induction cs generalizing fuel with
  | nil => cases fuel <;> rfl
  | cons c cs ih =>
      have hlength : ((String.utf8EncodeChar c).map (·.toBitVec)).length = c.utf8Size := by
        rw [List.length_map, String.length_utf8EncodeChar]
      have hpos := c.utf8Size_pos
      rw [List.flatMap_cons, List.map_append] at hfuel ⊢
      have hdecode := decodeChar?_append c ((cs.flatMap String.utf8EncodeChar).map (·.toBitVec))
      generalize (cs.flatMap String.utf8EncodeChar).map (·.toBitVec) = rest at *
      rw [List.length_append, hlength] at hfuel
      cases fuel with
      | zero => omega
      | succ fuel =>
          have hdrop : ((String.utf8EncodeChar c).map (·.toBitVec) ++ rest).drop c.utf8Size = rest := by
            rw [← hlength, List.drop_left]
          generalize hbytes : (String.utf8EncodeChar c).map (·.toBitVec) ++ rest = bytes at *
          cases bytes with
          | nil =>
              have := congrArg List.length hbytes
              rw [List.length_append, hlength, List.length_nil] at this
              omega
          | cons b bytes =>
              simp only [lossyChars, hdecode, hdrop]
              rw [ih fuel (by omega)]

theorem fromLossy_asBytes (s : String) : fromLossy (asBytes s) = s := by
  rw [fromLossy, asBytes, lossyChars_flatMap _ _ (Nat.le_refl _), String.ofList_toList]

theorem or_ne_zero (x : UInt8) {k : UInt8} (hk : k ≠ 0) : x ||| k ≠ 0 :=
  fun h => hk (UInt8.or_eq_zero_iff.mp h).2

/-- Only the NUL character has a zero byte. -/
theorem ne_zero_of_mem_utf8EncodeChar {c : Char} (hc : c ≠ '\x00') {u : UInt8}
    (hu : u ∈ String.utf8EncodeChar c) : u ≠ 0 := by
  rcases c.utf8Size_eq with h | h | h | h
  · rw [String.utf8EncodeChar_eq_singleton h, List.mem_singleton] at hu
    rintro rfl
    have hsmall := Char.utf8Size_eq_one_iff.mp h
    refine hc (Char.ext (UInt32.toNat_inj.mp ?_))
    have hzero := congrArg UInt8.toNat hu
    have hle : c.val.toNat ≤ 127 := UInt32.le_iff_toNat_le.mp hsmall
    simp only [UInt32.toNat_toUInt8, UInt8.toNat_zero] at hzero
    change c.val.toNat = 0
    omega
  · rw [String.utf8EncodeChar_eq_cons_cons h] at hu
    simp only [List.mem_cons, List.not_mem_nil, or_false] at hu
    rcases hu with rfl | rfl <;> exact or_ne_zero _ (by decide)
  · rw [String.utf8EncodeChar_eq_cons_cons_cons h] at hu
    simp only [List.mem_cons, List.not_mem_nil, or_false] at hu
    rcases hu with rfl | rfl | rfl <;> exact or_ne_zero _ (by decide)
  · rw [String.utf8EncodeChar_eq_cons_cons_cons_cons h] at hu
    simp only [List.mem_cons, List.not_mem_nil, or_false] at hu
    rcases hu with rfl | rfl | rfl | rfl <;> exact or_ne_zero _ (by decide)

theorem ne_zero_of_mem_asBytes {s : String} (hs : '\x00' ∉ s.toList) {b : BitVec 8}
    (hb : b ∈ asBytes s) : b ≠ 0 := by
  obtain ⟨u, hu, rfl⟩ := List.mem_map.mp hb
  obtain ⟨c, hc, hu⟩ := List.mem_flatMap.mp hu
  have hne : c ≠ '\x00' := fun h => hs (h ▸ hc)
  exact fun hzero => ne_zero_of_mem_utf8EncodeChar hne hu (UInt8.toBitVec_inj.mp hzero)

theorem length_encode (c : Char) : (encode c).length = c.utf8Size := by
  rw [encode, List.length_map, String.length_utf8EncodeChar]

theorem asBytes_eq (s : String) : asBytes s = s.toList.flatMap encode := by
  rw [asBytes, List.map_flatMap]
  rfl

theorem encode_cons (c : Char) : ∃ lead tails, encode c = lead :: tails := by
  cases hbytes : encode c with
  | nil =>
      have := c.utf8Size_pos
      rw [← length_encode, hbytes] at this
      exact absurd this (Nat.lt_irrefl 0)
  | cons lead tails => exact ⟨lead, tails, rfl⟩

theorem charsLoop_flatMap (cs : List Char) {fuel : Nat}
    (hfuel : (cs.flatMap encode).length ≤ fuel) :
    charsLoop fuel (cs.flatMap encode) = some cs := by
  induction cs generalizing fuel with
  | nil => cases fuel <;> rfl
  | cons c cs ih =>
      have hdecode : decodeChar? (encode c ++ cs.flatMap encode) = some c := decodeChar?_append c _
      have hdrop : (encode c ++ cs.flatMap encode).drop c.utf8Size = cs.flatMap encode := by
        rw [← length_encode, List.drop_left]
      obtain ⟨lead, tails, hbytes⟩ := encode_cons c
      rw [List.flatMap_cons] at hfuel ⊢
      rw [hbytes, List.cons_append] at hfuel hdecode hdrop ⊢
      cases fuel with
      | zero => cases hfuel
      | succ fuel =>
          rw [List.length_cons, List.length_append] at hfuel
          rw [charsLoop, hdecode]
          simp only [Option.bind_eq_bind, Option.bind_some, hdrop]
          rw [ih (by omega)]
          rfl

theorem fromUtf8?_flatMap (cs : List Char) : fromUtf8? (cs.flatMap encode) = some cs :=
  charsLoop_flatMap cs (Nat.le_refl _)

theorem fromUtf8?_encode (c : Char) : fromUtf8? (encode c) = some [c] := by
  have h := fromUtf8?_flatMap [c]
  rwa [List.flatMap_cons, List.flatMap_nil, List.append_nil] at h

theorem encode_ascii {c : Char} (h : c.toNat < 0x80) : encode c = [BitVec.ofNat 8 c.toNat] := by
  have hle : c.val ≤ 0x7F := UInt32.le_iff_toNat_le.mpr (Nat.le_of_lt_succ h)
  rw [encode, String.utf8EncodeChar_eq_singleton (Char.utf8Size_eq_one_iff.mpr hle)]
  rfl

/-! ### Whole characters -/

theorem flatMap_encode_concat (cs : List Char) (c : Char) :
    (cs ++ [c]).flatMap encode = cs.flatMap encode ++ encode c := by
  rw [List.flatMap_append, List.flatMap_singleton]

theorem length_flatMap_encode_concat (cs : List Char) (c : Char) :
    ((cs ++ [c]).flatMap encode).length = (cs.flatMap encode).length + c.utf8Size := by
  rw [flatMap_encode_concat, List.length_append, length_encode]

theorem prefix_flatMap_encode {cs cs' : List Char} (h : cs <+: cs') :
    cs.flatMap encode <+: cs'.flatMap encode := by
  obtain ⟨rest, rfl⟩ := h
  rw [List.flatMap_append]
  exact List.prefix_append _ _

/-- A character decoded is the one the bytes begin with. -/
theorem eq_of_decodeChar? {bytes : List (BitVec 8)} {c : Char} (h : decodeChar? bytes = some c) :
    ∃ rest, bytes = encode c ++ rest := by
  obtain ⟨rest, hrest⟩ := ByteArray.exists_of_utf8DecodeChar?_eq_some h
  refine ⟨rest.data.toList.map (·.toBitVec), ?_⟩
  have hbytes : bytes.map UInt8.ofBitVec = String.utf8EncodeChar c ++ rest.data.toList := by
    have hdata := congrArg (fun b : ByteArray => b.data.toList) hrest
    simpa using hdata
  have hback := congrArg (List.map fun b : UInt8 => b.toBitVec) hbytes
  rw [List.map_map, List.map_append] at hback
  rw [← List.map_id bytes]
  exact hback

theorem drop_encode (c : Char) (rest : List (BitVec 8)) :
    (encode c ++ rest).drop c.utf8Size = rest := by
  rw [← length_encode, List.drop_left]

/-- What is read as characters is what they encode. -/
theorem flatMap_of_charsLoop {fuel : Nat} {bytes : List (BitVec 8)} {cs : List Char}
    (h : charsLoop fuel bytes = some cs) : cs.flatMap encode = bytes := by
  induction fuel generalizing bytes cs with
  | zero =>
      cases bytes with
      | nil =>
          cases h
          rfl
      | cons b bytes => cases h
  | succ fuel ih =>
      cases bytes with
      | nil =>
          cases h
          rfl
      | cons b bytes =>
          obtain ⟨c, hdecode, h⟩ := Option.bind_eq_some_iff.mp h
          obtain ⟨tail, htail, h⟩ := Option.bind_eq_some_iff.mp h
          cases h
          obtain ⟨rest, hrest⟩ := eq_of_decodeChar? hdecode
          rw [hrest, drop_encode] at htail
          rw [List.flatMap_cons, ih htail, hrest]

theorem flatMap_of_fromUtf8? {bytes : List (BitVec 8)} {cs : List Char}
    (h : fromUtf8? bytes = some cs) : cs.flatMap encode = bytes := flatMap_of_charsLoop h

/-- No whole characters begin the bytes but those found. -/
theorem prefix_wholeChars {cs : List Char} {fuel : Nat} {bytes : List (BitVec 8)}
    (h : cs.flatMap encode <+: bytes) (hfuel : bytes.length ≤ fuel) :
    cs <+: wholeChars fuel bytes := by
  induction cs generalizing fuel bytes with
  | nil => exact List.nil_prefix
  | cons c cs ih =>
      obtain ⟨rest, rfl⟩ := h
      rw [List.flatMap_cons, List.append_assoc] at hfuel ⊢
      have hpos := c.utf8Size_pos
      rw [List.length_append, length_encode] at hfuel
      cases fuel with
      | zero => omega
      | succ fuel =>
          have hdecode : decodeChar? (encode c ++ (cs.flatMap encode ++ rest)) = some c :=
            decodeChar?_append c _
          simp only [wholeChars, hdecode, drop_encode]
          exact (List.prefix_cons_inj c).mpr (ih (List.prefix_append _ _) (by omega))

theorem flatMap_wholeChars (fuel : Nat) (bytes : List (BitVec 8)) :
    (wholeChars fuel bytes).flatMap encode <+: bytes := by
  induction fuel generalizing bytes with
  | zero => exact List.nil_prefix
  | succ fuel ih =>
      simp only [wholeChars]
      cases hdecode : decodeChar? bytes with
      | none => exact List.nil_prefix
      | some c =>
          obtain ⟨rest, rfl⟩ := eq_of_decodeChar? hdecode
          simp only [drop_encode]
          rw [List.flatMap_cons]
          exact (List.prefix_append_right_inj _).mpr (ih rest)

theorem validUpTo_le (bytes : List (BitVec 8)) : validUpTo bytes ≤ bytes.length :=
  (flatMap_wholeChars _ _).length_le

theorem le_validUpTo {bytes : List (BitVec 8)} {cs : List Char}
    (h : cs.flatMap encode <+: bytes) : (cs.flatMap encode).length ≤ validUpTo bytes :=
  (prefix_flatMap_encode (prefix_wholeChars h (Nat.le_refl _))).length_le

theorem validUpTo_of_fromUtf8? {bytes : List (BitVec 8)} {cs : List Char}
    (h : fromUtf8? bytes = some cs) : validUpTo bytes = bytes.length := by
  have hbytes := flatMap_of_fromUtf8? h
  have hle := le_validUpTo (hbytes ▸ List.prefix_rfl : cs.flatMap encode <+: bytes)
  rw [hbytes] at hle
  exact Nat.le_antisymm (validUpTo_le bytes) hle

theorem take_validUpTo (bytes : List (BitVec 8)) : bytes.take (validUpTo bytes) =
    (wholeChars bytes.length bytes).flatMap encode :=
  (List.prefix_iff_eq_take.mp (flatMap_wholeChars _ _)).symm

theorem isGreatest_validUpTo (bytes : List (BitVec 8)) :
    IsGreatest {k | k ≤ bytes.length ∧ ∃ cs : List Char, bytes.take k = cs.flatMap encode}
      (validUpTo bytes) := by
  constructor
  · exact ⟨validUpTo_le bytes, _, take_validUpTo bytes⟩
  · rintro k ⟨hk, cs, hcs⟩
    have hprefix : cs.flatMap encode <+: bytes := hcs ▸ List.take_prefix k bytes
    have hle := le_validUpTo hprefix
    rwa [← hcs, List.length_take, Nat.min_eq_left hk] at hle

/-- The whole characters end by `size` where those of the first `size` bytes are not followed by
another. -/
theorem validUpTo_le_iff {bytes : List (BitVec 8)} {size : Nat} : validUpTo bytes ≤ size ↔
    bytes.length ≤ size ∨
      decodeChar? (bytes.drop (validUpTo (bytes.take size))) = none := by
  have hall := take_validUpTo (bytes.take size)
  have hcut := validUpTo_le (bytes.take size)
  rw [List.length_take] at hcut
  rw [List.take_take, Nat.min_eq_left (by omega)] at hall
  have hsplit := List.take_append_drop (validUpTo (bytes.take size)) bytes
  rw [hall] at hsplit
  generalize wholeChars (bytes.take size).length (bytes.take size) = cs at hall hsplit
  have hlength := congrArg List.length hall
  rw [List.length_take, Nat.min_eq_left (by omega)] at hlength
  constructor
  · intro hle
    refine or_iff_not_imp_left.mpr fun hlong => Option.eq_none_iff_forall_ne_some.mpr fun c hc => ?_
    -- one more character would be whole in the first bytes too
    obtain ⟨rest, hrest⟩ := eq_of_decodeChar? hc
    rw [hrest, ← List.append_assoc, ← flatMap_encode_concat] at hsplit
    have hmore : (cs ++ [c]).flatMap encode <+: bytes := ⟨rest, hsplit⟩
    have hend := le_validUpTo hmore
    have hinside := le_validUpTo (List.prefix_take_iff.mpr ⟨hmore, Nat.le_trans hend hle⟩)
    have hpos := c.utf8Size_pos
    rw [length_flatMap_encode_concat] at hinside
    omega
  · rintro (hshort | hnone)
    · exact Nat.le_trans (validUpTo_le bytes) hshort
    · refine Nat.le_of_not_lt fun hlt => ?_
      have hprefix : cs <+: wholeChars bytes.length bytes :=
        prefix_wholeChars ⟨_, hsplit⟩ (Nat.le_refl _)
      obtain ⟨tail, htail⟩ := hprefix
      obtain ⟨rest, hrest⟩ := flatMap_wholeChars bytes.length bytes
      unfold validUpTo at hlt
      rw [← htail, List.flatMap_append] at hrest hlt
      cases tail with
      | nil =>
          rw [List.flatMap_nil, List.append_nil] at hlt
          omega
      | cons c tail =>
          rw [← hsplit, List.append_assoc] at hrest
          have hdrop := List.append_cancel_left hrest
          rw [List.flatMap_cons, List.append_assoc] at hdrop
          rw [← hdrop] at hnone
          exact absurd (decodeChar?_append c _) (by rw [← encode, hnone]; nofun)

end RiceVM.Utf8
