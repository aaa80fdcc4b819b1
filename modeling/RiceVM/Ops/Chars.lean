import RiceVM.Ops.Strings
import RiceVM.Ops.Transfer
import RiceVM.Results
import RiceVM.Lib.Utf8

/-!
Characters of byte arrays: the built-ins that take a character out of an array, put one into it,
and count the bytes of the whole characters it begins with.
-/
namespace RiceVM
open Exec Buffer Memory Utf8
namespace Ops

/-- The length of a character by its first byte. -/
def seqLen (first : Byte) : Nat :=
  if first < 0x80 then 1 else if first < 0xE0 then 2 else if first < 0xF0 then 3 else 4

/-- The first character of what `byte2char` read, its length and the status. -/
def leadingChar : List Byte → Word × Word × Word
  | [] => (0, 0, -1)
  | first :: rest =>
    if seqLen first ≤ (first :: rest).length then
      match fromUtf8? ((first :: rest).take (seqLen first)) with
      | some (ch :: _) => (ch.val.toBitVec, .ofUsize ch.utf8Size, 0)
      | some [] => (0, 0, -1)
      | none => (0xFFFD, 1, 0)
    else (0xFFFD, 1, 0)

def byte2char : VM (Word × Word × Word) := do
  let vm ← get
  let bufId := argWord vm 0
  let n := (argWord vm 1).asUsize
  let avail := (vm.heap.arrayByteLen bufId).getD 0 - n
  let readLen := min avail 6
  if readLen = 0 then return (0, 0, -1)
  else
    match vm.heap.arrayRead bufId n readLen with
    | some data => return leadingChar data
    | none => return (0, 0, -1)

def sysByte2char : VM Unit := do
  let base := (← get).frames.currentDataOffset
  let (ch, consumed, status) ← byte2char
  writeRetWords base 0 [ch, consumed, status]

def char2byte : VM Word := do
  let vm ← get
  let encoded := encode (charOfRune (argWord vm 0))
  modifyHeap (·.arrayWrite (argWord vm 1) (argWord vm 2).asUsize encoded)
  return .ofUsize encoded.length

def sysChar2byte : VM Unit := do
  let base := (← get).frames.currentDataOffset
  let written ← char2byte
  setFrames (writeWord · base written)

def utfbytes : VM Word := do
  let vm ← get
  let n := (argWord vm 1).asUsize
  match vm.heap.arrayRead (argWord vm 0) 0 n with
  | some data =>
    -- zeros for a range outside the array, and no vector has so many
    if 2 ^ 63 ≤ n then panic
    else
      match fromUtf8? data with
      | some _ => return .ofUsize data.length
      | none => return .ofUsize (validUpTo data)
  | none => return 0

def sysUtfbytes : VM Unit := do
  let base := (← get).frames.currentDataOffset
  let valid ← utfbytes
  setFrames (writeWord · base valid)

end Ops

/-! ### The character that was there -/

namespace Ops

/-- The first byte of an encoding tells how long it is. -/
theorem seqLen_encode {c : Char} {first : Byte} {rest : List Byte}
    (h : encode c = first :: rest) : seqLen first = c.utf8Size := by
  have hone : ∀ b : Byte, b ≤ 127 → seqLen b = 1 := by decide
  have htwo : ∀ b : Byte, seqLen (b &&& 0x1f ||| 0xc0) = 2 := by decide
  have hthree : ∀ b : Byte, seqLen (b &&& 0x0f ||| 0xe0) = 3 := by decide
  have hfour : ∀ b : Byte, seqLen (b &&& 0x07 ||| 0xf0) = 4 := by decide
  unfold encode at h
  rcases c.utf8Size_eq with hsize | hsize | hsize | hsize
  · rw [String.utf8EncodeChar_eq_singleton hsize] at h
    obtain ⟨rfl, -⟩ := List.cons.inj h
    have hsmall : c.val.toNat ≤ 127 := UInt32.le_iff_toNat_le.mp (Char.utf8Size_eq_one_iff.mp hsize)
    rw [hsize]
    refine hone _ (BitVec.le_def.mpr ?_)
    change c.val.toUInt8.toNat ≤ 127
    rw [UInt32.toNat_toUInt8]
    omega
  · rw [String.utf8EncodeChar_eq_cons_cons hsize] at h
    obtain ⟨rfl, -⟩ := List.cons.inj h
    rw [hsize]
    exact htwo _
  · rw [String.utf8EncodeChar_eq_cons_cons_cons hsize] at h
    obtain ⟨rfl, -⟩ := List.cons.inj h
    rw [hsize]
    exact hthree _
  · rw [String.utf8EncodeChar_eq_cons_cons_cons_cons hsize] at h
    obtain ⟨rfl, -⟩ := List.cons.inj h
    rw [hsize]
    exact hfour _

/-- What `byte2char` answers where the character `c` begins. -/
def answer (c : Char) : Word × Word × Word := (c.val.toBitVec, .ofUsize c.utf8Size, 0)

theorem leadingChar_encode (c : Char) (rest : List Byte) :
    leadingChar (encode c ++ rest) = answer c := by
  have hlength := length_encode c
  have hpos := c.utf8Size_pos
  cases hbytes : encode c with
  | nil =>
      rw [hbytes, List.length_nil] at hlength
      omega
  | cons first tail =>
      have hseq := seqLen_encode hbytes
      have hfits : seqLen first ≤ (first :: (tail ++ rest)).length := by
        rw [hseq, ← hlength, hbytes, ← List.cons_append, List.length_append]
        exact Nat.le_add_right _ _
      have htake : (first :: (tail ++ rest)).take (seqLen first) = encode c := by
        rw [hseq, ← List.cons_append, ← hbytes, ← hlength, List.take_left]
      rw [List.cons_append, leadingChar, if_pos hfits, htake, fromUtf8?_encode]
      rfl

/-- A character answered with its length was there as a whole. -/
theorem utf8Size_le_of_leadingChar {data : List Byte} {c : Char} (h : leadingChar data = answer c) :
    c.utf8Size ≤ data.length := by
  have hreplacement : (0xFFFD, 1, 0) ≠ answer c := by
    intro heq
    obtain ⟨hval, hrest⟩ := Prod.mk.inj heq
    have hc : c = '\uFFFD' := Char.ext (UInt32.toBitVec_inj.mp hval.symm)
    subst hc
    revert hrest
    decide
  have hnothing : (0, 0, -1) ≠ answer c := by
    intro heq
    have hstatus := (Prod.mk.inj (Prod.mk.inj heq).2).2
    revert hstatus
    decide
  cases data with
  | nil => exact absurd h hnothing
  | cons first rest =>
      rw [leadingChar] at h
      by_cases hseq : seqLen first ≤ (first :: rest).length
      · rw [if_pos hseq] at h
        cases hdecoded : fromUtf8? ((first :: rest).take (seqLen first)) with
        | none =>
            rw [hdecoded] at h
            exact absurd h hreplacement
        | some cs =>
            rw [hdecoded] at h
            cases cs with
            | nil => exact absurd h hnothing
            | cons ch cs =>
                have hch : ch = c := Char.ext (UInt32.toBitVec_inj.mp (Prod.mk.inj h).1)
                have hbytes := congrArg List.length (flatMap_of_fromUtf8? hdecoded)
                have htake := (List.take_prefix (seqLen first) (first :: rest)).length_le
                rw [List.flatMap_cons, List.length_append, length_encode, hch] at hbytes
                omega
      · rw [if_neg hseq] at h
        exact absurd h hreplacement

end Ops
end RiceVM
