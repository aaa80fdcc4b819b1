import Mathlib.Data.List.TakeWhile
import RiceVM.Core

/-!
Numbers at the start of a string: blanks, a sign, and the digits up to the first character that
is none. The digits accumulate in a big and a value that does not fit saturates.
-/
namespace RiceVM.Ops

/-- `char::is_whitespace`. -/
def isWhitespace (c : Char) : Bool :=
  let n := c.toNat
  (9 ≤ n && n ≤ 13) || n = 0x20 || n = 0x85 || n = 0xA0 || n = 0x1680 ||
    (0x2000 ≤ n && n ≤ 0x200A) || n = 0x2028 || n = 0x2029 || n = 0x202F || n = 0x205F || n = 0x3000

def bigMin : Int := -2 ^ 63
def bigMax : Int := 2 ^ 63 - 1

/-- What a checked operation on bigs gives. -/
def checkedBig (i : Int) : Option Int := if bigMin ≤ i ∧ i ≤ bigMax then some i else none

/-- The loop over the digits: the value so far, and whether it has overflowed. -/
def digitLoop : List Char → Int → Bool → Int × Bool
  | [], val, overflowed => (val, overflowed)
  | c :: cs, val, overflowed =>
    if ¬ c.isDigit then (val, overflowed)
    else if overflowed then digitLoop cs val true
    else
      match (checkedBig (val * 10)).bind fun v => checkedBig (v + (c.toNat - '0'.toNat : Nat)) with
      | some v => digitLoop cs v false
      | none => digitLoop cs val true

/-- Whether a minus sign was taken off, and what follows the sign. -/
def splitSign : List Char → Bool × List Char
  | '-' :: rest => (true, rest)
  | '+' :: rest => (false, rest)
  | rest => (false, rest)

/-- `strtol`: an integer at the start of a string, clamped to a big's range. -/
def parseStrtol (t : String) : Int :=
  let s := t.toList.dropWhile isWhitespace
  if s = [] then 0
  else
    let (neg, s) := splitSign s
    let (val, overflowed) := digitLoop s 0 false
    if overflowed then if neg then bigMin else bigMax else if neg then -val else val

/-- `Cvtcw`: a string's integer, clamped to a word's range. -/
def strtolWord (t : String) : Word :=
  BitVec.ofInt 32 (max (-2 ^ 31) (min (2 ^ 31 - 1) (parseStrtol t)))

/-! ### The number that is meant -/

/-- The integer a text begins with, after blanks and a sign; zero where there are no digits. -/
def leadingInt (s : List Char) : Int :=
  let (neg, s) := splitSign (s.dropWhile isWhitespace)
  let magnitude : Int := Nat.ofDigitChars 10 (s.takeWhile Char.isDigit) 0
  if neg then -magnitude else magnitude

def clampBig (i : Int) : Int := max bigMin (min bigMax i)

theorem checkedBig_of_nonneg {i : Int} (h : 0 ≤ i) :
    checkedBig i = if i ≤ bigMax then some i else none := by
  have hmin : bigMin ≤ i := Int.le_trans (by decide) h
  simp only [checkedBig, hmin, true_and]

theorem digitLoop_overflowed (s : List Char) (val : Int) : digitLoop s val true = (val, true) := by
  induction s with
  | nil => rfl
  | cons c cs ih =>
      rw [digitLoop]
      split
      · rfl
      · rw [if_pos rfl, ih]

/-- The value of more digits is no smaller. -/
theorem le_ofDigitChars (s : List Char) (n : Nat) : n ≤ Nat.ofDigitChars 10 s n := by
  rw [Nat.ofDigitChars_eq_ofDigitChars_zero]
  have := Nat.mul_le_mul_right n (Nat.one_le_pow s.length 10 (by decide))
  omega

/-- The digits at the start of a text, after those that gave `n`. -/
def digitsFrom (s : List Char) (n : Nat) : Nat := Nat.ofDigitChars 10 (s.takeWhile Char.isDigit) n

theorem digitsFrom_cons {c : Char} (hc : c.isDigit = true) (cs : List Char) (n : Nat) :
    digitsFrom (c :: cs) n = digitsFrom cs (10 * n + (c.toNat - '0'.toNat)) := by
  rw [digitsFrom, List.takeWhile_cons_of_pos hc, Nat.ofDigitChars_cons]
  rfl

/-- The loop over digits of any length ends with their value, or with the overflow noticed. -/
theorem digitLoop_eq (s : List Char) (n : Nat) (hn : (n : Int) ≤ bigMax) :
    digitLoop s n false = ((digitsFrom s n : Int), false) ∧ (digitsFrom s n : Int) ≤ bigMax ∨
      (digitLoop s n false).2 = true ∧ bigMax < digitsFrom s n := by
  induction s generalizing n with
  | nil => exact .inl ⟨rfl, hn⟩
  | cons c cs ih =>
      rw [digitLoop]
      by_cases hc : c.isDigit = true
      · rw [if_neg (fun hnot => hnot hc), if_neg Bool.false_ne_true, digitsFrom_cons hc,
          checkedBig_of_nonneg (by omega)]
        generalize c.toNat - '0'.toNat = d
        by_cases htimes : (n : Int) * 10 ≤ bigMax
        · rw [if_pos htimes, Option.bind_some, checkedBig_of_nonneg (by omega)]
          by_cases hplus : (n : Int) * 10 + d ≤ bigMax
          · have hnext : (n : Int) * 10 + d = (10 * n + d : Nat) := by
              push_cast
              omega
            rw [if_pos hplus]
            rw [hnext] at hplus ⊢
            exact ih _ hplus
          · rw [if_neg hplus]
            have hle := le_ofDigitChars (cs.takeWhile Char.isDigit) (10 * n + d)
            refine .inr ⟨by rw [digitLoop_overflowed], ?_⟩
            unfold digitsFrom
            omega
        · rw [if_neg htimes]
          have hle := le_ofDigitChars (cs.takeWhile Char.isDigit) (10 * n + d)
          refine .inr ⟨by rw [Option.bind_none, digitLoop_overflowed], ?_⟩
          unfold digitsFrom
          omega
      · rw [if_pos hc, digitsFrom, List.takeWhile_cons_of_neg hc, Nat.ofDigitChars_nil]
        exact .inl ⟨rfl, hn⟩

theorem parseStrtol_eq (t : String) : parseStrtol t = clampBig (leadingInt t.toList) := by
  unfold parseStrtol leadingInt
  generalize t.toList.dropWhile isWhitespace = s
  by_cases hnil : s = []
  · subst hnil
    rfl
  · rw [if_neg hnil]
    obtain ⟨neg, digits⟩ := splitSign s
    dsimp only
    change _ = clampBig (if neg = true then -(digitsFrom digits 0 : Int) else digitsFrom digits 0)
    have hbounds : bigMin = -bigMax - 1 := rfl
    have hmax : 0 ≤ bigMax := by decide
    rcases digitLoop_eq digits 0 hmax with ⟨hrun, hfits⟩ | ⟨hover, hbig⟩
    · change digitLoop digits 0 false = _ at hrun
      rw [hrun, if_neg Bool.false_ne_true, clampBig]
      dsimp only
      split <;> omega
    · change (digitLoop digits 0 false).2 = true at hover
      rw [hover, if_pos rfl, clampBig]
      split <;> omega

theorem strtolWord_eq (t : String) :
    strtolWord t = BitVec.ofInt 32 (max (-2 ^ 31) (min (2 ^ 31 - 1) (leadingInt t.toList))) := by
  rw [strtolWord, parseStrtol_eq, clampBig, bigMin, bigMax]
  congr 1
  omega

/-! ### Printed numbers -/

theorem isDigit_bounds {c : Char} (h : c.isDigit = true) : 48 ≤ c.toNat ∧ c.toNat ≤ 57 := by
  simp only [Char.isDigit, Bool.and_eq_true, decide_eq_true_eq] at h
  exact h

theorem isWhitespace_digit {c : Char} (h : c.isDigit = true) : isWhitespace c = false := by
  obtain ⟨hlo, hhi⟩ := isDigit_bounds h
  unfold isWhitespace
  simp only [Bool.or_eq_false_iff, Bool.and_eq_false_iff, decide_eq_false_iff_not]
  omega

theorem splitSign_digits {s : List Char} (h : ∀ c ∈ s, c.isDigit = true) :
    splitSign s = (false, s) := by
  unfold splitSign
  split
  · exact absurd (h '-' List.mem_cons_self) (by decide)
  · exact absurd (h '+' List.mem_cons_self) (by decide)
  · rfl

theorem dropWhile_blanks_digits {s : List Char} (h : ∀ c ∈ s, c.isDigit = true) :
    s.dropWhile isWhitespace = s := by
  cases s with
  | nil => rfl
  | cons c cs =>
      rw [List.dropWhile_cons_of_neg]
      rw [isWhitespace_digit (h c List.mem_cons_self)]
      exact Bool.false_ne_true

theorem digits_repr (n : Nat) : ∀ c ∈ n.repr.toList, c.isDigit = true := by
  intro c hc
  rw [Nat.toList_repr] at hc
  exact Nat.isDigit_of_mem_toDigits (by decide) (by decide) hc

theorem ofDigitChars_repr (n : Nat) :
    Nat.ofDigitChars 10 (n.repr.toList.takeWhile Char.isDigit) 0 = n := by
  rw [List.takeWhile_eq_self_iff.mpr (digits_repr n), Nat.toList_repr, Nat.ofDigitChars_ten_toDigits]

/-- A printed number begins with itself. -/
theorem leadingInt_toString (i : Int) : leadingInt (toString i).toList = i := by
  rw [Int.toString_eq_repr, Int.repr_eq_if]
  unfold leadingInt
  by_cases hi : 0 ≤ i
  · rw [if_pos hi, dropWhile_blanks_digits (digits_repr _), splitSign_digits (digits_repr _)]
    dsimp only
    rw [if_neg Bool.false_ne_true, ofDigitChars_repr]
    omega
  · have hminus : ("-" ++ (-i).toNat.repr).toList = '-' :: (-i).toNat.repr.toList := by
      rw [String.toList_append]
      rfl
    rw [if_neg hi, hminus, List.dropWhile_cons_of_neg (by decide)]
    have hsign (s : List Char) : splitSign ('-' :: s) = (true, s) := rfl
    rw [hsign]
    dsimp only
    rw [if_pos rfl, ofDigitChars_repr]
    omega

theorem parseStrtol_toString {i : Int} (h : bigMin ≤ i ∧ i ≤ bigMax) :
    parseStrtol (toString i) = i := by
  rw [parseStrtol_eq, leadingInt_toString, clampBig]
  omega

end RiceVM.Ops
