import Mathlib.Order.Bounds.Basic
import RiceVM.Views
import RiceVM.Ops.Chars

/-!
Characters stored in a view one after another and read back. The store clips at the end of the
array and the count reads up to it, so what each of them does is right where it ends in the view.
-/
namespace RiceVM
open Exec Buffer Memory Ops Utf8

/-- The array `root` with other bytes. -/
def withBytes (root : HeapId) (data : List Byte) (vm : VmState) : VmState :=
  { vm with heap := vm.heap.update root fun obj =>
    { obj with data := obj.data.setBuffer data } }

section
variable {vm : VmState} {buf root : HeapId} {start length elemSize : Nat} {data : List Byte}

theorem byte2char_part (hp : vm.heap.Part buf root start length elemSize data)
    (hbuf : argWord vm 0 = buf) : byte2char vm = .ok (leadingChar
      (slice data (start * elemSize + (argWord vm 1).asUsize)
        (min (length * elemSize - (argWord vm 1).asUsize) 6))) vm := by
  unfold byte2char
  rw [bind_ok (get_apply vm), hbuf, hp.arrayByteLen_eq, Option.getD_some]
  generalize (argWord vm 1).asUsize = n
  have hinside := hp.inside
  rw [Nat.add_mul] at hinside
  by_cases hzero : min (length * elemSize - n) 6 = 0
  · rw [hzero, slice, List.take_zero]
    rfl
  · rw [if_neg hzero, hp.arrayRead_eq, if_pos (by omega)]
    rfl

theorem char2byte_part (hp : vm.heap.Part buf root start length elemSize data)
    (hbuf : argWord vm 1 = buf) :
    char2byte vm = .ok (.ofUsize (charOfRune (argWord vm 0)).utf8Size)
      (withBytes root (overlay data (start * elemSize + (argWord vm 2).asUsize)
        (encode (charOfRune (argWord vm 0)))) vm) := by
  unfold char2byte withBytes
  rw [bind_ok (get_apply vm), ← length_encode, ← hp.arrayWrite_eq, hbuf]
  rfl

theorem utfbytes_part (hp : vm.heap.Part buf root start length elemSize data)
    (hbuf : argWord vm 0 = buf) : utfbytes vm =
      if 2 ^ 63 ≤ (argWord vm 1).asUsize then .panic
      else .ok (.ofUsize (validUpTo
        (if start * elemSize + (argWord vm 1).asUsize ≤ data.length then
          slice data (start * elemSize) (argWord vm 1).asUsize
        else List.replicate (argWord vm 1).asUsize 0))) vm := by
  unfold utfbytes
  rw [bind_ok (get_apply vm), hbuf, hp.arrayRead_eq]
  generalize (argWord vm 1).asUsize = n
  rw [Nat.add_zero]
  generalize (if start * elemSize + n ≤ data.length then
    slice data (start * elemSize) n else List.replicate n 0) = bytes
  by_cases hhuge : 2 ^ 63 ≤ n
  · rw [if_pos hhuge]
    exact congrFun (if_pos hhuge) vm
  · rw [if_neg hhuge]
    refine (congrFun (if_neg hhuge) vm).trans ?_
    cases hdecoded : fromUtf8? bytes with
    | none => rfl
    | some cs =>
        rw [validUpTo_of_fromUtf8? hdecoded]
        rfl

/-! ### A string stored and read -/

/-- What comes between two calls leaves the view and its bytes as they are. -/
def KeepsView (buf : HeapId) (vm vm' : VmState) : Prop :=
  ∀ {root start length elemSize data}, vm.heap.Part buf root start length elemSize data →
    vm'.heap.Part buf root start length elemSize data

/-- The characters stored one after another, each at the position reached. -/
inductive Stores (buf : HeapId) (vm : VmState) : List Char → Nat → VmState → Prop
  | start : Stores buf vm [] 0 vm
  | char {cs : List Char} {c : Char} {p : Nat} {r : Word} {t u t' : VmState}
      (before : Stores buf vm cs p t) (keeps : KeepsView buf t u)
      (rune : argWord u 0 = c.val.toBitVec) (view : argWord u 1 = buf)
      (position : (argWord u 2).asUsize = p) (call : char2byte u = .ok r t') :
      Stores buf vm (cs ++ [c]) (p + r.toNat) t'

/-- The answers of `byte2char` from the first byte on, each at the position reached. -/
inductive Decodes (buf : HeapId) (vm : VmState) :
    List (Word × Word × Word) → Nat → VmState → Prop
  | start : Decodes buf vm [] 0 vm
  | char {rs : List (Word × Word × Word)} {p : Nat} {r : Word × Word × Word} {t u t' : VmState}
      (before : Decodes buf vm rs p t) (keeps : KeepsView buf t u) (view : argWord u 0 = buf)
      (position : (argWord u 1).asUsize = p) (call : byte2char u = .ok r t') :
      Decodes buf vm (rs ++ [r]) (p + r.2.1.toNat) t'

theorem toNat_ofUsize_utf8Size (c : Char) : (Word.ofUsize c.utf8Size).toNat = c.utf8Size :=
  Word.toNat_ofUsize (by have := c.utf8Size_le_four; omega)

/-- What is stored has the length of the encoding, and is the encoding where it fits. -/
theorem Stores.part {cs : List Char} {p : Nat} {t : VmState} (h : Stores buf vm cs p t)
    (hp : vm.heap.Part buf root start length elemSize data) :
    p = (cs.flatMap encode).length ∧ ∃ data', t.heap.Part buf root start length elemSize data' ∧
      (p ≤ length * elemSize → slice data' (start * elemSize) p = cs.flatMap encode) := by
  induction h with
  | start => exact ⟨rfl, data, hp, fun _ => List.take_zero⟩
  | @char cs c p r t u t' before keeps rune view position call ih =>
      obtain ⟨hlength, bytes, hpart, hstored⟩ := ih
      have hu := keeps hpart
      rw [char2byte_part hu view, rune, charOfRune_val, position] at call
      cases call
      have hinside := hu.inside
      rw [Nat.add_mul] at hinside
      have hsize := length_encode c
      rw [toNat_ofUsize_utf8Size]
      refine ⟨by rw [length_flatMap_encode_concat, hlength], _,
        hu.update (length_overlay _ _ _) fun _ _ => rfl, fun hfits => ?_⟩
      rw [overlay_of_le (by omega), ← hsize, flatMap_encode_concat]
      have haround := @slice_splice_around _ bytes (encode c) (start * elemSize) p 0 (by omega)
      rw [Nat.add_zero] at haround
      rw [haround, hstored (by omega), slice, List.take_zero, List.append_nil]

theorem Decodes.part {rs : List (Word × Word × Word)} {q : Nat} {u : VmState}
    (h : Decodes buf vm rs q u) (hp : vm.heap.Part buf root start length elemSize data) :
    u.heap.Part buf root start length elemSize data := by
  induction h with
  | start => exact hp
  | char before keeps view position call ih =>
      rw [byte2char_part (keeps ih) view] at call
      cases call
      exact keeps ih

/-- Where the bytes begin with the characters, these are the answers. -/
theorem Decodes.answers {rs : List (Word × Word × Word)} {q : Nat} {u : VmState}
    (h : Decodes buf vm rs q u) (hp : vm.heap.Part buf root start length elemSize data)
    {cs : List Char} (hcs : cs.flatMap encode <+: data.drop (start * elemSize))
    (hfits : (cs.flatMap encode).length ≤ length * elemSize) (hle : rs.length ≤ cs.length) :
    rs = (cs.take rs.length).map answer ∧ q = ((cs.take rs.length).flatMap encode).length := by
  induction h with
  | start => exact ⟨rfl, rfl⟩
  | @char rs q r t u t' before keeps view position call ih =>
      rw [List.length_append, List.length_singleton] at hle ⊢
      obtain ⟨hrs, hq⟩ := ih (by omega)
      have hlt : rs.length < cs.length := by omega
      have hsplit : cs.take (rs.length + 1) = cs.take rs.length ++ [cs[rs.length]] :=
        (List.take_concat_get' cs rs.length hlt).symm
      rw [byte2char_part (keeps (before.part hp)) view, position] at call
      generalize cs[rs.length] = c at hsplit
      have hwhole : (cs.take rs.length ++ [c]).flatMap encode <+: cs.flatMap encode :=
        hsplit ▸ prefix_flatMap_encode (List.take_prefix _ _)
      have hroom := hwhole.length_le
      rw [length_flatMap_encode_concat, ← hq] at hroom
      have hbytes : encode c <+: data.drop (start * elemSize + q) := by
        obtain ⟨rest, hrest⟩ := hwhole.trans hcs
        rw [flatMap_encode_concat, List.append_assoc] at hrest
        rw [← List.drop_drop, ← hrest, hq, List.drop_left]
        exact List.prefix_append _ _
      have hleading : encode c <+: slice data (start * elemSize + q)
          (min (length * elemSize - q) 6) := by
        have hsize := length_encode c
        have hfour := c.utf8Size_le_four
        exact List.prefix_take_iff.mpr ⟨hbytes, by omega⟩
      obtain ⟨rest, hrest⟩ := hleading
      rw [← hrest, leadingChar_encode] at call
      cases call
      rw [hsplit]
      refine ⟨?_, ?_⟩
      · rw [List.map_append, ← hrs]
        rfl
      · rw [length_flatMap_encode_concat, ← hq]
        exact congrArg (q + ·) (toNat_ofUsize_utf8Size c)

/-- Characters that are answered with their lengths are in the view. -/
theorem Decodes.fits {rs : List (Word × Word × Word)} {q : Nat} {u : VmState}
    (h : Decodes buf vm rs q u) (hp : vm.heap.Part buf root start length elemSize data)
    {cs : List Char} (hrs : rs = cs.map answer) :
    q = (cs.flatMap encode).length ∧ (cs.flatMap encode).length ≤ length * elemSize := by
  induction h generalizing cs with
  | start =>
      cases cs with
      | nil => exact ⟨rfl, Nat.zero_le _⟩
      | cons c cs => cases hrs
  | @char rs q r t u t' before keeps view position call ih =>
      rcases List.eq_nil_or_concat cs with rfl | ⟨cs, c, rfl⟩
      · exact absurd hrs (List.append_ne_nil_of_right_ne_nil _ (List.cons_ne_nil _ _))
      · rw [List.concat_eq_append, List.map_append, List.map_singleton] at hrs
        obtain ⟨hbefore, hr⟩ := List.append_inj' hrs rfl
        obtain rfl := (List.cons.inj hr).1
        obtain ⟨hq, hle⟩ := ih hbefore
        rw [byte2char_part (keeps (before.part hp)) view, position] at call
        have hsize := utf8Size_le_of_leadingChar (Res.ok.inj call).1
        rw [length_slice] at hsize
        have hpos := c.utf8Size_pos
        rw [List.concat_eq_append, length_flatMap_encode_concat]
        refine ⟨?_, by omega⟩
        rw [← hq]
        exact congrArg (q + ·) (toNat_ofUsize_utf8Size c)

/-! ### One store and one count -/

/-- The call of `char2byte` reports what it stored: the encoding where it fits in the `size` bytes
from `first` on, and nothing where it does not. -/
def StoresWhole (vm : VmState) (root : HeapId) (first size : Nat) (data : List Byte) : Prop :=
  ∃ stored : List Byte,
    char2byte vm = .ok (.ofUsize stored.length)
      (withBytes root (splice data (first + (argWord vm 2).asUsize) stored) vm) ∧
    ((argWord vm 2).asUsize + (charOfRune (argWord vm 0)).utf8Size ≤ size →
      stored = encode (charOfRune (argWord vm 0))) ∧
    (size < (argWord vm 2).asUsize + (charOfRune (argWord vm 0)).utf8Size → stored = [])

theorem storesWhole_iff (hp : vm.heap.Part buf root start length elemSize data)
    (hbuf : argWord vm 1 = buf) :
    StoresWhole vm root (start * elemSize) (length * elemSize) data ↔
      (argWord vm 2).asUsize + (charOfRune (argWord vm 0)).utf8Size ≤ length * elemSize := by
  have hcall := char2byte_part hp hbuf
  have hsize := length_encode (charOfRune (argWord vm 0))
  have hpos := (charOfRune (argWord vm 0)).utf8Size_pos
  unfold StoresWhole
  rw [hcall]
  constructor
  · rintro ⟨stored, hstored, -, hnone⟩
    refine Nat.le_of_not_lt fun hlt => ?_
    rw [hnone hlt] at hstored
    have hcount := congrArg BitVec.toNat (Res.ok.inj hstored).1
    rw [toNat_ofUsize_utf8Size] at hcount
    exact absurd hcount (Nat.ne_of_gt hpos)
  · intro hfits
    have hinside := hp.inside
    rw [Nat.add_mul] at hinside
    refine ⟨encode (charOfRune (argWord vm 0)), ?_, fun _ => rfl,
      fun hlt => absurd hfits (Nat.not_le_of_gt hlt)⟩
    rw [hsize, overlay_of_le (by omega)]

/-- The call of `utfbytes` counts the bytes of the longest prefix of the view, of at most `n`
bytes, that is a whole number of characters. -/
def CountsWhole (vm : VmState) (view : List Byte) : Prop :=
  ∃ r, utfbytes vm = .ok r vm ∧
    IsGreatest {k | k ≤ (argWord vm 1).asUsize ∧ k ≤ view.length ∧
      ∃ cs : List Char, view.take k = cs.flatMap encode} r.toNat

/-- The first `n` bytes are in the view, or bytes of the array in which no character follows those
that are whole in the view. -/
def EndsInView (n first size : Nat) (data : List Byte) : Prop :=
  n ≤ size ∨ first + n ≤ data.length ∧
    decodeChar? ((slice data first n).drop (validUpTo (slice data first size))) = none

theorem asUsize_of_msb {w : Word} (h : w.msb) : 2 ^ 63 ≤ w.asUsize := by
  have hmsb : (w.signExtend 64).msb = true := by
    rw [BitVec.msb_signExtend]
    simpa using h
  have hle := BitVec.msb_eq_true_iff_two_mul_ge.mp hmsb
  unfold Word.asUsize
  omega

theorem validUpTo_zeros (n : Nat) : validUpTo (List.replicate n (0 : Byte)) = n := by
  have hzeros : (List.replicate n '\x00').flatMap encode = List.replicate n (0 : Byte) := by
    have hzero : encode '\x00' = [0] := by decide
    rw [List.flatMap_replicate, hzero, List.flatten_replicate_singleton]
  have hle := le_validUpTo (hzeros ▸ List.prefix_rfl :
    (List.replicate n '\x00').flatMap encode <+: List.replicate n (0 : Byte))
  have hge := validUpTo_le (List.replicate n (0 : Byte))
  rw [hzeros] at hle
  rw [List.length_replicate] at hle hge
  exact Nat.le_antisymm hge hle

theorem take_slice {first n k : Nat} (h : k ≤ n) :
    (slice data first n).take k = (data.drop first).take k := by
  rw [slice, List.take_take, Nat.min_eq_left h]

theorem countsWhole_iff (hp : vm.heap.Part buf root start length elemSize data)
    (hbuf : argWord vm 0 = buf) :
    CountsWhole vm (slice data (start * elemSize) (length * elemSize)) ↔
      ∃ n, (argWord vm 1).toUsize? = some n ∧
        EndsInView n (start * elemSize) (length * elemSize) data := by
  have hinside := hp.inside
  rw [Nat.add_mul] at hinside
  have hcall := utfbytes_part hp hbuf
  unfold CountsWhole EndsInView
  generalize start * elemSize = first at *
  generalize length * elemSize = size at *
  rw [hcall]
  unfold Word.toUsize?
  cases hmsb : (argWord vm 1).msb with
  | true =>
      rw [if_pos (asUsize_of_msb hmsb)]
      constructor
      · rintro ⟨r, hr, -⟩
        cases hr
      · rintro ⟨n, hn, -⟩
        cases hn
  | false =>
      rw [Word.asUsize_of_msb_false hmsb]
      have hlt := (argWord vm 1).isLt
      generalize (argWord vm 1).toNat = n at *
      rw [if_neg (by omega)]
      have hview : (slice data first size).length = size := by
        rw [length_slice]
        omega
      rw [hview]
      constructor
      · rintro ⟨r, hr, hgreatest⟩
        obtain rfl := (Res.ok.inj hr).1
        refine ⟨n, rfl, or_iff_not_imp_left.mpr fun hlong => ?_⟩
        have hle := hgreatest.1.2.1
        by_cases hin : first + n ≤ data.length
        · rw [if_pos hin, Word.toNat_ofUsize (Nat.lt_of_le_of_lt (validUpTo_le _)
            (by rw [length_slice]; omega)), validUpTo_le_iff, length_slice] at hle
          rw [take_slice (by omega)] at hle
          exact ⟨hin, hle.resolve_left (by omega)⟩
        · rw [if_neg hin, validUpTo_zeros, Word.toNat_ofUsize hlt] at hle
          exact absurd hle hlong
      · rintro ⟨m, hm, hends⟩
        cases hm
        have hin : first + n ≤ data.length := hends.elim (fun hle => by omega) And.left
        have hbytes : (slice data first n).length = n := by
          rw [length_slice]
          omega
        have hle : validUpTo (slice data first n) ≤ size := by
          rw [validUpTo_le_iff, hbytes]
          refine or_iff_not_imp_left.mpr fun hlong => ?_
          rw [take_slice (by omega)]
          exact (hends.resolve_left hlong).2
        rw [if_pos hin]
        refine ⟨_, rfl, ?_⟩
        rw [Word.toNat_ofUsize (Nat.lt_of_le_of_lt (validUpTo_le _) (by omega))]
        have hgreatest := isGreatest_validUpTo (slice data first n)
        rw [hbytes] at hgreatest
        refine ⟨⟨hgreatest.1.1, hle, ?_⟩, ?_⟩
        · rw [take_slice hle, ← take_slice hgreatest.1.1]
          exact hgreatest.1.2
        · rintro k ⟨hkn, hksize, hwhole⟩
          rw [take_slice hksize, ← take_slice hkn] at hwhole
          exact hgreatest.2 ⟨hkn, hwhole⟩

/-- Characters and bytes agree as far as the view goes: a store is whole where the encoding fits,
a count where what it counts ends in the view, and a string is read back as it was stored where
all of it fits. -/
theorem characters_and_bytes_agree_iff
    (hp : vm.heap.Part buf root start length elemSize data) :
    (argWord vm 1 = buf →
      (StoresWhole vm root (start * elemSize) (length * elemSize) data ↔
        (argWord vm 2).asUsize + (charOfRune (argWord vm 0)).utf8Size ≤ length * elemSize)) ∧
    (argWord vm 0 = buf →
      (CountsWhole vm (slice data (start * elemSize) (length * elemSize)) ↔
        ∃ n, (argWord vm 1).toUsize? = some n ∧
          EndsInView n (start * elemSize) (length * elemSize) data)) ∧
    ∀ {s : String} {p q : Nat} {rs : List (Word × Word × Word)} {t u : VmState},
      Stores buf vm s.toList p t → Decodes buf t rs q u → rs.length = s.length →
      ((rs = s.toList.map answer ∧ q = p) ↔ (asBytes s).length ≤ length * elemSize) := by
  refine ⟨storesWhole_iff hp, countsWhole_iff hp, fun {s p q rs t u} hstores hdecodes hcount => ?_⟩
  obtain ⟨rfl, data', hpart, hstored⟩ := hstores.part hp
  rw [asBytes_eq]
  constructor
  · rintro ⟨hrs, -⟩
    exact (hdecodes.fits hpart hrs).2
  · intro hfits
    have hprefix : s.toList.flatMap encode <+: data'.drop (start * elemSize) :=
      hstored hfits ▸ List.take_prefix _ _
    have hlength : rs.length = s.toList.length := hcount.trans s.length_toList.symm
    have hanswers := hdecodes.answers hpart hprefix hfits (Nat.le_of_eq hlength)
    rwa [hlength, List.take_length] at hanswers

end

/-- A call with the given arguments. -/
def calling (args : List Word) (vm : VmState) : VmState :=
  { vm with frames := { vm.frames with
      data := writeWords vm.frames.data (vm.frames.currentDataOffset + argsAt) args } }

/-- Four bytes and, behind them, a slice of the first `n`. -/
def sliced (n : Nat) : List HeapObject :=
  [⟨1, 0, none, .arraySlice 0x10000000 0 0 1 n⟩, ⟨2, 0, none, .array 0 1 [7, 7, 7, 7] 4⟩]

theorem part_sliced {h : Heap} {n : Nat} (hn : n ≤ 4)
    (hslice : h.get 0x10000001 = (sliced n).head?) (harray : h.get 0x10000000 = (sliced n)[1]?) :
    h.Part 0x10000001 0x10000000 0 n 1 [7, 7, 7, 7] where
  view := ⟨_, 0, hslice, rfl⟩
  array := ⟨_, 0, 4, harray, rfl, rfl, by rwa [Nat.zero_add]⟩

/-- The euro sign at the second of four bytes, and a count of three of the four. -/
theorem char_fits_view : (∃ vm, argWord vm 0 = 0x20AC ∧ argWord vm 2 = 1 ∧
      StoresWhole vm 0x10000000 0 4 [7, 7, 7, 7]) ∧
    ∃ vm, argWord vm 1 = 3 ∧ CountsWhole vm [7, 7, 7, 7] := by
  constructor
  · obtain ⟨vm, -, -, hslice, harray, hrune, hview, hat⟩ := exists_run (sliced 4)
      (calling [0x20AC, 0x10000001, 1]) sysChar2byte (fun vm _ =>
        vm.heap.get 0x10000001 = (sliced 4).head? ∧ vm.heap.get 0x10000000 = (sliced 4)[1]? ∧
        argWord vm 0 = 0x20AC ∧ argWord vm 1 = 0x10000001 ∧ argWord vm 2 = 1) (by decide +kernel)
    have hp := part_sliced (by decide) hslice harray
    have hwhole := (characters_and_bytes_agree_iff hp).1 hview
    rw [hrune, hat, Nat.zero_mul, Nat.mul_one] at hwhole
    exact ⟨vm, hrune, hat, hwhole.mpr (by decide)⟩
  · obtain ⟨vm, -, -, hslice, harray, hview, hcount⟩ := exists_run (sliced 4)
      (calling [0x10000001, 3]) sysUtfbytes (fun vm _ =>
        vm.heap.get 0x10000001 = (sliced 4).head? ∧ vm.heap.get 0x10000000 = (sliced 4)[1]? ∧
        argWord vm 0 = 0x10000001 ∧ argWord vm 1 = 3) (by decide +kernel)
    have hp := part_sliced (by decide) hslice harray
    have hwhole := (characters_and_bytes_agree_iff hp).2.1 hview
    rw [hcount] at hwhole
    exact ⟨vm, hcount, hwhole.mpr ⟨3, rfl, .inl (by decide)⟩⟩

/-- The euro sign at the first byte of a view of two: it is stored past the view. -/
theorem char_past_view : ∃ vm vm' : VmState, sysChar2byte vm = .ok () vm' ∧
    vm.heap.Part 0x10000001 0x10000000 0 2 1 [7, 7, 7, 7] ∧ argWord vm 1 = 0x10000001 ∧
    vm'.heap.arrayRead 0x10000000 0 4 = some [0xE2, 0x82, 0xAC, 7] ∧
    ¬ StoresWhole vm 0x10000000 0 2 [7, 7, 7, 7] := by
  obtain ⟨vm, vm', hrun, hslice, harray, hrune, hview, hat, hbytes⟩ := exists_run (sliced 2)
    (calling [0x20AC, 0x10000001, 0]) sysChar2byte (fun vm vm' =>
      vm.heap.get 0x10000001 = (sliced 2).head? ∧ vm.heap.get 0x10000000 = (sliced 2)[1]? ∧
      argWord vm 0 = 0x20AC ∧ argWord vm 1 = 0x10000001 ∧ argWord vm 2 = 0 ∧
      vm'.heap.arrayRead 0x10000000 0 4 = some [0xE2, 0x82, 0xAC, 7]) (by decide +kernel)
  have hp := part_sliced (by decide) hslice harray
  have hwhole := storesWhole_iff hp hview
  rw [hrune, hat, Nat.zero_mul, Nat.mul_one] at hwhole
  exact ⟨vm, vm', hrun, hp, hview, hbytes, fun h => absurd (hwhole.mp h) (by decide)⟩

end RiceVM
