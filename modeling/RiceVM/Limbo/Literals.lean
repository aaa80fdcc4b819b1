import RiceVM.Limbo.Lexer

/-!
String and character literals. The ways to write a character in a literal, and what the lexer
reads where each is written.
-/
namespace RiceVM

namespace Utf8

/-- The bytes of a scalar outside ASCII. -/
structure Multibyte (lead : Byte) (tails : List Byte) : Prop where
  leads : 0xC0 ≤ lead.toNat
  len : Limbo.Lexing.utf8Len lead = tails.length + 1
  continues : ∀ b ∈ tails, 0x80 ≤ b.toNat ∧ b.toNat < 0xC0
  nonempty : tails ≠ []

theorem tail_range : ∀ x : BitVec 8,
    0x80 ≤ (x &&& 0x3F ||| 0x80).toNat ∧ (x &&& 0x3F ||| 0x80).toNat < 0xC0 := by decide

theorem lead_range : ∀ x : BitVec 8,
    (0xC0 ≤ (x &&& 0x1F ||| 0xC0).toNat ∧ Limbo.Lexing.utf8Len (x &&& 0x1F ||| 0xC0) = 2) ∧
    (0xC0 ≤ (x &&& 0x0F ||| 0xE0).toNat ∧ Limbo.Lexing.utf8Len (x &&& 0x0F ||| 0xE0) = 3) ∧
    (0xC0 ≤ (x &&& 0x07 ||| 0xF0).toNat ∧ Limbo.Lexing.utf8Len (x &&& 0x07 ||| 0xF0) = 4) := by
  decide

theorem multibyte {c : Char} (h : 0x80 ≤ c.toNat) :
    ∃ lead tails, encode c = lead :: tails ∧ Multibyte lead tails := by
  rcases c.utf8Size_eq with hsize | hsize | hsize | hsize
  · have hle := UInt32.le_iff_toNat_le.mp (Char.utf8Size_eq_one_iff.mp hsize)
    exact absurd (Nat.le_trans h hle) (by decide)
  · have hlead := (lead_range (c.val >>> 6).toUInt8.toBitVec).1
    rw [encode, String.utf8EncodeChar_eq_cons_cons hsize]
    refine ⟨_, _, rfl, hlead.1, hlead.2, ?_, List.cons_ne_nil _ _⟩
    simp only [List.map_cons, List.map_nil, List.mem_cons, List.not_mem_nil, or_false, forall_eq]
    exact tail_range _
  · have hlead := (lead_range (c.val >>> 12).toUInt8.toBitVec).2.1
    rw [encode, String.utf8EncodeChar_eq_cons_cons_cons hsize]
    refine ⟨_, _, rfl, hlead.1, hlead.2, ?_, List.cons_ne_nil _ _⟩
    simp only [List.map_cons, List.map_nil, List.mem_cons, List.not_mem_nil, or_false,
      forall_eq_or_imp, forall_eq]
    exact ⟨tail_range _, tail_range _⟩
  · have hlead := (lead_range (c.val >>> 18).toUInt8.toBitVec).2.2
    rw [encode, String.utf8EncodeChar_eq_cons_cons_cons_cons hsize]
    refine ⟨_, _, rfl, hlead.1, hlead.2, ?_, List.cons_ne_nil _ _⟩
    simp only [List.map_cons, List.map_nil, List.mem_cons, List.not_mem_nil, or_false,
      forall_eq_or_imp, forall_eq]
    exact ⟨tail_range _, tail_range _, tail_range _⟩

/-- An ASCII byte begins no other character than its own. -/
theorem encode_ne {b : Byte} (hb : b.toNat < 0x80) {c : Char} (hc : c.toNat ≠ b.toNat) :
    ∃ lead tails, encode c = lead :: tails ∧ lead ≠ b := by
  by_cases h : c.toNat < 0x80
  · refine ⟨_, _, encode_ascii h, fun heq => hc ?_⟩
    rw [← heq, BitVec.toNat_ofNat, Nat.mod_eq_of_lt (by omega)]
  · obtain ⟨lead, tails, hbytes, hmulti⟩ := multibyte (Nat.le_of_not_lt h)
    refine ⟨lead, tails, hbytes, ?_⟩
    rintro rfl
    have := hmulti.leads
    omega

theorem decodeChar?_continuation :
    ∀ n < 0xC0, 0x80 ≤ n → decodeChar? [BitVec.ofNat 8 n] = none := by
  decide +kernel

theorem fromUtf8?_continuation {b : Byte} (h : 0x80 ≤ b.toNat ∧ b.toNat < 0xC0) :
    fromUtf8? [b] = none := by
  have hdecode := decodeChar?_continuation b.toNat h.2 h.1
  rw [BitVec.ofNat_toNat, BitVec.setWidth_eq] at hdecode
  rw [fromUtf8?, List.length_singleton, charsLoop, hdecode]
  rfl

end Utf8

namespace Limbo.Lexing
open Exec Utf8

/-! ### Running the lexer -/

variable {lx : Lexer} {bytes rest : List Byte}

theorem peek_apply (lx : Lexer) : peek lx = .ok (lx.rest.headD 0) lx := rfl

theorem advance_apply (lx : Lexer) : advance lx = .ok (lx.rest.headD 0) (lx.skip 1) := rfl

theorem Lexer.skip_zero (lx : Lexer) : lx.skip 0 = lx := rfl

theorem Lexer.skip_skip (m n : Nat) (lx : Lexer) : (lx.skip m).skip n = lx.skip (m + n) := by
  simp only [Lexer.skip, List.drop_drop, Span.after, ← List.foldl_append, List.take_add]

theorem Lexer.rest_skip (h : lx.rest = bytes ++ rest) : (lx.skip bytes.length).rest = rest := by
  rw [Lexer.skip, h, List.drop_left]

theorem Lexer.rest_skip_one {b : Byte} (h : lx.rest = b :: rest) : (lx.skip 1).rest = rest :=
  Lexer.rest_skip (show lx.rest = [b] ++ rest from h)

theorem Lexer.rest_skip_two {b c : Byte} (h : lx.rest = b :: c :: rest) :
    (lx.skip 2).rest = rest :=
  Lexer.rest_skip (show lx.rest = [b, c] ++ rest from h)

theorem fail_apply {α : Type} (message : String) :
    (fail message : Lex α) lx = .error (lx.err message) lx := rfl

theorem utf8Len_ascii {b : Byte} (h : b.toNat < 0x80) : utf8Len b = 1 :=
  if_pos (Nat.le_of_lt_succ h)

theorem utf8Len_continuation {b : Byte} (h : 0x80 ≤ b.toNat ∧ b.toNat < 0xC0) : utf8Len b = 1 := by
  simp only [utf8Len]
  rw [if_neg (by omega), if_neg (by omega), if_neg (by omega), if_neg (by omega)]

/-- The first byte of a scalar tells how many there are. -/
theorem encode_lead (c : Char) :
    ∃ lead tails, encode c = lead :: tails ∧ utf8Len lead = tails.length + 1 := by
  by_cases h : c.toNat < 0x80
  · refine ⟨_, _, encode_ascii h, utf8Len_ascii ?_⟩
    rw [BitVec.toNat_ofNat]
    omega
  · obtain ⟨lead, tails, hbytes, hmulti⟩ := multibyte (Nat.le_of_not_lt h)
    exact ⟨lead, tails, hbytes, hmulti.len⟩

theorem nextUtf8Char_encode {c : Char} (h : lx.rest = encode c ++ rest) :
    nextUtf8Char lx = .ok c (lx.skip (encode c).length) := by
  obtain ⟨lead, tails, hbytes, hlen⟩ := encode_lead c
  have htake : lx.rest.take (utf8Len (lx.rest.headD 0)) = encode c := by
    rw [h, hbytes, List.cons_append, List.headD_cons, hlen, List.take_succ_cons, List.take_left']
    rfl
  have hchar : (fromUtf8? (lx.rest.take (utf8Len (lx.rest.headD 0)))).bind List.head? = some c := by
    rw [htake, fromUtf8?_encode]
    rfl
  rw [nextUtf8Char, bind_ok (get_apply lx), bind_ok (peek_apply lx), hchar, length_encode]
  rfl

/-- A byte that begins no character is read as one. -/
theorem nextUtf8Char_continuation {b : Byte} (hb : 0x80 ≤ b.toNat ∧ b.toNat < 0xC0)
    (h : lx.rest = b :: rest) :
    nextUtf8Char lx = .ok (Char.ofNat b.toNat) (lx.skip 1) := by
  have htake : lx.rest.take (utf8Len (lx.rest.headD 0)) = [b] := by
    rw [h, List.headD_cons, utf8Len_continuation hb]
    rfl
  have hchar : (fromUtf8? (lx.rest.take (utf8Len (lx.rest.headD 0)))).bind List.head? = none := by
    rw [htake, fromUtf8?_continuation hb]
    rfl
  rw [nextUtf8Char, bind_ok (get_apply lx), bind_ok (peek_apply lx), hchar, h]
  rfl

/-! ### Ways to write a character -/

/-- The value of four hex digits. -/
def hexValue : List Byte → Nat → Option Nat
  | [], val => some val
  | d :: digits, val => (hexDigit? d).bind fun n => hexValue digits (val * 16 + n)

/-- The characters that stand for something else after a backslash. -/
def namedEscapes : List Char := ['n', 't', 'r', 'a', 'b', 'f', 'v', '0', 'u']

/-- How a character is written in a literal in which those of `plain` stand for themselves. -/
inductive Writing (plain : Char → Prop) where
  | itself (c : Char) (h : plain c ∧ c.toNat ≠ backslash.toNat)
  | table (esc : Byte) (val : Nat) (h : (esc, val) ∈ escapeTable)
  | hex (digits : List Byte) (c : Char) (hlen : digits.length = 4)
      (h : hexValue digits 0 = some c.toNat)
  /-- A backslash before a character that the table does not name. -/
  | escaped (c : Char) (h : c ∉ namedEscapes)

namespace Writing

variable {plain : Char → Prop}

def char : Writing plain → Char
  | .itself c _ | .hex _ c _ _ | .escaped c _ => c
  | .table _ val _ => Char.ofNat val

def text : Writing plain → List Byte
  | .itself c _ => encode c
  | .table esc _ _ => [backslash, esc]
  | .hex digits _ _ _ => backslash :: ascii 'u' :: digits
  | .escaped c _ => backslash :: encode c

/-- What the lexer makes of it: of an escaped scalar outside ASCII a character for every byte. -/
def read : Writing plain → List Char
  | .escaped c _ => (encode c).map fun b => Char.ofNat b.toNat
  | w => [w.char]

/-- No backslash before a character outside ASCII. -/
def Clean : Writing plain → Prop
  | .escaped c _ => c.toNat < 0x80
  | _ => True

theorem length_read (w : Writing plain) : 1 ≤ w.read.length ∧ (w.read.length = 1 ↔ w.Clean) := by
  cases w with
  | itself | table | hex => exact ⟨Nat.le_refl 1, iff_of_true rfl True.intro⟩
  | escaped c h =>
      simp only [read, Clean, List.length_map]
      by_cases hc : c.toNat < 0x80
      · rw [encode_ascii hc]
        exact ⟨Nat.le_refl 1, iff_of_true rfl hc⟩
      · obtain ⟨lead, tails, hbytes, hmulti⟩ := multibyte (Nat.le_of_not_lt hc)
        have := List.length_pos_iff.mpr hmulti.nonempty
        rw [hbytes, List.length_cons]
        exact ⟨by omega, iff_of_false (by omega) hc⟩

theorem read_of_clean {w : Writing plain} (h : w.Clean) : w.read = [w.char] := by
  cases w with
  | itself | table | hex => rfl
  | escaped c hnot =>
      have hc : c.toNat < 0x80 := h
      simp only [read, char]
      rw [encode_ascii hc, List.map_singleton, BitVec.toNat_ofNat, Nat.mod_eq_of_lt (by omega),
        Char.ofNat_toNat]

theorem length_flatMap_read (ws : List (Writing plain)) : ws.length ≤ (ws.flatMap read).length ∧
    ((ws.flatMap read).length = ws.length → ∀ w ∈ ws, w.Clean) := by
  induction ws with
  | nil => exact ⟨Nat.le_refl 0, fun _ => nofun⟩
  | cons w ws ih =>
      have hw := w.length_read
      rw [List.flatMap_cons, List.length_append, List.length_cons]
      refine ⟨by omega, fun hlen => List.forall_mem_cons.mpr ⟨hw.2.mp (by omega), ih.2 (by omega)⟩⟩

/-- The lexer makes the characters of the ways to write them where all are clean. -/
theorem flatMap_read {ws : List (Writing plain)} :
    ws.flatMap read = ws.map char ↔ ∀ w ∈ ws, w.Clean := by
  constructor
  · intro h
    refine (length_flatMap_read ws).2 ?_
    rw [h, List.length_map]
  · intro h
    induction ws with
    | nil => rfl
    | cons w ws ih =>
        rw [List.flatMap_cons, List.map_cons, read_of_clean (h w List.mem_cons_self),
          ih fun w hw => h w (List.mem_cons_of_mem _ hw)]
        rfl

end Writing

/-! ### Escapes -/

theorem lookup_escapeTable : ∀ e ∈ escapeTable, escapeTable.lookup e.1 = some e.2 := by decide

theorem charFromU32_table :
    ∀ e ∈ escapeTable, charFromU32 e.2 = some (Char.ofNat e.2) := by decide

theorem escapeValue_table {esc : Byte} {val : Nat} (h : (esc, val) ∈ escapeTable) :
    escapeValue esc lx = .ok val lx := by
  have hlookup := lookup_escapeTable _ h
  rw [escapeValue, hlookup]
  rfl

/-- A byte that is neither in the table nor a `u`. -/
def Unnamed (b : Byte) : Prop := escapeTable.lookup b = none ∧ b ≠ ascii 'u'

instance (b : Byte) : Decidable (Unnamed b) := inferInstanceAs (Decidable (_ ∧ _))

theorem escapeValue_unnamed {b : Byte} (h : Unnamed b) : escapeValue b lx = .ok b.toNat lx := by
  rw [escapeValue, h.1]
  simp only [if_neg h.2]
  rfl

theorem unnamed_of_lead : ∀ b : BitVec 8, 0x80 ≤ b.toNat → Unnamed b := by decide

theorem unnamed_ascii : ∀ n < 0x80, Char.ofNat n ∉ namedEscapes → Unnamed (BitVec.ofNat 8 n) := by
  decide

theorem hexLoop_apply {digits : List Byte} {val result : Nat} (hrest : lx.rest = digits ++ rest)
    (h : hexValue digits val = some result) :
    hexLoop digits.length val lx = .ok result (lx.skip digits.length) := by
  induction digits generalizing lx val with
  | nil =>
      cases h
      rfl
  | cons d digits ih =>
      rw [hexValue, Option.bind_eq_some_iff] at h
      obtain ⟨n, hdigit, h⟩ := h
      have hhead : hexDigit? (lx.rest.headD 0) = some n := by
        rw [hrest, List.cons_append, List.headD_cons, hdigit]
      rw [List.length_cons, hexLoop, bind_ok (advance_apply lx), hhead]
      have hstep := ih (Lexer.rest_skip_one hrest) h
      rw [Lexer.skip_skip, Nat.add_comm 1] at hstep
      exact hstep

theorem charFromU32_toNat (c : Char) : charFromU32 c.toNat = some c := by
  rw [charFromU32, if_pos (show c.toNat.isValidChar from c.valid), Char.ofNat_toNat]

theorem charFromU32_byte (b : Byte) : charFromU32 b.toNat = some (Char.ofNat b.toNat) := by
  have := b.isLt
  exact if_pos (.inl (by omega))

theorem encode_unnamed {c : Char} (h : c ∉ namedEscapes) : ∃ lead tails,
    encode c = lead :: tails ∧ Unnamed lead ∧ ∀ b ∈ tails, 0x80 ≤ b.toNat ∧ b.toNat < 0xC0 := by
  by_cases hc : c.toNat < 0x80
  · refine ⟨_, [], encode_ascii hc, unnamed_ascii _ hc ?_, nofun⟩
    rwa [Char.ofNat_toNat]
  · obtain ⟨lead, tails, hbytes, hmulti⟩ := multibyte (Nat.le_of_not_lt hc)
    exact ⟨lead, tails, hbytes, unnamed_of_lead lead (Nat.le_trans (by decide) hmulti.leads),
      hmulti.continues⟩

/-! ### Strings -/

abbrev StringWriting := Writing fun c => c.toNat ≠ quote.toNat

section

variable {fuel : Nat} {s : List Char}

theorem lexStringLoop_plain {b : Byte} (h : lx.rest = b :: rest) (hquote : b ≠ quote)
    (hescape : b ≠ backslash) :
    lexStringLoop (fuel + 1) s lx =
      (do let c ← nextUtf8Char; lexStringLoop fuel (s ++ [c]) : Lex (List Char)) lx := by
  have hne : lx.rest ≠ [] := by rw [h]; exact List.cons_ne_nil _ _
  have hhead : lx.rest.headD 0 = b := by rw [h]; rfl
  simp only [lexStringLoop, bind_apply, get_apply, if_neg hne, peek_apply, hhead, if_neg hquote,
    if_neg hescape]

theorem lexStringLoop_escape {esc : Byte} (h : lx.rest = backslash :: esc :: rest) :
    lexStringLoop (fuel + 1) s lx =
      (do let val ← escapeValue esc
          lexStringLoop fuel (s ++ (charFromU32 val).toList) : Lex (List Char)) (lx.skip 2) := by
  have hne : lx.rest ≠ [] := by rw [h]; exact List.cons_ne_nil _ _
  have hhead : lx.rest.headD 0 = backslash := by rw [h]; rfl
  have hnext : (lx.skip 1).rest.headD 0 = esc := by rw [Lexer.rest_skip_one h]; rfl
  have hquote : backslash ≠ quote := by decide
  simp only [lexStringLoop, bind_apply, get_apply, if_neg hne, peek_apply, hhead, if_neg hquote,
    if_true, advance_apply, hnext, Lexer.skip_skip]

theorem lexStringLoop_close (h : lx.rest = quote :: rest) :
    lexStringLoop (fuel + 1) s lx = .ok s (lx.skip 1) := by
  have hne : lx.rest ≠ [] := by rw [h]; exact List.cons_ne_nil _ _
  have hhead : lx.rest.headD 0 = quote := by rw [h]; rfl
  simp only [lexStringLoop, bind_apply, get_apply, if_neg hne, peek_apply, hhead, if_true,
    advance_apply, pure_apply]

theorem lexStringLoop_char {c : Char} (h : lx.rest = encode c ++ rest)
    (hquote : c.toNat ≠ quote.toNat) (hescape : c.toNat ≠ backslash.toNat) :
    lexStringLoop (fuel + 1) s lx = lexStringLoop fuel (s ++ [c]) (lx.skip (encode c).length) := by
  obtain ⟨lead, tails, hbytes, hne⟩ := encode_ne (b := quote) (by decide) hquote
  obtain ⟨lead', tails', hbytes', hne'⟩ := encode_ne (b := backslash) (by decide) hescape
  obtain ⟨rfl, rfl⟩ := List.cons.inj (hbytes'.symm.trans hbytes)
  have hhead : lx.rest = lead' :: (tails' ++ rest) := by rw [h, hbytes', List.cons_append]
  rw [lexStringLoop_plain hhead hne hne', bind_ok (nextUtf8Char_encode h)]

theorem lexStringLoop_tails {tails : List Byte}
    (htails : ∀ b ∈ tails, 0x80 ≤ b.toNat ∧ b.toNat < 0xC0) (h : lx.rest = tails ++ rest) :
    lexStringLoop (fuel + tails.length) s lx =
      lexStringLoop fuel (s ++ tails.map fun b => Char.ofNat b.toNat) (lx.skip tails.length) := by
  induction tails generalizing lx s with
  | nil => simp [Lexer.skip_zero]
  | cons b tails ih =>
      have hb := htails b List.mem_cons_self
      rw [List.length_cons, ← Nat.add_assoc, lexStringLoop_plain h
        (by rintro rfl; exact absurd hb.1 (by decide))
        (by rintro rfl; exact absurd hb.1 (by decide)),
        bind_ok (nextUtf8Char_continuation hb h),
        ih (fun b hb => htails b (List.mem_cons_of_mem _ hb)) (Lexer.rest_skip_one h),
        Lexer.skip_skip, Nat.add_comm 1, List.map_cons, List.append_assoc]
      rfl

/-- One way of writing a character in a string. -/
theorem lexStringLoop_writing (w : StringWriting) (h : lx.rest = w.text ++ rest) :
    lexStringLoop (fuel + w.read.length) s lx =
      lexStringLoop fuel (s ++ w.read) (lx.skip w.text.length) := by
  cases w with
  | itself c hc => exact lexStringLoop_char h hc.1 hc.2
  | table esc val hmem =>
      have hchar : charFromU32 val = some (Char.ofNat val) := charFromU32_table _ hmem
      rw [show (Writing.table esc val hmem : StringWriting).read.length = 1 from rfl,
        lexStringLoop_escape h, bind_ok (escapeValue_table hmem), hchar]
      rfl
  | hex digits c hlen hval =>
      have hrest : (lx.skip 2).rest = digits ++ rest := Lexer.rest_skip_two h
      have hhex := hexLoop_apply hrest hval
      rw [hlen, Lexer.skip_skip] at hhex
      have hesc : escapeValue (ascii 'u') (lx.skip 2) = .ok c.toNat (lx.skip (2 + 4)) := hhex
      rw [show (Writing.hex digits c hlen hval : StringWriting).read.length = 1 from rfl,
        lexStringLoop_escape h, bind_ok hesc, charFromU32_toNat, Writing.text, List.length_cons,
        List.length_cons, hlen]
      rfl
  | escaped c hnot =>
      obtain ⟨lead, tails, hbytes, hunnamed, htails⟩ := encode_unnamed hnot
      have hrest : lx.rest = backslash :: lead :: (tails ++ rest) := by
        rw [h, Writing.text, hbytes]
        rfl
      have hesc : escapeValue lead (lx.skip 2) = .ok lead.toNat (lx.skip 2) :=
        escapeValue_unnamed hunnamed
      have hafter : (lx.skip 2).rest = tails ++ rest := Lexer.rest_skip_two hrest
      have hlen : (Writing.escaped c hnot : StringWriting).text.length = 2 + tails.length := by
        rw [Writing.text, hbytes, List.length_cons, List.length_cons]
        omega
      have hread : (Writing.escaped c hnot : StringWriting).read =
          Char.ofNat lead.toNat :: tails.map fun b => Char.ofNat b.toNat := by
        rw [Writing.read, hbytes, List.map_cons]
      -- the bytes after the first are read as characters of their own
      rw [hread, List.length_cons, List.length_map, ← Nat.add_assoc, lexStringLoop_escape hrest,
        bind_ok hesc, charFromU32_byte, lexStringLoop_tails htails hafter, Lexer.skip_skip, hlen,
        List.append_assoc]
      rfl

theorem lexStringLoop_writings (ws : List StringWriting)
    (h : lx.rest = ws.flatMap Writing.text ++ rest) :
    lexStringLoop (fuel + (ws.flatMap Writing.read).length) s lx =
      lexStringLoop fuel (s ++ ws.flatMap Writing.read)
        (lx.skip (ws.flatMap Writing.text).length) := by
  induction ws generalizing lx s fuel with
  | nil => simp [Lexer.skip_zero]
  | cons w ws ih =>
      rw [List.flatMap_cons, List.append_assoc] at h
      rw [List.flatMap_cons, List.flatMap_cons, List.length_append, Nat.add_comm w.read.length,
        ← Nat.add_assoc, lexStringLoop_writing w h, ih (Lexer.rest_skip h), Lexer.skip_skip,
        List.length_append, List.append_assoc]

end

theorem length_read_le (w : StringWriting) : w.read.length ≤ w.text.length := by
  cases w with
  | itself c h =>
      rw [Writing.text, length_encode]
      exact c.utf8Size_pos
  | table => exact Nat.le_succ 1
  | hex => exact Nat.succ_le_succ (Nat.zero_le _)
  | escaped c h =>
      rw [Writing.text, Writing.read, List.length_map]
      exact Nat.le_succ _

theorem length_flatMap_read_le (ws : List StringWriting) :
    (ws.flatMap Writing.read).length ≤ (ws.flatMap Writing.text).length := by
  induction ws with
  | nil => exact Nat.le_refl 0
  | cons w ws ih =>
      rw [List.flatMap_cons, List.flatMap_cons, List.length_append, List.length_append]
      exact Nat.add_le_add (length_read_le w) ih

/-- The text of a string literal. -/
def stringText (ws : List StringWriting) : List Byte :=
  quote :: (ws.flatMap Writing.text ++ [quote])

/-- A string literal is read up to its closing quote, whatever follows. -/
theorem lexString_apply (span : Span) (ws : List StringWriting)
    (h : lx.rest = stringText ws ++ rest) :
    lexString span lx = .ok ⟨.stringLit (.ofList (ws.flatMap Writing.read)), span⟩
      (lx.skip (stringText ws).length) := by
  have hopen : lx.rest = quote :: (ws.flatMap Writing.text ++ quote :: rest) := by
    rw [h, stringText, List.cons_append, List.append_assoc]
    rfl
  have hrest : (lx.skip 1).rest = ws.flatMap Writing.text ++ quote :: rest :=
    Lexer.rest_skip_one hopen
  have hclose : ((lx.skip 1).skip (ws.flatMap Writing.text).length).rest = quote :: rest :=
    Lexer.rest_skip hrest
  have hfuel : (lx.skip 1).rest.length + 1 = ((lx.skip 1).rest.length -
      (ws.flatMap Writing.read).length) + 1 + (ws.flatMap Writing.read).length := by
    have := length_flatMap_read_le ws
    have hlen := congrArg List.length hrest
    rw [List.length_append] at hlen
    omega
  have hloop : lexStringLoop ((lx.skip 1).rest.length + 1) [] (lx.skip 1) =
      .ok (ws.flatMap Writing.read) (lx.skip (stringText ws).length) := by
    rw [hfuel, lexStringLoop_writings ws hrest, lexStringLoop_close hclose, Lexer.skip_skip,
      Lexer.skip_skip, stringText, List.length_cons, List.length_append, List.length_singleton,
      List.nil_append, Nat.add_comm 1, Nat.add_right_comm]
  have hrun : lexString span lx =
      (do let s ← lexStringLoop ((lx.skip 1).rest.length + 1) []
          return ⟨.stringLit (.ofList s), span⟩ : Lex Token) (lx.skip 1) := rfl
  rw [hrun, bind_ok hloop]
  rfl

/-! ### Characters -/

abbrev CharWriting := Writing fun _ => True

def charText (w : CharWriting) : List Byte := apostrophe :: (w.text ++ [apostrophe])

theorem lexCharValue_itself {c : Char} (hescape : c.toNat ≠ backslash.toNat)
    (h : lx.rest = encode c ++ rest) :
    lexCharValue lx = .ok c.toNat (lx.skip (encode c).length) := by
  obtain ⟨lead, tails, hbytes, hne⟩ := encode_ne (b := backslash) (by decide) hescape
  have hhead : lx.rest.headD 0 = lead := by rw [h, hbytes]; rfl
  have hrun : lexCharValue lx =
      (if lx.rest.headD 0 = backslash then do
          let _ ← advance
          escapeValue (← advance)
        else return (← nextUtf8Char).toNat : Lex Nat) lx := rfl
  rw [hrun, hhead, if_neg hne, bind_ok (nextUtf8Char_encode h)]
  rfl

theorem lexCharValue_escape {esc : Byte} (h : lx.rest = backslash :: esc :: rest) :
    lexCharValue lx = escapeValue esc (lx.skip 2) := by
  have hhead : lx.rest.headD 0 = backslash := by rw [h]; rfl
  have hnext : (lx.skip 1).rest.headD 0 = esc := by rw [Lexer.rest_skip_one h]; rfl
  simp only [lexCharValue, bind_apply, peek_apply, hhead, if_true, advance_apply, hnext,
    Lexer.skip_skip]

theorem toNat_table : ∀ e ∈ escapeTable, (Char.ofNat e.2).toNat = e.2 := by decide

/-- The value of a character that is written cleanly. -/
theorem lexCharValue_clean {w : CharWriting} (hclean : w.Clean) (h : lx.rest = w.text ++ rest) :
    lexCharValue lx = .ok w.char.toNat (lx.skip w.text.length) := by
  cases w with
  | itself c hc => exact lexCharValue_itself hc.2 h
  | table esc val hmem =>
      rw [lexCharValue_escape h, escapeValue_table hmem, Writing.char, toNat_table _ hmem]
      rfl
  | hex digits c hlen hval =>
      have hrest : (lx.skip 2).rest = digits ++ rest := Lexer.rest_skip_two h
      have hhex := hexLoop_apply hrest hval
      rw [hlen, Lexer.skip_skip] at hhex
      have hesc : escapeValue (ascii 'u') (lx.skip 2) = .ok c.toNat (lx.skip (2 + 4)) := hhex
      rw [lexCharValue_escape h, hesc, Writing.text, List.length_cons, List.length_cons, hlen]
      rfl
  | escaped c hnot =>
      have hc : c.toNat < 0x80 := hclean
      have htext : (Writing.escaped c hnot : CharWriting).text =
          [backslash, BitVec.ofNat 8 c.toNat] := by rw [Writing.text, encode_ascii hc]
      have hunnamed := unnamed_ascii _ hc (by rwa [Char.ofNat_toNat])
      rw [htext] at h ⊢
      rw [lexCharValue_escape h, escapeValue_unnamed hunnamed, BitVec.toNat_ofNat,
        Nat.mod_eq_of_lt (by omega)]
      rfl

theorem lexChar_apply (span : Span) {w : CharWriting} (hclean : w.Clean)
    (h : lx.rest = charText w ++ rest) :
    lexChar span lx = .ok ⟨.charLit (BitVec.ofNat 32 w.char.toNat), span⟩
      (lx.skip (charText w).length) := by
  have hopen : lx.rest = apostrophe :: (w.text ++ apostrophe :: rest) := by
    rw [h, charText, List.cons_append, List.append_assoc]
    rfl
  have hrest : (lx.skip 1).rest = w.text ++ apostrophe :: rest := Lexer.rest_skip_one hopen
  have hclose : ((lx.skip 1).skip w.text.length).rest.headD 0 = apostrophe := by
    rw [Lexer.rest_skip hrest]
    rfl
  have hlen : (charText w).length = 1 + w.text.length + 1 := by
    rw [charText, List.length_cons, List.length_append, List.length_singleton]
    omega
  have hvalue := lexCharValue_clean hclean hrest
  rw [Lexer.skip_skip] at hclose hvalue
  simp only [lexChar, bind_apply, advance_apply, hvalue, peek_apply, hclose, ne_eq, not_true,
    if_false, pure_apply, Lexer.skip_skip, hlen]

/-- After an escaped scalar outside ASCII the closing quote is not where it is looked for. -/
theorem lexChar_error (span : Span) {w : CharWriting} (hclean : ¬ w.Clean)
    (h : lx.rest = charText w ++ rest) : ∃ e s, lexChar span lx = .error e s := by
  cases w with
  | itself | table | hex => exact absurd True.intro hclean
  | escaped c hnot =>
      obtain ⟨lead, tails, hbytes, hmulti⟩ := multibyte (Nat.le_of_not_lt hclean)
      have hlead := unnamed_of_lead lead (Nat.le_trans (by decide) hmulti.leads)
      cases tails with
      | nil => exact absurd rfl hmulti.nonempty
      | cons tail tails =>
          have htail := hmulti.continues tail List.mem_cons_self
          have hopen : lx.rest = apostrophe :: backslash :: lead :: tail ::
              (tails ++ apostrophe :: rest) := by
            rw [h, charText, Writing.text, hbytes]
            simp
          have hrest : (lx.skip 1).rest =
              backslash :: lead :: tail :: (tails ++ apostrophe :: rest) :=
            Lexer.rest_skip_one hopen
          have hnext : ((lx.skip 1).skip 2).rest.headD 0 = tail := by
            rw [Lexer.rest_skip_two hrest]
            rfl
          have hne : tail ≠ apostrophe := by
            rintro rfl
            exact absurd htail.1 (by decide)
          have hvalue : lexCharValue (lx.skip 1) = .ok lead.toNat ((lx.skip 1).skip 2) := by
            rw [lexCharValue_escape hrest, escapeValue_unnamed hlead]
          simp only [lexChar, bind_apply, advance_apply, hvalue, peek_apply, hnext, ne_eq, hne,
            not_false_iff, if_true, fail_apply]
          exact ⟨_, _, rfl⟩

end Limbo.Lexing

end RiceVM
