import RiceVM.Limbo.Literals

/-!
Tokens as they are written. Each way to write a token is read as that token, and a text of tokens
with blanks between them is read as the tokens and an end.
-/
namespace RiceVM.Limbo.Lexing
open Exec Utf8

variable {lx : Lexer} {gap text rest : List Byte}

theorem peek2_apply (lx : Lexer) : peek2 lx = .ok (lx.rest.tail.headD 0) lx := rfl

/-! ### Runs of a class -/

theorem takeWhile_append {p : Byte → Bool} (htext : ∀ b ∈ text, p b) (hrest : ¬ p (rest.headD 0)) :
    (text ++ rest).takeWhile p = text := by
  rw [List.takeWhile_append_of_pos htext]
  cases rest with
  | nil => exact List.append_nil text
  | cons b rest =>
      have hb : ¬ p b := hrest
      rw [List.takeWhile_cons_of_neg hb, List.append_nil]

theorem advanceWhile_apply {p : Byte → Bool} (htext : ∀ b ∈ text, p b)
    (hrest : ¬ p (rest.headD 0)) (h : lx.rest = text ++ rest) :
    advanceWhile p lx = .ok () (lx.skip text.length) := by
  have hrun : advanceWhile p lx = .ok () (lx.skip (lx.rest.takeWhile p).length) := rfl
  rw [hrun, h, takeWhile_append htext hrest]

theorem skipWhitespaceAndComments_apply (hgap : ∀ b ∈ gap, isAsciiWhitespace b)
    (hspace : ¬ isAsciiWhitespace (rest.headD 0)) (hcomment : rest.headD 0 ≠ ascii '#')
    (h : lx.rest = gap ++ rest) :
    skipWhitespaceAndComments lx = .ok () (lx.skip gap.length) := by
  have hrun : skipWhitespaceAndComments lx =
      (do advanceWhile isAsciiWhitespace
          if (← peek) = ascii '#' then
            advanceWhile (· ≠ 0x0A)
            skipLoop lx.rest.length
          else return () : Lex Unit) lx := rfl
  rw [hrun, bind_ok (advanceWhile_apply hgap hspace h), bind_ok (peek_apply _),
    Lexer.rest_skip h, if_neg hcomment]
  rfl

/-- What ends a token that is no literal. -/
def Ends (rest : List Byte) : Prop := rest.headD 0 ∈ [0, 0x20, 0x09, 0x0A, 0x0C, 0x0D]

theorem ends_spec : ∀ b ∈ [(0 : Byte), 0x20, 0x09, 0x0A, 0x0C, 0x0D],
    ¬ isWordByte b ∧ ¬ isAsciiDigit b ∧
      b ∉ ([0x2E, 0x45, 0x65, 0x52, 0x72, 0x58, 0x78] : List Byte) ∧
      b ∉ ['+', '-', '=', '>', '<', '*', '&', '|', ':'].map ascii := by decide

/-! ### ASCII text -/

def chars (bytes : List Byte) : List Char := bytes.map fun b => Char.ofNat b.toNat

theorem toNat_ofNat_byte : ∀ b : BitVec 8, (Char.ofNat b.toNat).toNat = b.toNat := by decide

theorem encode_byte {b : Byte} (h : b.toNat < 0x80) : encode (Char.ofNat b.toNat) = [b] := by
  rw [encode_ascii (by rwa [toNat_ofNat_byte]), toNat_ofNat_byte, BitVec.ofNat_toNat,
    BitVec.setWidth_eq]

theorem flatMap_encode_chars {bytes : List Byte} (h : ∀ b ∈ bytes, b.toNat < 0x80) :
    (chars bytes).flatMap encode = bytes := by
  induction bytes with
  | nil => rfl
  | cons b bytes ih =>
      have hb := h b List.mem_cons_self
      rw [chars, List.map_cons, List.flatMap_cons, encode_byte hb]
      exact congrArg (b :: ·) (ih fun b hb => h b (List.mem_cons_of_mem _ hb))

theorem textSince_apply {start : Lexer} {cs : List Char} {message : String}
    (h : start.rest = cs.flatMap encode ++ rest) (hrest : lx.rest = rest) :
    textSince start message lx = .ok cs lx := by
  have htake : start.rest.take (start.rest.length - lx.rest.length) = cs.flatMap encode := by
    rw [h, hrest, List.length_append, Nat.add_sub_cancel, List.take_left]
  rw [textSince, bind_ok (get_apply lx), htake, fromUtf8?_flatMap]
  rfl

/-! ### Words -/

/-- A name, or a keyword. -/
structure WordText where
  chars : List Char
  word : ∀ b ∈ chars.flatMap encode, isWordByte b
  starts : ∃ b bytes, chars.flatMap encode = b :: bytes ∧ ¬ isAsciiDigit b

def WordText.bytes (w : WordText) : List Byte := w.chars.flatMap encode

theorem WordText.isWord (w : WordText) : ∀ b ∈ w.bytes, isWordByte b := w.word

def WordText.kind (w : WordText) : TokenKind :=
  (keyword (.ofList w.chars)).getD (.ident (.ofList w.chars))

theorem lexIdent_apply (span : Span) (w : WordText) (hends : Ends rest)
    (h : lx.rest = w.bytes ++ rest) :
    lexIdent span lx = .ok ⟨w.kind, span⟩ (lx.skip w.bytes.length) := by
  have hrun : lexIdent span lx =
      (do advanceWhile isWordByte
          let word ← textSince lx "invalid UTF-8 in identifier"
          return ⟨(keyword (.ofList word)).getD (.ident (.ofList word)), span⟩ :
            Lex Token) lx := rfl
  rw [hrun, bind_ok (advanceWhile_apply w.isWord (ends_spec _ hends).1 h),
    bind_ok (textSince_apply h (Lexer.rest_skip h))]
  rfl

/-! ### Numbers -/

/-- A number: the digits before the dot, those after it, and the exponent. -/
structure NumberText where
  whole : List Byte
  fraction : Option (List Byte)
  /-- The letter, the sign and the digits. -/
  exponent : Option (Byte × Option Byte × List Byte)
  wholeDigits : ∀ b ∈ whole, isAsciiDigit b
  fractionDigits : ∀ ds ∈ fraction, ∀ b ∈ ds, isAsciiDigit b
  exponentDigits : ∀ e ∈ exponent, (e.1 = ascii 'e' ∨ e.1 = ascii 'E') ∧
    (∀ sign ∈ e.2.1, sign = ascii '+' ∨ sign = ascii '-') ∧ ∀ b ∈ e.2.2, isAsciiDigit b

namespace NumberText

variable (t : NumberText)

def fractionBytes : List Byte :=
  match t.fraction with
  | none => []
  | some ds => ascii '.' :: ds

def exponentBytes : List Byte :=
  match t.exponent with
  | none => []
  | some (e, sign, ds) => e :: (sign.toList ++ ds)

def bytes : List Byte := t.whole ++ (t.fractionBytes ++ t.exponentBytes)

def isReal : Bool := t.fraction.isSome || t.exponent.isSome

end NumberText

theorem isAsciiDigit_lt {b : Byte} (h : isAsciiDigit b) : b.toNat < 0x80 := by
  simp only [isAsciiDigit, Bool.and_eq_true, decide_eq_true_eq] at h
  omega

theorem digit_spec : ∀ b : BitVec 8, isAsciiDigit b →
    b ∉ ([0x2E, 0x45, 0x65, 0x52, 0x72, 0x58, 0x78] : List Byte) ∧
      b ≠ ascii '+' ∧ b ≠ ascii '-' := by decide

/-- What is true of the bytes of a text and of the byte after it is true of the next byte. -/
theorem headD_append {P : Byte → Prop} (htext : ∀ b ∈ text, P b) (hrest : P (rest.headD 0)) :
    P ((text ++ rest).headD 0) := by
  cases text with
  | nil => exact hrest
  | cons b text => exact htext b List.mem_cons_self

theorem headD_exponent {P : Byte → Prop} (t : NumberText) (hlower : P (ascii 'e'))
    (hupper : P (ascii 'E')) (hrest : P (rest.headD 0)) :
    P ((t.exponentBytes ++ rest).headD 0) := by
  unfold NumberText.exponentBytes
  cases hexponent : t.exponent with
  | none => exact hrest
  | some e =>
      rcases (t.exponentDigits e hexponent).1 with heq | heq
      · simpa only [List.cons_append, List.headD_cons, heq] using hlower
      · simpa only [List.cons_append, List.headD_cons, heq] using hupper

theorem headD_fraction {P : Byte → Prop} (t : NumberText) (hdot : P (ascii '.'))
    (hrest : P (rest.headD 0)) : P ((t.fractionBytes ++ rest).headD 0) := by
  unfold NumberText.fractionBytes
  cases t.fraction with
  | none => exact hrest
  | some ds => exact hdot

theorem lexExponent_apply (t : NumberText) (hends : Ends rest)
    (h : lx.rest = t.exponentBytes ++ rest) :
    lexExponent lx = .ok t.exponent.isSome (lx.skip t.exponentBytes.length) := by
  obtain ⟨-, hdigit, hletter, hsign⟩ := ends_spec _ hends
  unfold NumberText.exponentBytes at h ⊢
  cases hexponent : t.exponent with
  | none =>
      simp only [hexponent, List.nil_append] at h
      have hne : ¬ (lx.rest.headD 0 = ascii 'e' ∨ lx.rest.headD 0 = ascii 'E') := by
        rw [h]
        rintro (heq | heq) <;> exact hletter (by rw [heq]; decide)
      simp only [lexExponent, bind_apply, peek_apply, if_neg hne]
      rfl
  | some e =>
      obtain ⟨e, sign, ds⟩ := e
      obtain ⟨he, hsigns, hds⟩ := t.exponentDigits _ hexponent
      simp only [hexponent, List.cons_append, List.append_assoc] at h
      have hhead : lx.rest.headD 0 = e := by rw [h]; rfl
      have hafter : (lx.skip 1).rest = sign.toList ++ (ds ++ rest) := Lexer.rest_skip_one h
      have hrun : lexExponent lx =
          (do let next ← peek
              if next = ascii '+' ∨ next = ascii '-' then modify (Lexer.skip 1) else pure ()
              advanceWhile isAsciiDigit
              return true : Lex Bool) (lx.skip 1) := by
        simp only [lexExponent, bind_apply, peek_apply, hhead, if_pos he, advance_apply]
      rw [hrun, bind_ok (peek_apply _), hafter]
      cases sign with
      | none =>
          have hnone : ¬ ((ds ++ rest).headD 0 = ascii '+' ∨ (ds ++ rest).headD 0 = ascii '-') :=
            headD_append (P := fun b => ¬ (b = ascii '+' ∨ b = ascii '-'))
              (fun b hb => not_or.mpr (digit_spec b (hds b hb)).2)
              (fun heq => hsign (by rcases heq with heq | heq <;> rw [heq] <;> decide))
          have hdone := advanceWhile_apply hds hdigit hafter
          rw [Lexer.skip_skip, Nat.add_comm 1] at hdone
          rw [Option.toList_none, List.nil_append, if_neg hnone]
          exact bind_ok hdone
      | some c =>
          have hc : ([c] ++ (ds ++ rest)).headD 0 = ascii '+' ∨
              ([c] ++ (ds ++ rest)).headD 0 = ascii '-' := hsigns c rfl
          have hdone := advanceWhile_apply hds hdigit (Lexer.rest_skip_one hafter)
          rw [Lexer.skip_skip, Lexer.skip_skip, Nat.add_comm (1 + 1)] at hdone
          rw [Option.toList_some, if_pos hc, bind_ok (modify_apply _ _), Lexer.skip_skip]
          exact bind_ok hdone

theorem lexFraction_apply (t : NumberText) (hends : Ends rest)
    (h : lx.rest = t.fractionBytes ++ (t.exponentBytes ++ rest)) :
    lexFraction lx = .ok t.fraction.isSome (lx.skip t.fractionBytes.length) := by
  obtain ⟨-, hdigit, hletter, -⟩ := ends_spec _ hends
  unfold NumberText.fractionBytes at h ⊢
  cases hfraction : t.fraction with
  | none =>
      simp only [hfraction, List.nil_append] at h
      have hne : lx.rest.headD 0 ≠ ascii '.' := by
        rw [h]
        exact headD_exponent (P := (· ≠ ascii '.')) t (by decide) (by decide)
          (fun heq => hletter (by rw [heq]; decide))
      simp only [lexFraction, bind_apply, peek_apply, if_neg hne]
      rfl
  | some ds =>
      simp only [hfraction, List.cons_append] at h
      have hhead : lx.rest.headD 0 = ascii '.' := by rw [h]; rfl
      have hnodigit : ¬ isAsciiDigit ((t.exponentBytes ++ rest).headD 0) :=
        headD_exponent (P := fun b => ¬ isAsciiDigit b) t (by decide) (by decide) hdigit
      have hrun := advanceWhile_apply (t.fractionDigits ds hfraction) hnodigit
        (Lexer.rest_skip_one h)
      simp only [lexFraction, bind_apply, peek_apply, hhead, if_true, advance_apply, hrun,
        pure_apply, Lexer.skip_skip, List.length_cons, Nat.add_comm 1, Option.isSome_some]

theorem ascii_bytes (t : NumberText) : ∀ b ∈ t.bytes, b.toNat < 0x80 := by
  intro b hb
  simp only [NumberText.bytes, List.mem_append] at hb
  rcases hb with hb | hb | hb
  · exact isAsciiDigit_lt (t.wholeDigits b hb)
  · unfold NumberText.fractionBytes at hb
    cases hfraction : t.fraction with
    | none => simp [hfraction] at hb
    | some ds =>
        rw [hfraction] at hb
        rcases List.mem_cons.mp hb with rfl | hb
        · decide
        · exact isAsciiDigit_lt (t.fractionDigits ds hfraction b hb)
  · unfold NumberText.exponentBytes at hb
    cases hexponent : t.exponent with
    | none => simp [hexponent] at hb
    | some e =>
        obtain ⟨e, sign, ds⟩ := e
        obtain ⟨he, hsigns, hds⟩ := t.exponentDigits _ hexponent
        rw [hexponent] at hb
        rcases List.mem_cons.mp hb with rfl | hb
        · rcases he with rfl | rfl <;> decide
        · rcases List.mem_append.mp hb with hb | hb
          · rcases hsigns b (Option.mem_toList.mp hb) with rfl | rfl <;> decide
          · exact isAsciiDigit_lt (hds b hb)

/-- The digits up to the point, the point and the exponent, one after the other. -/
theorem rest_number (t : NumberText) (h : lx.rest = t.bytes ++ rest) :
    lx.rest = t.whole ++ (t.fractionBytes ++ (t.exponentBytes ++ rest)) := by
  rw [h, NumberText.bytes, List.append_assoc, List.append_assoc]

theorem number_text (t : NumberText) (h : lx.rest = t.bytes ++ rest) (message : String) :
    textSince lx message (lx.skip t.bytes.length) = .ok (chars t.bytes) (lx.skip t.bytes.length) :=
  textSince_apply (by rw [flatMap_encode_chars (ascii_bytes t), h]) (Lexer.rest_skip h)

theorem lexNumber_apply (f64 : F64FromStr) (span : Span) (t : NumberText) (hwhole : t.whole ≠ [])
    (hends : Ends rest) (h : lx.rest = t.bytes ++ rest) :
    lexNumber f64 span lx =
      (if t.isReal then do return ⟨.realLit (← orFail (f64 (chars t.bytes))), span⟩
        else intToken 10 span (chars t.bytes) : Lex Token) (lx.skip t.bytes.length) := by
  obtain ⟨-, hdigit, hletter, -⟩ := ends_spec _ hends
  have hnumber := rest_number t h
  have hafter : (lx.skip t.whole.length).rest = t.fractionBytes ++ (t.exponentBytes ++ rest) :=
    Lexer.rest_skip hnumber
  have hdigits : advanceWhile isAsciiDigit lx = .ok () (lx.skip t.whole.length) :=
    advanceWhile_apply t.wholeDigits
      (headD_fraction (P := fun b => ¬ isAsciiDigit b) t (by decide)
        (headD_exponent (P := fun b => ¬ isAsciiDigit b) t (by decide) (by decide) hdigit)) hnumber
  have hradix : ¬ ((lx.skip t.whole.length).rest.headD 0 = ascii 'r' ∨
      (lx.skip t.whole.length).rest.headD 0 = ascii 'R') := by
    rw [hafter]
    refine headD_fraction (P := fun b => ¬ (b = ascii 'r' ∨ b = ascii 'R')) t (by decide)
      (headD_exponent (P := fun b => ¬ (b = ascii 'r' ∨ b = ascii 'R')) t (by decide)
        (by decide) ?_)
    rintro (heq | heq) <;> exact hletter (by rw [heq]; decide)
  have hhex : ¬ (lx.rest.headD 0 = ascii '0' ∧ (lx.rest.tail.headD 0 = ascii 'x' ∨
      lx.rest.tail.headD 0 = ascii 'X')) := by
    refine not_and.mpr fun _ => ?_
    rw [hnumber]
    cases hw : t.whole with
    | nil => exact absurd hw hwhole
    | cons d ds =>
        have hds : ∀ b ∈ ds, isAsciiDigit b := fun b hb =>
          t.wholeDigits b (by rw [hw]; exact List.mem_cons_of_mem _ hb)
        refine headD_append (P := fun b => ¬ (b = ascii 'x' ∨ b = ascii 'X')) (fun b hb => ?_)
          (headD_fraction (P := fun b => ¬ (b = ascii 'x' ∨ b = ascii 'X')) t (by decide)
            (headD_exponent (P := fun b => ¬ (b = ascii 'x' ∨ b = ascii 'X')) t (by decide)
              (by decide) ?_))
        · have hnot := (digit_spec b (hds b hb)).1
          rintro (heq | heq) <;> exact hnot (by rw [heq]; decide)
        · rintro (heq | heq) <;> exact hletter (by rw [heq]; decide)
  have hfraction := lexFraction_apply t hends hafter
  have hexponent := lexExponent_apply t hends (Lexer.rest_skip hafter)
  rw [Lexer.skip_skip] at hfraction hexponent
  have hlen : t.whole.length + t.fractionBytes.length + t.exponentBytes.length =
      t.bytes.length := by
    rw [NumberText.bytes, List.length_append, List.length_append, Nat.add_assoc]
  have htext := number_text t h "invalid number literal"
  rw [Lexer.skip_skip, hlen] at hexponent
  simp only [lexNumber, bind_apply, get_apply, peek_apply, peek2_apply, if_neg hhex, hdigits,
    if_neg hradix, hfraction, hexponent, htext]
  rfl

theorem lexDotNumber_apply (f64 : F64FromStr) (span : Span) (t : NumberText) (hwhole : t.whole = [])
    {ds : List Byte} (hds : t.fraction = some ds) (hends : Ends rest)
    (h : lx.rest = t.bytes ++ rest) :
    lexDotNumber f64 span lx =
      (do return ⟨.realLit (← orFail (f64 (chars t.bytes))), span⟩ : Lex Token)
        (lx.skip t.bytes.length) := by
  obtain ⟨-, hdigit, -, -⟩ := ends_spec _ hends
  have hbytes : t.bytes = ascii '.' :: (ds ++ t.exponentBytes) := by
    rw [NumberText.bytes, NumberText.fractionBytes, hwhole, hds]
    rfl
  have hdot : lx.rest = ascii '.' :: (ds ++ (t.exponentBytes ++ rest)) := by
    rw [h, hbytes, List.cons_append, List.append_assoc]
  have hafter := Lexer.rest_skip_one hdot
  have hdigits : advanceWhile isAsciiDigit (lx.skip 1) = .ok () (lx.skip (1 + ds.length)) := by
    rw [← Lexer.skip_skip]
    exact advanceWhile_apply (t.fractionDigits ds hds)
      (headD_exponent (P := fun b => ¬ isAsciiDigit b) t (by decide) (by decide) hdigit) hafter
  have hexponent := lexExponent_apply t hends (Lexer.rest_skip hafter)
  have hlen : 1 + ds.length + t.exponentBytes.length = t.bytes.length := by
    rw [hbytes, List.length_cons, List.length_append]
    omega
  rw [Lexer.skip_skip, Lexer.skip_skip, hlen] at hexponent
  have htext := number_text t h "invalid float"
  simp only [lexDotNumber, bind_apply, get_apply, advance_apply, hdigits, hexponent, htext]

/-- The value of decimal digits. -/
def decimal (digits : List Byte) : Nat := digits.foldl (fun acc b => acc * 10 + (b.toNat - 0x30)) 0

theorem le_foldl_decimal (digits : List Byte) (acc : Nat) :
    acc ≤ digits.foldl (fun acc b => acc * 10 + (b.toNat - 0x30)) acc := by
  induction digits generalizing acc with
  | nil => exact Nat.le_refl _
  | cons b digits ih => exact Nat.le_trans (show acc ≤ acc * 10 + (b.toNat - 0x30) by omega) (ih _)

theorem toDigit_digit : ∀ b : BitVec 8, isAsciiDigit b →
    toDigit 10 (Char.ofNat b.toNat) = some (b.toNat - 0x30) := by decide

theorem foldlM_addDigit {limit : Nat} {digits : List Byte} (hdigits : ∀ b ∈ digits, isAsciiDigit b)
    {acc : Nat} (h : digits.foldl (fun acc b => acc * 10 + (b.toNat - 0x30)) acc < limit) :
    (chars digits).foldlM (addDigit limit 10) acc =
      .ok (digits.foldl (fun acc b => acc * 10 + (b.toNat - 0x30)) acc) := by
  induction digits generalizing acc with
  | nil => rfl
  | cons b digits ih =>
      have hstep : addDigit limit 10 acc (Char.ofNat b.toNat) =
          .ok (acc * 10 + (b.toNat - 0x30)) := by
        have hlt := Nat.lt_of_le_of_lt (le_foldl_decimal digits _) h
        rw [addDigit, toDigit_digit b (hdigits b List.mem_cons_self)]
        exact if_pos hlt
      have hrest := ih (fun b hb => hdigits b (List.mem_cons_of_mem _ hb)) h
      rw [chars, List.map_cons, List.foldlM_cons, hstep]
      exact hrest

theorem fromStrRadix_decimal {digits : List Byte} (hdigits : ∀ b ∈ digits, isAsciiDigit b)
    (hne : digits ≠ []) (h : decimal digits < i64Limit) :
    fromStrRadix i64Limit 10 (chars digits) = .ok (decimal digits) := by
  rw [fromStrRadix, if_neg (by simpa [chars] using hne)]
  exact foldlM_addDigit hdigits h

/-! ### Operators -/

def operators : List (List Char × TokenKind) :=
  [(['+'], .plus), (['-'], .minus), (['*'], .star), (['/'], .slash), (['%'], .percent),
   (['*', '*'], .power), (['&'], .amp), (['|'], .pipe), (['^'], .caret), (['~'], .tilde),
   (['!'], .bang), (['<', '<'], .lshift), (['>', '>'], .rshift), (['=', '='], .eq),
   (['!', '='], .neq), (['<'], .lt), (['>'], .gt), (['<', '='], .leq), (['>', '='], .geq),
   (['&', '&'], .andAnd), (['|', '|'], .orOr), ([':', ':'], .colonColon), (['-', '>'], .arrow),
   (['<', '-'], .chanRecv), (['<', '-', '='], .chanSend), (['='], .assign), ([':', '='], .colonEq),
   (['+', '='], .plusEq), (['-', '='], .minusEq), (['*', '='], .starEq), (['/', '='], .slashEq),
   (['%', '='], .percentEq), (['&', '='], .ampEq), (['|', '='], .pipeEq), (['^', '='], .caretEq),
   (['<', '<', '='], .lshiftEq), (['>', '>', '='], .rshiftEq), (['+', '+'], .inc),
   (['-', '-'], .dec), (['('], .lparen), ([')'], .rparen), (['['], .lbracket), ([']'], .rbracket),
   (['\x7B'], .lbrace), (['\x7D'], .rbrace), ([','], .comma), (['.'], .dot), ([';'], .semicolon),
   ([':'], .colon), (['=', '>'], .fatArrow)]

/-- After an operator comes no character that would make it another. -/
theorem lexOperator_operators : ∀ op ∈ operators,
    ∀ b ∈ [(0 : Byte), 0x20, 0x09, 0x0A, 0x0C, 0x0D], ∀ (file : String) (place span : Span) rest,
      lexOperator span ⟨file, op.1.map ascii ++ b :: rest, place⟩ =
        .ok ⟨op.2, span⟩ (Lexer.skip op.1.length ⟨file, op.1.map ascii ++ b :: rest, place⟩) := by
  simp only [operators, List.forall_mem_cons, List.not_mem_nil, false_imp_iff, implies_true,
    and_true]
  repeat' apply And.intro
  all_goals
    intro file place span rest
    rfl

theorem lexOperator_last : ∀ op ∈ operators, ∀ (file : String) (place span : Span),
    lexOperator span ⟨file, op.1.map ascii, place⟩ =
      .ok ⟨op.2, span⟩ (Lexer.skip op.1.length ⟨file, op.1.map ascii, place⟩) := by
  simp only [operators, List.forall_mem_cons, List.not_mem_nil, false_imp_iff, implies_true,
    and_true]
  repeat' apply And.intro
  all_goals
    intro file place span
    rfl

/-- An operator is read for the longest one that its characters begin. -/
theorem lexOperator_apply (span : Span) {op : List Char × TokenKind} (hop : op ∈ operators)
    (hends : Ends rest) (h : lx.rest = op.1.map ascii ++ rest) :
    lexOperator span lx = .ok ⟨op.2, span⟩ (lx.skip op.1.length) := by
  obtain ⟨file, bytes, place⟩ := lx
  obtain rfl : bytes = op.1.map ascii ++ rest := h
  cases rest with
  | nil =>
      rw [List.append_nil]
      exact lexOperator_last op hop file place span
  | cons b rest => exact lexOperator_operators op hop b hends file place span rest

/-! ### Ways to write a token -/

/-- How a token is written. -/
inductive Spelling (f64 : F64FromStr) where
  | operator (op : List Char × TokenKind) (h : op ∈ operators)
  | word (w : WordText)
  | int (digits : List Byte) (hdigits : ∀ b ∈ digits, isAsciiDigit b) (hne : digits ≠ [])
      (hlt : decimal digits < i64Limit)
  | real (t : NumberText) (bits : Big) (hreal : t.isReal)
      (hwhole : t.whole = [] → ∃ d ds, t.fraction = some (d :: ds))
      (hbits : f64 (chars t.bytes) = .ok bits)
  | string (ws : List StringWriting)
  | char (w : CharWriting)

namespace Spelling

variable {f64 : F64FromStr}

def bytes : Spelling f64 → List Byte
  | .operator op _ => op.1.map ascii
  | .word w => w.bytes
  | .int digits _ _ _ => digits
  | .real t _ _ _ _ => t.bytes
  | .string ws => stringText ws
  | .char w => charText w

def kind : Spelling f64 → TokenKind
  | .operator op _ => op.2
  | .word w => w.kind
  | .int digits _ _ _ => .intLit (BitVec.ofNat 64 (decimal digits))
  | .real _ bits _ _ _ => .realLit bits
  | .string ws => .stringLit (.ofList (ws.map Writing.char))
  | .char w => .charLit (BitVec.ofNat 32 w.char.toNat)

/-- No backslash before a character outside ASCII in a literal. -/
def Clean : Spelling f64 → Prop
  | .string ws => ∀ w ∈ ws, w.Clean
  | .char w => w.Clean
  | _ => True

end Spelling

variable {f64 : F64FromStr}

theorem nextToken_apply {b : Byte} (hgap : ∀ b ∈ gap, isAsciiWhitespace b)
    (hspace : ¬ isAsciiWhitespace b) (hcomment : b ≠ ascii '#') (h : lx.rest = gap ++ b :: rest) :
    nextToken f64 lx =
      lexToken f64 (lx.span.after gap) b (rest.headD 0) (lx.skip gap.length) := by
  have hafter : (lx.skip gap.length).rest = b :: rest := Lexer.rest_skip h
  have hspan : (lx.skip gap.length).span = lx.span.after gap := by
    rw [Lexer.skip, h, List.take_left]
  have hskip : skipWhitespaceAndComments lx = .ok () (lx.skip gap.length) :=
    skipWhitespaceAndComments_apply hgap
      (show ¬ isAsciiWhitespace ((b :: rest).headD 0) from hspace) hcomment h
  have hrun : nextToken f64 lx =
      (do skipWhitespaceAndComments
          let lx ← get
          if lx.rest = [] then return ⟨.eof, lx.span⟩
          else lexToken f64 lx.span (← peek) (← peek2) : Lex Token) lx := rfl
  rw [hrun, bind_ok hskip,
    bind_ok (get_apply _), hafter, if_neg (List.cons_ne_nil b rest), hspan,
    bind_ok (peek_apply _), bind_ok (peek2_apply _), hafter]
  rfl

theorem nextToken_eof (hgap : ∀ b ∈ gap, isAsciiWhitespace b) (h : lx.rest = gap) :
    nextToken f64 lx = .ok ⟨.eof, lx.span.after gap⟩ (lx.skip gap.length) := by
  have hnil : lx.rest = gap ++ [] := by rw [h, List.append_nil]
  have hafter : (lx.skip gap.length).rest = [] := Lexer.rest_skip hnil
  have hspan : (lx.skip gap.length).span = lx.span.after gap := by
    rw [Lexer.skip, h, List.take_length]
  have hrun : nextToken f64 lx =
      (do skipWhitespaceAndComments
          let lx ← get
          if lx.rest = [] then return ⟨.eof, lx.span⟩
          else lexToken f64 lx.span (← peek) (← peek2) : Lex Token) lx := rfl
  rw [hrun, bind_ok (skipWhitespaceAndComments_apply hgap (by decide) (by decide) hnil),
    bind_ok (get_apply _), hafter, if_pos rfl, hspan]
  rfl

/-- Bytes by what tokens they begin. -/
theorem lexToken_word {span : Span} {b next : Byte} (hword : isWordByte b)
    (hdigit : ¬ isAsciiDigit b) : lexToken f64 span b next = lexIdent span := by
  have hdot : ¬ (b = ascii '.' ∧ isAsciiDigit next) := by
    rintro ⟨rfl, -⟩
    exact absurd hword (by decide)
  have hident : (isAsciiAlphabetic b || b == ascii '_' || isIdentByte b) = true := by
    simpa [isWordByte, isAsciiAlphanumeric, hdigit] using hword
  rw [lexToken, if_neg hdot, if_pos hident]

theorem digit_not_word : ∀ b : BitVec 8, isAsciiDigit b →
    b ≠ ascii '.' ∧ (isAsciiAlphabetic b || b == ascii '_' || isIdentByte b) = false ∧
      ¬ isAsciiWhitespace b ∧ b ≠ ascii '#' := by decide

theorem lexToken_digit {span : Span} {b next : Byte} (hdigit : isAsciiDigit b) :
    lexToken f64 span b next = lexNumber f64 span := by
  obtain ⟨hdot, hword, -⟩ := digit_not_word b hdigit
  rw [lexToken, if_neg (fun h => hdot h.1), if_neg (by rw [hword]; exact Bool.false_ne_true),
    if_pos hdigit]

theorem lexToken_quote {span : Span} {next : Byte} :
    lexToken f64 span quote next = lexString span := rfl

theorem lexToken_apostrophe {span : Span} {next : Byte} :
    lexToken f64 span apostrophe next = lexChar span := rfl

/-- A byte that begins an operator, with the byte after it where there is one. -/
def OperatorByte (b : Byte) : Prop :=
  ¬ isAsciiWhitespace b ∧ b ≠ ascii '#' ∧ ¬ isWordByte b ∧ b ≠ quote ∧ b ≠ apostrophe

instance (b : Byte) : Decidable (OperatorByte b) := inferInstanceAs (Decidable (_ ∧ _))

theorem operators_start : ∀ op ∈ operators, OperatorByte (ascii (op.1.headD ' ')) ∧
    op.1 = op.1.headD ' ' :: op.1.tail ∧
      op.1.tail.all fun c => !isAsciiDigit (ascii c) := by decide

theorem lexToken_operator {span : Span} {b next : Byte} (hb : OperatorByte b)
    (hnext : ¬ isAsciiDigit next) : lexToken f64 span b next = lexOperator span := by
  obtain ⟨-, -, hword, hquote, hapostrophe⟩ := hb
  have hparts : (isAsciiAlphabetic b || b == ascii '_' || isIdentByte b) = false ∧
      isAsciiDigit b = false := by
    simp only [isWordByte, isAsciiAlphanumeric, Bool.or_eq_true, not_or, Bool.not_eq_true] at hword
    simp [hword]
  rw [lexToken, if_neg (fun h => hnext h.2), if_neg (by rw [hparts.1]; exact Bool.false_ne_true),
    if_neg (by rw [hparts.2]; exact Bool.false_ne_true), if_neg hquote, if_neg hapostrophe]

theorem word_not_space : ∀ b : BitVec 8, isWordByte b → ¬ isAsciiWhitespace b ∧ b ≠ ascii '#' := by
  decide

/-! ### A token and what is before it -/

/-- A string literal at any place is read as what the lexer makes of its characters. -/
theorem nextToken_string (ws : List StringWriting) (hgap : ∀ b ∈ gap, isAsciiWhitespace b)
    (h : lx.rest = gap ++ (stringText ws ++ rest)) :
    nextToken f64 lx =
      .ok ⟨.stringLit (.ofList (ws.flatMap Writing.read)), lx.span.after gap⟩
        (lx.skip (gap ++ stringText ws).length) := by
  have hopen : lx.rest = gap ++ quote :: (ws.flatMap Writing.text ++ [quote] ++ rest) := h
  rw [nextToken_apply hgap (by decide) (by decide) hopen, lexToken_quote,
    lexString_apply _ ws (Lexer.rest_skip h), Lexer.skip_skip, List.length_append]

theorem nextToken_char {w : CharWriting} (hclean : w.Clean) (hgap : ∀ b ∈ gap, isAsciiWhitespace b)
    (h : lx.rest = gap ++ (charText w ++ rest)) :
    nextToken f64 lx =
      .ok ⟨.charLit (BitVec.ofNat 32 w.char.toNat), lx.span.after gap⟩
        (lx.skip (gap ++ charText w).length) := by
  have hopen : lx.rest = gap ++ apostrophe :: (w.text ++ [apostrophe] ++ rest) := h
  rw [nextToken_apply hgap (by decide) (by decide) hopen, lexToken_apostrophe,
    lexChar_apply _ hclean (Lexer.rest_skip h), Lexer.skip_skip, List.length_append]

theorem nextToken_char_error {w : CharWriting} (hclean : ¬ w.Clean)
    (hgap : ∀ b ∈ gap, isAsciiWhitespace b) (h : lx.rest = gap ++ (charText w ++ rest)) :
    ∃ e s, nextToken f64 lx = .error e s := by
  have hopen : lx.rest = gap ++ apostrophe :: (w.text ++ [apostrophe] ++ rest) := h
  rw [nextToken_apply hgap (by decide) (by decide) hopen, lexToken_apostrophe]
  exact lexChar_error _ hclean (Lexer.rest_skip h)

theorem orFail_ok {α : Type} (a : α) : (orFail (.ok a) : Lex α) lx = .ok a lx := rfl

theorem intToken_decimal (span : Span) {digits : List Byte}
    (hdigits : ∀ b ∈ digits, isAsciiDigit b) (hne : digits ≠ []) (hlt : decimal digits < i64Limit) :
    intToken 10 span (chars digits) lx =
      .ok ⟨.intLit (BitVec.ofNat 64 (decimal digits)), span⟩ lx := by
  rw [intToken, fromStrRadix_decimal hdigits hne hlt, bind_ok (orFail_ok _)]
  rfl

/-- A number that begins with a digit. -/
theorem nextToken_number (t : NumberText) (hwhole : t.whole ≠ [])
    (hgap : ∀ b ∈ gap, isAsciiWhitespace b) (hends : Ends rest)
    (h : lx.rest = gap ++ (t.bytes ++ rest)) :
    nextToken f64 lx =
      (if t.isReal then do
          return ⟨.realLit (← orFail (f64 (chars t.bytes))), lx.span.after gap⟩
        else intToken 10 (lx.span.after gap) (chars t.bytes) : Lex Token)
        ((lx.skip gap.length).skip t.bytes.length) := by
  rw [← lexNumber_apply f64 _ t hwhole hends (Lexer.rest_skip h)]
  cases hw : t.whole with
  | nil => exact absurd hw hwhole
  | cons d ds =>
      have hd : isAsciiDigit d := t.wholeDigits d (by rw [hw]; exact List.mem_cons_self)
      obtain ⟨-, -, hspace, hcomment⟩ := digit_not_word d hd
      have hopen : lx.rest = gap ++ d :: (ds ++ (t.fractionBytes ++ t.exponentBytes) ++ rest) := by
        rw [h, NumberText.bytes, hw]
        rfl
      rw [nextToken_apply hgap hspace hcomment hopen, lexToken_digit hd]

/-- A real that begins with the point. -/
theorem nextToken_dot (t : NumberText) {d : Byte} {ds : List Byte} (hwhole : t.whole = [])
    (hfraction : t.fraction = some (d :: ds)) (hgap : ∀ b ∈ gap, isAsciiWhitespace b)
    (hends : Ends rest) (h : lx.rest = gap ++ (t.bytes ++ rest)) :
    nextToken f64 lx =
      (do return ⟨.realLit (← orFail (f64 (chars t.bytes))), lx.span.after gap⟩ : Lex Token)
        ((lx.skip gap.length).skip t.bytes.length) := by
  rw [← lexDotNumber_apply f64 _ t hwhole hfraction hends (Lexer.rest_skip h)]
  have hd : isAsciiDigit d := t.fractionDigits _ hfraction d List.mem_cons_self
  have hopen : lx.rest = gap ++ ascii '.' :: (d :: (ds ++ t.exponentBytes ++ rest)) := by
    rw [h, NumberText.bytes, NumberText.fractionBytes, hwhole, hfraction]
    rfl
  rw [nextToken_apply hgap (by decide) (by decide) hopen, lexToken, if_pos ⟨rfl, hd⟩]

/-- A token that is written cleanly is read. -/
theorem nextToken_clean {sp : Spelling f64} (hclean : sp.Clean)
    (hgap : ∀ b ∈ gap, isAsciiWhitespace b) (hends : Ends rest)
    (h : lx.rest = gap ++ (sp.bytes ++ rest)) :
    nextToken f64 lx =
      .ok ⟨sp.kind, lx.span.after gap⟩ (lx.skip (gap ++ sp.bytes).length) := by
  obtain ⟨hword, hdigit, hletter, hsign⟩ := ends_spec _ hends
  rw [List.length_append, ← Lexer.skip_skip]
  have hafter := Lexer.rest_skip h
  cases sp with
  | operator op hop =>
      obtain ⟨hb, hcons, htail⟩ := operators_start op hop
      have hbytes : op.1.map ascii = ascii (op.1.headD ' ') :: op.1.tail.map ascii := by
        rw [← List.map_cons, ← hcons]
      have hopen : lx.rest =
          gap ++ ascii (op.1.headD ' ') :: (op.1.tail.map ascii ++ rest) := by
        rw [h, Spelling.bytes, hbytes]
        rfl
      have hnext : ¬ isAsciiDigit ((op.1.tail.map ascii ++ rest).headD 0) := by
        refine headD_append (P := fun b => ¬ isAsciiDigit b) (fun b hb => ?_) hdigit
        obtain ⟨c, hc, rfl⟩ := List.mem_map.mp hb
        simpa using List.all_eq_true.mp htail c hc
      rw [nextToken_apply hgap hb.1 hb.2.1 hopen, lexToken_operator hb hnext,
        lexOperator_apply _ hop hends hafter, Spelling.bytes, List.length_map]
      rfl
  | word w =>
      obtain ⟨b, bytes, hbytes, hnodigit⟩ := w.starts
      have hb : isWordByte b := w.word b (by rw [hbytes]; exact List.mem_cons_self)
      obtain ⟨hspace, hcomment⟩ := word_not_space b hb
      have hopen : lx.rest = gap ++ b :: (bytes ++ rest) := by
        rw [h, Spelling.bytes, WordText.bytes, hbytes]
        rfl
      rw [nextToken_apply hgap hspace hcomment hopen, lexToken_word hb hnodigit,
        lexIdent_apply _ w hends hafter]
      rfl
  | int digits hdigits hne hlt =>
      let t : NumberText := ⟨digits, none, none, hdigits, nofun, nofun⟩
      have hbytes : t.bytes = digits := List.append_nil digits
      have hrest : lx.rest = gap ++ (t.bytes ++ rest) := by rw [h, hbytes]; rfl
      have hnumber : nextToken f64 lx = _ := nextToken_number t hne hgap hends hrest
      rw [hbytes] at hnumber
      exact hnumber.trans (intToken_decimal _ hdigits hne hlt)
  | real t bits hreal hwhole hbits =>
      have hread : (do return ⟨.realLit (← orFail (f64 (chars t.bytes))), lx.span.after gap⟩ :
          Lex Token) ((lx.skip gap.length).skip t.bytes.length) =
            .ok ⟨.realLit bits, lx.span.after gap⟩ ((lx.skip gap.length).skip t.bytes.length) := by
        rw [hbits, bind_ok (orFail_ok bits)]
        rfl
      by_cases hne : t.whole = []
      · obtain ⟨d, ds, hfraction⟩ := hwhole hne
        exact (nextToken_dot t hne hfraction hgap hends h).trans hread
      · have hnumber : nextToken f64 lx = _ := nextToken_number t hne hgap hends h
        rw [if_pos hreal] at hnumber
        exact hnumber.trans hread
  | string ws =>
      have hread : ws.flatMap Writing.read = ws.map Writing.char := Writing.flatMap_read.mpr hclean
      rw [nextToken_string ws hgap h, hread, List.length_append, ← Lexer.skip_skip]
      rfl
  | char w =>
      rw [nextToken_char hclean hgap h, List.length_append, ← Lexer.skip_skip]
      rfl

/-! ### Texts of tokens -/

/-- Blanks. -/
structure Gap where
  bytes : List Byte
  blank : ∀ b ∈ bytes, isAsciiWhitespace b

/-- Tokens as they are written, each after blanks, of which only the first may be none. -/
structure Layout (f64 : F64FromStr) where
  items : List (Gap × Spelling f64)
  trail : Gap
  separated : ∀ item ∈ items.tail, item.1.bytes ≠ []

def itemText (item : Gap × Spelling f64) : List Byte := item.1.bytes ++ item.2.bytes

def Layout.source (l : Layout f64) : List Byte := l.items.flatMap itemText ++ l.trail.bytes

def tokensFrom : Span → List (Gap × Spelling f64) → List Token
  | _, [] => []
  | span, item :: items =>
    ⟨item.2.kind, span.after item.1.bytes⟩ :: tokensFrom (span.after (itemText item)) items

/-- The tokens with their places, and the end. -/
def Layout.tokens (l : Layout f64) : List Token :=
  tokensFrom ⟨1, 1⟩ l.items ++ [⟨.eof, Span.after ⟨1, 1⟩ l.source⟩]

theorem Gap.ends (gap : Gap) (h : gap.bytes ≠ [] ∨ rest = []) : Ends (gap.bytes ++ rest) := by
  cases hbytes : gap.bytes with
  | nil =>
      obtain rfl := h.resolve_left (absurd hbytes)
      exact List.mem_cons_self
  | cons b bytes =>
      have hb := gap.blank b (by rw [hbytes]; exact List.mem_cons_self)
      exact List.mem_cons_of_mem _ (of_decide_eq_true hb)

theorem ends_items {items : List (Gap × Spelling f64)} {trail : Gap}
    (h : ∀ item ∈ items, item.1.bytes ≠ []) : Ends (items.flatMap itemText ++ trail.bytes) := by
  cases items with
  | nil =>
      have hends : Ends (trail.bytes ++ []) := trail.ends (.inr rfl)
      rwa [List.append_nil] at hends
  | cons item items =>
      rw [List.flatMap_cons, itemText, List.append_assoc, List.append_assoc]
      exact item.1.ends (.inl (h item List.mem_cons_self))

theorem operators_ne_eof : ∀ op ∈ operators, op.2 ≠ .eof := by decide
theorem keywords_ne_eof : ∀ k ∈ keywords, k.2 ≠ .eof := by decide

theorem Spelling.kind_ne_eof (sp : Spelling f64) : sp.kind ≠ .eof := by
  cases sp with
  | operator op hop => exact operators_ne_eof op hop
  | word w =>
      rw [Spelling.kind, WordText.kind]
      cases hkeyword : keyword (.ofList w.chars) with
      | none => exact nofun
      | some k =>
          obtain ⟨before, later, hmem, -⟩ := List.lookup_eq_some_iff.mp hkeyword
          exact keywords_ne_eof _ (by rw [hmem]; exact List.mem_append_cons_self)
  | int | real | string | char => exact nofun

theorem Spelling.bytes_ne_nil (sp : Spelling f64) : 0 < sp.bytes.length := by
  cases sp with
  | operator op hop =>
      have hcons := (operators_start op hop).2.1
      rw [Spelling.bytes, hcons]
      exact Nat.succ_pos _
  | word w =>
      obtain ⟨b, bytes, hbytes, -⟩ := w.starts
      rw [Spelling.bytes, WordText.bytes, hbytes]
      exact Nat.succ_pos _
  | int digits hdigits hne hlt => exact List.length_pos_iff.mpr hne
  | real t bits hreal hwhole hbits =>
      rw [Spelling.bytes, NumberText.bytes, List.length_append, List.length_append]
      by_cases hne : t.whole = []
      · obtain ⟨d, ds, hfraction⟩ := hwhole hne
        have : 0 < t.fractionBytes.length := by
          rw [NumberText.fractionBytes, hfraction]
          exact Nat.succ_pos _
        omega
      · have := List.length_pos_iff.mpr hne
        omega
  | string | char => exact Nat.succ_pos _

theorem tokenizeLoop_token {fuel : Nat} {acc : List Token} {tok : Token} {after : Lexer}
    (hnext : nextToken f64 lx = .ok tok after) (hkind : tok.kind ≠ .eof) :
    tokenizeLoop f64 (fuel + 1) acc lx = tokenizeLoop f64 fuel (acc ++ [tok]) after := by
  rw [tokenizeLoop, bind_ok hnext, if_neg hkind]

theorem tokenizeLoop_eof {fuel : Nat} {acc : List Token} {gap : Gap} (h : lx.rest = gap.bytes) :
    tokenizeLoop f64 (fuel + 1) acc lx =
      .ok (acc ++ [⟨.eof, lx.span.after lx.rest⟩]) (lx.skip lx.rest.length) := by
  rw [tokenizeLoop, h, bind_ok (nextToken_eof gap.blank h), if_pos rfl]
  rfl

theorem Lexer.span_skip (h : lx.rest = text ++ rest) :
    (lx.skip text.length).span = lx.span.after text := by
  rw [Lexer.skip, h, List.take_left]

theorem Span.after_append (span : Span) (a b : List Byte) :
    span.after (a ++ b) = (span.after a).after b := List.foldl_append

/-- What is written cleanly is read as written, from any place on. -/
theorem tokenizeLoop_clean {items : List (Gap × Spelling f64)} {trail : Gap} {fuel : Nat}
    {acc : List Token} (hseparated : ∀ item ∈ items.tail, item.1.bytes ≠ [])
    (hclean : ∀ item ∈ items, item.2.Clean)
    (h : lx.rest = items.flatMap itemText ++ trail.bytes) (hfuel : items.length < fuel) :
    tokenizeLoop f64 fuel acc lx =
      .ok (acc ++ (tokensFrom lx.span items ++ [⟨.eof, lx.span.after lx.rest⟩]))
        (lx.skip lx.rest.length) := by
  induction items generalizing lx fuel acc with
  | nil =>
      cases fuel with
      | zero => exact absurd hfuel (Nat.lt_irrefl 0)
      | succ fuel => exact tokenizeLoop_eof h
  | cons item items ih =>
      cases fuel with
      | zero => exact absurd hfuel (Nat.not_lt_zero _)
      | succ fuel =>
          rw [List.flatMap_cons, List.append_assoc] at h
          have hnext : nextToken f64 lx = .ok ⟨item.2.kind, lx.span.after item.1.bytes⟩
              (lx.skip (itemText item).length) :=
            nextToken_clean (hclean item List.mem_cons_self) item.1.blank (ends_items hseparated)
              (h.trans (List.append_assoc _ _ _))
          have hafter := Lexer.rest_skip h
          have hspan := Lexer.span_skip h
          have hplace : (lx.span.after (itemText item)).after
              (items.flatMap itemText ++ trail.bytes) = lx.span.after lx.rest := by
            rw [← Span.after_append, ← h]
          have hlen : (itemText item).length + (items.flatMap itemText ++ trail.bytes).length =
              lx.rest.length := by rw [← List.length_append, ← h]
          rw [tokenizeLoop_token hnext item.2.kind_ne_eof,
            ih (fun i hi => hseparated i (List.mem_of_mem_tail hi))
              (fun i hi => hclean i (List.mem_cons_of_mem _ hi)) hafter
              (Nat.lt_of_succ_lt_succ hfuel), hspan, hafter, hplace, Lexer.skip_skip, hlen,
            List.append_assoc]
          rfl

/-- Tokens are only added. -/
theorem prefix_tokenizeLoop {fuel : Nat} {acc tokens : List Token} {s : Lexer}
    (h : tokenizeLoop f64 fuel acc lx = .ok tokens s) : acc <+: tokens := by
  induction fuel generalizing lx acc with
  | zero => cases h
  | succ fuel ih =>
      rw [tokenizeLoop, bind_eq_ok] at h
      obtain ⟨tok, after, -, h⟩ := h
      split at h
      · cases h
        exact List.prefix_append _ _
      · exact (List.prefix_append _ _).trans (ih h)

theorem clean_of_token {item : Gap × Spelling f64} {fuel : Nat} {acc tokens : List Token}
    {place : Span} {s : Lexer} (h : lx.rest = item.1.bytes ++ (item.2.bytes ++ rest))
    (hok : tokenizeLoop f64 (fuel + 1) acc lx = .ok (acc ++ (⟨item.2.kind, place⟩ :: tokens)) s) :
    item.2.Clean := by
  obtain ⟨gap, sp⟩ := item
  cases sp with
  | operator | word | int | real => exact True.intro
  | string ws =>
      have hnext : nextToken f64 lx = _ := nextToken_string ws gap.blank h
      rw [tokenizeLoop_token hnext nofun] at hok
      obtain ⟨later, hprefix⟩ := prefix_tokenizeLoop hok
      rw [List.append_assoc] at hprefix
      have hhead := (List.cons.inj (List.append_cancel_left hprefix)).1
      injection hhead with hkind
      injection hkind with hstring
      exact Writing.flatMap_read.mp (String.ofList_injective hstring)
  | char w =>
      refine Classical.byContradiction fun hclean => ?_
      obtain ⟨e, after, hnext⟩ : ∃ e after, nextToken f64 lx = .error e after :=
        nextToken_char_error hclean gap.blank h
      rw [tokenizeLoop, bind_apply, hnext] at hok
      cases hok

/-- Tokens that are read as they are written are written cleanly. -/
theorem clean_of_tokenizeLoop {items : List (Gap × Spelling f64)} {trail : Gap} {fuel : Nat}
    {acc tokens : List Token} {s : Lexer} (hseparated : ∀ item ∈ items.tail, item.1.bytes ≠ [])
    (h : lx.rest = items.flatMap itemText ++ trail.bytes)
    (hok : tokenizeLoop f64 fuel acc lx = .ok (acc ++ (tokensFrom lx.span items ++ tokens)) s) :
    ∀ item ∈ items, item.2.Clean := by
  induction items generalizing lx fuel acc with
  | nil => exact nofun
  | cons item items ih =>
      rw [List.flatMap_cons, List.append_assoc] at h
      have hopen := h.trans (List.append_assoc _ _ _)
      cases fuel with
      | zero => cases hok
      | succ fuel =>
          have hclean : item.2.Clean := clean_of_token hopen hok
          have hnext : nextToken f64 lx = .ok ⟨item.2.kind, lx.span.after item.1.bytes⟩
              (lx.skip (itemText item).length) :=
            nextToken_clean hclean item.1.blank (ends_items hseparated) hopen
          rw [tokenizeLoop_token hnext item.2.kind_ne_eof, tokensFrom, ← Lexer.span_skip h,
            List.cons_append, List.append_cons acc _ (_ ++ tokens)] at hok
          exact List.forall_mem_cons.mpr ⟨hclean,
            ih (fun i hi => hseparated i (List.mem_of_mem_tail hi)) (Lexer.rest_skip h) hok⟩

theorem length_items_le (items : List (Gap × Spelling f64)) :
    items.length ≤ (items.flatMap itemText).length := by
  induction items with
  | nil => exact Nat.le_refl 0
  | cons item items ih =>
      have := item.2.bytes_ne_nil
      rw [List.flatMap_cons, itemText, List.length_append, List.length_append, List.length_cons]
      omega

theorem tokenize_iff (l : Layout f64) (file : String) :
    (∃ s, tokenize f64 (Lexer.new l.source file) = .ok l.tokens s) ↔
      ∀ item ∈ l.items, item.2.Clean := by
  have hrun : tokenize f64 (Lexer.new l.source file) =
      tokenizeLoop f64 (l.source.length + 1) [] (Lexer.new l.source file) := rfl
  rw [hrun]
  constructor
  · rintro ⟨s, hok⟩
    exact clean_of_tokenizeLoop l.separated rfl hok
  · intro hclean
    have hfuel : l.items.length < l.source.length + 1 := by
      have := length_items_le l.items
      rw [Layout.source, List.length_append]
      omega
    exact ⟨_, tokenizeLoop_clean l.separated hclean rfl hfuel⟩

theorem Lexer.skip_mk (file : String) (place : Span) :
    (⟨file, text ++ rest, place⟩ : Lexer).skip text.length = ⟨file, rest, place.after text⟩ := by
  simp only [Lexer.skip, List.drop_left, List.take_left]

/-- Literals stand for the characters written, and texts of tokens for the tokens, exactly where
no literal has a backslash before a character outside ASCII. -/
theorem read_as_written_iff (f64 : F64FromStr) (file : String) :
    (∀ (gap : Gap) (ws : List StringWriting) (rest : List Byte) (place : Span),
      nextToken f64 ⟨file, gap.bytes ++ stringText ws ++ rest, place⟩ =
          .ok ⟨.stringLit (.ofList (ws.map Writing.char)), place.after gap.bytes⟩
            ⟨file, rest, place.after (gap.bytes ++ stringText ws)⟩ ↔
        ∀ w ∈ ws, w.Clean) ∧
    (∀ (gap : Gap) (w : CharWriting) (rest : List Byte) (place : Span),
      nextToken f64 ⟨file, gap.bytes ++ charText w ++ rest, place⟩ =
          .ok ⟨.charLit (BitVec.ofNat 32 w.char.toNat), place.after gap.bytes⟩
            ⟨file, rest, place.after (gap.bytes ++ charText w)⟩ ↔
        w.Clean) ∧
    (∀ l : Layout f64, (∃ s, tokenize f64 (Lexer.new l.source file) = .ok l.tokens s) ↔
      ∀ item ∈ l.items, item.2.Clean) := by
  refine ⟨fun gap ws rest place => ?_, fun gap w rest place => ?_, fun l => tokenize_iff l file⟩
  · rw [nextToken_string ws gap.blank (List.append_assoc _ _ _), Lexer.skip_mk]
    rw [← Writing.flatMap_read]
    refine ⟨fun h => ?_, fun h => by rw [h]⟩
    injection h with htoken
    injection htoken with hkind
    injection hkind with hstring
    exact String.ofList_injective hstring
  · constructor
    · intro h
      refine Classical.byContradiction fun hclean => ?_
      obtain ⟨e, s, herror⟩ : ∃ e s, nextToken f64
          ⟨file, gap.bytes ++ charText w ++ rest, place⟩ = .error e s :=
        nextToken_char_error hclean gap.blank (List.append_assoc _ _ _)
      rw [herror] at h
      cases h
    · intro hclean
      rw [nextToken_char hclean gap.blank (List.append_assoc _ _ _), Lexer.skip_mk]

/-- A backslash before `é` gives two characters. -/
theorem escaped_scalar_split : ¬ ∀ (ws : List StringWriting) (rest : List Byte) (place : Span),
    nextToken (fun _ => .error "") ⟨"m.b", stringText ws ++ rest, place⟩ =
      .ok ⟨.stringLit (.ofList (ws.map Writing.char)), place⟩
        ⟨"m.b", rest, place.after (stringText ws)⟩ := by
  intro h
  have hmissed := h [.escaped (Char.ofNat 0xE9) (by decide)] [] ⟨1, 1⟩
  rw [nextToken_string _ (fun b hb => absurd hb List.not_mem_nil) (List.nil_append _).symm]
    at hmissed
  injection hmissed with htoken
  injection htoken with hkind
  injection hkind with hstring
  exact absurd (Writing.flatMap_read.mp (String.ofList_injective hstring) _ List.mem_cons_self)
    (show ¬ (Char.ofNat 0xE9).toNat < 0x80 by decide)

end RiceVM.Limbo.Lexing
