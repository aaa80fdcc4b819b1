import RiceVM.Limbo.Token
import RiceVM.Loader.Reader

/-!
The lexer of Limbo. It works on the bytes of a source, and knows where it is by counting lines
and the bytes of the line.
-/
namespace RiceVM

namespace Limbo.Lexing
open Exec

/-- A place in a source. The source counts in `u32`s, whose end no file below 4 GiB reaches. -/
structure Span where
  line : Nat
  col : Nat
  deriving DecidableEq

structure Token where
  kind : TokenKind
  span : Span

structure LexError where
  file : String
  span : Span
  message : String

def Span.next (s : Span) (b : Byte) : Span :=
  if b = 0x0A then ⟨s.line + 1, 1⟩ else ⟨s.line, s.col + 1⟩

def Span.after (s : Span) (bytes : List Byte) : Span := bytes.foldl Span.next s

/-- The lexer, with the bytes from its position on. -/
structure Lexer where
  file : String
  rest : List Byte
  span : Span

def Lexer.skip (n : Nat) (lx : Lexer) : Lexer :=
  { lx with rest := lx.rest.drop n, span := lx.span.after (lx.rest.take n) }

def Lexer.err (lx : Lexer) (message : String) : LexError := ⟨lx.file, lx.span, message⟩

abbrev Lex (α : Type) := Exec Lexer LexError α

def peek : Lex Byte := do return (← get).rest.headD 0
def peek2 : Lex Byte := do return (← get).rest.tail.headD 0

def advance : Lex Byte := do
  let ch ← peek
  modify (Lexer.skip 1)
  return ch

/-- Advance over the bytes of a class. -/
def advanceWhile (p : Byte → Bool) : Lex Unit :=
  modify fun lx => lx.skip (lx.rest.takeWhile p).length

def fail {α : Type} (message : String) : Lex α := do throw ((← get).err message)

/-! ### Classes of bytes -/

def ascii (c : Char) : Byte := BitVec.ofNat 8 c.toNat

def quote : Byte := 0x22
def apostrophe : Byte := 0x27
def backslash : Byte := 0x5C

def isAsciiDigit (b : Byte) : Bool := 0x30 ≤ b.toNat && b.toNat ≤ 0x39
def isAsciiAlphabetic (b : Byte) : Bool :=
  0x41 ≤ b.toNat && b.toNat ≤ 0x5A || 0x61 ≤ b.toNat && b.toNat ≤ 0x7A
def isAsciiAlphanumeric (b : Byte) : Bool := isAsciiAlphabetic b || isAsciiDigit b
def isAsciiHexdigit (b : Byte) : Bool :=
  isAsciiDigit b || 0x41 ≤ b.toNat && b.toNat ≤ 0x46 || 0x61 ≤ b.toNat && b.toNat ≤ 0x66
def isAsciiWhitespace (b : Byte) : Bool := b ∈ [0x20, 0x09, 0x0A, 0x0C, 0x0D]

/-- A scalar outside ASCII counts as a letter. -/
def isIdentByte (b : Byte) : Bool := 0x80 ≤ b.toNat

def utf8Len (lead : Byte) : Nat :=
  if lead.toNat ≤ 0x7F then 1
  else if 0xC0 ≤ lead.toNat ∧ lead.toNat ≤ 0xDF then 2
  else if 0xE0 ≤ lead.toNat ∧ lead.toNat ≤ 0xEF then 3
  else if 0xF0 ≤ lead.toNat ∧ lead.toNat ≤ 0xF7 then 4
  else 1

/-! ### Between tokens -/

def skipLoop : Nat → Lex Unit
  | 0 => diverge
  | fuel + 1 => do
    advanceWhile isAsciiWhitespace
    if (← peek) = ascii '#' then
      advanceWhile (· ≠ 0x0A)
      skipLoop fuel
    else return ()

/-- Every turn but the last skips a comment. -/
def skipWhitespaceAndComments : Lex Unit := do skipLoop ((← get).rest.length + 1)

/-! ### Words -/

def keywords : List (String × TokenKind) :=
  [("adt", .adt), ("alt", .alt), ("array", .array), ("big", .big), ("break", .break),
   ("byte", .byte), ("case", .case), ("chan", .chan), ("con", .con), ("continue", .continue),
   ("cyclic", .cyclic), ("do", .do), ("else", .else), ("exception", .exception), ("exit", .exit),
   ("fn", .fn), ("for", .for), ("hd", .hd), ("if", .if), ("implement", .implement),
   ("import", .import), ("include", .include), ("int", .int), ("iota", .iota), ("len", .len),
   ("list", .list), ("load", .load), ("module", .module), ("nil", .nil), ("of", .of), ("or", .or),
   ("pick", .pick), ("raise", .raise), ("real", .real), ("ref", .ref), ("return", .return),
   ("self", .self_), ("spawn", .spawn), ("string", .string_), ("tagof", .tagof), ("tl", .tl),
   ("to", .to), ("type", .type), ("while", .while)]

def keyword (s : String) : Option TokenKind := keywords.lookup s

/-- The text from where the lexer was on. -/
def textSince (start : Lexer) (message : String) : Lex (List Char) := do
  match Utf8.fromUtf8? (start.rest.take (start.rest.length - (← get).rest.length)) with
  | some text => return text
  | none => fail message

def isWordByte (b : Byte) : Bool := isAsciiAlphanumeric b || b == ascii '_' || isIdentByte b

def lexIdent (span : Span) : Lex Token := do
  let start ← get
  advanceWhile isWordByte
  let word ← textSince start "invalid UTF-8 in identifier"
  return ⟨(keyword (.ofList word)).getD (.ident (.ofList word)), span⟩

/-! ### Numbers -/

/-- `f64::from_str`: the bits of the real nearest to a text, or what is wrong with the text. -/
abbrev F64FromStr := List Char → Except String Big

/-- `char::to_digit`. -/
def toDigit (radix : Nat) (c : Char) : Option Nat :=
  let d :=
    if '0' ≤ c ∧ c ≤ '9' then c.toNat - 0x30
    else if 'a' ≤ c ∧ c ≤ 'z' then c.toNat - 0x61 + 10
    else if 'A' ≤ c ∧ c ≤ 'Z' then c.toNat - 0x41 + 10
    else radix
  if d < radix then some d else none

def addDigit (limit radix acc : Nat) (c : Char) : Except String Nat :=
  match toDigit radix c with
  | none => .error "invalid digit found in string"
  | some d =>
    if acc * radix + d < limit then .ok (acc * radix + d)
    else .error "number too large to fit in target type"

/-- `from_str_radix` of an integer type below `limit`, for a text without a sign. -/
def fromStrRadix (limit radix : Nat) (text : List Char) : Except String Nat :=
  if text = [] then .error "cannot parse integer from empty string"
  else text.foldlM (addDigit limit radix) 0

def i64Limit : Nat := 2 ^ 63
def u32Limit : Nat := 2 ^ 32

def orFail {α : Type} : Except String α → Lex α
  | .ok a => return a
  | .error message => fail message

def intToken (radix : Nat) (span : Span) (digits : List Char) : Lex Token := do
  let val ← orFail (fromStrRadix i64Limit radix digits)
  return ⟨.intLit (BitVec.ofNat 64 val), span⟩

def lexExponent : Lex Bool := do
  let e ← peek
  if e = ascii 'e' ∨ e = ascii 'E' then
    let _ ← advance
    let sign ← peek
    if sign = ascii '+' ∨ sign = ascii '-' then modify (Lexer.skip 1) else pure ()
    advanceWhile isAsciiDigit
    return true
  else return false

def lexDotNumber (f64 : F64FromStr) (span : Span) : Lex Token := do
  let start ← get
  let _ ← advance
  advanceWhile isAsciiDigit
  let _ ← lexExponent
  let text ← textSince start "invalid float"
  return ⟨.realLit (← orFail (f64 text)), span⟩

def lexFraction : Lex Bool := do
  if (← peek) = ascii '.' then
    let _ ← advance
    advanceWhile isAsciiDigit
    return true
  else return false

def lexHexNumber (span : Span) : Lex Token := do
  let _ ← advance
  let _ ← advance
  let digitsStart ← get
  advanceWhile isAsciiHexdigit
  intToken 16 span (← textSince digitsStart "invalid hex literal")

def lexRadixNumber (start : Lexer) (span : Span) : Lex Token := do
  let radixText ← textSince start "invalid radix"
  let radix ← orFail (fromStrRadix u32Limit 10 radixText)
  if radix < 2 ∨ 36 < radix then fail s!"radix must be between 2 and 36, found {radix}"
  else
    let _ ← advance
    let digitsStart ← get
    advanceWhile fun b => isAsciiAlphanumeric b || b == ascii '_'
    intToken radix span (← textSince digitsStart "invalid radix digits")

def lexNumber (f64 : F64FromStr) (span : Span) : Lex Token := do
  let start ← get
  if (← peek) = ascii '0' ∧ ((← peek2) = ascii 'x' ∨ (← peek2) = ascii 'X') then lexHexNumber span
  else
    advanceWhile isAsciiDigit
    if (← peek) = ascii 'r' ∨ (← peek) = ascii 'R' then lexRadixNumber start span
    else
      let fraction ← lexFraction
      let exponent ← lexExponent
      let text ← textSince start "invalid number literal"
      if fraction || exponent then return ⟨.realLit (← orFail (f64 text)), span⟩
      else intToken 10 span text

/-! ### Strings and characters -/

/-- The character that begins at the position; a byte that begins none stands for itself. -/
def nextUtf8Char : Lex Char := do
  let lx ← get
  let lead ← peek
  match (Utf8.fromUtf8? (lx.rest.take (utf8Len lead))).bind List.head? with
  | some c =>
    modify (Lexer.skip c.utf8Size)
    return c
  | none =>
    modify (Lexer.skip 1)
    return Char.ofNat lead.toNat

def hexDigit? (d : Byte) : Option Nat :=
  if 0x30 ≤ d.toNat ∧ d.toNat ≤ 0x39 then some (d.toNat - 0x30)
  else if 0x61 ≤ d.toNat ∧ d.toNat ≤ 0x66 then some (d.toNat - 0x61 + 10)
  else if 0x41 ≤ d.toNat ∧ d.toNat ≤ 0x46 then some (d.toNat - 0x41 + 10)
  else none

def hexLoop : Nat → Nat → Lex Nat
  | 0, val => return val
  | digits + 1, val => do
    match hexDigit? (← advance) with
    | some n => hexLoop digits (val * 16 + n)
    | none => fail "invalid hex escape"

def lexHexEscape (digits : Nat) : Lex Nat := hexLoop digits 0

def escapeTable : List (Byte × Nat) :=
  [(ascii 'n', 0x0A), (ascii 't', 0x09), (ascii 'r', 0x0D), (ascii 'a', 0x07), (ascii 'b', 0x08),
   (ascii 'f', 0x0C), (ascii 'v', 0x0B), (ascii '0', 0x00)]

/-- The value of what follows a backslash. -/
def escapeValue (esc : Byte) : Lex Nat :=
  match escapeTable.lookup esc with
  | some val => return val
  | none => if esc = ascii 'u' then lexHexEscape 4 else return esc.toNat

/-- `char::from_u32`. -/
def charFromU32 (n : Nat) : Option Char := if n.isValidChar then some (Char.ofNat n) else none

def lexStringLoop : Nat → List Char → Lex (List Char)
  | 0, _ => diverge
  | fuel + 1, s => do
    if (← get).rest = [] then fail "unterminated string literal"
    else
      let ch ← peek
      if ch = quote then
        let _ ← advance
        return s
      else if ch = backslash then
        let _ ← advance
        let val ← escapeValue (← advance)
        lexStringLoop fuel (s ++ (charFromU32 val).toList)
      else
        let c ← nextUtf8Char
        lexStringLoop fuel (s ++ [c])

def lexString (span : Span) : Lex Token := do
  let _ ← advance
  let s ← lexStringLoop ((← get).rest.length + 1) []
  return ⟨.stringLit (.ofList s), span⟩

def lexCharValue : Lex Nat := do
  if (← peek) = backslash then
    let _ ← advance
    escapeValue (← advance)
  else return (← nextUtf8Char).toNat

def lexChar (span : Span) : Lex Token := do
  let _ ← advance
  let val ← lexCharValue
  if (← peek) ≠ apostrophe then fail "missing closing ' in character literal"
  else
    let _ ← advance
    return ⟨.charLit (BitVec.ofNat 32 val), span⟩

/-! ### Operators -/

/-- The longer operator whose next character follows, else the shorter one. -/
def longer (kind : TokenKind) : List (Char × Lex TokenKind) → Lex TokenKind
  | [] => return kind
  | (c, more) :: others => do
    if (← peek) = ascii c then
      let _ ← advance
      more
    else longer kind others

def lexOperator (span : Span) : Lex Token := do
  let lx ← get
  let ch ← advance
  let kind ←
    if ch = ascii '+' then longer .plus [('+', pure .inc), ('=', pure .plusEq)]
    else if ch = ascii '-' then
      longer .minus [('-', pure .dec), ('=', pure .minusEq), ('>', pure .arrow)]
    else if ch = ascii '*' then longer .star [('*', pure .power), ('=', pure .starEq)]
    else if ch = ascii '/' then longer .slash [('=', pure .slashEq)]
    else if ch = ascii '%' then longer .percent [('=', pure .percentEq)]
    else if ch = ascii '&' then longer .amp [('&', pure .andAnd), ('=', pure .ampEq)]
    else if ch = ascii '|' then longer .pipe [('|', pure .orOr), ('=', pure .pipeEq)]
    else if ch = ascii '^' then longer .caret [('=', pure .caretEq)]
    else if ch = ascii '~' then pure .tilde
    else if ch = ascii '!' then longer .bang [('=', pure .neq)]
    else if ch = ascii '<' then
      longer .lt [('<', longer .lshift [('=', pure .lshiftEq)]), ('=', pure .leq),
        ('-', longer .chanRecv [('=', pure .chanSend)])]
    else if ch = ascii '>' then
      longer .gt [('>', longer .rshift [('=', pure .rshiftEq)]), ('=', pure .geq)]
    else if ch = ascii '=' then longer .assign [('=', pure .eq), ('>', pure .fatArrow)]
    else if ch = ascii ':' then longer .colon [('=', pure .colonEq), (':', pure .colonColon)]
    else if ch = ascii '(' then pure .lparen
    else if ch = ascii ')' then pure .rparen
    else if ch = ascii '[' then pure .lbracket
    else if ch = ascii ']' then pure .rbracket
    else if ch = 0x7B then pure .lbrace
    else if ch = 0x7D then pure .rbrace
    else if ch = ascii ',' then pure .comma
    else if ch = ascii '.' then pure .dot
    else if ch = ascii ';' then pure .semicolon
    else throw ⟨lx.file, span, s!"unexpected character: {repr (Char.ofNat ch.toNat)}"⟩
  return ⟨kind, span⟩

/-! ### Tokens -/

/-- The token that begins with `ch` and goes on with `next`. -/
def lexToken (f64 : F64FromStr) (span : Span) (ch next : Byte) : Lex Token :=
  if ch = ascii '.' ∧ isAsciiDigit next then lexDotNumber f64 span
  else if isAsciiAlphabetic ch || ch == ascii '_' || isIdentByte ch then lexIdent span
  else if isAsciiDigit ch then lexNumber f64 span
  else if ch = quote then lexString span
  else if ch = apostrophe then lexChar span
  else lexOperator span

def nextToken (f64 : F64FromStr) : Lex Token := do
  skipWhitespaceAndComments
  let lx ← get
  if lx.rest = [] then return ⟨.eof, lx.span⟩
  else lexToken f64 lx.span (← peek) (← peek2)

def tokenizeLoop (f64 : F64FromStr) : Nat → List Token → Lex (List Token)
  | 0, _ => diverge
  | fuel + 1, tokens => do
    let tok ← nextToken f64
    if tok.kind = .eof then return tokens ++ [tok]
    else tokenizeLoop f64 fuel (tokens ++ [tok])

/-- Every token but the last takes a byte. -/
def tokenize (f64 : F64FromStr) : Lex (List Token) := do
  tokenizeLoop f64 ((← get).rest.length + 1) []

def Lexer.new (src : List Byte) (file : String) : Lexer := ⟨file, src, ⟨1, 1⟩⟩

end Limbo.Lexing

end RiceVM
