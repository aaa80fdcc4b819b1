import RiceVM.Programs
import RiceVM.Limbo.CallArgs

/-!
The formatter of `print` and its relatives. The directives of a format string say where in the
frame the arguments are; the text made of each argument is left out.
-/
namespace RiceVM
open Limbo

def MAX_FORMAT_WIDTH : Nat := 4096

/-- Where the precision of a directive comes from. -/
inductive Precision where
  | none
  | digits (p : Nat)
  /-- `.*`: the next argument, a word. -/
  | argument
  deriving DecidableEq, Repr

structure Flags where
  leftAlign : Bool := false
  zeroPad : Bool := false
  plusSign : Bool := false
  spaceSign : Bool := false
  deriving DecidableEq, Repr

/-- The conversion a directive ends in. -/
inductive Verb where
  | percent
  | str
  | dec
  | real (c : Char)
  | char
  | hex (upper : Bool)
  | oct
  | lastError
  /-- `%b`, or `%bu`, and the character after it. -/
  | big (unsigned : Bool) (conv : Option Char)
  | unsigned (conv : Option Char)
  | other (c : Char)
  | missing
  deriving DecidableEq, Repr

inductive Piece where
  | literal (c : Char)
  | directive (flags : Flags) (width : Option Nat) (precision : Precision) (verb : Verb)
  deriving DecidableEq, Repr

def scanFlags (flags : Flags) : List Char → Flags × List Char
  | '-' :: cs => scanFlags { flags with leftAlign := true } cs
  | '0' :: cs => scanFlags { flags with zeroPad := true } cs
  | '+' :: cs => scanFlags { flags with plusSign := true } cs
  | ' ' :: cs => scanFlags { flags with spaceSign := true } cs
  | cs => (flags, cs)

/-- Append a decimal digit to a width or precision, clamped. -/
def accumulateDigit (value : Nat) (digit : Char) : Nat :=
  min (value * 10 + (digit.toNat - '0'.toNat)) MAX_FORMAT_WIDTH

def scanWidth (width : Option Nat) : List Char → Option Nat × List Char
  | c :: cs =>
    if c.isDigit then scanWidth (some (accumulateDigit (width.getD 0) c)) cs else (width, c :: cs)
  | [] => (width, [])

def scanPrecision : List Char → Precision × List Char
  | '.' :: '*' :: cs => (.argument, cs)
  | '.' :: cs =>
    let digits := scanWidth none cs
    (.digits (digits.1.getD 0), digits.2)
  | cs => (.none, cs)

def scanVerb : List Char → Verb × List Char
  | '%' :: cs => (.percent, cs)
  | 's' :: cs => (.str, cs)
  | 'd' :: cs => (.dec, cs)
  | 'g' :: cs => (.real 'g', cs)
  | 'f' :: cs => (.real 'f', cs)
  | 'e' :: cs => (.real 'e', cs)
  | 'c' :: cs => (.char, cs)
  | 'x' :: cs => (.hex false, cs)
  | 'X' :: cs => (.hex true, cs)
  | 'o' :: cs => (.oct, cs)
  | 'r' :: cs => (.lastError, cs)
  | 'b' :: 'u' :: cs => (.big true cs.head?, cs.tail)
  | 'b' :: cs => (.big false cs.head?, cs.tail)
  | 'u' :: cs => (.unsigned cs.head?, cs.tail)
  | c :: cs => (.other c, cs)
  | [] => (.missing, [])

/-- What follows a `%`, and the rest of the format. -/
def scanDirective (cs : List Char) : Piece × List Char :=
  let flags := scanFlags {} cs
  let width := scanWidth none flags.2
  let precision := scanPrecision width.2
  let verb := scanVerb precision.2
  (.directive flags.1 width.1 precision.1 verb.1, verb.2)

/-- The pieces of a format string; each takes a character at least. -/
def formatPieces : Nat → List Char → List Piece
  | 0, _ => []
  | _, [] => []
  | n + 1, '%' :: cs =>
    let piece := scanDirective cs
    piece.1 :: formatPieces n piece.2
  | n + 1, c :: cs => .literal c :: formatPieces n cs

def pieces (fmt : String) : List Piece := formatPieces fmt.length fmt.toList

/-- Advance to the next 8-byte boundary measured from the frame base. -/
def alignVararg (frameBase argOffset : Nat) : Nat :=
  argOffset + (8 - (argOffset - frameBase) % 8) % 8

instance lawfulBEqConversion : LawfulBEq (Option Char) := inferInstance

/-- What a verb reads from `off` on, if anything, and where the next argument is. A `%b` or `%u`
without a known conversion reads nothing and skips its argument. -/
def Verb.read (frameBase off : Nat) : Verb → Option Span × Nat
  | .percent | .lastError | .other _ | .missing => (none, off)
  | .str | .dec | .char | .hex _ | .oct => (some ⟨off, 4⟩, off + 4)
  | .real _ =>
    let off := alignVararg frameBase off
    (some ⟨off, 8⟩, off + 8)
  | .big _ conv =>
    let off := alignVararg frameBase off
    (if conv ∈ [some 'd', some 'x', some 'X', some 'o'] then some ⟨off, 8⟩ else none, off + 8)
  | .unsigned conv => (if conv ∈ [some 'd', some 'x'] then some ⟨off, 4⟩ else none, off + 4)

/-- The arguments `format_string` reads, in order, from `off` on. -/
def formatReads (frameBase off : Nat) : List Piece → List Span
  | [] => []
  | .literal _ :: rest => formatReads frameBase off rest
  | .directive _ _ precision verb :: rest =>
    let star : Option Span × Nat :=
      match precision with
      | .argument => (some ⟨off, 4⟩, off + 4)
      | _ => (none, off)
    let value := verb.read frameBase star.2
    star.1.toList ++ value.1.toList ++ formatReads frameBase value.2 rest

/-- The built-ins that format their arguments. -/
inductive Printer where
  | print | fprint | sprint | aprint
  deriving DecidableEq, Repr

namespace Printer

/-- The size of the frame `mframe` allocates for the built-in. -/
def frameSize : Printer → Nat
  | .print | .fprint | .sprint | .aprint => 256

/-- Where the format string is. -/
def fmtOffset : Printer → Nat
  | .fprint => 36
  | .print | .sprint | .aprint => 32

/-- Where the built-in, called in a frame at `frameBase`, reads its arguments. -/
def reads (p : Printer) (frameBase : Nat) (fmt : String) : List Span :=
  (if p = .fprint then [⟨frameBase + 32, 4⟩] else []) ++
    ⟨frameBase + p.fmtOffset, 4⟩ ::
      formatReads frameBase (frameBase + p.fmtOffset + 4) (pieces fmt)

end Printer

end RiceVM
