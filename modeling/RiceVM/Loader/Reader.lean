import RiceVM.Core
import RiceVM.Lib.Codec
import RiceVM.Lib.Utf8

/-!
The cursor over a `.dis` file: operands of one, two or four bytes, big-endian words and
strings that end in a zero byte. The state of a reader is the bytes left.
-/
namespace RiceVM
open Exec

inductive LoadError where
  | invalidMagic (magic : Word)
  | unexpectedEof (part : String)
  | invalidOpcode (byte : Byte)
  | obsoleteModule
  | invalidDataType (itemType : Byte)
  | invalidAddressMode (mode : Byte)
  | validationError (msg : String)
  | other (msg : String)
  deriving DecidableEq, Repr

/-- A reader of `.dis` bytes. -/
abbrev Reader := Exec (List Byte) LoadError

namespace Loader

def readByte (part : String) : Reader Byte := next (.unexpectedEof part)

def readBytes (n : Nat) (part : String) : Reader (List Byte) := take n (.unexpectedEof part)

/-- The six low bits of an operand's first byte, sign-extended. -/
def highBits (b : Word) : Word := if b &&& 0x20 ≠ 0 then b ||| ~~~0x3F else b &&& 0x3F

/-- An operand: its two high bits say how many bytes it has. -/
def readOperand (part : String) : Reader Word := do
  let b := (← readByte part).setWidth 32
  if b &&& 0xC0 = 0x00 then return b
  else if b &&& 0xC0 = 0x40 then return b ||| ~~~0x7F
  else if b &&& 0xC0 = 0x80 then
    let b2 := (← readByte part).setWidth 32
    return (highBits b <<< 8) ||| b2
  else
    let b2 := (← readByte part).setWidth 32
    let b3 := (← readByte part).setWidth 32
    let b4 := (← readByte part).setWidth 32
    return (highBits b <<< 24) ||| (b2 <<< 16) ||| (b3 <<< 8) ||| b4

/-- A big-endian word. -/
def readWordBe (part : String) : Reader Word := do
  let b1 := (← readByte part).setWidth 32
  let b2 := (← readByte part).setWidth 32
  let b3 := (← readByte part).setWidth 32
  let b4 := (← readByte part).setWidth 32
  return (b1 <<< 24) ||| (b2 <<< 16) ||| (b3 <<< 8) ||| b4

/-- The bytes up to the next zero byte. -/
def readCString (part : String) : Reader String := do
  let input ← get
  let bytes := input.takeWhile (· ≠ 0)
  match input.drop bytes.length with
  | [] => throw (.unexpectedEof part)
  | _ :: rest =>
    set rest
    return Utf8.fromLossy bytes

theorem reads_readCString {s part : String} (hs : '\x00' ∉ s.toList) :
    Reads (readCString part) (Utf8.asBytes s ++ [0]) s := by
  intro rest
  have hbytes : (Utf8.asBytes s ++ ([0] ++ rest)).takeWhile (· ≠ 0) = Utf8.asBytes s := by
    rw [List.takeWhile_append_of_pos fun b hb => decide_eq_true (Utf8.ne_zero_of_mem_asBytes hs hb)]
    exact List.append_nil _
  rw [readCString, List.append_assoc, bind_ok (get_apply _), hbytes, List.drop_left]
  change Exec.Res.ok (Utf8.fromLossy (Utf8.asBytes s)) rest = .ok s rest
  rw [Utf8.fromLossy_asBytes]

end Loader
end RiceVM
