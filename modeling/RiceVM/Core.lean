import Mathlib.Algebra.Order.Ring.Int

/-!
The types the loader and the executor share: machine words, instructions and the
sections of a decoded `.dis` module. Words keep their 32-bit pattern; a signed
reading is `toInt`. A `real` is kept as its IEEE bit pattern.
-/
namespace RiceVM

abbrev Byte := BitVec 8
/-- Signed 32-bit machine word. -/
abbrev Word := BitVec 32
abbrev Big := BitVec 64
abbrev Pc := Word

namespace Word

/-- `as usize`: sign extension to the 64-bit host word. -/
def asUsize (w : Word) : Nat := (w.signExtend 64).toNat

/-- `usize::try_from`. -/
def toUsize? (w : Word) : Option Nat := if w.msb then none else some w.toNat

/-- `.max(0) as usize`. -/
def clampUsize (w : Word) : Nat := if w.msb then 0 else w.toNat

/-- `as i32` on a host word. -/
def ofUsize (n : Nat) : Word := BitVec.ofNat 32 n

theorem asUsize_of_msb_false {w : Word} (h : w.msb = false) : w.asUsize = w.toNat := by
  simp only [asUsize, BitVec.signExtend_eq_setWidth_of_msb_false h, BitVec.toNat_setWidth]
  have := w.isLt
  omega

theorem toNat_ofUsize {n : Nat} (h : n < 2 ^ 32) : (ofUsize n).toNat = n := by
  simp only [ofUsize, BitVec.toNat_ofNat]
  omega

theorem msb_ofUsize {n : Nat} (h : n < 2 ^ 31) : (ofUsize n).msb = false := by
  rw [BitVec.msb_eq_false_iff_two_mul_lt, toNat_ofUsize (by omega)]
  omega

theorem asUsize_ofUsize {n : Nat} (h : n < 2 ^ 31) : (ofUsize n).asUsize = n := by
  rw [asUsize_of_msb_false (msb_ofUsize h), toNat_ofUsize (by omega)]

end Word

/-- Handle to a heap object: the same 32 bits a pointer slot holds. -/
abbrev HeapId := BitVec 32

inductive Opcode where
  | nop | alt | nbalt | goto | call | frame | spawn | runt | load | mcall | mspawn
  | mframe | ret | jmp | casew | exit | new | newa | newcb | newcw | newcf | newcp
  | newcm | newcmp | send | recv | consb | consw | consp | consf | consm | consmp
  | headb | headw | headp | headf | headm | headmp | tail | lea | indx | movp | movm
  | movmp | movb | movw | movf | cvtbw | cvtwb | cvtfw | cvtwf | cvtca | cvtac | cvtwc
  | cvtcw | cvtfc | cvtcf | addb | addw | addf | subb | subw | subf | mulb | mulw
  | mulf | divb | divw | divf | modw | modb | andb | andw | orb | orw | xorb | xorw
  | shlb | shlw | shrb | shrw | insc | indc | addc | lenc | lena | lenl | beqb | bneb
  | bltb | bleb | bgtb | bgeb | beqw | bnew | bltw | blew | bgtw | bgew | beqf | bnef
  | bltf | blef | bgtf | bgef | beqc | bnec | bltc | blec | bgtc | bgec | slicea
  | slicela | slicec | indw | indf | indb | negf | movl | addl | subl | divl | modl
  | mull | andl | orl | xorl | shll | shrl | bnel | bltl | blel | bgtl | bgel | beql
  | cvtlf | cvtfl | cvtlw | cvtwl | cvtlc | cvtcl | headl | consl | newcl | casec
  | indl | movpc | tcmp | mnewz | cvtrf | cvtfr | cvtws | cvtsw | lsrw | lsrl | eclr
  | newz | newaz | raise | casel | mulx | divx | cvtxx | mulx0 | divx0 | cvtxx0 | mulx1
  | divx1 | cvtxx1 | cvtfx | cvtxf | expw | expl | expf | self | brkpt
  deriving DecidableEq, Repr

inductive AddressMode where
  | offsetIndirectMp | offsetIndirectFp | immediate | none | offsetDoubleIndirectMp
  | offsetDoubleIndirectFp | reserved1 | reserved2
  deriving DecidableEq, Repr

inductive MiddleMode where
  | none | smallImmediate | smallOffsetFp | smallOffsetMp
  deriving DecidableEq, Repr

structure Operand where
  mode : AddressMode
  register1 : Word
  register2 : Word
  deriving DecidableEq, Repr

structure MiddleOperand where
  mode : MiddleMode
  register1 : Word
  deriving DecidableEq, Repr

structure Instruction where
  opcode : Opcode
  source : Operand
  middle : MiddleOperand
  destination : Operand
  deriving DecidableEq, Repr

def Operand.unused : Operand := ⟨.none, 0, 0⟩
def MiddleOperand.unused : MiddleOperand := ⟨.none, 0⟩

inductive ExecError where
  | noEntryPoint
  | invalidPc (pc : Word)
  | threadFault (msg : String)
  | other (msg : String)
  deriving DecidableEq, Repr

/-- The fault of a run whose threads all wait for each other. -/
def deadlockFault : ExecError := .threadFault "deadlock: all threads are blocked on channels"

structure TypeDescriptor where
  id : BitVec 32
  size : Word
  pointerMap : List Byte
  pointerCount : BitVec 32
  deriving DecidableEq, Repr

structure Header where
  magic : Word
  signature : List Byte
  runtimeFlags : BitVec 32
  stackExtent : Word
  codeSize : Word
  dataSize : Word
  typeSize : Word
  exportSize : Word
  entryPc : Pc
  entryType : Word
  deriving DecidableEq, Repr

structure ExportEntry where
  pc : Pc
  frameType : Word
  signature : Word
  name : String
  deriving DecidableEq, Repr

structure ImportEntry where
  signature : Word
  name : String
  deriving DecidableEq, Repr

structure ImportModule where
  functions : List ImportEntry
  deriving DecidableEq, Repr

/-- A case without a name is the wildcard. -/
structure ExceptionCase where
  name : Option String
  pc : Pc
  deriving DecidableEq, Repr

structure Handler where
  exceptionOffset : Word
  beginPc : Pc
  endPc : Pc
  typeDescriptor : Option (BitVec 32)
  cases : List ExceptionCase
  deriving DecidableEq, Repr

inductive DataItem where
  | bytes (offset : Word) (values : List Byte)
  | words (offset : Word) (values : List Word)
  | bigs (offset : Word) (values : List Big)
  | reals (offset : Word) (values : List (BitVec 64))
  | string (offset : Word) (value : String)
  | array (offset elementType length : Word)
  | setArray (offset index : Word)
  | restoreBase
  deriving DecidableEq, Repr

structure Module where
  header : Header
  code : List Instruction
  types : List TypeDescriptor
  data : List DataItem
  name : String
  exports : List ExportEntry
  imports : List ImportModule
  handlers : List Handler
  deriving DecidableEq, Repr

end RiceVM
