import RiceVM.Loader.Decode
import Mathlib.Tactic.IntervalCases

/-!
The writer of the Limbo compiler: the sections of a module one after the other, in the form the
loader reads. A number outside the range of the operand encoding is an error; no other check is
made.
-/
namespace RiceVM
open Exec Loader

inductive WriteError where
  | operandOutOfRange (val : Word)
  deriving DecidableEq, Repr

/-- A program that appends to a `.dis` file. -/
abbrev Writer := Exec (List Byte) WriteError Unit

namespace Limbo

/-- Smallest value the operand encoding represents. -/
def OPERAND_MIN : Int := -2 ^ 29
/-- Largest value the operand encoding represents. -/
def OPERAND_MAX : Int := 2 ^ 29 - 1

def writeOp (val : Word) : Writer :=
  if 0 ≤ val.toInt ∧ val.toInt < 64 then emit [val.setWidth 8]
  else if -64 ≤ val.toInt ∧ val.toInt < 0 then emit [0x40 ||| (val &&& 0x3F).setWidth 8]
  else if -8192 ≤ val.toInt ∧ val.toInt < 8192 then
    let v := val.setWidth 16
    emit [((v >>> 8) &&& 0x3F ||| 0x80).setWidth 8, v.setWidth 8]
  else if OPERAND_MIN ≤ val.toInt ∧ val.toInt ≤ OPERAND_MAX then
    emit [((val >>> 24) &&& 0x3F ||| 0xC0).setWidth 8, (val >>> 16).setWidth 8,
      (val >>> 8).setWidth 8, val.setWidth 8]
  else throw (.operandOutOfRange val)

def writeCString (s : String) : Writer := emit (Utf8.asBytes s ++ [0])

/-- `to_be_bytes`. -/
def wordBytes (w : Word) : List Byte :=
  [(w >>> 24).setWidth 8, (w >>> 16).setWidth 8, (w >>> 8).setWidth 8, w.setWidth 8]

def bigBytes (b : Big) : List Byte := wordBytes ((b >>> 32).setWidth 32) ++ wordBytes (b.setWidth 32)

def encodeAddrMode : AddressMode → Byte
  | .offsetIndirectMp => 0
  | .offsetIndirectFp => 1
  | .immediate => 2
  | .none => 3
  | .offsetDoubleIndirectMp => 4
  | .offsetDoubleIndirectFp => 5
  | _ => 3

def encodeMidMode : MiddleMode → Byte
  | .none => 0
  | .smallImmediate => 1
  | .smallOffsetFp => 2
  | .smallOffsetMp => 3

def writeMiddleOperand (mid : MiddleOperand) : Writer :=
  match mid.mode with
  | .none => pure ()
  | _ => writeOp mid.register1

def writeOperand (op : Operand) : Writer :=
  match op.mode with
  | .none => pure ()
  | .offsetIndirectFp | .offsetIndirectMp | .immediate => writeOp op.register1
  | .offsetDoubleIndirectFp | .offsetDoubleIndirectMp => do
    writeOp op.register1
    writeOp op.register2
  | _ => pure ()

/-- `opcode as u8`. -/
def opcodeByte (op : Opcode) : Byte := BitVec.ofNat 8 op.ctorIdx

def writeHeader (h : Header) : Writer := do
  writeOp XMAGIC
  writeOp h.runtimeFlags
  writeOp h.stackExtent
  writeOp h.codeSize
  writeOp h.dataSize
  writeOp h.typeSize
  writeOp h.exportSize
  writeOp h.entryPc
  writeOp h.entryType

def writeInstruction (inst : Instruction) : Writer := do
  emit [opcodeByte inst.opcode]
  emit [encodeMidMode inst.middle.mode <<< 6 ||| encodeAddrMode inst.source.mode <<< 3 |||
    encodeAddrMode inst.destination.mode]
  writeMiddleOperand inst.middle
  writeOperand inst.source
  writeOperand inst.destination

def writeType (td : TypeDescriptor) : Writer := do
  writeOp td.id
  writeOp td.size
  writeOp (.ofUsize td.pointerMap.length)
  emit td.pointerMap

def writeDataHeader (itemType : Byte) (count offset : Word) : Writer := do
  (if 0 < count.toInt ∧ count.toInt ≤ 15 then emit [itemType <<< 4 ||| count.setWidth 8]
  else do
    emit [itemType <<< 4]
    writeOp count)
  writeOp offset

def writeDataItem : DataItem → Writer
  | .bytes offset values => do
    writeDataHeader 1 (.ofUsize values.length) offset
    emit values
  | .words offset values => do
    writeDataHeader 2 (.ofUsize values.length) offset
    each (emit <| wordBytes ·) values
  | .string offset value => do
    writeDataHeader 3 (.ofUsize (Utf8.asBytes value).length) offset
    emit (Utf8.asBytes value)
  | .reals offset values => do
    writeDataHeader 4 (.ofUsize values.length) offset
    each (emit <| bigBytes ·) values
  | .array offset elementType length => do
    emit [(5 <<< 4) ||| 1]
    writeOp offset
    emit (wordBytes elementType)
    emit (wordBytes length)
  | .setArray offset index => do
    emit [(6 <<< 4) ||| 1]
    writeOp offset
    emit (wordBytes index)
  | .restoreBase => do
    emit [(7 <<< 4) ||| 1]
    writeOp 0
  | .bigs offset values => do
    writeDataHeader 8 (.ofUsize values.length) offset
    each (emit <| bigBytes ·) values

/-- The data section and the zero byte that ends it. -/
def writeData (items : List DataItem) : Writer := do
  each writeDataItem items
  emit [0x00]

def writeExport (e : ExportEntry) : Writer := do
  writeOp e.pc
  writeOp e.frameType
  emit (wordBytes e.signature)
  writeCString e.name

def writeImport (func : ImportEntry) : Writer := do
  emit (wordBytes func.signature)
  writeCString func.name

def writeImportModule (importMod : ImportModule) : Writer := do
  writeOp (.ofUsize importMod.functions.length)
  each writeImport importMod.functions

/-- The import section: its count always, the zero byte that ends it where there are imports. -/
def writeImports (imports : List ImportModule) : Writer := do
  writeOp (.ofUsize imports.length)
  each writeImportModule imports
  if imports.isEmpty then pure () else emit [0x00]

def writeCase (case : ExceptionCase) : Writer := do
  (match case.name with
  | some name => writeCString name
  | none => pure ())
  writeOp case.pc

/-- The named cases, then the pc of the first wildcard. -/
def writeHandler (h : Handler) : Writer := do
  writeOp h.exceptionOffset
  writeOp h.beginPc
  writeOp h.endPc
  writeOp (h.typeDescriptor.getD (-1))
  let namedCases := h.cases.filter (·.name.isSome)
  let wildcard := h.cases.find? (·.name.isNone)
  writeOp (.ofUsize namedCases.length &&& 0xFFFF)
  each writeCase namedCases
  writeOp ((wildcard.map (·.pc)).getD (-1))

def writeHandlers (handlers : List Handler) : Writer := do
  writeOp (.ofUsize handlers.length)
  each writeHandler handlers
  emit [0x00]

/-- Append a module to a file. -/
def writeDis (module : Module) : Writer := do
  writeHeader module.header
  each writeInstruction module.code
  each writeType module.types
  writeData module.data
  writeCString module.name
  each writeExport module.exports
  writeImports module.imports
  if module.header.hasFlag .HAS_HANDLER then writeHandlers module.handlers else pure ()

/-! Operands. -/

/-- A byte below a sign-extended number. -/
theorem signExtend_append {n : Nat} (x : BitVec n) (y : Byte) (hpos : 0 < n) :
    (x.signExtend 32 <<< 8) ||| y.setWidth 32 = (x ++ y).signExtend 32 := by
  ext i hi
  simp only [BitVec.getElem_or, BitVec.getElem_shiftLeft, BitVec.getElem_signExtend,
    BitVec.getElem_setWidth, BitVec.getElem_append, BitVec.msb_append]
  by_cases hlow : i < 8
  · simp [hlow, BitVec.getLsbD_eq_getElem]
    omega
  · have hy : y.getLsbD i = false := BitVec.getLsbD_of_ge y i (by omega)
    simp only [hlow, hy, decide_false, Bool.not_false, Bool.true_and, Bool.or_false,
      dif_neg, not_false_eq_true, if_neg (Nat.ne_of_gt hpos)]
    split <;> split <;> first | rfl | omega

theorem setWidth_append (v : Word) (n : Nat) :
    (v >>> 8).setWidth n ++ v.setWidth 8 = v.setWidth (n + 8) := by
  ext i hi
  simp only [BitVec.getElem_append, BitVec.getElem_setWidth, BitVec.getLsbD_ushiftRight]
  split
  · rfl
  · rw [Nat.add_sub_cancel' (by omega)]

theorem signExtend_setWidth {v : Word} {n : Nat} (hn : n < 32) (hlow : -2 ^ n ≤ v.toInt)
    (hhigh : v.toInt < 2 ^ n) : (v.setWidth (n + 1)).signExtend 32 = v := by
  apply BitVec.eq_of_toInt_eq
  have hdvd : 2 ^ (n + 1) ∣ 2 ^ 32 := Nat.pow_dvd_pow 2 (by omega)
  have htwo : ((2 ^ (n + 1) : Nat) : Int) = 2 * 2 ^ n := by
    rw [Nat.pow_succ]
    push_cast
    omega
  rw [BitVec.toInt_signExtend_of_le (by omega), BitVec.toInt_setWidth,
    ← Int.bmod_bmod_of_dvd hdvd, ← BitVec.toInt_eq_toNat_bmod]
  exact Int.bmod_eq_of_le_mul_two (by omega) (by omega)

/-! The marks in the first byte of each form, and what is left of it without the mark. -/

theorem lead_small (n : Fin 64) :
    ((BitVec.ofNat 32 n).setWidth 8).setWidth 32 = BitVec.ofNat 32 n ∧
      BitVec.ofNat 32 n &&& 0xC0 = 0 := by
  revert n
  decide

theorem lead_negative (n : Fin 64) :
    let b : Byte := 0x40 ||| (-BitVec.ofNat 32 (n + 1) &&& 0x3F).setWidth 8
    b.setWidth 32 &&& 0xC0 = 0x40 ∧ b.setWidth 32 ||| ~~~0x7F = -BitVec.ofNat 32 (n + 1) := by
  revert n
  decide

theorem lead_two (c : Byte) :
    let b : Byte := c &&& 0x3F ||| 0x80
    b.setWidth 32 &&& 0xC0 = 0x80 ∧ highBits (b.setWidth 32) = (c.setWidth 6).signExtend 32 := by
  revert c
  decide

theorem lead_four (c : Byte) :
    let b : Byte := c &&& 0x3F ||| 0xC0
    b.setWidth 32 &&& 0xC0 = 0xC0 ∧ highBits (b.setWidth 32) = (c.setWidth 6).signExtend 32 := by
  revert c
  decide

theorem reads_operand_small {b : Byte} (part : String) (h : b.setWidth 32 &&& 0xC0 = 0x00) :
    Reads (readOperand part) [b] (b.setWidth 32) := by
  refine Reads.bind (Reads.next _ b) (?_ : Reads _ [] _)
  dsimp only
  rw [if_pos h]
  exact .pure _

theorem reads_operand_negative {b : Byte} (part : String) (h : b.setWidth 32 &&& 0xC0 = 0x40) :
    Reads (readOperand part) [b] (b.setWidth 32 ||| ~~~0x7F) := by
  refine Reads.bind (Reads.next _ b) (?_ : Reads _ [] _)
  dsimp only
  rw [h, if_neg (by decide), if_pos rfl]
  exact .pure _

theorem reads_operand_two {b : Byte} (b2 : Byte) (part : String)
    (h : b.setWidth 32 &&& 0xC0 = 0x80) :
    Reads (readOperand part) [b, b2] ((highBits (b.setWidth 32) <<< 8) ||| b2.setWidth 32) := by
  refine Reads.bind (Reads.next _ b) (?_ : Reads _ [b2] _)
  dsimp only
  rw [h, if_neg (by decide), if_neg (by decide), if_pos rfl]
  exact Reads.bind (Reads.next _ b2) (.pure _)

theorem reads_operand_four {b : Byte} (b2 b3 b4 : Byte) (part : String)
    (h : b.setWidth 32 &&& 0xC0 = 0xC0) : Reads (readOperand part) [b, b2, b3, b4]
      ((highBits (b.setWidth 32) <<< 24) ||| (b2.setWidth 32 <<< 16) |||
        (b3.setWidth 32 <<< 8) ||| b4.setWidth 32) := by
  refine Reads.bind (Reads.next _ b) (?_ : Reads _ [b2, b3, b4] _)
  dsimp only
  rw [h, if_neg (by decide), if_neg (by decide), if_neg (by decide)]
  exact Reads.bind (Reads.next _ b2) (Reads.bind (Reads.next _ b3)
    (Reads.bind (Reads.next _ b4) (.pure _)))

/-- The two byte form, of fourteen bits. -/
theorem reads_two {v : Word} (part : String) (hlow : -8192 ≤ v.toInt) (hhigh : v.toInt < 8192) :
    Reads (readOperand part)
      [((v.setWidth 16 >>> 8) &&& 0x3F ||| 0x80).setWidth 8, (v.setWidth 16).setWidth 8] v := by
  have hlead : ((v.setWidth 16 >>> 8) &&& 0x3F ||| 0x80).setWidth 8 =
      (v >>> 8).setWidth 8 &&& 0x3F ||| (0x80 : Byte) := by
    ext i hi
    interval_cases i <;> simp
  obtain ⟨hmark, hhigh⟩ := lead_two ((v >>> 8).setWidth 8)
  have hreads := reads_operand_two (v.setWidth 8) part hmark
  rw [hhigh, signExtend_append _ _ (by decide),
    BitVec.setWidth_setWidth_of_le _ (by decide : 6 ≤ 8), setWidth_append,
    signExtend_setWidth (by decide) (by omega) (by omega)] at hreads
  rw [hlead, BitVec.setWidth_setWidth_of_le _ (by decide)]
  exact hreads

/-- The four byte form, of thirty bits. -/
theorem reads_four {v : Word} (part : String) (hlow : -2 ^ 29 ≤ v.toInt) (hhigh : v.toInt < 2 ^ 29) :
    Reads (readOperand part) [((v >>> 24) &&& 0x3F ||| 0xC0).setWidth 8, (v >>> 16).setWidth 8,
      (v >>> 8).setWidth 8, v.setWidth 8] v := by
  have hlead : ((v >>> 24) &&& 0x3F ||| 0xC0).setWidth 8 =
      (v >>> 24).setWidth 8 &&& 0x3F ||| (0xC0 : Byte) := by
    ext i hi
    interval_cases i <;> simp
  have hshift : ∀ a b c d : Word, (a <<< 24) ||| (b <<< 16) ||| (c <<< 8) ||| d =
      (((a <<< 8 ||| b) <<< 8 ||| c) <<< 8) ||| d := by
    intro a b c d
    simp only [BitVec.shiftLeft_or_distrib, ← BitVec.shiftLeft_add]
  have hbytes : ((v >>> 24).setWidth 6 ++ (v >>> 16).setWidth 8 ++ (v >>> 8).setWidth 8 ++
      v.setWidth 8 : BitVec 30) = v.setWidth 30 := by
    have h24 : v >>> 24 = (v >>> 16) >>> 8 := BitVec.shiftRight_add v 16 8
    have h16 : v >>> 16 = (v >>> 8) >>> 8 := BitVec.shiftRight_add v 8 8
    rw [h24, setWidth_append, h16, setWidth_append, setWidth_append]
  obtain ⟨hmark, hhigh⟩ := lead_four ((v >>> 24).setWidth 8)
  have hreads := reads_operand_four ((v >>> 16).setWidth 8) ((v >>> 8).setWidth 8) (v.setWidth 8)
    part hmark
  rw [hhigh, hshift, signExtend_append _ _ (by decide), signExtend_append _ _ (by decide),
    signExtend_append _ _ (by decide), BitVec.setWidth_setWidth_of_le _ (by decide : 6 ≤ 8),
    hbytes, signExtend_setWidth (by decide) (by omega) (by omega)] at hreads
  rw [hlead]
  exact hreads

/-- What the writer emits for a value is read back as that value. -/
theorem codes_writeOp (v : Word) (part : String) : Codes (writeOp v) (readOperand part) v := by
  have hcond := BitVec.toInt_eq_toNat_cond v
  have hlt := v.isLt
  unfold writeOp
  split
  · obtain ⟨n, hn, rfl⟩ : ∃ n, n < 64 ∧ v = BitVec.ofNat 32 n :=
      ⟨v.toNat, by split at hcond <;> omega, by simp⟩
    obtain ⟨heq, hlow⟩ := lead_small ⟨n, hn⟩
    have hreads := reads_operand_small (b := (BitVec.ofNat 32 n).setWidth 8) part (by rw [heq, hlow])
    rw [heq] at hreads
    exact .emit hreads
  split
  · obtain ⟨n, hn, rfl⟩ : ∃ n, n < 64 ∧ v = -BitVec.ofNat 32 (n + 1) := by
      refine ⟨2 ^ 32 - v.toNat - 1, by split at hcond <;> omega, BitVec.eq_of_toNat_eq ?_⟩
      rw [BitVec.toNat_neg, BitVec.toNat_ofNat]
      split at hcond <;> omega
    obtain ⟨hmark, heq⟩ := lead_negative ⟨n, hn⟩
    have hreads := reads_operand_negative part hmark
    rw [heq] at hreads
    exact .emit hreads
  split
  · next hrange => exact .emit (reads_two part hrange.1 hrange.2)
  split
  · next hrange =>
      obtain ⟨hmin, hmax⟩ := hrange
      unfold OPERAND_MIN at hmin
      unfold OPERAND_MAX at hmax
      exact .emit (reads_four part hmin (by omega))
  · exact .throw _ _ _

end Limbo
end RiceVM
