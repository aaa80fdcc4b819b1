import RiceVM.Loader.Reader

/-!
The loader: the sections of a `.dis` file one after the other, and the checks made on the
module they decode to. Counts come from the file, so a count that is negative is an error, and
one that is too large ends with the input.
-/
namespace RiceVM
open Exec

/-- Magic number of an unsigned module. -/
def XMAGIC : Word := 0x0C8030
/-- Magic number of a signed module. -/
def SMAGIC : Word := 0x0E1722

abbrev RuntimeFlags := BitVec 32

namespace RuntimeFlags

def MUST_COMPILE : RuntimeFlags := 1 <<< 0
def DONT_COMPILE : RuntimeFlags := 1 <<< 1
def HAS_HANDLER : RuntimeFlags := 1 <<< 5
def HAS_IMPORT : RuntimeFlags := 1 <<< 6

end RuntimeFlags

/-- `RuntimeFlags::contains`. -/
def Header.hasFlag (h : Header) (flag : RuntimeFlags) : Bool := h.runtimeFlags &&& flag ≠ 0

/-- `PointerMap::count_pointers`. -/
def countPointers (map : List Byte) : BitVec 32 :=
  BitVec.ofNat 32 (map.map fun b => ((List.range 8).filter b.getLsbD).length).sum

namespace Loader

def checkedCount (value : Word) (part : String) : Reader Nat :=
  match value.toUsize? with
  | some n => pure n
  | none => throw (.validationError s!"negative count {value.toInt} in {part} section")

def readCount (part : String) : Reader Nat := do checkedCount (← readOperand part) part

def checkedOffset (value : Word) (part : String) : Reader Word :=
  if value.msb then throw (.validationError s!"negative offset {value.toInt} in {part} section")
  else pure value

/-- The signature a signed module has after its magic number. -/
def parseSignature (magic : Word) : Reader (List Byte) :=
  if magic = SMAGIC then do
    let sigLen ← readCount "header"
    readBytes sigLen "header"
  else if magic = XMAGIC then pure []
  else throw (.invalidMagic magic)

def parseHeader : Reader Header := do
  let magic ← readOperand "header"
  let signature ← parseSignature magic
  let runtimeFlags ← readOperand "header"
  let stackExtent ← readOperand "header"
  let codeSize ← readOperand "header"
  let dataSize ← readOperand "header"
  let typeSize ← readOperand "header"
  let exportSize ← readOperand "header"
  let entryPc ← readOperand "header"
  let entryType ← readOperand "header"
  return { magic, signature, runtimeFlags, stackExtent, codeSize, dataSize, typeSize, exportSize
           entryPc, entryType }

def addressMode (modeBits : Byte) : Option AddressMode :=
  match modeBits.toNat with
  | 0 => some .offsetIndirectMp
  | 1 => some .offsetIndirectFp
  | 2 => some .immediate
  | 3 => some .none
  | 4 => some .offsetDoubleIndirectMp
  | 5 => some .offsetDoubleIndirectFp
  | _ => none

def parseSrcDstOperand (modeBits : Byte) : Reader Operand :=
  match addressMode modeBits with
  | none => throw (.invalidAddressMode modeBits)
  | some .none => pure .unused
  | some mode => do
    let register1 ← readOperand "code"
    let register2 ←
      (if mode = .offsetDoubleIndirectMp ∨ mode = .offsetDoubleIndirectFp then readOperand "code"
      else pure 0)
    return { mode, register1, register2 }

def middleMode (midBits : Byte) : MiddleMode :=
  match midBits.toNat with
  | 1 => .smallImmediate
  | 2 => .smallOffsetFp
  | 3 => .smallOffsetMp
  | _ => .none

def parseMiddle (midBits : Byte) : Reader MiddleOperand :=
  match middleMode midBits with
  | .none => pure .unused
  | mode => do
    let register1 ← readOperand "code"
    return { mode, register1 }

/-- `Opcode::try_from`. -/
def opcodeOf (b : Byte) : Option Opcode := if b.toNat ≤ 0xAF then some (.ofNat b.toNat) else none

def parseInstruction : Reader Instruction := do
  let opByte ← readByte "code"
  let opcode ← ofOption (.invalidOpcode opByte) (opcodeOf opByte)
  let addrCode ← readByte "code"
  let middle ← parseMiddle ((addrCode >>> 6) &&& 0x03)
  let source ← parseSrcDstOperand ((addrCode >>> 3) &&& 0x07)
  let destination ← parseSrcDstOperand (addrCode &&& 0x07)
  return { opcode, source, middle, destination }

def parseCode (count : Word) : Reader (List Instruction) := do
  times parseInstruction (← checkedCount count "code")

def parseType : Reader TypeDescriptor := do
  let id ← readOperand "type"
  let size ← readOperand "type"
  let mapInBytes ← readCount "type"
  let pointerMap ← readBytes mapInBytes "type"
  return { id, size, pointerMap, pointerCount := countPointers pointerMap }

def parseTypes (count : Word) : Reader (List TypeDescriptor) := do
  times parseType (← checkedCount count "type")

def readBig : Reader Big := do
  let hi ← readWordBe "data"
  let lo ← readWordBe "data"
  return hi ++ lo

/-- What follows the offset of a data item. A `real` is its bit pattern. -/
def parseValues (itemType : Byte) (count : Nat) (offset : Word) : Reader DataItem := do
  match itemType.toNat with
  | 1 => return .bytes offset (← readBytes count "data")
  | 2 => return .words offset (← times (readWordBe "data") count)
  | 3 => return .string offset (Utf8.fromLossy (← readBytes count "data"))
  | 4 => return .reals offset (← times readBig count)
  | 5 =>
    let elementType ← readWordBe "data"
    let length ← readWordBe "data"
    return .array offset elementType length
  | 6 => return .setArray offset (← readWordBe "data")
  | 7 => return .restoreBase
  | 8 => return .bigs offset (← times readBig count)
  | _ => throw (.invalidDataType itemType)

/-- A data item whose code is not the terminator. -/
def parseItem (code : Byte) : Reader DataItem := do
  let itemType := code >>> 4
  let inlineCount := (code &&& 0x0F).toNat
  let count ← (if inlineCount = 0 then readCount "data" else pure inlineCount)
  let offset ← readOperand "data"
  let offset ← checkedOffset offset "data"
  parseValues itemType count offset

/-- The data section, up to its terminator; every item takes a byte. -/
def parseItems : Nat → Reader (List DataItem)
  | 0 => diverge
  | fuel + 1 => do
    let code ← readByte "data"
    if code = 0 then return []
    else
      let item ← parseItem code
      let items ← parseItems fuel
      return item :: items

def parseData : Reader (List DataItem) := do
  let input ← get
  parseItems (input.length + 1)

def parseName : Reader String := readCString "module name"

def parseExport : Reader ExportEntry := do
  let pc ← readOperand "export"
  let frameType ← readOperand "export"
  let signature ← readWordBe "export"
  let name ← readCString "export"
  return { pc, frameType, signature, name }

def parseExports (count : Word) : Reader (List ExportEntry) := do
  times parseExport (← checkedCount count "export")

def parseImport : Reader ImportEntry := do
  let signature ← readWordBe "import"
  let name ← readCString "import"
  return { signature, name }

def parseImportModule : Reader ImportModule := do
  let functions ← times parseImport (← readCount "import")
  return { functions }

/-- The zero byte that ends an optional section. -/
def expectEnd (part : String) : Reader Unit := do
  let b ← readByte part
  if b = 0 then return ()
  else throw (.other s!"expected null byte at end of {part} section")

def parseImports : Reader (List ImportModule) := do
  let modules ← times parseImportModule (← readCount "import")
  expectEnd "import"
  return modules

/-- A case with an empty name is a wildcard. -/
def parseCase : Reader ExceptionCase := do
  let name ← readCString "handler"
  let pc ← readOperand "handler"
  return { name := if name.isEmpty then none else some name, pc }

def parseHandler : Reader Handler := do
  let exceptionOffset ← readOperand "handler"
  let beginPc ← readOperand "handler"
  let endPc ← readOperand "handler"
  let typeDescNumber ← readOperand "handler"
  let packedCases ← readOperand "handler"
  let cases ← times parseCase (packedCases &&& 0xFFFF).toNat
  let wildcardPc ← readOperand "handler"
  return {
    exceptionOffset, beginPc, endPc
    typeDescriptor := if typeDescNumber = -1 then none else some typeDescNumber
    cases := cases ++ [⟨none, wildcardPc⟩] }

def parseHandlers : Reader (List Handler) := do
  let handlers ← times parseHandler (← readCount "handler")
  expectEnd "handler"
  return handlers

/-! The checks on a decoded module. The lengths of its sections are host words cut to 32 bits. -/

def codeLen (m : Module) : Int := (Word.ofUsize m.code.length).toInt
def typeLen (m : Module) : Int := (Word.ofUsize m.types.length).toInt

def invalid (msg : String) : Except LoadError Unit := .error (.validationError msg)

def validateEntry (m : Module) : Except LoadError Unit := do
  let pc := m.header.entryPc.toInt
  if pc ≠ -1 ∧ (pc < 0 ∨ codeLen m ≤ pc) then
    invalid s!"entry_pc {pc} is out of bounds (code size {codeLen m})"
  let type := m.header.entryType.toInt
  if type ≠ -1 ∧ 0 < typeLen m ∧ (type < 0 ∨ typeLen m ≤ type) then
    invalid s!"entry_type {type} is out of bounds (type count {typeLen m})"
  if m.header.hasFlag .MUST_COMPILE ∧ m.header.hasFlag .DONT_COMPILE then
    invalid "MUST_COMPILE and DONT_COMPILE flags are both set"

def validateExport (m : Module) (i : Nat) (exp : ExportEntry) : Except LoadError Unit := do
  let pc := exp.pc.toInt
  if 0 ≤ pc ∧ codeLen m ≤ pc then
    invalid (s!"export[{i}] " ++ "'" ++ exp.name ++ "'" ++
      s!" has pc {pc} out of bounds (code size {codeLen m})")
  let type := exp.frameType.toInt
  if 0 ≤ type ∧ 0 < typeLen m ∧ typeLen m ≤ type then
    invalid (s!"export[{i}] " ++ "'" ++ exp.name ++ "'" ++
      s!" has frame_type {type} out of bounds (type count {typeLen m})")

/-- Only the last case may have no landing pc. -/
def validateCase (m : Module) (i last j : Nat) (case : ExceptionCase) : Except LoadError Unit :=
  let pc := case.pc.toInt
  if j = last ∧ pc = -1 then .ok ()
  else if pc < 0 ∨ codeLen m ≤ pc then
    invalid s!"handler[{i}] case[{j}] pc {pc} out of bounds (code size {codeLen m})"
  else .ok ()

/-- Check the elements of a list with their indices. -/
def checkEach {α : Type} (check : Nat → α → Except LoadError Unit) :
    Nat → List α → Except LoadError Unit
  | _, [] => .ok ()
  | i, a :: as => do
    check i a
    checkEach check (i + 1) as

def validateHandler (m : Module) (i : Nat) (h : Handler) : Except LoadError Unit := do
  let beginPc := h.beginPc.toInt
  let endPc := h.endPc.toInt
  if beginPc < 0 ∨ codeLen m ≤ beginPc then
    invalid s!"handler[{i}] begin_pc {beginPc} out of bounds"
  if endPc < 0 ∨ codeLen m < endPc then
    invalid s!"handler[{i}] end_pc {endPc} out of bounds"
  if endPc ≤ beginPc then
    invalid s!"handler[{i}] begin_pc {beginPc} >= end_pc {endPc}"
  match h.typeDescriptor with
  | some td =>
    if m.types.length ≤ td.toNat then
      invalid s!"handler[{i}] type_descriptor {td.toNat} out of bounds (type count {typeLen m})"
  | none => pure ()
  checkEach (validateCase m i (h.cases.length - 1)) 0 h.cases

def validateModule (m : Module) : Except LoadError Unit := do
  validateEntry m
  checkEach (validateExport m) 0 m.exports
  checkEach (validateHandler m) 0 m.handlers

def parseModule : Reader Module := do
  let header ← parseHeader
  let code ← parseCode header.codeSize
  let types ← parseTypes header.typeSize
  let data ← parseData
  let name ← parseName
  let exports ← parseExports header.exportSize
  let imports ← (if header.hasFlag .HAS_IMPORT then parseImports else pure [])
  let handlers ← (if header.hasFlag .HAS_HANDLER then parseHandlers else pure [])
  let module : Module := { header, code, types, data, name, exports, imports, handlers }
  ofExcept (validateModule module)
  return module

end Loader

/-- Decode the complete contents of a `.dis` file; none would be a loader that never returns. -/
def load (bytes : List Byte) : Option (Except LoadError Module) :=
  if bytes.isEmpty then some (.error (.unexpectedEof "header"))
  else
    match Loader.parseModule bytes with
    | .ok module _ => some (.ok module)
    | .error e _ => some (.error e)
    | .panic | .diverge => none

namespace Loader

/-! The loader ends on every input. -/

end Loader

end RiceVM
