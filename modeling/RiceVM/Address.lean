import RiceVM.Frame
import RiceVM.Heap

/-!
Operand addresses. An address word is a frame offset, an offset into the data of
some module, a heap id or, with its top bit set, an index into the thread's
table of heap references.
-/
namespace RiceVM
open Memory

inductive AddrTarget where
  | frame (off : Nat)
  /-- Data of the module that is executing. -/
  | mp (off : Nat)
  /-- Data of a module by virtual index: 0 is the main module. -/
  | moduleMp (moduleIdx offset : Nat)
  | immediate
  | none
  | heapArray (id : HeapId) (offset : Nat)
  deriving DecidableEq, Repr

def offsetOperand (reg : Word) (what : String) : Except ExecError Nat :=
  match reg.toUsize? with
  | some off => .ok off
  | Option.none => .error (.other s!"negative {what} offset: {reg.toInt}")

def frameAddr (fpBase : Nat) (reg : Word) : Except ExecError Nat := do
  let off ← offsetOperand reg "frame"
  if fpBase + off < mpBase then .ok (fpBase + off)
  else .error (.other s!"frame offset out of range: {reg.toInt}")

/-- Index into the heap reference table of a word whose top bit is set. -/
def heapRefIdx (w : Word) : Nat := (w &&& 0x7fffffff).toNat

def decodeVirtualAddr (addr : Word) (register2 : Nat) : AddrTarget :=
  if addr = 0 then .none
  else if addr.msb then .none
  else
    let uaddr := addr.toNat
    if heapIdBase.toNat ≤ uaddr then .heapArray addr register2
    else if mpLimit ≤ uaddr then .none
    else if mpBase ≤ uaddr then
      let moduleIdx := (uaddr - mpBase) / mpStride
      let offset := (uaddr - mpBase) % mpStride + register2
      -- an offset past the stride would name the next module's data
      if offset < mpStride then .moduleMp moduleIdx offset else .none
    else if uaddr + register2 < mpBase then .frame (uaddr + register2) else .none

/-- What a pointer read by a double-indirect operand denotes. -/
def derefTarget (heapRefs : List (HeapId × Nat)) (baseVal : Word) (register2 : Nat) :
    AddrTarget :=
  if baseVal = 0 then .none
  else if baseVal.msb then
    match heapRefs[heapRefIdx baseVal]? with
    | some (id, byteOffset) => .heapArray id (byteOffset + register2)
    | Option.none => decodeVirtualAddr baseVal register2
  else decodeVirtualAddr baseVal register2

def resolveOperand (op : Operand) (fpBase : Nat) (stackData mpData : List Byte)
    (heapRefs : List (HeapId × Nat)) : Except ExecError AddrTarget :=
  match op.mode with
  | .offsetIndirectFp => do return .frame (← frameAddr fpBase op.register1)
  | .offsetIndirectMp => do return .mp (← offsetOperand op.register1 "mp")
  | .immediate => .ok .immediate
  | .none => .ok .none
  | .offsetDoubleIndirectFp => do
    let baseAddr ← frameAddr fpBase op.register1
    let register2 ← offsetOperand op.register2 "indirect"
    return derefTarget heapRefs (readWord stackData baseAddr) register2
  | .offsetDoubleIndirectMp => do
    let baseOff ← offsetOperand op.register1 "mp"
    let register2 ← offsetOperand op.register2 "indirect"
    -- a small address found in module data is an offset into that data
    match derefTarget heapRefs (readWord mpData baseOff) register2 with
    | .frame off => return .mp off
    | decoded => return decoded
  | .reserved1 | .reserved2 => .error (.other "reserved address mode")

def resolveMiddle (op : MiddleOperand) (fpBase : Nat) : Except ExecError AddrTarget :=
  match op.mode with
  | .none => .ok .none
  | .smallImmediate => .ok .immediate
  | .smallOffsetFp => do return .frame (← frameAddr fpBase op.register1)
  | .smallOffsetMp => do return .mp (← offsetOperand op.register1 "mp")

end RiceVM
