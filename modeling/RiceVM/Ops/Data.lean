import RiceVM.Data
import RiceVM.Env

/-!
Moves, allocation and the straight-line control instructions.
-/
namespace RiceVM.Ops
open Exec Memory

def opMovw : VM Unit := do setDstWord (← srcWord)

def opMovb : VM Unit := do
  let vm ← get
  writeByteAt vm.dst (vm.readByteAt vm.src vm.immSrc)

def opMovf : VM Unit := do
  let vm ← get
  writeRealAt vm.dst (vm.readRealAt vm.src vm.immSrc)

def opMovl : VM Unit := do
  let vm ← get
  writeBigAt vm.dst (vm.readBigAt vm.src vm.immSrc)

def opMovp : VM Unit := do movePtrToDst (← srcPtr)

def opMovpc : VM Unit := do setDstWord (← srcWord)

/-- A reference to the executing module that maps no imports. -/
def opSelf : VM Unit := do
  let vm ← get
  let data := match vm.currentLoadedModule with
    | some moduleIdx => HeapData.loadedModule moduleIdx []
    | none => .mainModule []
  movePtrToDst (← alloc 0 data)

def opNew : VM Unit := do
  let typeIdx := (← srcWord).asUsize
  let vm ← get
  let size ← ofOption (.other s!"invalid type index: {typeIdx}") (vm.currentTypeSize typeIdx)
  let data ← unwrap (zeroed size)
  movePtrToDst (← allocTyped (BitVec.ofNat 32 typeIdx) (.record data)
    (vm.traceMapForType typeIdx))

def opNewa : VM Unit := do
  let rawLength ← srcWord
  if rawLength.msb then raiseException "negative array size"
  else
    let length := rawLength.asUsize
    let elemTypeIdx := (← midWord).asUsize
    let vm ← get
    let elemSize ← ofOption (.other s!"invalid element type index: {elemTypeIdx}")
      (vm.currentTypeSize elemTypeIdx)
    if length * elemSize ≤ maxArrayBytes then
      let typeId := BitVec.ofNat 32 elemTypeIdx
      movePtrToDst (← allocTyped typeId
        (.array typeId elemSize (List.replicate (length * elemSize) 0) length)
        (vm.traceMapForType elemTypeIdx))
    else raiseException "out of memory: heap"

def allocChannel (elemSize : Nat) : VM Unit := do
  movePtrToDst (← alloc 0 (.channel elemSize none))

def opNewcb : VM Unit := allocChannel 1
def opNewcw : VM Unit := allocChannel 4
def opNewcf : VM Unit := allocChannel 8
def opNewcp : VM Unit := allocChannel 4
def opNewcl : VM Unit := allocChannel 8

/-- The element size comes from a type; one word where there is no such type. -/
def opNewcm : VM Unit := do
  let typeIdx := (← srcWord).asUsize
  let vm ← get
  allocChannel ((vm.currentTypeSize typeIdx).getD 4)

def opNewcmp : VM Unit := opNewcm

def opExit : VM Unit := modify fun vm => { vm with halted := true }
def opBrkpt : VM Unit := modify fun vm => { vm with halted := true }

def opJmp : VM Unit := do
  let target ← dstWord
  modify fun vm => { vm with nextPc := target.asUsize }

def opFrame : VM Unit := do
  let typeIdx := (← srcWord).asUsize
  let vm ← get
  let frameSize ← ofOption (.other s!"invalid type index: {typeIdx}")
    (vm.currentTypeSize typeIdx)
  let (off, frames) ← ofExcept (vm.frames.allocPending frameSize)
  set { vm with
    frames := { frames with data := writeWord frames.data (off - 8) (Word.ofUsize typeIdx) } }
  setDstWord (Word.ofUsize off)

def opCall : VM Unit := do
  let frameDataOffset := (← srcWord).asUsize
  let targetPc := (← dstWord).asUsize
  let vm ← get
  let frames ← ofExcept (vm.frames.activatePending frameDataOffset (Word.ofUsize vm.nextPc))
  set { vm with frames := frames, nextPc := targetPc }

def opRet : VM Unit := do
  let vm ← get
  let (prevPc, frames) ← ofExcept vm.frames.pop
  if prevPc.msb then set { vm with frames := frames, halted := true }
  else set { vm with frames := frames, nextPc := prevPc.asUsize }

/-- A computed jump through a table in frame or module memory. -/
def opGoto : VM Unit := do
  let index := (← srcWord).asUsize
  let vm ← get
  let target := match vm.dst with
    | .frame off => readWord vm.frames.data (off + index * 4)
    | .mp off => readWord vm.mp (off + index * 4)
    | _ => vm.readWordAt vm.dst vm.immDst
  set { vm with nextPc := target.asUsize }

def opRaise : VM Unit := do
  let strId ← srcPtr
  let vm ← get
  raiseExceptionWithValue ((vm.heap.getString strId).getD "unknown exception") strId

/-- An instruction known by its effects only. -/
def opCompute (env : Env) (op : Opcode) : VM Unit := do
  let vm ← get
  let (effects, outcome) := env.compute op vm
  Effect.applyAll effects
  outcome.run

end RiceVM.Ops
