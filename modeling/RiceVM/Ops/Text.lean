import RiceVM.Ops.Strings
import RiceVM.Ops.Control
import RiceVM.Lib.Utf8

/-!
Strings as sequences of characters: length, indexing, concatenation and slices, and their
conversion to arrays of bytes and back. Nil is the empty string.
-/
namespace RiceVM.Ops
open Exec Utf8

def midPtr : VM HeapId := midWord

def opLenc : VM Unit := do
  let strId ← srcPtr
  let vm ← get
  setDstWord (((vm.heap.getString strId).map fun s => BitVec.ofNat 32 s.length).getD 0)

def opIndc : VM Unit := do
  let strId ← srcPtr
  let index := (← midWord).asUsize
  let vm ← get
  match vm.heap.getString strId with
  | none => raiseException "nil dereference"
  | some s =>
    match s.toList[index]? with
    | none => raiseException "string index out of bounds"
    | some c => setDstWord c.val.toBitVec

/-- Store the id of a string that the destination alone refers to. -/
def storeString (newId : HeapId) : VM Unit := do
  let oldDst ← dstPtr
  setDstPtr newId
  modifyHeap (·.decRef oldDst)

def midOrDstPtr : VM HeapId := do
  let vm ← get
  if vm.mid = .none then dstPtr else midPtr

/-- `dst = mid + src`, or `dst = dst + src` where there is no middle operand. -/
def opAddc : VM Unit := do
  let s2Id ← srcPtr
  let s1Id ← midOrDstPtr
  let vm ← get
  let s1 := vm.heap.getString s1Id
  let s2 := vm.heap.getString s2Id
  if s1.isNone && s2.isNone then storeString nil
  else storeString (← alloc 0 (.str (s1.getD "" ++ s2.getD "")))

/-- The characters of a string from one place up to another. -/
def sliceString (s : String) (start stop : Nat) : String :=
  String.ofList ((s.toList.drop start).take (stop - start))

def opSlicec : VM Unit := do
  let start := (← srcWord).asUsize
  let stop := (← midWord).asUsize
  let strId ← dstPtr
  if strId = nil then
    if start = 0 ∧ stop = 0 then return
    else throw (.threadFault "slice of nil string")
  else
    let vm ← get
    let s ← ofOption (.threadFault "slicec on non-string") (vm.heap.getString strId)
    if stop < start ∨ s.length < stop then
      throw (.threadFault s!"string slice out of bounds: [{start}..{stop}] len={s.length}")
    else if stop - start = 0 then storeString nil
    else storeString (← alloc 0 (.str (sliceString s start stop)))

def opCvtca : VM Unit := do
  let strId ← srcPtr
  let vm ← get
  let bytes := ((vm.heap.getString strId).map asBytes).getD []
  movePtrToDst (← alloc 0 (.array 0 1 bytes bytes.length))

/-- The text of an array of bytes, or of a slice of one. -/
def arrayText (h : Heap) (arrId : HeapId) : String :=
  match (h.get arrId).map HeapObject.data with
  | some (.array _ _ data _) => fromLossy data
  | some (.arraySlice parentId byteStart _ elemSize length) =>
    ((h.arrayRead parentId byteStart (length * elemSize)).map fromLossy).getD ""
  | _ => ""

def opCvtac : VM Unit := do
  let arrId ← srcPtr
  if arrId = nil then movePtrToDst nil
  else
    let vm ← get
    movePtrToDst (← alloc 0 (.str (arrayText vm.heap arrId)))

end RiceVM.Ops
