import RiceVM.Ops.Blocks
import RiceVM.Ops.Convert

/-!
Lists. A cell holds the bytes of one element and the id of the next cell; the instructions put an
element in front, read the first one, step to the rest and count.
-/
namespace RiceVM.Ops
open Exec Memory

def setDstByte (val : Byte) : VM Unit := do
  let vm ← get
  writeByteAt vm.dst val

def setDstReal (val : BitVec 64) : VM Unit := do
  let vm ← get
  writeRealAt vm.dst val

def opConsb : VM Unit := consBytes 1

def opConsw : VM Unit := consBytes 4

def opConsf : VM Unit := consBytes 8

def opConsl : VM Unit := consBytes 8

/-- The head is a pointer, and the cell a reference to what it names. -/
def opConsp : VM Unit := do
  let ptrId ← srcPtr
  let tailId ← dstPtr
  tryHeap (·.incRef ptrId)
  tryHeap (·.incRef tailId)
  let listId ← alloc 0 (.list (writeWord (List.replicate 4 0) 0 ptrId) tailId)
  let oldId ← dstPtr
  setDstPtr listId
  modifyHeap (·.decRef oldId)

def opHeadb : VM Unit := do
  let listId ← srcPtr
  let vm ← get
  let head ← ofExcept (headRead vm listId)
  setDstByte (head.headD 0)

/-- A head that is too short for its value reads as zero. -/
def headValue {n : Nat} (read : List Byte → Nat → BitVec n) (size : Nat) (head : List Byte) :
    BitVec n :=
  if size ≤ head.length then read head 0 else 0

def opHeadw : VM Unit := do
  let listId ← srcPtr
  let vm ← get
  let head ← ofExcept (headRead vm listId)
  setDstWord (headValue readWord 4 head)

def opHeadf : VM Unit := do
  let listId ← srcPtr
  let vm ← get
  let head ← ofExcept (headRead vm listId)
  setDstReal (headValue readBig 8 head)

def opHeadl : VM Unit := do
  let listId ← srcPtr
  let vm ← get
  let head ← ofExcept (headRead vm listId)
  setDstBig (headValue readBig 8 head)

def opHeadp : VM Unit := do
  let listId ← srcPtr
  let vm ← get
  let head ← ofExcept (headRead vm listId)
  movePtrToDst (if 4 ≤ head.length then readWord head 0 else nil)

def opTail : VM Unit := do
  let listId ← srcPtr
  if listId = nil then movePtrToDst nil
  else
    let vm ← get
    match (vm.heap.get listId).map HeapObject.data with
    | none => throw (.threadFault "nil list dereference (tail)")
    | some (.list _ tail) => movePtrToDst tail
    | some _ => throw (.threadFault "tail on non-list")

/-- The loop of `lenl`, with fuel for every cell of the heap: with more steps than that it is in
a cycle. -/
def lenlLoop (h : Heap) : Nat → HeapId → Word → VM Word
  | 0, _, _ => diverge
  | fuel + 1, listId, len =>
    if listId = nil then return len
    else
      match (h.get listId).map HeapObject.data with
      | none => throw (.threadFault "nil list dereference (lenl)")
      | some (.list _ tail) => lenlLoop h fuel tail (len + 1)
      | some _ => throw (.threadFault "lenl on non-list")

def opLenl : VM Unit := do
  let listId ← srcPtr
  let vm ← get
  setDstWord (← lenlLoop vm.heap (vm.heap.objects.entries.length + 1) listId 0)

end RiceVM.Ops
