import RiceVM.Ops.Data

/-!
Addresses, array elements and array slices. An address in the heap does not fit in a word; its
instructions keep it in the thread's table of heap references and hand out its index there.
-/
namespace RiceVM.Ops
open Exec Memory Buffer

/-- Marks an index into the table of heap references. -/
def heapRefFlag : Word := 0x80000000

/-- The virtual address of a place in the data of a module. -/
def encodeMpAddr (moduleIdx offset : Nat) : Except ExecError Word :=
  if maxModules ≤ moduleIdx then .error (.other s!"lea: module index out of range: {moduleIdx}")
  else if mpStride ≤ offset then .error (.other s!"lea: mp offset out of range: {offset}")
  else .ok (.ofUsize (mpBase + moduleIdx * mpStride + offset))

/-- A new entry in the table of heap references, and the word that names it. -/
def pushHeapRef (id : HeapId) (offset : Nat) : VM Word := do
  let vm ← get
  set { vm with heapRefs := vm.heapRefs ++ [(id, offset)] }
  return heapRefFlag ||| .ofUsize vm.heapRefs.length

/-- The word `lea` stores. -/
def leaAddr : VM Word := do
  let vm ← get
  match vm.src with
  | .frame off => return .ofUsize off
  | .mp off => ofExcept (encodeMpAddr vm.currentModuleVirtIdx off)
  | .moduleMp moduleIdx offset => ofExcept (encodeMpAddr moduleIdx offset)
  | .heapArray id offset => pushHeapRef id offset
  | .immediate => return vm.immSrc
  | .none => return 0

def opLea : VM Unit := do setDstWord (← leaAddr)

/-- The address of an element; an element of a slice is one of the array behind it. -/
def opIndx : VM Unit := do
  let arrId ← srcPtr
  let rawIndex ← dstWord
  if rawIndex.msb then throw (.threadFault s!"array index negative: {rawIndex.toInt}")
  else
    let index := rawIndex.asUsize
    let vm ← get
    match (vm.heap.get arrId).map HeapObject.data with
    | none => raiseException "nil dereference"
    | some (.array _ elemSize _ length) =>
      if length ≤ index then
        throw (.threadFault s!"array index out of bounds: {index} >= {length}")
      else
        let encoded ← pushHeapRef arrId (index * elemSize)
        writeWordAt vm.mid encoded
    | some (.arraySlice parentId byteStart _ elemSize length) =>
      if length ≤ index then
        throw (.threadFault s!"array index out of bounds: {index} >= {length}")
      else
        let encoded ← pushHeapRef parentId (byteStart + index * elemSize)
        writeWordAt vm.mid encoded
    | some _ => throw (.threadFault "indx on non-array")

def opIndw : VM Unit := opIndx
def opIndf : VM Unit := opIndx
def opIndb : VM Unit := opIndx
def opIndl : VM Unit := opIndx

def opLena : VM Unit := do
  let arrId ← srcPtr
  let vm ← get
  setDstWord (match (vm.heap.get arrId).map HeapObject.data with
    | some (.array _ _ _ length) | some (.arraySlice _ _ _ _ length) => .ofUsize length
    | _ => 0)

/-- `raw.max(0) as usize`: a negative bound counts as zero. -/
def clampIndex (raw : Word) : Nat := raw.toInt.toNat

/-- An array as slices see it: the array that holds the bytes, the first of them, the type and
the size of an element and the number of elements. -/
structure ArrayView where
  rootId : HeapId
  byteStart : Nat
  elemType : BitVec 32
  elemSize : Nat
  length : Nat
  deriving DecidableEq, Repr

/-- The view an object is: all of an array, or the part a slice names. -/
def viewOf (id : HeapId) : HeapData → Option ArrayView
  | .array elemType elemSize _ length => some ⟨id, 0, elemType, elemSize, length⟩
  | .arraySlice parentId byteStart elemType elemSize length =>
    some ⟨parentId, byteStart, elemType, elemSize, length⟩
  | _ => none

/-- Replace the array in the destination by a part of it. -/
def opSlicea : VM Unit := do
  let start := clampIndex (← srcWord)
  let stop := clampIndex (← midWord)
  let arrId ← dstPtr
  if arrId = nil then
    if start = 0 ∧ stop = 0 then return
    else throw (.threadFault "slice of nil array")
  else
    let vm ← get
    let obj ← ofOption (.threadFault "slicea: invalid array") (vm.heap.get arrId)
    let view ← ofOption (.threadFault "slicea on non-array") (viewOf arrId obj.data)
    if view.length < stop ∨ stop < start then
      throw (.threadFault
        s!"array slice out of bounds: [{start}..{stop}] for length {view.length}")
    else
      let newId ← alloc view.elemType (.arraySlice view.rootId
        (view.byteStart + start * view.elemSize) view.elemType view.elemSize (stop - start))
      tryHeap (·.incRef view.rootId)
      setDstPtr newId
      modifyHeap (·.decRef arrId)

/-- The ids of live objects among the words of a buffer. -/
def liveWords (h : Heap) (buf : List Byte) (offsets : List Nat) : List HeapId :=
  ((offsets.filter (· + 4 ≤ buf.length)).map (readWord buf)).filter h.contains

/-- The pointers among `n` elements: those of the map of the array or, where a one word element
has no map, every word. -/
def pointerSlots (trace : Option TraceMap) (elemSize n : Nat) : List Nat :=
  match trace with
  | some map => map.pointerOffsets (n * elemSize)
  | none => if elemSize = 4 then (List.range n).map (· * 4) else []

/-- The bytes, the number of elements and the element size of an array to copy from. -/
def sliceSource (h : Heap) : HeapData → Option (List Byte × Nat × Nat)
  | .array _ elemSize data length => some (data, length, elemSize)
  | .arraySlice parentId byteStart _ elemSize length =>
    some ((h.arrayRead parentId byteStart (length * elemSize)).getD [], length, elemSize)
  | _ => none

/-- The array to copy to, where in it the destination begins, and how many elements that has. -/
def sliceTarget (h : Heap) (dstId : HeapId) : Option (HeapId × Nat × Nat) :=
  match (h.get dstId).map HeapObject.data with
  | none => some (dstId, 0, 0)
  | some (.arraySlice parentId byteStart _ _ length) => some (parentId, byteStart, length)
  | some (.array _ _ _ length) => some (dstId, 0, length)
  | some _ => none

/-- The bytes of an array, none of anything else. -/
def arrayData (h : Heap) (id : HeapId) : List Byte :=
  match (h.get id).map HeapObject.data with
  | some (.array _ _ data _) => data
  | _ => []

/-- Copy bytes into an array from `copyStart` on, as far as it reaches; an array that holds fewer
elements than `written` grows in length. -/
def copyInto (copyStart : Nat) (bytes : List Byte) (written : Nat) (obj : HeapObject) :
    HeapObject :=
  match obj.data with
  | .array elemType elemSize data length =>
    let data := overlay data (min copyStart data.length) bytes
    { obj with data := .array elemType elemSize data (max written length) }
  | _ => obj

/-- Copy an array over part of another. -/
def opSlicela : VM Unit := do
  let srcId ← srcPtr
  let insertPos := clampIndex (← midWord)
  let dstId ← dstPtr
  if srcId = nil then return
  else
    let vm ← get
    let obj ← ofOption (.threadFault "slicela: invalid src array") (vm.heap.get srcId)
    let (srcData, srcLen, elemSize) ← ofOption (.threadFault "slicela: src not an array")
      (sliceSource vm.heap obj.data)
    let (realDstId, dstByteOffset, dstLen) ← ofOption (.threadFault "slicela: dst not an array")
      (sliceTarget vm.heap dstId)
    if dstLen < insertPos + srcLen then
      throw (.threadFault
        s!"array slice out of bounds: [{insertPos}..{insertPos + srcLen}] for length {dstLen}")
    else
      let slots := pointerSlots ((vm.heap.get realDstId).bind (·.trace)) elemSize srcLen
      let copyStart := dstByteOffset + insertPos * elemSize
      let oldPtrs := liveWords vm.heap (arrayData vm.heap realDstId) (slots.map (copyStart + ·))
      let newPtrs := liveWords vm.heap srcData slots
      -- only a copy into the array itself, not into a slice of it, sets its length
      modifyHeap (·.update realDstId (copyInto copyStart (srcData.take (srcLen * elemSize))
        (if dstByteOffset = 0 then insertPos + srcLen else 0)))
      tryHeap fun h => newPtrs.foldlM Heap.incRef h
      modifyHeap fun h => oldPtrs.foldl Heap.decRef h

end RiceVM.Ops
