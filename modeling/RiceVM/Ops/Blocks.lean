import RiceVM.Ops.Data

/-!
Block moves. A block goes from one location to another, into the head of a new list or out of
the head of a list; the typed forms count the pointers among its words.
-/
namespace RiceVM.Ops
open Exec Memory Buffer

/-- The bytes at a location: a frame gives what it has, the others all of the block or zeros. -/
def readBlock (vm : VmState) (target : AddrTarget) (size : Nat) : List Byte :=
  match target with
  | .heapArray id offset => (vm.heap.heapSlice id offset size).getD (List.replicate size 0)
  | .frame off => padded 0 vm.frames.data off size
  | _ =>
    match vm.buffer? target with
    | some (buf, off) =>
      if off + size ≤ buf.length then slice buf off size else List.replicate size 0
    | none => List.replicate size 0

/-- Overwrite a range that lies inside the buffer; drop the write where it does not. -/
def writeFitting (data : List Byte) (buf : List Byte) (off : Nat) : List Byte :=
  if off + data.length ≤ buf.length then splice buf off data else buf

/-- Store a block: a frame takes what it has room for, the others all of it or nothing. -/
def writeBlock (target : AddrTarget) (data : List Byte) (vm : VmState) : VmState :=
  match target with
  | .heapArray id offset => { vm with heap := vm.heap.heapWrite id offset data }
  | .frame _ => vm.modifyBuffer target fun buf off => overlay buf off data
  | _ => vm.modifyBuffer target (writeFitting data)

/-- `incmem`: take a reference for every pointer a copy duplicates. -/
def acquirePointers (block : List Byte) (offsets : List Nat) (h : Heap) : Option Heap :=
  offsets.foldlM (fun h offset =>
    let id : HeapId := readWord block offset
    if heapIdBase ≤ id ∧ h.contains id then h.incRef id else some h) h

/-- `freeptrs`: release the pointers a copy overwrites. -/
def releasePointers (block : List Byte) (offsets : List Nat) (h : Heap) : Heap :=
  offsets.foldl (fun h offset =>
    let id : HeapId := readWord block offset
    if heapIdBase ≤ id ∧ h.contains id then h.decRef id else h) h

def opMovm : VM Unit := do
  let size := (← midWord).asUsize
  if size = 0 then return
  else
    let _ ← unwrap (zeroed size)
    modify fun vm => writeBlock vm.dst (readBlock vm vm.src size) vm

/-- The size of a type; an index of no type is a number of bytes. -/
def blockSize (vm : VmState) (typeIdx : Nat) : Nat := (vm.currentTypeSize typeIdx).getD typeIdx

def opMovmp : VM Unit := do
  let typeIdx := (← midWord).asUsize
  let vm ← get
  let size := blockSize vm typeIdx
  if size = 0 then return
  else
    let _ ← unwrap (zeroed size)
    let srcBytes := readBlock vm vm.src size
    let dstBytes := readBlock vm vm.dst size
    match vm.traceMapForType typeIdx with
    | some ptrMap =>
      tryHeap (acquirePointers srcBytes (ptrMap.pointerOffsets size))
      modifyHeap (releasePointers dstBytes (ptrMap.pointerOffsets size))
    | none => pure ()
    modify (writeBlock vm.dst srcBytes)

/-! Lists. -/

/-- No element of a list is larger. -/
def maxConsBytes : Nat := 2 ^ 20

/-- A location as the derived `Debug` writes it. -/
def debugTarget : AddrTarget → String
  | .frame off => s!"Frame({off})"
  | .mp off => s!"Mp({off})"
  | .moduleMp moduleIdx offset =>
    "ModuleMp \x7b module_idx: " ++ toString moduleIdx ++ ", offset: " ++ toString offset ++ " \x7d"
  | .immediate => "Immediate"
  | .none => "None"
  | .heapArray id offset =>
    "HeapArray \x7b id: " ++ toString id.toNat ++ ", offset: " ++ toString offset ++ " \x7d"

/-- The bytes that become the head of a list. -/
def readConsHead (vm : VmState) (size : Nat) : Except ExecError (List Byte) :=
  let block (buf : List Byte) (off : Nat) : Except ExecError (List Byte) :=
    if off + size ≤ buf.length then .ok (slice buf off size)
    else .error (.threadFault
      s!"cons source out of bounds: {size} bytes at {debugTarget vm.src}")
  match vm.src with
  | .frame off => block vm.frames.data off
  | .mp off => block vm.mp off
  | .moduleMp moduleIdx offset =>
    match vm.moduleMp moduleIdx with
    | some mp => block mp offset
    | none => .ok (List.replicate size 0)
  | .immediate =>
    .ok (if 4 ≤ size then writeWord (List.replicate size 0) 0 vm.immSrc
      else if 1 ≤ size then writeByte (List.replicate size 0) 0 (vm.immSrc.setWidth 8)
      else [])
  | .none => .ok (List.replicate size 0)
  | .heapArray id offset =>
    .ok ((vm.heap.heapSlice id offset size).getD (List.replicate size 0))

def consBytes (size : Nat) : VM Unit := do
  let tailId ← dstPtr
  let vm ← get
  let head ← ofExcept (readConsHead vm size)
  tryHeap (·.incRef tailId)
  let listId ← alloc 0 (.list head tailId)
  let oldId ← dstPtr
  setDstPtr listId
  modifyHeap (·.decRef oldId)

def opConsm : VM Unit := do
  let size ← midWord
  if size.msb then throw (.threadFault s!"consm: negative block size: {size.toInt}")
  else if maxConsBytes < size.asUsize then
    throw (.threadFault s!"consm: block size too large: {size.asUsize}")
  else consBytes size.asUsize

def opConsmp : VM Unit := do
  let typeIdx := (← midWord).asUsize
  let vm ← get
  let size := blockSize vm typeIdx
  if maxConsBytes < size then throw (.threadFault s!"consmp: block size too large: {size}")
  else
    match vm.traceMapForType typeIdx with
    | some ptrMap =>
      let head ← ofExcept (readConsHead vm size)
      tryHeap (acquirePointers head (ptrMap.pointerOffsets size))
    | none => pure ()
    consBytes size

def headRead (vm : VmState) (listId : HeapId) : Except ExecError (List Byte) :=
  if listId = nil then .ok []
  else
    match (vm.heap.get listId).map HeapObject.data with
    | none => .error (.threadFault s!"head of a released list (id {listId.toNat})")
    | some (.list head _) => .ok head
    | some _ => .error (.threadFault "head on non-list")

/-- Copy the head of a list to the frame stack or to a module's data. -/
def opHeadm : VM Unit := do
  let listId ← srcPtr
  let vm ← get
  let head ← ofExcept (headRead vm listId)
  modify fun vm => vm.modifyBuffer vm.dst (writeFitting head)

/-- The block a copied head overwrites, where a head is copied at all. -/
def readDstBlock (size : Nat) : VM (Option (List Byte)) := do
  let vm ← get
  let block (buf : List Byte) (off : Nat) : VM (Option (List Byte)) :=
    if off + size ≤ buf.length then return some (slice buf off size)
    else return some (← unwrap (zeroed size))
  match vm.dst with
  | .frame off => block vm.frames.data off
  | .mp off => block vm.mp off
  | .moduleMp moduleIdx offset =>
    match vm.moduleMp moduleIdx with
    | some mp => block mp offset
    | none => return some (← unwrap (zeroed size))
  | _ => return none

def opHeadmp : VM Unit := do
  let typeIdx := (← midWord).asUsize
  let vm ← get
  let size := blockSize vm typeIdx
  match vm.traceMapForType typeIdx with
  | some ptrMap =>
    match ← readDstBlock size with
    | some overwritten =>
      let listId ← srcPtr
      let head ← ofExcept (headRead vm listId)
      -- only the words the copy moves change hands
      let moved := (ptrMap.pointerOffsets size).filter (· + 4 ≤ head.length)
      tryHeap (acquirePointers head moved)
      modifyHeap (releasePointers overwritten moved)
    | none => pure ()
  | none => pure ()
  opHeadm

end RiceVM.Ops
