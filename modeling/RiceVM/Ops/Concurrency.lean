import RiceVM.Ops.Control

/-!
Threads and channels. A channel holds one value; an operation that cannot go on
sets `blockedChannel` and is executed again once another thread's operation on
the channel has unblocked its thread.
-/
namespace RiceVM

/-- Fill a channel's slot and wake its waiters. -/
def VmState.putChannel (chanId : HeapId) (value : List Byte) (vm : VmState) :
    VmState :=
  ({ vm with heap := vm.heap.setPending chanId (some value) }.record
    (.put chanId value)).unblockChannel chanId

/-- Empty a channel's slot and wake its waiters. -/
def VmState.takeChannel (chanId : HeapId) (value : List Byte) (vm : VmState) :
    VmState :=
  ({ vm with heap := vm.heap.setPending chanId none }.record
    (.took chanId value)).unblockChannel chanId

namespace VmState

/-- A thread of the executing module, with a copy of its data. -/
def newThread (vm : VmState) (frames : FrameStack) (pc : Nat) : SuspendedThread :=
  { frames := frames, mp := vm.mp, pc := pc, pid := vm.nextPid, heapRefs := []
    lastError := "", currentLoadedModule := vm.currentLoadedModule
    callerMpStack := vm.callerMpStack, blockedOn := none, thread := vm.nextPid }

def enqueue (t : SuspendedThread) (vm : VmState) : VmState :=
  { vm with threadQueue := vm.threadQueue ++ [t] }.record (.spawned t.thread t.ctx)

end VmState

namespace Ops
open Exec Memory Buffer

/-- Take a reference for every heap id in a copy of module data. -/
def retainAll (mp : List Byte) (heap : Heap) : Option Heap :=
  ((List.range (mp.length / 4)).map fun i => readWord mp (i * 4)).foldlM
    (fun heap val => if heapIdBase ≤ val ∧ heap.contains val then heap.incRef val else some heap)
    heap

/-- Cut the frame at `childBase` off the stack and make its parent current. -/
def detachFrame (fs : FrameStack) : FrameStack × FrameStack :=
  let childData := fs.data.drop fs.currentBase
  let data := fs.data.take fs.currentBase
  let prevBase := (readWord childData 4).asUsize
  (⟨childData, 0, childData.length⟩,
    if prevBase < data.length then ⟨data, prevBase, data.length - prevBase⟩
    else ⟨data, 0, data.length⟩)

/-- Queue a thread that starts at `entryPc` on a pending frame of this thread, with a
copy of the module data of this thread. -/
def spawnThread (framePtr entryPc : Nat) : VM Unit := do
  let vm ← get
  let fs ← ofExcept (vm.frames.activatePending framePtr (-1))
  let (childFrames, frames) := detachFrame fs
  -- the pid counter is an `i32` and overflowing it panics
  let nextPid ← unwrap (if vm.nextPid = 0x7fffffff then none else some (vm.nextPid + 1))
  let heap ← unwrap (retainAll vm.mp vm.heap)
  set ({ vm with frames := frames, heap := heap, nextPid := nextPid }.enqueue
    (vm.newThread childFrames entryPc))

def opSpawn : VM Unit := do
  let framePtr := (← srcWord).asUsize
  let targetPc := (← dstWord).asUsize
  spawnThread framePtr targetPc

/-- A function of the main module gets a thread; any other runs inline. -/
def opMspawn (nested : Nested) : VM Unit := do
  let framePtr := (← srcWord).asUsize
  let funcIdx := (← midWord).toNat
  let modRefId ← dstPtr
  let vm ← get
  let kind ← ofExcept (resolveModuleRef vm modRefId)
  match kind with
  | .main funcMap =>
    let entryPc ← ofExcept (exportPc vm.module funcMap funcIdx "main")
    spawnThread framePtr entryPc
  | .builtin moduleId funcMap =>
    let frames ← ofExcept (vm.frames.activatePending framePtr (Word.ofUsize vm.nextPc))
    set { vm with frames := frames }
    let builtinIdx := funcMap.resolve funcIdx
    let f ← ofOption (builtinNotFound moduleId funcIdx builtinIdx)
      (vm.modules.getFunc moduleId builtinIdx)
    nested.native f.handler []
    popBuiltinFrame
    modify fun vm' => { vm' with pc := vm.pc, nextPc := vm.nextPc }
  | .loaded moduleIdx funcMap =>
    let frames ← ofExcept (vm.frames.activatePending framePtr (Word.ofUsize vm.nextPc))
    set { vm with frames := frames }
    let lm ← unwrap vm.loadedModules[moduleIdx]?
    let entryPc ← ofExcept (exportPc lm.module funcMap funcIdx "loaded")
    runNestedModuleCall nested (some moduleIdx) entryPc frames.currentDataOffset
    modify fun vm' => { vm' with pc := vm.pc, nextPc := vm.nextPc }

/-- Element size and slot of a channel. -/
def channelRef (vm : VmState) (chanId : HeapId) : Except ExecError (Nat × Option (List Byte)) :=
  if chanId = nil then .error (.threadFault "nil channel")
  else
    match vm.heap.get chanId with
    | none => .error (.threadFault "dangling channel")
    | some obj =>
      match obj.data.channel? with
      | some ch => .ok ch
      | none => .error (.threadFault "operation on non-channel")

def readAddrBytes (vm : VmState) (target : AddrTarget) (imm : Word) (size : Nat) : List Byte :=
  match target with
  | .immediate =>
    if size = 8 then leBytes 8 (imm.signExtend 64).toNat
    else padded 0 (leBytes 4 imm.toNat) 0 size
  | .heapArray id offset => (vm.heap.heapSlice id offset size).getD (List.replicate size 0)
  | _ =>
    match vm.buffer? target with
    | some (buf, off) => padded 0 buf off size
    | none => List.replicate size 0

def writeAddrBytes (target : AddrTarget) (data : List Byte) : VM Unit :=
  match target with
  | .immediate => throw (.other "cannot write to immediate")
  | .heapArray id offset => do
    modifyHeap (·.arrayWrite id offset data)
    modifyHeap fun h => h.update id fun obj =>
      match obj.data with
      | .record buf => { obj with data := .record (overlay buf offset data) }
      | _ => obj
  | _ => modify fun vm => vm.modifyBuffer target fun buf off => overlay buf off data

/-- The memory an alt table lives in. -/
inductive TableBase where
  | frame
  | mp
  deriving DecidableEq, Repr

structure AltEntry where
  channelId : HeapId
  isSend : Bool
  dataOffset : Nat
  deriving DecidableEq, Repr

inductive AltOutcome where
  | selected (idx : Nat)
  | noneReady
  | raised
  deriving DecidableEq, Repr

def tableBuffer (frames : FrameStack) (mp : List Byte) : TableBase → List Byte
  | .frame => frames.data
  | .mp => mp

structure AltTable where
  base : TableBase
  nsend : Nat
  nrecv : Nat
  entries : List AltEntry
  deriving DecidableEq, Repr

def altEntries (buf : List Byte) (tableOffset nsend count : Nat) : List AltEntry :=
  (List.range count).map fun idx =>
    let baseOff := tableOffset + 8 + idx * 8
    { channelId := readWord buf baseOff
      isSend := idx < nsend
      dataOffset := (readWord buf (baseOff + 4)).clampUsize }

def altTableBase : AddrTarget → Except ExecError (TableBase × Nat)
  | .frame off => .ok (.frame, off)
  | .mp off => .ok (.mp, off)
  | _ => .error (.other "alt table must live in frame or module memory")

/-- The table has two counts and then a channel and a data offset for each entry. -/
def readAltTable (buf : List Byte) (base : TableBase) (tableOffset : Nat) :
    Except ExecError AltTable :=
  let nsend := (readWord buf tableOffset).clampUsize
  let nrecv := (readWord buf (tableOffset + 4)).clampUsize
  if tableOffset + ((nsend + nrecv) * 8 + 8) ≤ buf.length then
    .ok ⟨base, nsend, nrecv, altEntries buf tableOffset nsend (nsend + nrecv)⟩
  else
    .error (.other s!"alt table with {nsend} send and {nrecv} recv entries does not fit in memory")

def parseAltTable (src : AddrTarget) (frames : FrameStack) (mp : List Byte) :
    Except ExecError AltTable := do
  let (base, tableOffset) ← altTableBase src
  readAltTable (tableBuffer frames mp base) base tableOffset

/-- The exception a table is refused with, whatever its channels hold. -/
def altFault (entries : List AltEntry) : Option String :=
  if entries.any (·.channelId = nil) then some "nil dereference"
  else if entries.any fun s => s.isSend &&
      entries.any fun r => !r.isSend && r.channelId = s.channelId then
    some "alt send/recv on same chan"
  else none

/-- A send can go on into an empty slot, a receive from a full one. -/
def slotReady (isSend : Bool) (pending : Option (List Byte)) : Bool :=
  if isSend then pending.isNone else pending.isSome

/-- The first entry whose channel lets it go on. -/
def firstReady (vm : VmState) :
    Nat → List AltEntry → Except ExecError (Option (Nat × AltEntry × Nat × Option (List Byte)))
  | _, [] => .ok none
  | idx, entry :: rest => do
    let (elemSize, pending) ← channelRef vm entry.channelId
    if slotReady entry.isSend pending then return some (idx, entry, elemSize, pending)
    else firstReady vm (idx + 1) rest

/-- Transfer the value of a ready entry. -/
def transfer (base : TableBase) (entry : AltEntry) (elemSize : Nat)
    (pending : Option (List Byte)) : VM Unit := do
  let vm ← get
  if entry.isSend then
    modify (·.putChannel entry.channelId
      (padded 0 (tableBuffer vm.frames vm.mp base) entry.dataOffset elemSize))
  else do
    let data := pending.getD (List.replicate elemSize 0)
    modify (·.takeChannel entry.channelId data)
    writeAddrBytes (match base with
      | .frame => .frame entry.dataOffset
      | .mp => .mp entry.dataOffset) data

def executeAlt (blocking : Bool) : VM AltOutcome := do
  let vm ← get
  let table ← ofExcept (parseAltTable vm.src vm.frames vm.mp)
  match altFault table.entries with
  | some msg =>
    raiseException msg
    return .raised
  | none =>
    match ← ofExcept (firstReady vm 0 table.entries) with
    | some (idx, entry, elemSize, pending) =>
      transfer table.base entry elemSize pending
      return .selected idx
    | none =>
      if blocking then do
        set { vm with blockedChannel := some nil }
        return .noneReady
      else return .noneReady

def opSend : VM Unit := do
  let chanId ← dstPtr
  let vm ← get
  match channelRef vm chanId with
  | .error _ => raiseException "nil dereference"
  | .ok (_, some _) => modify fun vm => { vm with blockedChannel := some chanId }
  | .ok (elemSize, none) => 
    modify (·.putChannel chanId (readAddrBytes vm vm.src vm.immSrc elemSize))

def opRecv : VM Unit := do
  let chanId ← srcPtr
  let vm ← get
  match channelRef vm chanId with
  | .error _ => raiseException "nil dereference"
  | .ok (_, some data) =>
    modify (·.takeChannel chanId data)
    writeAddrBytes vm.dst data
  | .ok (_, none) => modify fun vm => { vm with blockedChannel := some chanId }

def opAlt : VM Unit := do
  match ← executeAlt true with
  | .selected idx => setDstWord (Word.ofUsize idx)
  | .noneReady | .raised => pure ()

def opNbalt : VM Unit := do
  let vm ← get
  let table ← ofExcept (parseAltTable vm.src vm.frames vm.mp)
  match ← executeAlt false with
  | .selected idx => setDstWord (Word.ofUsize idx)
  | .noneReady => setDstWord (Word.ofUsize (table.nsend + table.nrecv))
  | .raised => pure ()

end Ops
end RiceVM
