import RiceVM.Lib.Exec
import RiceVM.Address

/-!
The machine state: the context of the thread that runs, the queue of suspended
threads and what all threads share. `thread` and `history` are ghost state; they
say which thread runs and what it did, and no operation reads them.
-/
namespace RiceVM
open Memory Buffer

/-- A thread's own context, as it is saved when the thread is suspended. -/
structure ThreadCtx where
  frames : FrameStack
  mp : List Byte
  pc : Nat
  heapRefs : List (HeapId × Nat)
  lastError : String
  currentLoadedModule : Option Nat
  callerMpStack : List (Nat × List Byte)
  deriving DecidableEq, Repr

abbrev Pid := Word

inductive Event where
  /-- A value was stored in, or taken out of, a channel's slot. -/
  | put (chan : HeapId) (value : List Byte)
  | took (chan : HeapId) (value : List Byte)
  /-- A built-in overwrote a channel's slot, outside the channel instructions. -/
  | injected (chan : HeapId)
  | spawned (thread : Pid) (ctx : ThreadCtx)
  /-- An instruction of a thread begins. `due` says the scheduling quantum ends with it. -/
  | started (thread pid : Pid) (halting due : Bool) (ctx : ThreadCtx)
  | stopped (thread : Pid) (ctx : ThreadCtx)
  /-- An instruction of a nested interpreter loop begins. -/
  | nested (thread : Pid) (halting : Bool)
  | handedOff (thread : Pid)
  | exited (pid : Pid)
  deriving DecidableEq, Repr

structure LoadedModule where
  module : Module
  mp : List Byte
  deriving DecidableEq, Repr

structure SuspendedThread where
  frames : FrameStack
  mp : List Byte
  pc : Nat
  pid : Pid
  heapRefs : List (HeapId × Nat)
  lastError : String
  currentLoadedModule : Option Nat
  callerMpStack : List (Nat × List Byte)
  /-- The channel the thread waits for; 0 when it waits in an alt. -/
  blockedOn : Option HeapId
  thread : Pid
  deriving DecidableEq, Repr

/-- A built-in function; its handler is native code, named by a number. -/
structure BuiltinFunc where
  name : String
  sig : BitVec 32
  frameSize : Nat
  handler : Nat
  deriving DecidableEq, Repr

structure BuiltinModule where
  name : String
  funcs : List BuiltinFunc
  deriving DecidableEq, Repr

abbrev ModuleRegistry := List BuiltinModule

namespace ModuleRegistry

def findBuiltin (r : ModuleRegistry) (path : String) : Option Nat :=
  r.findIdx? (·.name = path)

def getFunc (r : ModuleRegistry) (moduleId funcIdx : Nat) : Option BuiltinFunc := do
  (← r[moduleId]?).funcs[funcIdx]?

end ModuleRegistry

structure VmState where
  module : Module
  mp : List Byte
  frames : FrameStack
  heap : Heap
  modules : ModuleRegistry
  loadedModules : List LoadedModule
  pc : Nat
  nextPc : Nat
  halted : Bool
  gcEnabled : Bool
  gcCounter : Nat
  /-- Index of the loaded module that executes, `none` for the main module. -/
  currentLoadedModule : Option Nat
  src : AddrTarget
  mid : AddrTarget
  dst : AddrTarget
  immSrc : Word
  immMid : Word
  immDst : Word
  lastError : String
  /-- Data of the modules that called into the current one, with their virtual index. -/
  callerMpStack : List (Nat × List Byte)
  heapRefs : List (HeapId × Nat)
  /-- Set by an instruction that has to wait for a channel. -/
  blockedChannel : Option HeapId
  /-- Lowest frame base the unwinder may leave. -/
  unwindFloor : Nat
  threadQueue : List SuspendedThread
  currentPid : Pid
  nextPid : Pid
  waitRecords : List String
  /-- Set while a read has handed the host thread to another machine thread. -/
  yielding : Bool
  thread : Pid
  history : List Event

abbrev VM (α : Type) := Exec VmState ExecError α

def SuspendedThread.ctx (t : SuspendedThread) : ThreadCtx :=
  { frames := t.frames, mp := t.mp, pc := t.pc, heapRefs := t.heapRefs
    lastError := t.lastError, currentLoadedModule := t.currentLoadedModule
    callerMpStack := t.callerMpStack }

/-- The last index whose element satisfies `p`. -/
def rposition {α : Type} (p : α → Bool) : List α → Option Nat
  | [] => none
  | x :: xs =>
    match rposition p xs with
    | some i => some (i + 1)
    | none => if p x then some 0 else none

namespace VmState

def ctx (vm : VmState) : ThreadCtx :=
  { frames := vm.frames, mp := vm.mp, pc := vm.pc, heapRefs := vm.heapRefs
    lastError := vm.lastError, currentLoadedModule := vm.currentLoadedModule
    callerMpStack := vm.callerMpStack }

def record (vm : VmState) (e : Event) : VmState := { vm with history := e :: vm.history }

/-- The module whose code runs: the main module, or a loaded one. -/
def moduleAt (vm : VmState) : Option Nat → Option Module
  | none => some vm.module
  | some idx => (vm.loadedModules[idx]?).map (·.module)

def currentType (vm : VmState) (typeIdx : Nat) : Option TypeDescriptor := do
  (← vm.moduleAt vm.currentLoadedModule).types[typeIdx]?

def currentTypeSize (vm : VmState) (typeIdx : Nat) : Option Nat :=
  (vm.currentType typeIdx).map (·.size.asUsize)

def traceMapForType (vm : VmState) (typeIdx : Nat) : Option TraceMap :=
  (vm.currentType typeIdx).map fun td => .new td.pointerMap td.size.asUsize

/-- Virtual index of the module that executes. -/
def currentModuleVirtIdx (vm : VmState) : Nat :=
  match vm.currentLoadedModule with
  | none => 0
  | some idx => idx + 1

def parkedSlot (vm : VmState) (moduleIdx : Nat) : Option Nat :=
  rposition (·.1 = moduleIdx) vm.callerMpStack

/-- A module's data: the active data, data parked by a call, or the module's record. -/
def moduleMp (vm : VmState) (moduleIdx : Nat) : Option (List Byte) :=
  if moduleIdx = vm.currentModuleVirtIdx then some vm.mp
  else match vm.parkedSlot moduleIdx with
    | some slot => (vm.callerMpStack[slot]?).map (·.2)
    | none => if moduleIdx = 0 then none else (vm.loadedModules[moduleIdx - 1]?).map (·.mp)

def modifyModuleMp (vm : VmState) (moduleIdx : Nat) (f : List Byte → List Byte) : VmState :=
  if moduleIdx = vm.currentModuleVirtIdx then { vm with mp := f vm.mp }
  else match vm.parkedSlot moduleIdx with
    | some slot =>
      { vm with callerMpStack := vm.callerMpStack.modify slot fun e => (e.1, f e.2) }
    | none =>
      if moduleIdx = 0 then vm
      else { vm with
        loadedModules := vm.loadedModules.modify (moduleIdx - 1) fun lm => { lm with mp := f lm.mp } }

/-- The buffer a target points into, for the targets outside the heap. -/
def buffer? (vm : VmState) : AddrTarget → Option (List Byte × Nat)
  | .frame off => some (vm.frames.data, off)
  | .mp off => some (vm.mp, off)
  | .moduleMp moduleIdx offset => (vm.moduleMp moduleIdx).map (·, offset)
  | _ => none

/-- Read a value of `size` bytes; an address that denotes nothing reads as `zero`. -/
def readAt {α : Type} (read : List Byte → Nat → α) (size : Nat) (zero : α) (ofImm : Word → α)
    (vm : VmState) (target : AddrTarget) (imm : Word) : α :=
  match target with
  | .immediate => ofImm imm
  | .heapArray id offset => ((vm.heap.heapSlice id offset size).map (read · 0)).getD zero
  | _ => ((vm.buffer? target).map fun b => read b.1 b.2).getD zero

def readWordAt : VmState → AddrTarget → Word → Word := readAt readWord 4 0 id
def readBigAt : VmState → AddrTarget → Word → Big := readAt readBig 8 0 (·.signExtend 64)
/-- A `real` as its bit pattern; an immediate operand reads as zero. -/
def readRealAt : VmState → AddrTarget → Word → BitVec 64 := readAt readBig 8 0 fun _ => 0
def readByteAt : VmState → AddrTarget → Word → Byte := readAt readByte 1 0 (·.setWidth 8)

/-- Apply `f` to the buffer a target outside the heap points into. -/
def modifyBuffer (vm : VmState) (target : AddrTarget) (f : List Byte → Nat → List Byte) :
    VmState :=
  match target with
  | .frame off => { vm with frames := { vm.frames with data := f vm.frames.data off } }
  | .mp off => { vm with mp := f vm.mp off }
  | .moduleMp moduleIdx offset => vm.modifyModuleMp moduleIdx (f · offset)
  | _ => vm

end VmState

open Exec

/-- Write a value of `size` bytes; a target that denotes nothing drops it. -/
def writeAt {α : Type} (write : List Byte → Nat → α → List Byte) (size : Nat)
    (target : AddrTarget) (val : α) : VM Unit :=
  match target with
  | .immediate => throw (.other "cannot write to immediate")
  | .heapArray id offset =>
    modify fun vm =>
      { vm with heap := vm.heap.heapWrite id offset (write (List.replicate size 0) 0 val) }
  | _ => modify fun vm => vm.modifyBuffer target fun buf off => write buf off val

def writeWordAt : AddrTarget → Word → VM Unit := writeAt writeWord 4
def writeBigAt : AddrTarget → Big → VM Unit := writeAt writeBig 8
def writeRealAt : AddrTarget → BitVec 64 → VM Unit := writeAt writeBig 8
def writeByteAt : AddrTarget → Byte → VM Unit := writeAt writeByte 1

def srcWord : VM Word := do let vm ← get; return vm.readWordAt vm.src vm.immSrc
def midWord : VM Word := do let vm ← get; return vm.readWordAt vm.mid vm.immMid
def dstWord : VM Word := do let vm ← get; return vm.readWordAt vm.dst vm.immDst
def setDstWord (val : Word) : VM Unit := do let vm ← get; writeWordAt vm.dst val

def srcPtr : VM HeapId := srcWord
def dstPtr : VM HeapId := dstWord
def setDstPtr : HeapId → VM Unit := setDstWord

@[simp] theorem srcWord_apply (s : VmState) : srcWord s = .ok (s.readWordAt s.src s.immSrc) s := rfl
@[simp] theorem midWord_apply (s : VmState) : midWord s = .ok (s.readWordAt s.mid s.immMid) s := rfl
@[simp] theorem dstPtr_apply (s : VmState) : dstPtr s = .ok (s.readWordAt s.dst s.immDst) s := rfl

/-- `Heap::alloc_typed` on the machine's heap. -/
def allocTyped (typeId : BitVec 32) (data : HeapData) (trace : Option TraceMap) : VM HeapId := do
  let vm ← get
  let (id, heap) ← unwrap (vm.heap.alloc typeId data trace)
  set { vm with heap := heap }
  return id

def alloc (typeId : BitVec 32) (data : HeapData) : VM HeapId := allocTyped typeId data none

theorem alloc_eq_ok {typeId : BitVec 32} {d : HeapData} {newId : HeapId} {vm vm' : VmState}
    (h : alloc typeId d vm = .ok newId vm') :
    ∃ heap, vm.heap.alloc typeId d none = some (newId, heap) ∧ vm' = { vm with heap } := by
  unfold alloc allocTyped at h
  rw [bind_ok (get_apply vm)] at h
  cases ha : vm.heap.alloc typeId d none with
  | none =>
      rw [ha] at h
      cases h
  | some allocated =>
      obtain ⟨id, heap⟩ := allocated
      rw [ha] at h
      cases h
      exact ⟨heap, rfl, rfl⟩

def modifyHeap (f : Heap → Heap) : VM Unit := modify fun vm => { vm with heap := f vm.heap }

/-- A change of the heap that may panic. -/
def tryHeap (f : Heap → Option Heap) : VM Unit := do
  let vm ← get
  let heap ← unwrap (f vm.heap)
  set { vm with heap := heap }

theorem tryHeap_apply {f : Heap → Option Heap} {vm : VmState} {heap : Heap}
    (h : f vm.heap = some heap) : tryHeap f vm = .ok () { vm with heap := heap } := by
  simp only [tryHeap, bind_apply, get_apply, h, unwrap_some, set_apply]

theorem tryHeap_panic {f : Heap → Option Heap} {vm : VmState} (h : f vm.heap = none) :
    tryHeap f vm = .panic := by
  simp only [tryHeap, bind_apply, get_apply, h]
  rfl

theorem tryHeap_eq_ok {f : Heap → Option Heap} {vm vm' : VmState}
    (h : tryHeap f vm = .ok () vm') : ∃ heap, f vm.heap = some heap ∧ vm' = { vm with heap } := by
  obtain ⟨_, _, hget, h⟩ := bind_eq_ok.mp h
  cases hget
  cases hf : f vm.heap with
  | none =>
      rw [hf] at h
      cases h
  | some heap =>
      rw [hf] at h
      cases h
      exact ⟨heap, rfl, rfl⟩

theorem tryHeap_ne_error {f : Heap → Option Heap} {vm vm' : VmState} {e : ExecError} :
    tryHeap f vm ≠ .error e vm' := by
  intro h
  cases hf : f vm.heap with
  | none =>
      rw [tryHeap_panic hf] at h
      cases h
  | some heap =>
      rw [tryHeap_apply hf] at h
      cases h

theorem wp_tryHeap {f : Heap → Option Heap} {Q : Unit → VmState → Prop}
    {E : ExecError → VmState → Prop} {s : VmState}
    (h : ∀ heap, f s.heap = some heap → Q () { s with heap }) : wp (tryHeap f) Q E s := by
  rw [tryHeap, wp_bind, wp_get, wp_bind]
  exact wp_unwrap fun heap hf => h heap hf

/-- Store a pointer in the destination, taking the new reference before the old is released. -/
def movePtrToDst (newId : HeapId) : VM Unit := do
  let oldId ← dstPtr
  tryHeap (·.incRef newId)
  setDstPtr newId
  modifyHeap (·.decRef oldId)

def resolveOperands (inst : Instruction) : VM Unit := do
  let vm ← get
  let fpBase := vm.frames.currentDataOffset
  modify fun vm => { vm with immSrc := inst.source.register1 }
  let src ← ofExcept (resolveOperand inst.source fpBase vm.frames.data vm.mp vm.heapRefs)
  modify fun vm => { vm with src := src, immMid := inst.middle.register1 }
  let mid ← ofExcept (resolveMiddle inst.middle fpBase)
  modify fun vm => { vm with mid := mid, immDst := inst.destination.register1 }
  let dst ← ofExcept (resolveOperand inst.destination fpBase vm.frames.data vm.mp vm.heapRefs)
  modify fun vm => { vm with dst := dst }

/-- A thread goes on when it waits for `chanId`, or in an alt. -/
def SuspendedThread.unblock (chanId : HeapId) (t : SuspendedThread) : SuspendedThread :=
  match t.blockedOn with
  | some blockedId =>
    if blockedId = chanId ∨ blockedId = nil then { t with blockedOn := none } else t
  | none => t

/-- `unblock_channel`: wake the threads an operation on a channel concerns. -/
def VmState.unblockChannel (chanId : HeapId) (vm : VmState) : VmState :=
  { vm with threadQueue := vm.threadQueue.map (·.unblock chanId) }

/-- The text of the record a thread leaves. -/
def exitRecord (pid : Pid) (module : Module) (cause : String) : String :=
  s!"{pid.toInt} \"{module.name}\":{cause}"

/-- Leave an exit record for the running thread. -/
def recordThreadExit (cause : String) : VM Unit := do
  let vm ← get
  let module ← unwrap (vm.moduleAt vm.currentLoadedModule)
  let entry := exitRecord vm.currentPid module cause
  set ({ vm with waitRecords := vm.waitRecords ++ [entry] }.record (.exited vm.currentPid))

end RiceVM
