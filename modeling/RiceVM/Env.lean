import RiceVM.Unwind

/-!
What the machine is run in. Straight-line instructions and native built-ins are
given by the effects they have on the machine; a built-in may also wait, which
runs other threads. A run may use another environment at every step, so the
answers of the host need no model of the host.
-/
namespace RiceVM
open Exec Buffer

/-- Object data of any kind but a channel's. -/
abbrev PlainData := { d : HeapData // d.channel? = none }

inductive Effect where
  /-- Overwrite bytes of a buffer, as many as it holds. -/
  | poke (target : AddrTarget) (bytes : List Byte)
  | setNextPc (pc : Nat)
  | setLastError (msg : String)
  | pushHeapRef (id : HeapId) (offset : Nat)
  | alloc (typeId : BitVec 32) (data : PlainData) (trace : Option TraceMap)
  | allocChannel (elemSize : Nat)
  | incRef (id : HeapId)
  | decRef (id : HeapId)
  /-- Replace an object that is not a channel. -/
  | replace (id : HeapId) (data : PlainData)
  /-- `send_to_named_channel`: overwrite a channel's slot and wake its waiters. -/
  | inject (chan : HeapId) (value : List Byte)
  | halt

/-- Only the main loop reports a deadlock. -/
abbrev OwnFault := { e : ExecError // e ≠ deadlockFault }

/-- How a straight-line instruction or a built-in ends. -/
inductive Outcome where
  | done
  | raise (msg : String)
  | fault (e : OwnFault)
  | panic

/-- What a built-in learns from a wait. -/
inductive Reply where
  | ranOther (ran : Bool)
  | waitRecord (bytes : List Byte)

inductive NativeStep where
  | finish (effects : List Effect) (outcome : Outcome)
  /-- Hand the host thread to another machine thread and go on. -/
  | handOff (effects : List Effect)
  /-- Read up to `len` bytes of the oldest exit record. -/
  | readWait (effects : List Effect) (len : Nat)

structure Env where
  /-- The straight-line instructions that have no definition of their own here. -/
  compute : Opcode → VmState → List Effect × Outcome
  /-- A built-in's next step, from the state and what its waits returned so far. -/
  native : Nat → VmState → List Reply → NativeStep
  /-- The module a path loads from the host's file system. -/
  loadFile : String → Option Module

/-- What the instructions need of the interpreter they run in. -/
structure Nested where
  /-- `nested_interpreter_loop`: the code of a module, until the frame is left. -/
  loop : (moduleIdx : Option Nat) → (callFrameBase : Nat) → VM Unit
  /-- A built-in's handler, from the replies it has seen. -/
  native : (handler : Nat) → List Reply → VM Unit
  /-- `read_wait_file`. -/
  readWaitFile : (len : Nat) → VM (List Byte)

def VmState.injectChannel (chan : HeapId) (value : List Byte) (vm : VmState) : VmState :=
  ({ vm with heap := vm.heap.setPending chan (some value) }.record (.injected chan)).unblockChannel
    chan

namespace Effect

def apply : Effect → VM Unit
  | .poke (.heapArray id offset) bytes => modifyHeap fun h => h.update id fun obj =>
      match obj.data.buffer? with
      | some buf => { obj with data := obj.data.setBuffer (overlay buf offset bytes) }
      | none => obj
  | .poke target bytes => modify fun vm =>
      vm.modifyBuffer target fun buf off => overlay buf off bytes
  | .setNextPc pc => modify fun vm => { vm with nextPc := pc }
  | .setLastError msg => modify fun vm => { vm with lastError := msg }
  | .pushHeapRef id offset => modify fun vm =>
      { vm with heapRefs := vm.heapRefs ++ [(id, offset)] }
  | .alloc typeId data trace => do let _ ← allocTyped typeId data trace
  | .allocChannel elemSize => do let _ ← RiceVM.alloc 0 (.channel elemSize none)
  | .incRef id => tryHeap (·.incRef id)
  | .decRef id => modifyHeap (·.decRef id)
  | .replace id data => modifyHeap fun h => h.update id fun obj =>
      if obj.data.channel?.isNone then { obj with data := data } else obj
  | .inject chan value => modify (·.injectChannel chan value)
  | .halt => modify fun vm => { vm with halted := true }

/-- Apply effects one after the other. -/
def applyAll : List Effect → VM Unit
  | [] => pure ()
  | e :: es => do e.apply; applyAll es

end Effect

def Outcome.run : Outcome → VM Unit
  | .done => pure ()
  | .raise msg => raiseException msg
  | .fault e => throw e.val
  | .panic => Exec.panic

end RiceVM
