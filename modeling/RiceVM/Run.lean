import RiceVM.Gc
import RiceVM.Ops.Concurrency

/-!
The interpreter loops. There are three: the main loop, the nested loop of a call
into another module, and the slice another thread runs while a read waits. The
host stack of nested calls is the fuel of `nestedAt`; running out of it diverges.
-/
namespace RiceVM
open Exec Ops

/-- Whether an instruction ends its thread when it succeeds. -/
def VmState.halting (vm : VmState) (inst : Instruction) : Bool :=
  match inst.opcode with
  | .exit | .brkpt => true
  | .ret => !vm.frames.data.isEmpty && (Memory.readWord vm.frames.data vm.frames.currentBase).msb
  | _ => false

def dispatch (env : Env) (nested : Nested) (inst : Instruction) : VM Unit :=
  match inst.opcode with
  | .nop => pure ()
  | .exit => opExit
  | .jmp => opJmp
  | .frame => opFrame
  | .call => opCall
  | .ret => opRet
  | .load => opLoad env
  | .mframe => opMframe
  | .mcall => opMcall nested
  | .movw => opMovw
  | .movb => opMovb
  | .movf => opMovf
  | .movl => opMovl
  | .movp => opMovp
  | .movpc => opMovpc
  | .new | .newz | .mnewz => opNew
  | .newa | .newaz => opNewa
  | .newcb => opNewcb
  | .newcw => opNewcw
  | .newcf => opNewcf
  | .newcp => opNewcp
  | .newcm => opNewcm
  | .newcmp => opNewcmp
  | .newcl => opNewcl
  | .goto => opGoto
  | .raise => opRaise
  | .runt | .eclr => pure ()
  | .brkpt => opBrkpt
  | .spawn => opSpawn
  | .mspawn => opMspawn nested
  | .send => opSend
  | .recv => opRecv
  | .alt => opAlt
  | .nbalt => opNbalt
  | .self => opSelf
  | op => opCompute env op

/-- `str::contains`. -/
def containsStr (msg part : String) : Bool := msg.toList.tails.any part.toList.isPrefixOf

/-- The faults the loops turn into exceptions. -/
def raisable (msg : String) : Bool :=
  containsStr msg "nil" || containsStr msg "out of bounds" || containsStr msg "not a module"

def begin (inst : Instruction) : VM Unit := do
  resolveOperands inst
  modify fun vm => { vm with nextPc := vm.pc + 1 }

/-- Execute an instruction and try the handlers on a fault the machine raises. -/
def execute (env : Env) (nested : Nested) (inst : Instruction) : VM Unit := do
  begin inst
  match ← attempt (dispatch env nested inst) with
  | .ok () => pure ()
  | .error (.threadFault msg) =>
    if raisable msg then raiseException msg else throw (.threadFault msg)
  | .error e => throw e

/-- The channel an instruction has to wait for; the pc only moves when there is none. -/
def settle : VM (Option HeapId) := do
  let vm ← get
  match vm.blockedChannel with
  | some chanId =>
    set { vm with blockedChannel := none }
    return some chanId
  | none =>
    set { vm with pc := vm.nextPc }
    return none

def VmState.started (due : Bool) (inst : Instruction) (vm : VmState) : VmState :=
  vm.record (.started vm.thread vm.currentPid (vm.halting inst) due vm.ctx)

def VmState.stopped (vm : VmState) : VmState := vm.record (.stopped vm.thread vm.ctx)

/-- One instruction of a thread, in the main loop or in a slice. -/
def stepThread (env : Env) (nested : Nested) (due : Bool) (inst : Instruction) :
    VM (Option HeapId) := do
  modify (·.started due inst)
  let outcome ← attempt do
    execute env nested inst
    settle
  modify (·.stopped)
  ofExcept outcome

/-- A channel operation cannot wait while its code runs on the host stack. -/
def faultOnNestedBlock : VM Unit := do
  let vm ← get
  match vm.blockedChannel with
  | some _ =>
    set { vm with blockedChannel := none }
    throw (.threadFault "deadlock: blocking channel operation inside a cross-module call")
  | none => pure ()

/-- One instruction of a nested interpreter loop. -/
def stepNested (env : Env) (nested : Nested) (inst : Instruction) : VM Unit := do
  modify fun vm => vm.record (.nested vm.thread (vm.halting inst))
  begin inst
  dispatch env nested inst
  faultOnNestedBlock
  modify fun vm => { vm with pc := vm.nextPc }

/-- Instructions another thread may run when a read hands it the host thread. -/
def yieldQuantum : Nat := 2048

/-- Run the installed thread for up to `n` instructions; the channel it blocked on. -/
def runThreadSlice (env : Env) (nested : Nested) : Nat → VM (Option HeapId)
  | 0 => pure none
  | n + 1 => do
    let vm ← get
    if vm.halted then pure none
    else
      match vm.moduleAt vm.currentLoadedModule with
      | none => pure none
      | some module =>
        match module.code[vm.pc]? with
        | none => do
          modify fun vm => { vm with halted := true }
          pure none
        | some inst =>
          match ← stepThread env nested false inst with
          | some chanId => pure (some chanId)
          | none => runThreadSlice env nested n

/-- Install another thread; the reader's context stays on the host stack. -/
def switchTo (other : SuspendedThread) (vm : VmState) : VmState :=
  { vm with
    frames := other.frames
    mp := other.mp
    heapRefs := other.heapRefs
    lastError := other.lastError
    currentLoadedModule := other.currentLoadedModule
    callerMpStack := other.callerMpStack
    unwindFloor := 0
    pc := other.pc
    halted := false
    yielding := true
    thread := other.thread }

/-- Take a thread out of the queue and install it. -/
def handOff (other : SuspendedThread) (idx : Nat) (vm : VmState) : VmState :=
  (switchTo other { vm with threadQueue := vm.threadQueue.eraseIdx idx }).record
    (.handedOff other.thread)

/-- The installed thread as it goes back to the queue. -/
def VmState.suspended (vm : VmState) (blockedOn : Option HeapId) : SuspendedThread :=
  { frames := vm.frames, mp := vm.mp, pc := vm.pc, pid := vm.currentPid
    heapRefs := vm.heapRefs, lastError := vm.lastError
    currentLoadedModule := vm.currentLoadedModule, callerMpStack := vm.callerMpStack
    blockedOn := blockedOn, thread := vm.thread }

/-- Restore the reader's context and queue the other thread unless it finished. -/
def switchBack (reader : VmState) (blockedOn : Option HeapId) (vm : VmState) : VmState :=
  let ran := vm.suspended blockedOn
  { vm with
    frames := reader.frames
    mp := reader.mp
    heapRefs := reader.heapRefs
    lastError := reader.lastError
    currentLoadedModule := reader.currentLoadedModule
    callerMpStack := reader.callerMpStack
    pc := reader.pc
    nextPc := reader.nextPc
    halted := reader.halted
    unwindFloor := reader.unwindFloor
    blockedChannel := none
    src := reader.src, mid := reader.mid, dst := reader.dst
    immSrc := reader.immSrc, immMid := reader.immMid, immDst := reader.immDst
    yielding := false
    thread := reader.thread
    threadQueue := if vm.halted then vm.threadQueue else vm.threadQueue ++ [ran] }

/-- A queued thread a waiting read can run. -/
def SuspendedThread.runnable (t : SuspendedThread) : Bool :=
  t.blockedOn.isNone && !t.frames.data.isEmpty

/-- Hand the host thread to one other ready thread for a quantum. -/
def runOtherVmThread (env : Env) (nested : Nested) : VM Bool := do
  let reader ← get
  if reader.yielding then return false
  else
    match reader.threadQueue.findIdx? (·.runnable) with
    | none => return false
    | some idx =>
      let other ← unwrap reader.threadQueue[idx]?
      modify (handOff other idx)
      let outcome ← attempt (runThreadSlice env nested yieldQuantum)
      modify (switchBack reader (match outcome with | .ok chan => chan | .error _ => none))
      let _ ← ofExcept outcome
      return true

/-- Hand back the oldest exit record, running threads that could leave one. -/
def readWaitFileStep (env : Env) (nested : Nested) (len : Nat) : VM (List Byte) := do
  let vm ← get
  match vm.waitRecords with
  | entry :: rest =>
    set { vm with waitRecords := rest }
    return (entry.toUTF8.toList.map (·.toBitVec)).take len
  | [] => if ← runOtherVmThread env nested then nested.readWaitFile len else return []

/-- One step of a built-in. -/
def nativeStep (env : Env) (nested : Nested) (handler : Nat) (seen : List Reply) : VM Unit := do
  let vm ← get
  match env.native handler vm seen with
  | .finish effects outcome =>
    Effect.applyAll effects
    outcome.run
  | .handOff effects =>
    Effect.applyAll effects
    let ran ← runOtherVmThread env nested
    nested.native handler (seen ++ [.ranOther ran])
  | .readWait effects len =>
    Effect.applyAll effects
    let bytes ← nested.readWaitFile len
    nested.native handler (seen ++ [.waitRecord bytes])

/-- The nested interpreter loop: it ends when the thread halts, when the code ends, or
when the frame it was called with is popped. -/
def nestedLoopStep (env : Env) (nested : Nested) (moduleIdx : Option Nat)
    (callFrameBase : Nat) : VM Unit := do
  let vm ← get
  let module ← unwrap (vm.moduleAt moduleIdx)
  if vm.halted then pure ()
  else
    match module.code[vm.pc]? with
    | none => pure ()
    | some inst =>
      stepNested env nested inst
      let vm ← get
      if vm.frames.currentDataOffset < callFrameBase then pure ()
      else nested.loop moduleIdx callFrameBase

/-- The interpreter with a bounded host stack. -/
def nestedAt (env : Env) : Nat → Nested
  | 0 => ⟨fun _ _ => diverge, fun _ _ => diverge, fun _ => diverge⟩
  | fuel + 1 =>
    { loop := nestedLoopStep env (nestedAt env fuel)
      native := nativeStep env (nestedAt env fuel)
      readWaitFile := readWaitFileStep env (nestedAt env fuel) }

def threadQuantum : Nat := 2048
def gcInterval : Nat := 10000

/-- Queue the running thread and leave the machine without one. -/
def suspendCurrent (blockedOn : Option HeapId) : VM Unit := modify fun vm =>
  { vm with
    frames := .new
    mp := []
    heapRefs := []
    lastError := ""
    currentLoadedModule := none
    callerMpStack := []
    threadQueue := vm.threadQueue ++ [vm.suspended blockedOn] }

def loadThread (t : SuspendedThread) (vm : VmState) : VmState :=
  { vm with
    frames := t.frames
    mp := t.mp
    pc := t.pc
    heapRefs := t.heapRefs
    lastError := t.lastError
    currentLoadedModule := t.currentLoadedModule
    callerMpStack := t.callerMpStack
    currentPid := t.pid
    halted := false
    thread := t.thread }

/-- Resume the first ready thread; the blocked ones in front of it go to the back. -/
def resumeNextReadyThread : VM Bool := do
  let vm ← get
  match vm.threadQueue.findIdx? (·.blockedOn.isNone) with
  | some idx =>
    let t ← unwrap vm.threadQueue[idx]?
    set (loadThread t { vm with
      threadQueue := vm.threadQueue.drop (idx + 1) ++ vm.threadQueue.take idx })
    return true
  | none =>
    set { vm with halted := true }
    return false

def suspendAndRotate : VM Unit := do
  suspendCurrent none
  let _ ← resumeNextReadyThread

def collectGarbage : VM Unit := modify fun vm =>
  if vm.gcEnabled then
    if vm.gcCounter + 1 ≥ gcInterval then { vm with gcCounter := 0, heap := Gc.collect vm }
    else { vm with gcCounter := vm.gcCounter + 1 }
  else vm

def quantumDue (quantum : Nat) (vm : VmState) : Bool :=
  quantum + 1 ≥ threadQuantum && !vm.threadQueue.isEmpty

/-- One turn of the main loop from a quantum counter; no counter when the loop returns. -/
def runIter (env : Env) (nested : Nested) (quantum : Nat) : VM (Option Nat) := do
  let vm ← get
  if vm.halted then
    recordThreadExit ""
    if vm.threadQueue.isEmpty then return none
    else if ← resumeNextReadyThread then return some quantum
    else throw deadlockFault
  else
    let module ← unwrap (vm.moduleAt vm.currentLoadedModule)
    match module.code[vm.pc]? with
    | none =>
      if vm.currentLoadedModule.isSome then
        set { vm with halted := true }
        return some quantum
      else throw (.invalidPc (Word.ofUsize vm.pc))
    | some inst =>
      match ← stepThread env nested (quantumDue quantum vm) inst with
      | some chanId =>
        let vm ← get
        if vm.threadQueue.any (·.blockedOn.isNone) then
          suspendCurrent (some chanId)
          let _ ← resumeNextReadyThread
          return some quantum
        else throw deadlockFault
      | none =>
        let vm ← get
        if quantumDue quantum vm then
          suspendAndRotate
          collectGarbage
          return some 0
        else
          collectGarbage
          return some (quantum + 1)

/-- One turn of the main loop, in some environment and with enough host stack. -/
def Turn (s t : VmState × Nat) : Prop :=
  ∃ env fuel, runIter env (nestedAt env fuel) s.2 s.1 = .ok (some t.2) t.1

/-- A run starts with the entry frame of a module that has an entry point. -/
def Initial (vm : VmState) : Prop :=
  ∃ modules gcEnabled module args,
    ¬ module.header.entryPc.msb ∧
      VmState.withArgs modules gcEnabled module args = some vm

/-- The states at the top of the main loop. -/
inductive Reachable : VmState × Nat → Prop
  | initial {vm : VmState} : Initial vm → Reachable (vm, 0)
  | turn {s t : VmState × Nat} : Reachable s → Turn s t → Reachable t

/-- The states a run is observed in: every top of the loop, and where the run ends. -/
inductive Observed : VmState → Prop
  | top {vm : VmState} {quantum : Nat} : Reachable (vm, quantum) → Observed vm
  | finished {s t : VmState} {quantum fuel : Nat} {env : Env} : Reachable (s, quantum) →
      runIter env (nestedAt env fuel) quantum s = .ok none t → Observed t
  | fault {s t : VmState} {quantum fuel : Nat} {env : Env} {e : ExecError} :
      Reachable (s, quantum) → runIter env (nestedAt env fuel) quantum s = .error e t → Observed t

end RiceVM
