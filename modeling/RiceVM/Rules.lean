import RiceVM.Run

/-!
What an instruction can do to the machine, said once. A relation between states
that is closed under the primitive changes below contains every run of every
instruction, nested calls and hand-offs included; an invariant of whole runs is
then a question about the primitive changes only.
-/
namespace RiceVM
open Exec Ops

/-- What no instruction changes except by the changes named in `Rules`. -/
structure Shared where
  module : Module
  threadQueue : List SuspendedThread
  nextPid : Pid
  currentPid : Pid
  thread : Pid
  history : List Event
  yielding : Bool

namespace VmState

def shared (vm : VmState) : Shared :=
  { module := vm.module, threadQueue := vm.threadQueue, nextPid := vm.nextPid
    currentPid := vm.currentPid, thread := vm.thread, history := vm.history
    yielding := vm.yielding }

/-- What an instruction leaves alone, unless it calls: the module that executes, where the
unwinder stops and whose data is parked. -/
def callCtx (vm : VmState) : Option Nat × Nat × List Nat :=
  (vm.currentLoadedModule, vm.unwindFloor, vm.callerMpStack.map (·.1))

/-- The instruction the running thread executes next. -/
def fetch (vm : VmState) : Option Instruction :=
  (vm.moduleAt vm.currentLoadedModule).bind (·.code[vm.pc]?)

end VmState

/-- A change to the context of the running thread, to module data and to plain objects. -/
structure Work (s t : VmState) : Prop where
  shared : t.shared = s.shared
  heap : Heap.Plain s.heap t.heap
  code : ∀ idx m, s.moduleAt idx = some m → t.moduleAt idx = some m
  /-- A wait may be called off, and only a channel instruction begins one. -/
  blocked : t.blockedChannel = s.blockedChannel ∨ t.blockedChannel = none
  /-- Exit records are read from the front, and only the main loop leaves one. -/
  records : t.waitRecords <:+ s.waitRecords

theorem Work.refl (s : VmState) : Work s s :=
  ⟨rfl, .refl _, fun _ _ h => h, .inl rfl, List.suffix_rfl⟩

theorem Work.trans {s t u : VmState} (a : Work s t) (b : Work t u) : Work s u := by
  refine ⟨b.shared.trans a.shared, a.heap.trans b.heap,
    fun idx m h => b.code idx m (a.code idx m h), ?_, b.records.trans a.records⟩
  rcases b.blocked with hb | hb
  · rw [hb]; exact a.blocked
  · exact .inr hb

/-- Work that stays in the module that executes. -/
structure WorkIn (s t : VmState) : Prop extends Work s t where
  callCtx : t.callCtx = s.callCtx

theorem WorkIn.refl (s : VmState) : WorkIn s s := ⟨.refl s, rfl⟩

/-- The state in which an instruction is dispatched: its operands are resolved. -/
structure Begun (inst : Instruction) (s u : VmState) : Prop where
  source : resolveOperand inst.source s.frames.currentDataOffset s.frames.data s.mp s.heapRefs
    = .ok u.src
  middle : resolveMiddle inst.middle s.frames.currentDataOffset = .ok u.mid
  destination : resolveOperand inst.destination s.frames.currentDataOffset s.frames.data s.mp
    s.heapRefs = .ok u.dst
  ctx : u.ctx = s.ctx
  unwindFloor : u.unwindFloor = s.unwindFloor
  heap : u.heap = s.heap
  shared : u.shared = s.shared
  code : ∀ idx, u.moduleAt idx = s.moduleAt idx
  blocked : u.blockedChannel = s.blockedChannel
  records : u.waitRecords = s.waitRecords

/-- No slot of `c` lets the operation go on. An id that was handed out is never handed out
again, so a channel that is gone stays unready. -/
def Unready (heap : Heap) (isSend : Bool) (c : HeapId) : Prop :=
  c < heap.nextId ∧
    ∀ elemSize pending, heap.chan c = some (elemSize, pending) → slotReady isSend pending = false

/-- The operation `inst` waits for `c`: a send or a receive for the channel it names, an
alt, marked by 0, for any channel of its table. -/
def Stuck (inst : Instruction) (s : VmState) (c : HeapId) : Prop :=
  match inst.opcode with
  | .send => s.readWordAt s.dst s.immDst = c ∧ c ≠ nil ∧ Unready s.heap true c
  | .recv => s.readWordAt s.src s.immSrc = c ∧ c ≠ nil ∧ Unready s.heap false c
  | .alt => c = nil ∧ ∃ table, parseAltTable s.src s.frames s.mp = .ok table ∧
      altFault table.entries = none ∧ ∀ e ∈ table.entries, Unready s.heap e.isSend e.channelId
  | _ => False

/-- Only a send, a receive and an alt ever wait. -/
theorem Stuck.cases {inst : Instruction} {s : VmState} {c : HeapId} (h : Stuck inst s c) :
    inst.opcode = .send ∧ s.readWordAt s.dst s.immDst = c ∧ c ≠ nil ∧ Unready s.heap true c ∨
    inst.opcode = .recv ∧ s.readWordAt s.src s.immSrc = c ∧ c ≠ nil ∧ Unready s.heap false c ∨
    inst.opcode = .alt ∧ c = nil ∧ ∃ table, parseAltTable s.src s.frames s.mp = .ok table ∧
      altFault table.entries = none ∧
      ∀ e ∈ table.entries, Unready s.heap e.isSend e.channelId := by
  unfold Stuck at h
  split at h
  · next hop => exact .inl ⟨hop, h⟩
  · next hop => exact .inr (.inl ⟨hop, h⟩)
  · next hop => exact .inr (.inr ⟨hop, h⟩)
  · exact h.elim

/-- The running thread's instruction changed nothing and waits for a channel. -/
def Waits (inst : Instruction) (s t : VmState) : Prop :=
  ∃ c, t = { s with blockedChannel := some c } ∧ Stuck inst s c

/-- The closure conditions: `R` for instructions, `RS` for the slice of another thread,
which ends with the channel the thread blocked on, if it did. -/
structure Rules (R : VmState → VmState → Prop)
    (RS : VmState → VmState → Option HeapId → Prop) : Prop where
  trans : ∀ s t u, R s t → R t u → R s u
  work : ∀ s t, WorkIn s t → R s t
  call : ∀ s u w moduleIdx entryPc, enterModule moduleIdx entryPc s = .ok () u → Work s u →
    R u w → R s (leaveModule (VmState.saveCaller s moduleIdx) moduleIdx w)
  fresh : ∀ s typeId elemSize trace id heap,
    s.heap.alloc typeId (.channel elemSize none) trace = some (id, heap) →
    R s { s with heap := heap }
  put : ∀ s c v elemSize, s.heap.chan c = some (elemSize, none) → R s (s.putChannel c v)
  take : ∀ s c v elemSize, s.heap.chan c = some (elemSize, some v) → R s (s.takeChannel c v)
  inject : ∀ s c v, R s (s.injectChannel c v)
  spawn : ∀ s frames heap childFrames entryPc, s.nextPid ≠ 0x7fffffff →
    Heap.Plain s.heap heap →
    R s (({ s with frames := frames, heap := heap, nextPid := s.nextPid + 1 } : VmState).enqueue
      (s.newThread childFrames entryPc))
  nested : ∀ s halting, R s (s.record (.nested s.thread halting))
  handOff : ∀ s idx other u b, s.yielding = false → s.blockedChannel = none →
    s.threadQueue[idx]? = some other → other.runnable → RS (handOff other idx s) u b →
    R s (switchBack s b u)
  sliceDone : ∀ s, RS s s none
  sliceEnd : ∀ s, s.fetch = none → RS s { s with halted := true } none
  sliceStep : ∀ s inst u w b, s.fetch = some inst → R (s.started false inst) u →
    RS { u with pc := u.nextPc }.stopped w b → RS s w b
  sliceFault : ∀ s inst u, s.fetch = some inst → R (s.started false inst) u → RS s u.stopped none
  sliceBlock : ∀ s inst u c, s.fetch = some inst → Begun inst (s.started false inst) u →
    Stuck inst u c → RS s u.stopped (some c)

end RiceVM
