import RiceVM.Programs
import RiceVM.Turns

/-!
The preemptive pool: workers that share a queue of machine threads. A worker takes a
runnable thread under the pool's lock, runs it for a quantum under the lock of the shared
state, and gives it back under the pool's lock; between these any other worker may move.
A thread that has to wait is parked with the number of instructions retired so far, and is
worth another try as soon as that number has grown.
-/
namespace RiceVM
open Exec Ops

inductive ThreadState where
  | ready
  | running
  /-- Waits for an operation on a channel; nil marks a wait in an alt. -/
  | blocked (chan : HeapId)
  | exited
  deriving DecidableEq, Repr

structure VmThread where
  frames : FrameStack
  mp : List Byte
  pc : Nat
  nextPc : Nat
  halted : Bool
  src : AddrTarget
  mid : AddrTarget
  dst : AddrTarget
  immSrc : Word
  immMid : Word
  immDst : Word
  heapRefs : List (HeapId × Nat)
  lastError : String
  currentLoadedModule : Option Nat
  callerMpStack : List (Nat × List Byte)
  id : Nat
  state : ThreadState
  /-- The instructions retired when the thread last parked. -/
  blockedAt : Nat
  deriving DecidableEq, Repr

/-- Adopt a thread that a running thread spawned. -/
def VmThread.fromSuspended (id : Nat) (child : SuspendedThread) : VmThread where
  frames := child.frames
  mp := child.mp
  pc := child.pc
  nextPc := 0
  halted := false
  src := .none
  mid := .none
  dst := .none
  immSrc := 0
  immMid := 0
  immDst := 0
  heapRefs := child.heapRefs
  lastError := child.lastError
  currentLoadedModule := child.currentLoadedModule
  callerMpStack := child.callerMpStack
  id := id
  state := match child.blockedOn with
    | some chanId => .blocked chanId
    | none => .ready
  blockedAt := 0

structure SharedState where
  module : Module
  heap : Heap
  modules : ModuleRegistry
  loadedModules : List LoadedModule
  gcEnabled : Bool
  gcCounter : Nat
  nextThreadId : Nat
  /-- Instructions retired by all threads. -/
  progress : Nat

namespace SharedState

/-- The machine an instruction of a thread is dispatched on. -/
def tempVm (shared : SharedState) (t : VmThread) : VmState where
  module := shared.module
  mp := t.mp
  frames := t.frames
  heap := shared.heap
  modules := shared.modules
  loadedModules := shared.loadedModules
  pc := t.pc
  nextPc := t.nextPc
  halted := t.halted
  gcEnabled := shared.gcEnabled
  gcCounter := shared.gcCounter
  currentLoadedModule := t.currentLoadedModule
  src := t.src
  mid := t.mid
  dst := t.dst
  immSrc := t.immSrc
  immMid := t.immMid
  immDst := t.immDst
  lastError := t.lastError
  callerMpStack := t.callerMpStack
  heapRefs := t.heapRefs
  blockedChannel := none
  unwindFloor := 0
  threadQueue := []
  currentPid := 1
  nextPid := 2
  waitRecords := []
  yielding := false
  thread := 1
  history := []

/-- Take over what an instruction did to the shared state. -/
def moveBack (shared : SharedState) (vm : VmState) : SharedState :=
  { shared with
    heap := vm.heap, modules := vm.modules, loadedModules := vm.loadedModules
    gcCounter := vm.gcCounter }

/-- What a panic leaves of it: the instruction had taken the rest out, to put it back at its
end. -/
def takenOut (shared : SharedState) : SharedState :=
  { shared with heap := Heap.new, modules := [], loadedModules := [] }

end SharedState

/-- Take over what an instruction did to the thread. -/
def VmThread.moveBack (t : VmThread) (vm : VmState) : VmThread :=
  { t with
    mp := vm.mp, frames := vm.frames, pc := vm.pc, nextPc := vm.nextPc, halted := vm.halted
    src := vm.src, mid := vm.mid, dst := vm.dst
    immSrc := vm.immSrc, immMid := vm.immMid, immDst := vm.immDst
    heapRefs := vm.heapRefs, lastError := vm.lastError
    currentLoadedModule := vm.currentLoadedModule, callerMpStack := vm.callerMpStack }

/-- A thread's quantum: the state shared by all threads, the thread and what it spawned. -/
structure Quantum where
  shared : SharedState
  thread : VmThread
  spawned : List VmThread
  result : Except ExecError Unit

/-- How a quantum ends. A panic of the host unwinds the worker, and with it the thread and what
it had spawned. -/
inductive QuantumEnd where
  | stopped (q : Quantum)
  | panicked (q : Quantum)

/-- Give ids to the threads an instruction created. The counter is a `u32` and overflowing
it panics. -/
def Quantum.adopt (q : Quantum) : List SuspendedThread → QuantumEnd
  | [] => .stopped q
  | child :: children =>
    if q.shared.nextThreadId + 1 < 2 ^ 32 then
      { q with
        shared := { q.shared with nextThreadId := q.shared.nextThreadId + 1 }
        spawned := q.spawned ++ [.fromSuspended q.shared.nextThreadId child] : Quantum }.adopt children
    else .panicked q

/-- The quantum after an instruction that left the machine in `vm`. -/
def Quantum.moveBack (q : Quantum) (vm : VmState) : QuantumEnd :=
  { q with
    shared := q.shared.moveBack vm, thread := q.thread.moveBack vm : Quantum }.adopt vm.threadQueue

def DEFAULT_QUANTA : Nat := 2048

/-- Run a thread for up to `n` instructions; none where an instruction never ends. -/
def runThreadQuantaShared (env : Env) (nested : Nested) : Nat → Quantum → Option QuantumEnd
  | 0, q => some (.stopped q)
  | n + 1, q =>
    if q.thread.halted then some (.stopped q)
    else
      match (q.shared.tempVm q.thread).fetch with
      | none => some (.stopped { q with thread := { q.thread with halted := true } })
      | some inst =>
        match (do begin inst; dispatch env nested inst : VM Unit) (q.shared.tempVm q.thread) with
        | .diverge => none
        | .panic => some (.panicked { q with shared := q.shared.takenOut })
        | .error e vm =>
          match q.moveBack vm with
          | .panicked q => some (.panicked q)
          | .stopped q => some (.stopped { q with result := .error e })
        | .ok _ vm =>
          match q.moveBack vm with
          | .panicked q => some (.panicked q)
          | .stopped q =>
            match vm.blockedChannel with
            | some chanId =>
              some (.stopped { q with thread := { q.thread with state := .blocked chanId } })
            | none => runThreadQuantaShared env nested n
                { q with
                  thread := { q.thread with pc := q.thread.nextPc }
                  shared := { q.shared with progress := q.shared.progress + 1 } }

structure ThreadPool where
  queue : List VmThread
  /-- Threads handed to a worker and not yet returned. -/
  running : Nat
  /-- Highest instruction count any worker has observed. -/
  progress : Nat
  shutdown : Bool

def ThreadPool.isRunnable (pool : ThreadPool) (t : VmThread) : Bool :=
  match t.state with
  | .ready => true
  | .blocked _ => t.blockedAt < pool.progress
  | .running | .exited => false

/-- Where a worker is in its loop. -/
inductive Worker where
  /-- About to lock the pool and look for a thread. -/
  | seeking
  /-- Asleep until it is signalled. -/
  | waiting
  | holding (t : VmThread)
  /-- Has run a quantum and is about to return the thread. -/
  | returning (t : VmThread) (spawned : List VmThread) (result : Except ExecError Unit) (epoch : Nat)
  | ended (result : Except ExecError Unit)
  /-- Has panicked in a quantum. The pool still counts it as running. -/
  | died

namespace ThreadPool

/-- The threads a worker drops when it looks for one. -/
def dropped (pool : ThreadPool) : List VmThread :=
  if pool.shutdown then [] else pool.queue.filter (·.state = ThreadState.exited)

/-- A worker looks for a thread under the pool's lock. -/
def seek (pool : ThreadPool) : ThreadPool × Worker :=
  if pool.shutdown then (pool, .ended (.ok ()))
  else
    let pool := { pool with queue := pool.queue.filter (·.state ≠ ThreadState.exited) }
    match pool.queue.findIdx? pool.isRunnable with
    | some idx =>
      match pool.queue[idx]? with
      | none => (pool, .ended (.ok ()))
      | some t => ({ pool with queue := pool.queue.eraseIdx idx, running := pool.running + 1 },
          .holding { t with state := .running })
    | none =>
      if pool.running = 0 then
        if pool.queue.isEmpty then (pool, .ended (.ok ()))
        else ({ pool with shutdown := true }, .ended (.error deadlockFault))
      else (pool, .waiting)

end ThreadPool

/-- The thread as a worker returns it after a quantum. -/
def VmThread.returned (epoch : Nat) (t : VmThread) : VmThread :=
  if t.halted then { t with state := .exited }
  else
    match t.state with
    | .running => { t with state := .ready }
    | .blocked _ => { t with blockedAt := epoch }
    | _ => t

/-- A worker returns its thread and what it spawned under the pool's lock. -/
def ThreadPool.giveBack (pool : ThreadPool) (t : VmThread) (spawned : List VmThread)
    (epoch : Nat) : ThreadPool :=
  { pool with
    running := pool.running - 1
    progress := max pool.progress epoch
    queue := pool.queue ++ t.returned epoch :: spawned }

/-- `issued`, `finished`, `lost` and `faulted` are ghost state: the ids of all threads there were,
of those dropped because they had exited and of those a panic unwound, and whether a quantum has
ended with a fault or a panic. -/
structure PreemptiveScheduler where
  shared : SharedState
  pool : ThreadPool
  workers : List Worker
  issued : List Nat
  finished : List Nat
  lost : List Nat
  faulted : Bool

def Worker.wake : Worker → Worker
  | .waiting => .seeking
  | w => w

/-- What a worker that has returned its thread does next. -/
def Worker.next : Except ExecError Unit → Worker
  | .ok _ => .seeking
  | .error e => .ended (.error e)

namespace PreemptiveScheduler

/-- The steps of worker `i`, one for each stretch under a lock. -/
inductive Step (s : PreemptiveScheduler) (i : Nat) : PreemptiveScheduler → Prop
  | seek {pool : ThreadPool} {w : Worker} : s.workers[i]? = some .seeking →
      s.pool.seek = (pool, w) →
      Step s i { s with
        pool := pool
        -- reporting a deadlock wakes the other workers
        workers := (if pool.shutdown = s.pool.shutdown then s.workers
          else s.workers.map Worker.wake).set i w
        finished := s.finished ++ s.pool.dropped.map (·.id) }
  | run {t : VmThread} {env : Env} {fuel : Nat} {q : Quantum} :
      s.workers[i]? = some (.holding t) →
      runThreadQuantaShared env (nestedAt env fuel) DEFAULT_QUANTA ⟨s.shared, t, [], .ok ()⟩ =
        some (.stopped q) →
      Step s i { s with
        shared := q.shared
        workers := s.workers.set i (.returning q.thread q.spawned q.result q.shared.progress)
        issued := s.issued ++ q.spawned.map (·.id)
        faulted := s.faulted || (match q.result with | .ok _ => false | .error _ => true) }
  /-- The locks the worker held are poisoned, and taken all the same by the others. -/
  | panic {t : VmThread} {env : Env} {fuel : Nat} {q : Quantum} :
      s.workers[i]? = some (.holding t) →
      runThreadQuantaShared env (nestedAt env fuel) DEFAULT_QUANTA ⟨s.shared, t, [], .ok ()⟩ =
        some (.panicked q) →
      Step s i { s with
        shared := q.shared
        workers := s.workers.set i .died
        issued := s.issued ++ q.spawned.map (·.id)
        lost := s.lost ++ t.id :: q.spawned.map (·.id)
        faulted := true }
  | giveBack {t : VmThread} {spawned : List VmThread} {result : Except ExecError Unit}
      {epoch : Nat} : s.workers[i]? = some (.returning t spawned result epoch) →
      Step s i { s with
        pool := s.pool.giveBack t spawned epoch
        workers := (s.workers.map Worker.wake).set i (.next result) }
  /-- A wait on a condition variable may end without a signal. -/
  | wake : s.workers[i]? = some .waiting → Step s i { s with workers := s.workers.set i .seeking }

/-- Some workers and some threads that have not run yet. -/
structure Initial (s : PreemptiveScheduler) : Prop where
  workers : ∀ w ∈ s.workers, w = .seeking
  ready : ∀ t ∈ s.pool.queue, t.state = .ready
  ids : (s.pool.queue.map (·.id)).Nodup
  below : ∀ t ∈ s.pool.queue, t.id < s.shared.nextThreadId
  running : s.pool.running = 0
  progress : s.pool.progress = s.shared.progress
  shutdown : s.pool.shutdown = false
  issued : s.issued = s.pool.queue.map (·.id)
  finished : s.finished = []
  lost : s.lost = []
  faulted : s.faulted = false

inductive Reachable : PreemptiveScheduler → Prop
  | initial {s : PreemptiveScheduler} : Initial s → Reachable s
  | step {s s' : PreemptiveScheduler} {i : Nat} : Reachable s → Step s i s' → Reachable s'

end PreemptiveScheduler

/-! A quantum, and what it leaves of the other threads. -/

/-- The thread's next instruction is an operation on channels none of which lets it go on. -/
def CannotProceed (shared : SharedState) (t : VmThread) (c : HeapId) : Prop :=
  ∃ inst u, (shared.tempVm t).fetch = some inst ∧ Begun inst (shared.tempVm t) u ∧ Stuck inst u c

/-- Resolving the operands changes the operand slots and the next pc. -/
theorem begin_cases {inst : Instruction} {s u : VmState} (h : begin inst s = .ok () u) :
    Begun inst s u ∧ ∃ src mid dst immSrc immMid immDst nextPc, u = { s with
      src := src, mid := mid, dst := dst, immSrc := immSrc, immMid := immMid, immDst := immDst
      nextPc := nextPc } := by
  have hbegun := wp_ok (anyRules.begin_spec inst s) h
  have hwp : wp (begin inst) (fun _ u => ∃ src mid dst immSrc immMid immDst nextPc, u = { s with
      src := src, mid := mid, dst := dst, immSrc := immSrc, immMid := immMid, immDst := immDst
      nextPc := nextPc }) (fun _ _ => True) s := by
    simp only [begin, resolveOperands, wp_bind, wp_get, wp_modify]
    refine wp_ofExcept (fun src _ => ?_) fun _ _ => trivial
    refine wp_ofExcept (fun mid _ => ?_) fun _ _ => trivial
    exact wp_ofExcept (fun dst _ => ⟨_, _, _, _, _, _, _, rfl⟩) fun _ _ => trivial
  have hsame := wp_ok hwp h
  exact ⟨hbegun, hsame⟩

theorem state_fromSuspended (id : Nat) (child : SuspendedThread) :
    (VmThread.fromSuspended id child).state = .ready ∨
      ∃ c, (VmThread.fromSuspended id child).state = .blocked c := by
  simp only [VmThread.fromSuspended]
  cases child.blockedOn with
  | none => exact .inl rfl
  | some c => exact .inr ⟨c, rfl⟩

/-- The quantum as it ended, one way or the other. -/
def QuantumEnd.quantum : QuantumEnd → Quantum
  | .stopped q | .panicked q => q

theorem adopt_cases (q : Quantum) (children : List SuspendedThread) :
    ∃ adopted, (q.adopt children).quantum = { q with
        shared := { q.shared with nextThreadId := q.shared.nextThreadId + adopted.length }
        spawned := q.spawned ++ adopted } ∧
      adopted.map (·.id) = List.range' q.shared.nextThreadId adopted.length ∧
      (∀ t ∈ adopted, (t.state = .ready ∨ ∃ c, t.state = .blocked c) ∧ t.blockedAt = 0) ∧
      (children = [] → adopted = []) := by
  induction children generalizing q with
  | nil =>
      refine ⟨[], ?_, rfl, fun _ ht => absurd ht List.not_mem_nil, fun _ => rfl⟩
      simp only [Quantum.adopt, QuantumEnd.quantum, List.length_nil, Nat.add_zero, List.append_nil]
  | cons child children ih =>
      simp only [Quantum.adopt]
      split
      · obtain ⟨adopted, heq, hids, hstates, _⟩ := ih
          { q with
            shared := { q.shared with nextThreadId := q.shared.nextThreadId + 1 }
            spawned := q.spawned ++ [.fromSuspended q.shared.nextThreadId child] }
        refine ⟨.fromSuspended q.shared.nextThreadId child :: adopted, ?_, ?_, fun t ht => ?_, nofun⟩
        · rw [heq, List.length_cons]
          simp only [Nat.add_assoc, Nat.add_comm 1, List.append_assoc, List.singleton_append]
        · rw [List.map_cons, hids, List.length_cons, List.range'_succ]
          rfl
        · rcases List.mem_cons.mp ht with rfl | ht
          · exact ⟨state_fromSuspended _ child, rfl⟩
          · exact hstates t ht
      · refine ⟨[], ?_, rfl, fun _ ht => absurd ht List.not_mem_nil, fun _ => rfl⟩
        simp only [QuantumEnd.quantum, List.length_nil, Nat.add_zero, List.append_nil]

/-- An instruction that ends well waits for no channel, or has done nothing but to ask for the
wait, for an operation that cannot go on. -/
theorem dispatch_parks {env : Env} {fuel : Nat} {inst : Instruction} {u v : VmState} {c : HeapId}
    (hu : u.blockedChannel = none) (h : dispatch env (nestedAt env fuel) inst u = .ok () v)
    (hv : v.blockedChannel = some c) :
    v = { u with blockedChannel := some c } ∧ Stuck inst u c := by
  have hspec := wp_ok (anyRules.dispatch_spec (anyRules.soundNested env fuel) env inst u) h
  rcases hspec with hkeep | ⟨c', rfl, hstuck⟩
  · rw [(hkeep hu).2] at hv
    cases hv
  · cases hv
    exact ⟨rfl, hstuck⟩

/-- What a quantum from `q` to `q'` leaves of a thread and of the state shared with others. -/
structure Ran (q q' : Quantum) : Prop where
  id : q'.thread.id = q.thread.id
  state : q'.thread.state = .running ∨ ∃ c, q'.thread.state = .blocked c ∧
    CannotProceed q'.shared q'.thread c
  progress : q.shared.progress ≤ q'.shared.progress
  idle : q'.result = .ok () → q'.shared.progress = q.shared.progress → q'.shared = q.shared
  nextThreadId : q.shared.nextThreadId ≤ q'.shared.nextThreadId
  spawned : ∃ new, q'.spawned = q.spawned ++ new ∧ (new.map (·.id)).Nodup ∧
    (∀ t ∈ new, q.shared.nextThreadId ≤ t.id ∧ t.id < q'.shared.nextThreadId) ∧
    ∀ t ∈ new, t.state = .ready ∨ ∃ c, t.state = .blocked c ∧
      (q'.result = .ok () → t.blockedAt < q'.shared.progress)

theorem moveBack_cases {q q' : Quantum} {vm : VmState} (h : (q.moveBack vm).quantum = q') :
    ∃ adopted, q' = { q with
        shared := { q.shared.moveBack vm with
          nextThreadId := q.shared.nextThreadId + adopted.length }
        thread := q.thread.moveBack vm
        spawned := q.spawned ++ adopted } ∧
      adopted.map (·.id) = List.range' q.shared.nextThreadId adopted.length ∧
      (∀ t ∈ adopted, (t.state = .ready ∨ ∃ c, t.state = .blocked c) ∧ t.blockedAt = 0) ∧
      (vm.threadQueue = [] → adopted = []) := by
  obtain ⟨adopted, heq, hadopted⟩ := adopt_cases
    { q with shared := q.shared.moveBack vm, thread := q.thread.moveBack vm } vm.threadQueue
  exact ⟨adopted, h.symm.trans heq, hadopted⟩

/-- The ids an instruction gives out are new and distinct. -/
theorem ids_range {n : Nat} {adopted : List VmThread}
    (h : adopted.map (·.id) = List.range' n adopted.length) :
    (adopted.map (·.id)).Nodup ∧ ∀ t ∈ adopted, n ≤ t.id ∧ t.id < n + adopted.length := by
  refine ⟨h ▸ List.nodup_range', fun t ht => ?_⟩
  have hmem : t.id ∈ List.range' n adopted.length := h ▸ List.mem_map_of_mem ht
  rw [List.mem_range'_1] at hmem
  omega

/-- A thread that has parked is where it was, on an operation that cannot go on. -/
theorem cannotProceed_park {shared : SharedState} {t : VmThread} {inst : Instruction}
    {u : VmState} {c c' : HeapId} {n : Nat} (hfetch : (shared.tempVm t).fetch = some inst)
    (hbegin : begin inst (shared.tempVm t) = .ok () u) (hstuck : Stuck inst u c) :
    let v := { u with blockedChannel := some c' }
    shared.moveBack v = shared ∧
      CannotProceed shared { t.moveBack v with state := .blocked c', blockedAt := n } c := by
  obtain ⟨hbegun, src, mid, dst, immSrc, immMid, immDst, nextPc, rfl⟩ := begin_cases hbegin
  refine ⟨rfl, inst, _, hfetch, ?_, hstuck⟩
  exact ⟨hbegun.source, hbegun.middle, hbegun.destination, rfl, rfl, rfl, rfl, fun _ => rfl, rfl, rfl⟩

/-- A quantum that ends before its first instruction. -/
theorem Ran.stop {q q' : Quantum} (hstate : q'.thread.state = .running)
    (hid : q'.thread.id = q.thread.id) (hshared : q'.shared = q.shared)
    (hspawned : q'.spawned = q.spawned) : Ran q q' where
  id := hid
  state := .inl hstate
  progress := by rw [hshared]
  idle _ _ := hshared
  nextThreadId := by rw [hshared]
  spawned := by
    refine ⟨[], ?_, List.nodup_nil, fun t ht => ?_, fun t ht => ?_⟩
    · rw [hspawned, List.append_nil]
    · cases ht
    · cases ht

/-- An instruction that gives its thread back to the pool, in whatever state. -/
theorem Ran.of_moveBack {q q₁ q' : Quantum} {vm : VmState} (h : (q.moveBack vm).quantum = q₁)
    (hthread : q'.thread.id = q₁.thread.id) (hnext : q'.shared.nextThreadId = q₁.shared.nextThreadId)
    (hspawned : q'.spawned = q₁.spawned)
    (hstate : q'.thread.state = .running ∨ ∃ c, q'.thread.state = .blocked c ∧
      CannotProceed q'.shared q'.thread c)
    (hprogress : q.shared.progress ≤ q'.shared.progress)
    (hidle : q'.result = .ok () → q'.shared.progress = q.shared.progress → q'.shared = q.shared)
    (hchildren : vm.threadQueue ≠ [] → q'.result = .ok () → 0 < q'.shared.progress) : Ran q q' := by
  obtain ⟨adopted, rfl, hids, hstates, hnone⟩ := moveBack_cases h
  obtain ⟨hnodup, hrange⟩ := ids_range hids
  refine ⟨hthread, hstate, hprogress, hidle, ?_, adopted, hspawned, hnodup, ?_, fun t ht => ?_⟩
  · rw [hnext]
    exact Nat.le_add_right _ _
  · rw [hnext]
    exact hrange
  · obtain ⟨hready | ⟨c, hc⟩, hat⟩ := hstates t ht
    · exact .inl hready
    · refine .inr ⟨c, hc, fun hok => ?_⟩
      rw [hat]
      refine hchildren (fun hqueue => ?_) hok
      rw [hnone hqueue] at ht
      cases ht

theorem Ran.trans {q q₁ q' : Quantum} (h : Ran q q₁) (h' : Ran q₁ q')
    (hprogress : q.shared.progress < q₁.shared.progress) (hok : q₁.result = .ok ()) : Ran q q' := by
  obtain ⟨new, hnew, hnodup, hrange, hstates⟩ := h.spawned
  obtain ⟨new', hnew', hnodup', hrange', hstates'⟩ := h'.spawned
  have hlt := Nat.lt_of_lt_of_le hprogress h'.progress
  refine ⟨h'.id.trans h.id, h'.state, Nat.le_of_lt hlt, fun _ heq => absurd heq (by omega),
    Nat.le_trans h.nextThreadId h'.nextThreadId, new ++ new', ?_, ?_, fun t ht => ?_, fun t ht => ?_⟩
  · rw [hnew', hnew, List.append_assoc]
  · rw [List.map_append]
    refine List.nodup_append.mpr ⟨hnodup, hnodup', ?_⟩
    rintro a ha b hb rfl
    obtain ⟨t, ht, rfl⟩ := List.mem_map.mp ha
    obtain ⟨t', ht', heq⟩ := List.mem_map.mp hb
    have := (hrange t ht).2
    have := (hrange' t' ht').1
    omega
  · have hnext := h.nextThreadId
    have hnext' := h'.nextThreadId
    rcases List.mem_append.mp ht with ht | ht
    · have := hrange t ht
      omega
    · have := hrange' t ht
      omega
  · rcases List.mem_append.mp ht with ht | ht
    · rcases hstates t ht with hready | ⟨c, hc, hat⟩
      · exact .inl hready
      · exact .inr ⟨c, hc, fun _ => Nat.lt_of_lt_of_le (hat hok) h'.progress⟩
    · exact hstates' t ht

/-- A quantum that ends with a wait leaves the shared state alone. -/
theorem Ran.park {q q₁ : Quantum} {inst : Instruction} {u : VmState} {c : HeapId}
    (hfetch : (q.shared.tempVm q.thread).fetch = some inst)
    (hbegin : begin inst (q.shared.tempVm q.thread) = .ok () u) (hstuck : Stuck inst u c)
    (hback : (q.moveBack { u with blockedChannel := some c }).quantum = q₁) :
    Ran q { q₁ with thread := { q₁.thread with state := .blocked c } } := by
  obtain ⟨hshared, hcannot⟩ :=
    @cannotProceed_park _ _ _ _ _ c q.thread.blockedAt hfetch hbegin hstuck
  have hqueue : u.threadQueue = [] := congrArg Shared.threadQueue (begin_cases hbegin).1.shared
  obtain ⟨adopted, hq₁, _, _, hnone⟩ := moveBack_cases hback
  obtain rfl := hnone hqueue
  rw [hshared] at hq₁
  subst hq₁
  exact ⟨rfl, .inr ⟨c, rfl, hcannot⟩, Nat.le_refl _, fun _ _ => rfl, Nat.le_refl _, [], rfl,
    List.nodup_nil, fun _ ht => absurd ht List.not_mem_nil, fun _ ht => absurd ht List.not_mem_nil⟩

/-- A quantum that ends with a retired instruction or with a fault. -/
theorem Ran.instruction {q q₁ : Quantum} {vm : VmState} (hback : (q.moveBack vm).quantum = q₁)
    (hstate : q.thread.state = .running) {t : VmThread} (hid : t.id = q₁.thread.id)
    (ht : t.state = q₁.thread.state) {n : Nat} {result : Except ExecError Unit}
    (hn : result = .ok () → 0 < n) :
    Ran q { q₁ with
      thread := t, result := result
      shared := { q₁.shared with progress := q₁.shared.progress + n } } := by
  obtain ⟨adopted, hq₁, _⟩ := moveBack_cases hback
  have hsame : q₁.thread.state = .running ∧ q₁.shared.progress = q.shared.progress := by
    subst hq₁
    exact ⟨hstate, rfl⟩
  refine .of_moveBack hback hid rfl rfl (.inl (ht.trans hsame.1)) ?_ (fun hok heq => ?_)
    fun _ hok => ?_
  · simp only [hsame.2]
    exact Nat.le_add_right _ _
  · have := hn hok
    simp only [hsame.2] at heq
    omega
  · exact Nat.lt_of_lt_of_le (hn hok) (Nat.le_add_left _ _)

/-- What a quantum from `q` that panics in `q'` leaves behind: fresh ids for the threads that go
with it. -/
structure Unwound (q q' : Quantum) : Prop where
  progress : q.shared.progress ≤ q'.shared.progress
  nextThreadId : q.shared.nextThreadId ≤ q'.shared.nextThreadId
  spawned : ∃ new, q'.spawned = q.spawned ++ new ∧ (new.map (·.id)).Nodup ∧
    ∀ t ∈ new, q.shared.nextThreadId ≤ t.id ∧ t.id < q'.shared.nextThreadId

theorem Unwound.here {q q' : Quantum} (hprogress : q'.shared.progress = q.shared.progress)
    (hnext : q'.shared.nextThreadId = q.shared.nextThreadId) (hspawned : q'.spawned = q.spawned) :
    Unwound q q' where
  progress := Nat.le_of_eq hprogress.symm
  nextThreadId := Nat.le_of_eq hnext.symm
  spawned := ⟨[], by rw [hspawned, List.append_nil], List.nodup_nil, fun _ ht => nomatch ht⟩

theorem Unwound.of_moveBack {q q' : Quantum} {vm : VmState} (h : (q.moveBack vm).quantum = q') :
    Unwound q q' := by
  obtain ⟨adopted, rfl, hids, _⟩ := moveBack_cases h
  obtain ⟨hnodup, hrange⟩ := ids_range hids
  exact ⟨Nat.le_refl _, Nat.le_add_right _ _, adopted, rfl, hnodup, hrange⟩

theorem Unwound.trans {q q₁ q' : Quantum} (h : Unwound q q₁) (h' : Unwound q₁ q') : Unwound q q' := by
  obtain ⟨new, hnew, hnodup, hrange⟩ := h.spawned
  obtain ⟨new', hnew', hnodup', hrange'⟩ := h'.spawned
  have hnext := h.nextThreadId
  have hnext' := h'.nextThreadId
  refine ⟨Nat.le_trans h.progress h'.progress, Nat.le_trans hnext hnext', new ++ new', ?_, ?_,
    fun t ht => ?_⟩
  · rw [hnew', hnew, List.append_assoc]
  · rw [List.map_append]
    refine List.nodup_append.mpr ⟨hnodup, hnodup', ?_⟩
    rintro a ha b hb rfl
    obtain ⟨t, ht, rfl⟩ := List.mem_map.mp ha
    obtain ⟨t', ht', heq⟩ := List.mem_map.mp hb
    have := (hrange t ht).2
    have := (hrange' t' ht').1
    omega
  · rcases List.mem_append.mp ht with ht | ht
    · have := hrange t ht
      omega
    · have := hrange' t ht
      omega

/-- A retired instruction, as far as the ids go. -/
theorem Unwound.instruction {q q₁ : Quantum} {vm : VmState} (hback : (q.moveBack vm).quantum = q₁)
    (t : VmThread) : Unwound q { q₁ with
      thread := t, shared := { q₁.shared with progress := q₁.shared.progress + 1 } } := by
  have h := Unwound.of_moveBack hback
  exact ⟨Nat.le_trans h.progress (Nat.le_succ _), h.nextThreadId, h.spawned⟩

theorem unwound_runThreadQuantaShared {env : Env} {nested : Nested} {n : Nat} {q q' : Quantum}
    (h : runThreadQuantaShared env nested n q = some (.panicked q')) : Unwound q q' := by
  induction n generalizing q with
  | zero => cases h
  | succ n ih =>
      simp only [runThreadQuantaShared] at h
      split at h
      · cases h
      split at h
      · cases h
      split at h
      · cases h
      · cases h
        exact .here rfl rfl rfl
      · split at h
        · next hback =>
            cases h
            exact .of_moveBack (congrArg QuantumEnd.quantum hback)
        · cases h
      · split at h
        · next hback =>
            cases h
            exact .of_moveBack (congrArg QuantumEnd.quantum hback)
        · next q₁ hback =>
            split at h
            · cases h
            · exact (Unwound.instruction (congrArg QuantumEnd.quantum hback) _).trans (ih h)

/-- The invariant of a quantum: one instruction after the other. -/
theorem ran_runThreadQuantaShared {env : Env} {fuel n : Nat} {q q' : Quantum}
    (hstate : q.thread.state = .running) (hresult : q.result = .ok ())
    (h : runThreadQuantaShared env (nestedAt env fuel) n q = some (.stopped q')) : Ran q q' := by
  induction n generalizing q with
  | zero =>
      cases h
      exact .stop hstate rfl rfl rfl
  | succ n ih =>
      simp only [runThreadQuantaShared] at h
      split at h
      · cases h
        exact .stop hstate rfl rfl rfl
      split at h
      · cases h
        exact .stop hstate rfl rfl rfl
      next inst hfetch =>
      split at h
      · cases h
      · cases h
      · next e vm hrun =>
          split at h
          · cases h
          next q₁ hback =>
          cases h
          exact .instruction (n := 0) (congrArg QuantumEnd.quantum hback) hstate rfl rfl nofun
      · next vm hrun =>
          split at h
          · cases h
          next q₁ hback =>
          have hback := congrArg QuantumEnd.quantum hback
          obtain ⟨_, u, hbegin, hdisp⟩ := bind_eq_ok.mp hrun
          have hu : u.blockedChannel = none := (begin_cases hbegin).1.blocked
          split at h
          · next c hblocked =>
              cases h
              obtain ⟨rfl, hstuck⟩ := dispatch_parks hu hdisp hblocked
              exact .park hfetch hbegin hstuck hback
          · obtain ⟨adopted, hq₁, _⟩ := moveBack_cases hback
            have hkept : q₁.thread.state = .running ∧ q₁.result = .ok () ∧
                q₁.shared.progress = q.shared.progress := by
              have hq₁ : q₁ = _ := hq₁
              rw [hq₁]
              exact ⟨hstate, hresult, rfl⟩
            have hstep := @Ran.instruction _ _ _ hback hstate
              { q₁.thread with pc := q₁.thread.nextPc } rfl rfl 1 q₁.result fun _ => Nat.one_pos
            refine hstep.trans (ih hkept.1 hkept.2.1 h) ?_ hkept.2.1
            change _ < q₁.shared.progress + 1
            rw [hkept.2.2]
            exact Nat.lt_succ_self _

end RiceVM
