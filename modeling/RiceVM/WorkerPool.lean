import Mathlib.Data.List.Perm.Basic
import Mathlib.Data.List.InsertIdx
import RiceVM.Preemptive

/-!
The pool of the preemptive scheduler over whole runs: where every thread is, and what a
reported deadlock means.
-/
namespace RiceVM

/-- The threads in a worker's hands. -/
def Worker.threads : Worker → List VmThread
  | .holding t => [t]
  | .returning t spawned _ _ => t :: spawned
  | .seeking | .waiting | .ended _ | .died => []

/-- The worker has taken a thread and not returned it, as the pool counts. -/
def Worker.busy : Worker → Bool
  | .holding _ | .returning .. | .died => true
  | .seeking | .waiting | .ended _ => false

@[simp]
theorem Worker.threads_wake (w : Worker) : w.wake.threads = w.threads := by
  cases w <;> rfl

@[simp]
theorem Worker.busy_wake (w : Worker) : w.wake.busy = w.busy := by
  cases w <;> rfl

@[simp]
theorem Worker.threads_next (result : Except ExecError Unit) : (Worker.next result).threads = [] := by
  cases result <;> rfl

@[simp]
theorem Worker.busy_next (result : Except ExecError Unit) : (Worker.next result).busy = false := by
  cases result <;> rfl

/-- If a thread parked at `count` is blocked and no instruction has retired since, its operation
cannot go on. -/
def SharedState.Parked (shared : SharedState) (t : VmThread) (count : Nat) : Prop :=
  ∀ c, t.state = .blocked c →
    count ≤ shared.progress ∧ (count = shared.progress → CannotProceed shared t c)

/-- A quantum that ended well either retired an instruction or left the shared state alone. -/
theorem SharedState.Parked.mono {shared shared' : SharedState} {t : VmThread} {count : Nat}
    (h : shared.Parked t count) (hprogress : shared.progress ≤ shared'.progress)
    (hidle : shared'.progress = shared.progress → shared' = shared) : shared'.Parked t count := by
  intro c hc
  obtain ⟨hle, hcannot⟩ := h c hc
  refine ⟨Nat.le_trans hle hprogress, fun heq => ?_⟩
  have hsame : shared'.progress = shared.progress := by omega
  rw [hidle hsame] at heq ⊢
  exact hcannot heq

/-- The states of a thread in the queue. -/
def VmThread.Queueable (t : VmThread) : Prop :=
  t.state = .ready ∨ (∃ c, t.state = .blocked c) ∨ t.state = .exited ∧ t.halted = true

theorem Worker.threads_of_idle {w : Worker} (h : w.busy = false) : w.threads = [] := by
  cases w with
  | holding | returning | died => cases h
  | seeking | waiting | ended => rfl

/-- A worker that moves on leaves those that have died. -/
theorem Worker.died_mem {workers rest : List Worker} {w w' : Worker} (h : workers = w :: rest)
    (hw : w ≠ .died) (hdied : .died ∈ workers) : .died ∈ w' :: rest :=
  List.mem_cons_of_mem _ (List.mem_of_ne_of_mem (Ne.symm hw) (h ▸ hdied))

/-- What a worker that looks for a thread finds. -/
theorem seek_cases {pool pool' : ThreadPool} {w : Worker} (h : pool.seek = (pool', w)) :
    (pool.shutdown = true ∧ pool' = pool ∧ w = .ended (.ok ())) ∨
      pool.shutdown = false ∧ ∃ live, live = pool.queue.filter (·.state ≠ ThreadState.exited) ∧
        ((∃ (idx : Nat) (t : VmThread), live[idx]? = some t ∧ w = .holding { t with state := .running } ∧
            pool' = { pool with queue := live.eraseIdx idx, running := pool.running + 1 }) ∨
          (pool.running = 0 ∧ live = [] ∧ w = .ended (.ok ()) ∧ pool' = { pool with queue := live }) ∨
          (pool.running = 0 ∧ (∀ t ∈ live, pool.isRunnable t = false) ∧
            w = .ended (.error deadlockFault) ∧
            pool' = { pool with queue := live, shutdown := true }) ∨
          (0 < pool.running ∧ w = .waiting ∧ pool' = { pool with queue := live })) := by
  simp only [ThreadPool.seek] at h
  split at h
  · next hshut =>
      cases h
      exact .inl ⟨hshut, rfl, rfl⟩
  · next hshut =>
      refine .inr ⟨Bool.eq_false_iff.mpr hshut, _, rfl, ?_⟩
      split at h
      · next idx hfound =>
          obtain ⟨hidx, _⟩ := List.findIdx?_eq_some_iff_getElem.mp hfound
          rw [List.getElem?_eq_getElem hidx] at h
          cases h
          exact .inl ⟨idx, _, List.getElem?_eq_getElem hidx, rfl, rfl⟩
      · next hnone =>
          have hwaits := List.findIdx?_eq_none_iff.mp hnone
          split at h
          · next hrunning =>
              split at h
              · next hempty =>
                  cases h
                  exact .inr (.inl ⟨hrunning, List.isEmpty_iff.mp hempty, rfl, rfl⟩)
              · cases h
                exact .inr (.inr (.inl ⟨hrunning, hwaits, rfl, rfl⟩))
          · next hrunning =>
              cases h
              exact .inr (.inr (.inr ⟨Nat.pos_of_ne_zero hrunning, rfl, rfl⟩))

/-- What a worker returns may go back to the queue, parked since the count it saw. -/
theorem VmThread.returned_queueable {t : VmThread} (epoch : Nat)
    (h : t.state = .running ∨ ∃ c, t.state = .blocked c) :
    (t.returned epoch).id = t.id ∧ (t.returned epoch).Queueable ∧
      ∀ {shared : SharedState}, shared.Parked t epoch →
        shared.Parked (t.returned epoch) (t.returned epoch).blockedAt := by
  simp only [VmThread.returned]
  split
  · next hhalted => exact ⟨rfl, .inr (.inr ⟨rfl, hhalted⟩), fun _ _ hc => nomatch hc⟩
  · rcases h with h | ⟨c, h⟩
    · rw [h]
      exact ⟨rfl, .inl rfl, fun _ _ hc => nomatch hc⟩
    · rw [h]
      exact ⟨rfl, .inr (.inl ⟨c, rfl⟩), fun hparked c' hc => hparked c' (h.trans hc)⟩

namespace PreemptiveScheduler

/-- The threads in the pool's queue and in the workers' hands. -/
def threads (s : PreemptiveScheduler) : List VmThread :=
  s.pool.queue ++ s.workers.flatMap Worker.threads

/-- What holds of a worker, given the state it shares with the others. -/
def WorkerOk (s : PreemptiveScheduler) : Worker → Prop
  | .seeking => True
  | .waiting => 0 < s.pool.running
  | .holding t => t.state = .running
  | .returning t spawned result epoch =>
    (t.state = .running ∨ ∃ c, t.state = .blocked c) ∧ (∀ u ∈ spawned, u.Queueable) ∧
    epoch ≤ s.shared.progress ∧ (result = .ok () ∨ s.faulted = true) ∧
    (s.faulted = false → s.shared.Parked t epoch ∧ ∀ u ∈ spawned, s.shared.Parked u u.blockedAt)
  | .ended (.ok _) => s.pool.shutdown = true ∨ s.pool.running = 0 ∧ s.pool.queue = []
  | .ended (.error e) => e = deadlockFault ∧ s.pool.shutdown = true ∨ s.faulted = true
  | .died => s.faulted = true

structure Inv (s : PreemptiveScheduler) : Prop where
  nodup : s.issued.Nodup
  below : ∀ id ∈ s.issued, id < s.shared.nextThreadId
  accounted : (s.finished ++ s.lost ++ s.threads.map (·.id)).Perm s.issued
  survivors : .died ∉ s.workers → s.lost = []
  running : s.pool.running = s.workers.countP Worker.busy
  queued : ∀ t ∈ s.pool.queue, t.Queueable
  parked : s.faulted = false → ∀ t ∈ s.pool.queue, s.shared.Parked t t.blockedAt
  worker : ∀ w ∈ s.workers, s.WorkerOk w
  /-- A worker that retired instructions has told the pool, or is about to. -/
  progress : s.pool.progress ≤ s.shared.progress ∧ (s.faulted = false →
    s.pool.progress = s.shared.progress ∨
      ∃ t spawned result, .returning t spawned result s.shared.progress ∈ s.workers)
  shutdown : s.pool.shutdown = true → s.pool.running = 0 ∧
    ∀ t ∈ s.pool.queue, ∃ c, t.state = .blocked c ∧ s.pool.progress ≤ t.blockedAt

variable {s : PreemptiveScheduler}

/-- The invariant does not depend on which worker is which. -/
theorem Inv.perm {workers : List Worker} (h : s.Inv) (hperm : s.workers.Perm workers) :
    { s with workers := workers }.Inv where
  nodup := h.nodup
  below := h.below
  accounted := by
    refine .trans (.append_left _ (.map _ (.append_left _ ?_))) h.accounted
    exact (hperm.flatMap_right _).symm
  survivors hdied := h.survivors fun hmem => hdied (hperm.mem_iff.mp hmem)
  running := h.running.trans (hperm.countP_eq _)
  queued := h.queued
  parked := h.parked
  worker w hw := h.worker w (hperm.mem_iff.mpr hw)
  progress := by
    refine ⟨h.progress.1, fun hf => (h.progress.2 hf).imp_right ?_⟩
    rintro ⟨t, spawned, result, hmem⟩
    exact ⟨t, spawned, result, hperm.mem_iff.mp hmem⟩
  shutdown := h.shutdown

/-- A worker that wakes up finds nothing else changed. -/
theorem Inv.wake (h : s.Inv) : { s with workers := s.workers.map Worker.wake }.Inv where
  nodup := h.nodup
  below := h.below
  accounted := by
    have hsame : (s.workers.map Worker.wake).flatMap Worker.threads =
        s.workers.flatMap Worker.threads := by
      simp only [List.flatMap_map, Worker.threads_wake]
    simpa only [threads, hsame] using h.accounted
  survivors hdied := h.survivors fun hmem => hdied (List.mem_map.mpr ⟨_, hmem, rfl⟩)
  running := by
    rw [h.running, List.countP_map]
    exact List.countP_congr fun w _ => by simp only [Function.comp, Worker.busy_wake]
  queued := h.queued
  parked := h.parked
  worker w hw := by
    obtain ⟨w, hmem, rfl⟩ := List.mem_map.mp hw
    cases w with
    | waiting => trivial
    | seeking | holding | returning | ended | died => exact h.worker _ hmem
  progress := by
    refine ⟨h.progress.1, fun hf => (h.progress.2 hf).imp_right ?_⟩
    rintro ⟨t, spawned, result, hmem⟩
    exact ⟨t, spawned, result, List.mem_map.mpr ⟨_, hmem, rfl⟩⟩
  shutdown := h.shutdown

/-- A worker's place in the list, apart from the order. -/
theorem perm_set {workers : List Worker} {i : Nat} {w : Worker} (h : workers[i]? = some w)
    (w' : Worker) : ∃ rest, workers.Perm (w :: rest) ∧ (workers.set i w').Perm (w' :: rest) ∧
      ((workers.map Worker.wake).set i w').Perm (w' :: rest.map Worker.wake) := by
  obtain ⟨hi, rfl⟩ := List.getElem?_eq_some_iff.mp h
  refine ⟨workers.eraseIdx i, (List.getElem_cons_eraseIdx_perm hi).symm,
    List.set_perm_cons_eraseIdx hi w', ?_⟩
  have hi' : i < (workers.map Worker.wake).length := by
    rw [List.length_map]
    exact hi
  rw [← List.eraseIdx_map]
  exact List.set_perm_cons_eraseIdx hi' w'

/-- A busy worker rules out that the pool has shut down or run out of threads. -/
theorem Inv.running_pos (h : s.Inv) {w : Worker} (hw : w ∈ s.workers) (hbusy : w.busy = true) :
    0 < s.pool.running := by
  rw [h.running]
  exact List.countP_pos_iff.mpr ⟨w, hw, hbusy⟩

theorem Inv.initial (h : s.Initial) : s.Inv := by
  have hthreads : s.workers.flatMap Worker.threads = [] := by
    refine List.flatMap_eq_nil_iff.mpr fun w hw => ?_
    rw [h.workers w hw]
    rfl
  refine ⟨?_, ?_, ?_, fun _ => h.lost, ?_, fun t ht => .inl (h.ready t ht), fun _ t ht c hc => ?_,
    fun w hw => ?_, ⟨Nat.le_of_eq h.progress, fun _ => .inl h.progress⟩, fun hshut => ?_⟩
  · rw [h.issued]
    exact h.ids
  · rw [h.issued]
    intro id hid
    obtain ⟨t, ht, rfl⟩ := List.mem_map.mp hid
    exact h.below t ht
  · rw [h.finished, h.lost, threads, hthreads, List.append_nil, List.append_nil, h.issued]
    exact .refl _
  · rw [h.running]
    symm
    refine List.countP_eq_zero.mpr fun w hw => ?_
    rw [h.workers w hw]
    exact Bool.false_ne_true
  · rw [h.ready t ht] at hc
    cases hc
  · rw [h.workers w hw]
    trivial
  · rw [h.shutdown] at hshut
    cases hshut

section Spawned
variable {new : List VmThread} {next : Nat}

/-- The ids given out in a quantum are new. -/
theorem Inv.nodup_spawned (h : s.Inv) (hnodup : (new.map (·.id)).Nodup)
    (hrange : ∀ t ∈ new, s.shared.nextThreadId ≤ t.id ∧ t.id < next) :
    (s.issued ++ new.map (·.id)).Nodup := by
  refine List.nodup_append.mpr ⟨h.nodup, hnodup, ?_⟩
  rintro id hid _ hid' rfl
  obtain ⟨u, hu, rfl⟩ := List.mem_map.mp hid'
  have := h.below _ hid
  have := (hrange u hu).1
  omega

theorem Inv.below_spawned (h : s.Inv) (hnext : s.shared.nextThreadId ≤ next)
    (hrange : ∀ t ∈ new, s.shared.nextThreadId ≤ t.id ∧ t.id < next) :
    ∀ id ∈ s.issued ++ new.map (·.id), id < next := by
  intro id hid
  rcases List.mem_append.mp hid with hid | hid
  · exact Nat.lt_of_lt_of_le (h.below id hid) hnext
  · obtain ⟨u, hu, rfl⟩ := List.mem_map.mp hid
    exact (hrange u hu).2

end Spawned

/-- A quantum keeps what holds of the worker's own thread and of all others. -/
theorem Inv.run {t : VmThread} {rest : List Worker} {q : Quantum} (h : s.Inv)
    (hworkers : s.workers = .holding t :: rest) (hran : Ran ⟨s.shared, t, [], .ok ()⟩ q) :
    { s with
      shared := q.shared
      workers := .returning q.thread q.spawned q.result q.shared.progress :: rest
      issued := s.issued ++ q.spawned.map fun (u : VmThread) => u.id
      faulted := s.faulted || (match q.result with | .ok _ => false | .error _ => true) }.Inv := by
  obtain ⟨new, hnew, hnodup, hrange, hstates⟩ := hran.spawned
  obtain rfl : q.spawned = new := hnew
  have hprogress : s.shared.progress ≤ q.shared.progress := hran.progress
  have hpos : 0 < s.pool.running := h.running_pos (hworkers ▸ List.mem_cons_self) rfl
  have hok : (s.faulted || (match q.result with | .ok _ => false | .error _ => true)) = false →
      s.faulted = false ∧ q.result = .ok () := by
    cases q.result with
    | ok u => exact fun hf => ⟨(Bool.or_eq_false_iff.mp hf).1, rfl⟩
    | error e => exact fun hf => nomatch (Bool.or_eq_false_iff.mp hf).2
  have hmono {u : VmThread} {count : Nat} (hq : q.result = .ok ()) (hu : s.shared.Parked u count) :
      q.shared.Parked u count := hu.mono hprogress (hran.idle hq)
  refine ⟨?_, fun id hid => ?_, ?_, fun hdied => ?_, ?_, h.queued, fun hf t ht => ?_, fun w hw => ?_,
    ⟨Nat.le_trans h.progress.1 hprogress, fun _ => .inr ⟨_, _, _, List.mem_cons_self⟩⟩,
    fun hshut => absurd (h.shutdown hshut).1 (Nat.ne_of_gt hpos)⟩
  · exact h.nodup_spawned hnodup hrange
  · exact h.below_spawned hran.nextThreadId hrange id hid
  · refine List.perm_iff_count.mpr fun id => ?_
    have hcount := h.accounted.count_eq id
    have hid : q.thread.id = t.id := hran.id
    simp only [threads, hworkers, List.flatMap_cons, Worker.threads, List.map_append, List.map_cons,
      List.map_nil, List.count_append, List.count_cons, List.count_nil, hid] at hcount ⊢
    omega
  · exact h.survivors fun hmem => hdied (Worker.died_mem hworkers nofun hmem)
  · rw [h.running, hworkers, List.countP_cons, List.countP_cons]
    rfl
  · exact hmono (hok hf).2 (h.parked (hok hf).1 t ht)
  · rcases List.mem_cons.mp hw with rfl | hw
    · refine ⟨?_, fun u hu => ?_, Nat.le_refl _, ?_, fun hf => ⟨fun c hc => ⟨Nat.le_refl _, fun _ => ?_⟩,
        fun u hu c hc => ?_⟩⟩
      · rcases hran.state with hrunning | ⟨c, hc, _⟩
        · exact .inl hrunning
        · exact .inr ⟨c, hc⟩
      · rcases hstates u hu with hready | ⟨c, hc, _⟩
        · exact .inl hready
        · exact .inr (.inl ⟨c, hc⟩)
      · cases q.result with
        | ok u => exact .inl rfl
        | error e => exact .inr (Bool.or_true _)
      · rcases hran.state with hrunning | ⟨c', hc', hcannot⟩
        · rw [hrunning] at hc
          cases hc
        · rw [hc'] at hc
          cases hc
          exact hcannot
      · rcases hstates u hu with hready | ⟨c', _, hlt⟩
        · rw [hready] at hc
          cases hc
        · have := hlt (hok hf).2
          exact ⟨Nat.le_of_lt this, fun heq => absurd heq (Nat.ne_of_lt this)⟩
    · have hworker := h.worker w (hworkers ▸ List.mem_cons_of_mem _ hw)
      cases w with
      | seeking | waiting | holding => exact hworker
      | returning u spawned result epoch =>
          obtain ⟨hstate, hspawned, hepoch, hfault, hparked⟩ := hworker
          refine ⟨hstate, hspawned, Nat.le_trans hepoch hprogress, ?_, fun hf => ?_⟩
          · exact hfault.imp_right fun hf => by rw [hf, Bool.true_or]
          · obtain ⟨hu, hchildren⟩ := hparked (hok hf).1
            exact ⟨hmono (hok hf).2 hu, fun v hv => hmono (hok hf).2 (hchildren v hv)⟩
      | ended result =>
          cases result with
          | ok => exact hworker
          | error e => exact hworker.imp_right fun hf => by rw [hf, Bool.true_or]
      | died =>
          have hf : s.faulted = true := hworker
          exact by rw [WorkerOk, hf, Bool.true_or]

/-- A panic takes the worker, its thread and what that had spawned, and nothing else. -/
theorem Inv.panic {t : VmThread} {rest : List Worker} {q : Quantum} (h : s.Inv)
    (hworkers : s.workers = .holding t :: rest) (hrun : Unwound ⟨s.shared, t, [], .ok ()⟩ q) :
    { s with
      shared := q.shared
      workers := .died :: rest
      issued := s.issued ++ q.spawned.map fun (u : VmThread) => u.id
      lost := s.lost ++ t.id :: q.spawned.map fun (u : VmThread) => u.id
      faulted := true }.Inv := by
  obtain ⟨new, hnew, hnodup, hrange⟩ := hrun.spawned
  obtain rfl : q.spawned = new := hnew
  have hprogress : s.shared.progress ≤ q.shared.progress := hrun.progress
  have hpos : 0 < s.pool.running := h.running_pos (hworkers ▸ List.mem_cons_self) rfl
  refine ⟨h.nodup_spawned hnodup hrange, h.below_spawned hrun.nextThreadId hrange, ?_,
    fun hdied => absurd List.mem_cons_self hdied, ?_, h.queued, nofun, fun w hw => ?_,
    ⟨Nat.le_trans h.progress.1 hprogress, nofun⟩,
    fun hshut => absurd (h.shutdown hshut).1 (Nat.ne_of_gt hpos)⟩
  · refine List.perm_iff_count.mpr fun id => ?_
    have hcount := h.accounted.count_eq id
    simp only [threads, hworkers, List.flatMap_cons, Worker.threads, List.nil_append, List.map_append,
      List.map_cons, List.map_nil, List.count_append, List.count_cons, List.count_nil] at hcount ⊢
    omega
  · rw [h.running, hworkers, List.countP_cons, List.countP_cons]
    rfl
  · rcases List.mem_cons.mp hw with rfl | hw
    · rfl
    · have hworker := h.worker w (hworkers ▸ List.mem_cons_of_mem _ hw)
      cases w with
      | seeking | waiting | holding => exact hworker
      | returning u spawned result epoch =>
          obtain ⟨hstate, hspawned, hepoch, _⟩ := hworker
          exact ⟨hstate, hspawned, Nat.le_trans hepoch hprogress, .inr rfl, nofun⟩
      | ended result =>
          cases result with
          | ok => exact hworker
          | error e => exact .inr rfl
      | died => rfl

/-- A worker that returns its thread wakes every other. -/
theorem Inv.giveBack {t : VmThread} {spawned : List VmThread} {result : Except ExecError Unit}
    {epoch : Nat} {rest : List Worker} (h : s.Inv)
    (hworkers : s.workers = .returning t spawned result epoch :: rest) (hrest : .waiting ∉ rest) :
    { s with
      pool := s.pool.giveBack t spawned epoch
      workers := .next result :: rest }.Inv := by
  have hpos : 0 < s.pool.running := h.running_pos (hworkers ▸ List.mem_cons_self) rfl
  obtain ⟨hstate, hspawned, hepoch, hfault, hparked⟩ := h.worker _ (hworkers ▸ List.mem_cons_self)
  obtain ⟨hid, hqueueable, hstill⟩ := VmThread.returned_queueable epoch hstate
  refine ⟨h.nodup, h.below, ?_, fun hdied => ?_, ?_, fun u hu => ?_, fun hf u hu => ?_, fun w hw => ?_,
    ?_,
    fun hshut => absurd (h.shutdown hshut).1 (Nat.ne_of_gt hpos)⟩
  · refine List.perm_iff_count.mpr fun id => ?_
    have hcount := h.accounted.count_eq id
    simp only [threads, hworkers, List.flatMap_cons, Worker.threads, List.map_append, List.map_cons,
      List.count_append, List.count_cons] at hcount
    simp only [threads, ThreadPool.giveBack, List.flatMap_cons, Worker.threads_next, List.nil_append,
      List.map_append, List.map_cons, List.count_append, List.count_cons, hid]
    omega
  · exact h.survivors fun hmem => hdied (Worker.died_mem hworkers nofun hmem)
  · have hrunning := h.running
    rw [hworkers, List.countP_cons] at hrunning
    simp only [ThreadPool.giveBack, hrunning, List.countP_cons, Worker.busy_next]
    rfl
  · rcases List.mem_append.mp hu with hu | hu
    · exact h.queued u hu
    · rcases List.mem_cons.mp hu with rfl | hu
      · exact hqueueable
      · exact hspawned u hu
  · rcases List.mem_append.mp hu with hu | hu
    · exact h.parked hf u hu
    · rcases List.mem_cons.mp hu with rfl | hu
      · exact hstill (hparked hf).1
      · exact (hparked hf).2 u hu
  · rcases List.mem_cons.mp hw with rfl | hw
    · cases result with
      | ok => trivial
      | error e => exact .inr (hfault.resolve_left nofun)
    · have hworker := h.worker w (hworkers ▸ List.mem_cons_of_mem _ hw)
      cases w with
      | seeking | holding | returning | died => exact hworker
      | waiting => exact absurd hw hrest
      | ended result =>
          cases result with
          | error e => exact hworker
          | ok =>
              refine .inl (hworker.elim id fun hnone => ?_)
              exact absurd hnone.1 (Nat.ne_of_gt hpos)
  · refine ⟨Nat.max_le.mpr ⟨h.progress.1, hepoch⟩, fun hf => ?_⟩
    rcases h.progress.2 hf with heq | ⟨t', spawned', result', hmem⟩
    · exact .inl ((Nat.max_eq_left (Nat.le_trans hepoch (Nat.le_of_eq heq.symm))).trans heq)
    · rw [hworkers, List.mem_cons] at hmem
      rcases hmem with heq | hmem
      · cases heq
        exact .inl (Nat.max_eq_right h.progress.1)
      · exact .inr ⟨t', spawned', result', List.mem_cons_of_mem _ hmem⟩

/-- A thread that has exited is dropped, and counts as finished. -/
theorem Inv.retain (h : s.Inv) (hshut : s.pool.shutdown = false) :
    { s with
      pool := { s.pool with queue := s.pool.queue.filter (·.state ≠ ThreadState.exited) }
      finished := s.finished ++ s.pool.dropped.map fun (u : VmThread) => u.id }.Inv where
  nodup := h.nodup
  below := h.below
  accounted := by
    have hdropped : s.pool.dropped = s.pool.queue.filter (·.state = ThreadState.exited) := by
      rw [ThreadPool.dropped, if_neg (Bool.eq_false_iff.mp hshut)]
    refine List.perm_iff_count.mpr fun id => ?_
    have hcount := h.accounted.count_eq id
    have hsplit := ((List.filter_append_perm (fun t => decide (t.state = ThreadState.exited))
      s.pool.queue).map fun t => t.id).count_eq id
    simp only [threads, hdropped, List.map_append, List.count_append, decide_not] at hcount hsplit ⊢
    omega
  survivors := h.survivors
  running := h.running
  queued t ht := h.queued t (List.mem_of_mem_filter ht)
  parked hf t ht := h.parked hf t (List.mem_of_mem_filter ht)
  worker w hw := by
    have hworker := h.worker w hw
    cases w with
    | seeking | waiting | holding | returning | died => exact hworker
    | ended result =>
        cases result with
        | error e => exact hworker
        | ok =>
            refine hworker.imp_right fun hnone => ⟨hnone.1, ?_⟩
            simp only [hnone.2, List.filter_nil]
  progress := h.progress
  shutdown hshut' := absurd (hshut.symm.trans hshut') Bool.false_ne_true

/-- A worker without a thread moves on without taking one. -/
theorem Inv.idle {w w' : Worker} {rest : List Worker} (h : s.Inv) (hworkers : s.workers = w :: rest)
    (hw : w.busy = false) (hw' : w'.busy = false) (hok : s.WorkerOk w') :
    { s with workers := w' :: rest }.Inv where
  nodup := h.nodup
  below := h.below
  accounted := by
    have haccounted := h.accounted
    rw [threads, hworkers, List.flatMap_cons, Worker.threads_of_idle hw] at haccounted
    rw [threads, List.flatMap_cons, Worker.threads_of_idle hw']
    exact haccounted
  survivors hdied := by
    refine h.survivors fun hmem => hdied (Worker.died_mem hworkers ?_ hmem)
    rintro rfl
    cases hw
  running := by
    rw [h.running, hworkers, List.countP_cons, List.countP_cons, hw, hw']
  queued := h.queued
  parked := h.parked
  worker v hv := by
    rcases List.mem_cons.mp hv with rfl | hv
    · exact hok
    · exact h.worker v (hworkers ▸ List.mem_cons_of_mem _ hv)
  progress := by
    refine ⟨h.progress.1, fun hf => (h.progress.2 hf).imp_right ?_⟩
    rintro ⟨t, spawned, result, hmem⟩
    rw [hworkers] at hmem
    rcases List.mem_cons.mp hmem with rfl | hmem
    · cases hw
    · exact ⟨t, spawned, result, List.mem_cons_of_mem _ hmem⟩
  shutdown := h.shutdown

/-- A worker takes a thread. -/
theorem Inv.take {idx : Nat} {t : VmThread} {rest : List Worker} (h : s.Inv)
    (hshut : s.pool.shutdown = false) (hworkers : s.workers = .seeking :: rest)
    (ht : s.pool.queue[idx]? = some t) :
    { s with
      pool := { s.pool with queue := s.pool.queue.eraseIdx idx, running := s.pool.running + 1 }
      workers := .holding { t with state := .running } :: rest }.Inv where
  nodup := h.nodup
  below := h.below
  accounted := by
    obtain ⟨hidx, rfl⟩ := List.getElem?_eq_some_iff.mp ht
    refine List.perm_iff_count.mpr fun id => ?_
    have hcount := h.accounted.count_eq id
    have hsplit := ((List.getElem_cons_eraseIdx_perm hidx).map fun t => t.id).count_eq id
    simp only [threads, hworkers, List.flatMap_cons, Worker.threads, List.nil_append, List.map_append,
      List.map_cons, List.map_nil, List.count_append, List.count_cons, List.count_nil] at hcount hsplit ⊢
    omega
  survivors hdied := by
    exact h.survivors fun hmem => hdied (Worker.died_mem hworkers nofun hmem)
  running := by
    simp only [h.running, hworkers, List.countP_cons]
    rfl
  queued u hu := h.queued u (List.mem_of_mem_eraseIdx hu)
  parked hf u hu := h.parked hf u (List.mem_of_mem_eraseIdx hu)
  worker w hw := by
    rcases List.mem_cons.mp hw with rfl | hw
    · rfl
    · have hworker := h.worker w (hworkers ▸ List.mem_cons_of_mem _ hw)
      cases w with
      | seeking | holding | returning | died => exact hworker
      | waiting => exact Nat.succ_pos _
      | ended result =>
          cases result with
          | error e => exact hworker
          | ok =>
              rcases hworker with hshut' | ⟨_, hnone⟩
              · exact .inl hshut'
              · rw [hnone] at ht
                cases ht
  progress := by
    refine ⟨h.progress.1, fun hf => (h.progress.2 hf).imp_right ?_⟩
    rintro ⟨u, spawned, result, hmem⟩
    rw [hworkers] at hmem
    rcases List.mem_cons.mp hmem with hnone | hmem
    · cases hnone
    · exact ⟨u, spawned, result, List.mem_cons_of_mem _ hmem⟩
  shutdown hshut' := absurd (hshut.symm.trans hshut') Bool.false_ne_true

/-- The pool shuts down once nothing runs and nothing in the queue is worth another try. -/
theorem Inv.shutDown (h : s.Inv) (hrunning : s.pool.running = 0)
    (hwaits : ∀ t ∈ s.pool.queue, t.state ≠ .exited ∧ s.pool.isRunnable t = false) :
    { s with pool := { s.pool with shutdown := true } }.Inv where
  nodup := h.nodup
  below := h.below
  accounted := h.accounted
  survivors := h.survivors
  running := h.running
  queued := h.queued
  parked := h.parked
  worker w hw := by
    have hworker := h.worker w hw
    cases w with
    | seeking | waiting | holding | returning | died => exact hworker
    | ended result =>
        cases result with
        | ok => exact .inl rfl
        | error e => exact hworker.imp_left fun hdead => ⟨hdead.1, rfl⟩
  progress := h.progress
  shutdown _ := by
    refine ⟨hrunning, fun t ht => ?_⟩
    obtain ⟨hlive, hwait⟩ := hwaits t ht
    rcases h.queued t ht with hready | ⟨c, hblocked⟩ | ⟨hexited, _⟩
    · rw [ThreadPool.isRunnable, hready] at hwait
      cases hwait
    · rw [ThreadPool.isRunnable, hblocked] at hwait
      exact ⟨c, hblocked, Nat.not_lt.mp (of_decide_eq_false hwait)⟩
    · exact absurd hexited hlive

theorem Inv.seek {pool : ThreadPool} {w : Worker} {rest : List Worker} (h : s.Inv)
    (hworkers : s.workers = .seeking :: rest) (hseek : s.pool.seek = (pool, w)) :
    { s with
      pool := pool, workers := w :: rest
      finished := s.finished ++ s.pool.dropped.map fun (u : VmThread) => u.id }.Inv := by
  rcases seek_cases hseek with ⟨hshut, rfl, rfl⟩ | ⟨hshut, live, rfl, hfound⟩
  · have hdropped : s.pool.dropped = [] := if_pos hshut
    rw [hdropped, List.map_nil, List.append_nil]
    exact h.idle hworkers rfl rfl (.inl hshut)
  · have hlive := h.retain hshut
    rcases hfound with ⟨idx, t, ht, rfl, rfl⟩ | ⟨hrunning, hnone, rfl, rfl⟩ |
      ⟨hrunning, hwaits, rfl, rfl⟩ | ⟨hrunning, rfl, rfl⟩
    · exact hlive.take hshut hworkers ht
    · exact hlive.idle hworkers rfl rfl (.inr ⟨hrunning, hnone⟩)
    · refine (hlive.shutDown hrunning fun t ht => ⟨?_, hwaits t ht⟩).idle hworkers rfl rfl
        (.inl ⟨rfl, rfl⟩)
      exact of_decide_eq_true (List.mem_filter.mp ht).2
    · exact hlive.idle hworkers rfl rfl hrunning

/-- Every step keeps the invariant, whichever worker takes it. -/
theorem Inv.step {s' : PreemptiveScheduler} {i : Nat} (h : s.Inv) (hstep : Step s i s') :
    s'.Inv := by
  cases hstep with
  | @seek pool w hi hseek =>
      obtain ⟨rest, hperm, hset, hwake⟩ := perm_set hi w
      split
      · exact ((h.perm hperm).seek rfl hseek).perm hset.symm
      · exact ((h.perm hperm).wake.seek rfl hseek).perm hwake.symm
  | @run t env fuel q hi hrun =>
      obtain ⟨rest, hperm, hset, _⟩ :=
        perm_set hi (.returning q.thread q.spawned q.result q.shared.progress)
      have hstate : t.state = .running := h.worker _ (List.mem_of_getElem? hi)
      have hran := ran_runThreadQuantaShared (q := ⟨s.shared, t, [], .ok ()⟩) hstate rfl hrun
      exact ((h.perm hperm).run rfl hran).perm hset.symm
  | @panic t env fuel q hi hrun =>
      obtain ⟨rest, hperm, hset, _⟩ := perm_set hi .died
      exact ((h.perm hperm).panic rfl (unwound_runThreadQuantaShared hrun)).perm hset.symm
  | @giveBack t spawned result epoch hi =>
      obtain ⟨rest, hperm, _, hwake⟩ := perm_set hi (.next result)
      refine ((h.perm hperm).wake.giveBack rfl fun hmem => ?_).perm hwake.symm
      obtain ⟨w, _, hw⟩ := List.mem_map.mp hmem
      cases w <;> cases hw
  | wake hi =>
      obtain ⟨rest, hperm, hset, _⟩ := perm_set hi .seeking
      exact (@Inv.idle _ .waiting .seeking rest (h.perm hperm) rfl rfl rfl trivial).perm hset.symm

theorem Reachable.inv (h : s.Reachable) : s.Inv := by
  induction h with
  | initial hinit => exact .initial hinit
  | step _ hstep ih => exact ih.step hstep

/-- Every thread there was is in one place: finished, lost to a panic, in the queue (ready, blocked
or about to be dropped) or in the hands of one worker. -/
structure Accounted (s : PreemptiveScheduler) : Prop where
  distinct : s.issued.Nodup
  once : (s.finished ++ s.lost ++
    (s.pool.queue ++ s.workers.flatMap Worker.threads).map (·.id)).Perm s.issued
  queued : ∀ t ∈ s.pool.queue,
    t.state = .ready ∨ (∃ c, t.state = .blocked c) ∨ t.state = .exited ∧ t.halted = true

/-- No thread is left but in the queue, blocked on an operation that cannot go on. -/
structure Deadlocked (s : PreemptiveScheduler) : Prop where
  idle : ∀ w ∈ s.workers, w.threads = []
  blocked : ∀ t ∈ s.pool.queue, ∃ c, t.state = .blocked c ∧ CannotProceed s.shared t c

/-- Nothing but a parked thread is left in a pool that has shut down without a fault. -/
theorem Inv.deadlocked (h : s.Inv) (hshut : s.pool.shutdown = true) (hfault : s.faulted = false) :
    s.Deadlocked := by
  obtain ⟨hrunning, hblocked⟩ := h.shutdown hshut
  have hidle : ∀ w ∈ s.workers, w.busy = false := fun w hw => by
    refine Bool.eq_false_iff.mpr fun hbusy => ?_
    exact absurd hrunning (Nat.ne_of_gt (h.running_pos hw hbusy))
  have hprogress : s.pool.progress = s.shared.progress := by
    refine (h.progress.2 hfault).resolve_right ?_
    rintro ⟨t, spawned, result, hmem⟩
    cases hidle _ hmem
  refine ⟨fun w hw => Worker.threads_of_idle (hidle w hw), fun t ht => ?_⟩
  obtain ⟨c, hc, hat⟩ := hblocked t ht
  obtain ⟨hle, hcannot⟩ := h.parked hfault t ht c hc
  exact ⟨c, hc, hcannot (Nat.le_antisymm hle (hprogress ▸ hat))⟩

/-- One step of worker `i`, and none if it has ended or its quantum never does. -/
def turn (env : Env) (fuel : Nat) (s : PreemptiveScheduler) (i : Nat) : Option PreemptiveScheduler :=
  match s.workers[i]? with
  | some .seeking =>
    let (pool, w) := s.pool.seek
    some { s with
      pool := pool
      workers := (if pool.shutdown = s.pool.shutdown then s.workers
        else s.workers.map Worker.wake).set i w
      finished := s.finished ++ s.pool.dropped.map (·.id) }
  | some .waiting => some { s with workers := s.workers.set i .seeking }
  | some (.holding t) =>
    match runThreadQuantaShared env (nestedAt env fuel) DEFAULT_QUANTA ⟨s.shared, t, [], .ok ()⟩ with
    | some (.stopped q) =>
      some { s with
        shared := q.shared
        workers := s.workers.set i (.returning q.thread q.spawned q.result q.shared.progress)
        issued := s.issued ++ q.spawned.map (·.id)
        faulted := s.faulted || (match q.result with | .ok _ => false | .error _ => true) }
    | some (.panicked q) =>
      some { s with
        shared := q.shared
        workers := s.workers.set i .died
        issued := s.issued ++ q.spawned.map (·.id)
        lost := s.lost ++ t.id :: q.spawned.map (·.id)
        faulted := true }
    | none => none
  | some (.returning t spawned result epoch) =>
    some { s with
      pool := s.pool.giveBack t spawned epoch
      workers := (s.workers.map Worker.wake).set i (.next result) }
  | some (.ended _) | some .died | none => none

theorem Step.of_turn {env : Env} {fuel i : Nat} {s' : PreemptiveScheduler}
    (h : s.turn env fuel i = some s') : Step s i s' := by
  unfold turn at h
  split at h
  · next hi =>
      cases h
      exact .seek hi rfl
  · next hi =>
      cases h
      exact .wake hi
  · next t hi =>
      split at h
      · next hrun =>
          cases h
          exact .run hi hrun
      · next hrun =>
          cases h
          exact .panic hi hrun
      · cases h
  · next hi =>
      cases h
      exact .giveBack hi
  · cases h
  · cases h
  · cases h

/-- The workers take their steps in the order given. -/
def turns (env : Env) (fuel : Nat) : List Nat → PreemptiveScheduler → Option PreemptiveScheduler
  | [], s => some s
  | i :: order, s => (s.turn env fuel i).bind (turns env fuel order)

theorem Reachable.of_turns {env : Env} {fuel : Nat} {order : List Nat} {s' : PreemptiveScheduler}
    (h : s.Reachable) (hturns : turns env fuel order s = some s') : s'.Reachable := by
  induction order generalizing s with
  | nil =>
      cases hturns
      exact h
  | cons i order ih =>
      obtain ⟨t, hturn, hrest⟩ := Option.bind_eq_some_iff.mp hturns
      exact ih (.step h (.of_turn hturn)) hrest

/-- A pool of workers and the first thread of a program. -/
def start (vm : VmState) (workers : Nat) : PreemptiveScheduler where
  shared :=
    { module := vm.module, heap := vm.heap, modules := vm.modules, loadedModules := []
      gcEnabled := vm.gcEnabled, gcCounter := 0, nextThreadId := 2, progress := 0 }
  pool :=
    { queue := [.fromSuspended 1
        { frames := vm.frames, mp := vm.mp, pc := vm.pc, pid := 1, heapRefs := [], lastError := ""
          currentLoadedModule := none, callerMpStack := [], blockedOn := none, thread := 1 }]
      running := 0, progress := 0, shutdown := false }
  workers := List.replicate workers .seeking
  issued := [1]
  finished := []
  lost := []
  faulted := false

theorem initial_start (vm : VmState) (workers : Nat) : (start vm workers).Initial where
  workers _ hw := List.eq_of_mem_replicate hw
  ready t ht := by
    cases List.mem_singleton.mp ht
    rfl
  ids := List.nodup_singleton 1
  below t ht := by
    cases List.mem_singleton.mp ht
    exact Nat.lt_succ_self 1
  running := rfl
  progress := rfl
  shutdown := rfl
  issued := rfl
  finished := rfl
  lost := rfl
  faulted := rfl

/-- A program under a pool of workers that take their steps in the given order. -/
def after (module : Module) (workers : Nat) (order : List Nat) : Option PreemptiveScheduler := do
  let vm ← VmState.withArgs [] true module []
  turns .bare 1 order (start vm workers)

theorem reachable_after {module : Module} {workers : Nat} {order : List Nat}
    {p : PreemptiveScheduler → Bool} (h : (after module workers order).any p = true) :
    ∃ s : PreemptiveScheduler, s.Reachable ∧ p s = true := by
  obtain ⟨s, hs, hp⟩ : ∃ s, after module workers order = some s ∧ p s = true := by
    cases hs : after module workers order with
    | none => rw [hs] at h; cases h
    | some s => rw [hs] at h; exact ⟨s, rfl, h⟩
  simp only [after, Option.bind_eq_bind, Option.bind_eq_some_iff] at hs
  obtain ⟨vm, _, hturns⟩ := hs
  exact ⟨s, .of_turns (.initial (initial_start vm workers)) hturns, hp⟩

/-- Whatever the number of workers and however their steps interleave, no thread is duplicated, and
none is lost but to a panic, which takes the thread its worker ran and what that had spawned since it
was taken. A worker sleeps only while another has a thread or has panicked. Until a thread faults, a
worker ends only when no thread is left or every thread is blocked for good. -/
theorem worker_pool_accounts (h : s.Reachable) :
    s.Accounted ∧ (.died ∉ s.workers → s.lost = []) ∧
    (.waiting ∈ s.workers → (∃ w ∈ s.workers, w.threads ≠ []) ∨ .died ∈ s.workers) ∧
    (s.faulted = false →
      (s.pool.shutdown = true → s.Deadlocked) ∧
      (∀ e, .ended (.error e) ∈ s.workers → e = deadlockFault ∧ s.Deadlocked) ∧
      (.ended (.ok ()) ∈ s.workers → s.Deadlocked ∨ s.finished.Perm s.issued)) := by
  have hinv := h.inv
  refine ⟨⟨hinv.nodup, hinv.accounted, hinv.queued⟩, hinv.survivors, fun hwait => ?_, fun hfault =>
    ⟨fun hshut => hinv.deadlocked hshut hfault, fun e he => ?_, fun hok => ?_⟩⟩
  · have hrunning : 0 < s.pool.running := hinv.worker _ hwait
    rw [hinv.running] at hrunning
    obtain ⟨w, hw, hbusy⟩ := List.countP_pos_iff.mp hrunning
    cases w with
    | holding | returning => exact .inl ⟨_, hw, List.cons_ne_nil _ _⟩
    | died => exact .inr hw
    | seeking | waiting | ended => cases hbusy
  · rcases hinv.worker _ he with ⟨rfl, hshut⟩ | hf
    · exact ⟨rfl, hinv.deadlocked hshut hfault⟩
    · rw [hfault] at hf
      cases hf
  · rcases hinv.worker _ hok with hshut | ⟨hrunning, hnone⟩
    · exact .inl (hinv.deadlocked hshut hfault)
    · have hbusy : ∀ w ∈ s.workers, w.busy = false := fun w hw => by
        refine Bool.eq_false_iff.mpr fun hbusy => ?_
        exact absurd hrunning (Nat.ne_of_gt (hinv.running_pos hw hbusy))
      have hidle : s.workers.flatMap Worker.threads = [] :=
        List.flatMap_eq_nil_iff.mpr fun w hw => Worker.threads_of_idle (hbusy w hw)
      have hlost : s.lost = [] := hinv.survivors fun hdied => nomatch hbusy _ hdied
      have haccounted := hinv.accounted
      rw [threads, hlost, hidle, hnone, List.append_nil, List.append_nil, List.map_nil,
        List.append_nil] at haccounted
      exact .inr haccounted

/-- A thread that waits for a value nobody sends. -/
def waitForever : Module :=
  .ofCode "m" [⟨.newcw, .unused, .unused, .mp 0⟩, ⟨.recv, .mp 0, .unused, .fp 40⟩] 4

/-- Some worker has ended with the fault. -/
def reports (e : ExecError) (s : PreemptiveScheduler) : Bool :=
  s.workers.any fun w =>
    match w with
    | .ended (.error e') => decide (e' = e)
    | _ => false

theorem of_reports {e : ExecError} (h : s.reports e = true) : .ended (.error e) ∈ s.workers := by
  obtain ⟨w, hw, htest⟩ := List.any_eq_true.mp h
  split at htest
  · rw [← of_decide_eq_true htest]
    exact hw
  · cases htest

theorem worker_pool_accounts_waitForever :
    ∃ s : PreemptiveScheduler, s.Reachable ∧ .ended (.error deadlockFault) ∈ s.workers ∧ s.Deadlocked := by
  have hrun : (after waitForever 2 [1, 1, 1, 0]).any
      (fun s => s.reports deadlockFault && !s.faulted) = true := by decide +kernel
  obtain ⟨s, hreach, htest⟩ := reachable_after hrun
  obtain ⟨hreports, hfault⟩ := Bool.and_eq_true_iff.mp htest
  refine ⟨s, hreach, of_reports hreports, ?_⟩
  have haccounts := (worker_pool_accounts hreach).2.2.2 (Bool.eq_false_iff.mpr fun hf => ?_)
  · exact (haccounts.2.1 _ (of_reports hreports)).2
  · rw [hf] at hfault
    cases hfault

/-- A thread that receives into an immediate operand, and another that sends it two values. -/
def receiveNowhere : Module :=
  .ofCode "m" [
    ⟨.newcw, .unused, .unused, .mp 0⟩,
    ⟨.frame, .imm 0, .unused, .fp 48⟩,
    ⟨.spawn, .fp 48, .unused, .imm 5⟩,
    ⟨.recv, .mp 0, .unused, .imm 0⟩,
    ⟨.exit, .unused, .unused, .unused⟩,
    ⟨.send, .imm 1, .unused, .mp 0⟩,
    ⟨.send, .imm 2, .unused, .mp 0⟩,
    ⟨.exit, .unused, .unused, .unused⟩] 4

/-- A thread that spawns another, which asks for a record of minus one byte. -/
def spawnsNegative : Module :=
  { Module.ofCode "m" [
      ⟨.frame, .imm 0, .unused, .fp 48⟩,
      ⟨.spawn, .fp 48, .unused, .imm 3⟩,
      ⟨.exit, .unused, .unused, .unused⟩,
      ⟨.new, .imm 1, .unused, .fp 48⟩] 4 with
    types := [⟨0, 64, [], 0⟩, ⟨1, -1, [], 0⟩] }

/-- The worker has panicked or sleeps. -/
def hangs : Worker → Bool
  | .died | .waiting => true
  | _ => false

/-- Whether a quantum of the thread, run now, gets it beyond its next instruction. -/
def goesOn (shared : SharedState) (t : VmThread) : Bool :=
  match runThreadQuantaShared .bare (nestedAt .bare 1) 1
      ⟨shared, { t with state := .running }, [], .ok ()⟩ with
  | some (.stopped q) => decide (q.result = .ok () ∧ q.thread.pc = t.pc + 1)
  | some (.panicked _) | none => false

/-- A panic loses the thread, and another worker sleeps on with none to wait for. A fault ends the
worker it happens on, and its thread stays in the queue; by then the instruction may have changed the
shared state without counting as progress. -/
theorem fault_ends_worker :
    (∃ s : PreemptiveScheduler, s.Reachable ∧ s.lost = [2] ∧ s.pool.queue = [] ∧
      s.workers.all hangs = true) ∧
    (∃ s : PreemptiveScheduler, s.Reachable ∧ (∀ w ∈ s.workers, ∃ e, w = .ended (.error e)) ∧
      ∃ t ∈ s.pool.queue, t.state = .ready) ∧
    ∃ s : PreemptiveScheduler, s.Reachable ∧ .ended (.error deadlockFault) ∈ s.workers ∧
      ∃ t ∈ s.pool.queue, (∃ c, t.state = .blocked c) ∧ goesOn s.shared t = true := by
  refine ⟨?_, ?_, ?_⟩
  · have hrun : (after spawnsNegative 2 [0, 0, 0, 0, 0, 1]).any (fun s => decide (s.lost = [2]) &&
        (s.pool.queue.isEmpty && s.workers.all hangs)) = true := by decide +kernel
    obtain ⟨s, hreach, htest⟩ := reachable_after hrun
    obtain ⟨hlost, hrest⟩ := Bool.and_eq_true_iff.mp htest
    obtain ⟨hqueue, hworkers⟩ := Bool.and_eq_true_iff.mp hrest
    exact ⟨s, hreach, of_decide_eq_true hlost, List.isEmpty_iff.mp hqueue, hworkers⟩
  · have hrun : (after receiveNowhere 1 [0, 0, 0, 0, 0, 0, 0, 0, 0]).any (fun s =>
        s.reports (.other "cannot write to immediate") && decide (s.workers.length = 1) &&
          s.pool.queue.any (·.state = .ready)) = true := by decide +kernel
    obtain ⟨s, hreach, htest⟩ := reachable_after hrun
    obtain ⟨hworkers, hqueue⟩ := Bool.and_eq_true_iff.mp htest
    obtain ⟨hreports, hone⟩ := Bool.and_eq_true_iff.mp hworkers
    obtain ⟨w, hw⟩ := List.length_eq_one_iff.mp (of_decide_eq_true hone)
    obtain ⟨t, ht, hready⟩ := List.any_eq_true.mp hqueue
    refine ⟨s, hreach, fun v hv => ⟨.other "cannot write to immediate", ?_⟩, t, ht, of_decide_eq_true hready⟩
    have hended := of_reports hreports
    rw [hw, List.mem_singleton] at hended hv
    rw [hv, ← hended]
  · have hrun : (after receiveNowhere 2 [0, 0, 0, 0, 0, 0, 0, 0, 0, 1, 1, 1, 1]).any (fun s =>
        s.reports deadlockFault &&
          s.pool.queue.any fun t => t.state ≠ .ready && t.state ≠ .running && t.state ≠ .exited &&
            goesOn s.shared t) = true := by decide +kernel
    obtain ⟨s, hreach, htest⟩ := reachable_after hrun
    obtain ⟨hreports, hqueue⟩ := Bool.and_eq_true_iff.mp htest
    obtain ⟨t, ht, hgoes⟩ := List.any_eq_true.mp hqueue
    refine ⟨s, hreach, of_reports hreports, t, ht, ?_⟩
    cases hstate : t.state with
    | ready | running | exited =>
        rw [hstate] at hgoes
        cases hgoes
    | blocked c =>
        rw [hstate] at hgoes
        exact ⟨⟨c, rfl⟩, (Bool.and_eq_true_iff.mp hgoes).2⟩

end PreemptiveScheduler
end RiceVM
