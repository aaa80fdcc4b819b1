import RiceVM.Turns

/-!
Threads over whole runs. Ids are never shared, and a thread goes on in exactly the
context it was last left in: at its creation, or when its last instruction ended.
Rotation, blocking and hand-off keep contexts apart and lose none of them.
-/
namespace RiceVM
open Exec Ops

/-- The context an event leaves thread `i` in. -/
def Event.left (i : Pid) : Event → Option ThreadCtx
  | .spawned j ctx | .stopped j ctx => if j = i then some ctx else none
  | _ => none

def lastLeft (i : Pid) (history : List Event) : Option ThreadCtx :=
  history.findSome? (·.left i)

/-- Every instruction of a thread begins in the context the thread was last left in. -/
def Resumed (history : List Event) : Prop :=
  ∀ i pid halting due ctx older,
    .started i pid halting due ctx :: older <:+ history → lastLeft i older = some ctx

/-- The queued threads have ids of their own and the contexts they were left in. -/
structure Queued (vm : VmState) : Prop where
  nodup : (vm.threadQueue.map (·.thread)).Nodup
  below : ∀ t ∈ vm.threadQueue, t.thread < vm.nextPid
  bound : vm.nextPid ≤ 0x7fffffff
  left : ∀ t ∈ vm.threadQueue, lastLeft t.thread vm.history = some t.ctx
  resumed : Resumed vm.history

/-- The running thread is none of the queued ones. -/
structure Threads (vm : VmState) : Prop extends Queued vm where
  apart : ∀ t ∈ vm.threadQueue, t.thread ≠ vm.thread
  current : vm.thread < vm.nextPid

/-- Between instructions the running thread, too, is in the context it was left in. -/
structure Paused (vm : VmState) : Prop extends Threads vm where
  here : lastLeft vm.thread vm.history = some vm.ctx

/-- The thread stays installed, and a thread that joined the queue has a new id. -/
structure Grown (s t : VmState) : Prop where
  thread : t.thread = s.thread
  joined : ∀ th ∈ t.threadQueue, (∃ th' ∈ s.threadQueue, th'.thread = th.thread) ∨
    s.nextPid ≤ th.thread
  nextPid : s.nextPid ≤ t.nextPid
  history : s.history <:+ t.history

theorem Grown.of_same {s t : VmState} (hthread : t.thread = s.thread)
    (hqueue : t.threadQueue.map (·.thread) = s.threadQueue.map (·.thread))
    (hpid : t.nextPid = s.nextPid) (hhist : s.history <:+ t.history) : Grown s t := by
  refine ⟨hthread, fun th hth => .inl ?_, hpid ▸ BitVec.le_refl _, hhist⟩
  have hmem : th.thread ∈ s.threadQueue.map (·.thread) := hqueue ▸ List.mem_map_of_mem hth
  exact List.mem_map.mp hmem

theorem Grown.refl (s : VmState) : Grown s s :=
  .of_same rfl rfl rfl (List.suffix_refl _)

theorem Grown.trans {s t u : VmState} (a : Grown s t) (b : Grown t u) : Grown s u := by
  refine ⟨b.thread.trans a.thread, fun th hth => ?_, BitVec.le_trans a.nextPid b.nextPid,
    a.history.trans b.history⟩
  rcases b.joined th hth with ⟨th', hth', heq⟩ | hle
  · rw [← heq]
    exact a.joined th' hth'
  · exact .inr (BitVec.le_trans a.nextPid hle)

theorem lastLeft_cons {i : Pid} {e : Event} {history : List Event} (he : e.left i = none) :
    lastLeft i (e :: history) = lastLeft i history := by
  rw [lastLeft, List.findSome?_cons, he]
  rfl

theorem lastLeft_stopped (i : Pid) (ctx : ThreadCtx) (history : List Event) :
    lastLeft i (.stopped i ctx :: history) = some ctx := by
  rw [lastLeft, List.findSome?_cons, Event.left, if_pos rfl]

theorem lastLeft_spawned (i : Pid) (ctx : ThreadCtx) (history : List Event) :
    lastLeft i (.spawned i ctx :: history) = some ctx := by
  rw [lastLeft, List.findSome?_cons, Event.left, if_pos rfl]

theorem Resumed.cons {history : List Event} (h : Resumed history) {e : Event}
    (he : ∀ i pid halting due ctx, e = .started i pid halting due ctx →
      lastLeft i history = some ctx) : Resumed (e :: history) := by
  intro i pid halting due ctx older hsuf
  rcases List.suffix_cons_iff.mp hsuf with heq | hsuf
  · cases heq
    exact he i pid halting due ctx rfl
  · exact h i pid halting due ctx older hsuf

/-- An event that is neither a start nor leaves a thread anywhere. -/
def Event.Neutral (e : Event) : Prop :=
  (∀ i, e.left i = none) ∧ ∀ i pid halting due ctx, e ≠ .started i pid halting due ctx

theorem Queued.same {s t : VmState} (h : Queued s) (hqueue : t.threadQueue = s.threadQueue)
    (hpid : t.nextPid = s.nextPid) (hhist : t.history = s.history) : Queued t := by
  obtain ⟨nodup, below, bound, left, resumed⟩ := h
  exact ⟨hqueue ▸ nodup, by rw [hqueue, hpid]; exact below, hpid ▸ bound,
    by rw [hqueue, hhist]; exact left, hhist ▸ resumed⟩

theorem Threads.same {s t : VmState} (h : Threads s) (hqueue : t.threadQueue = s.threadQueue)
    (hthread : t.thread = s.thread) (hpid : t.nextPid = s.nextPid)
    (hhist : t.history = s.history) : Threads t :=
  ⟨h.toQueued.same hqueue hpid hhist, by rw [hqueue, hthread]; exact h.apart,
    by rw [hthread, hpid]; exact h.current⟩

theorem Paused.same {s t : VmState} (h : Paused s) (hqueue : t.threadQueue = s.threadQueue)
    (hthread : t.thread = s.thread) (hpid : t.nextPid = s.nextPid)
    (hhist : t.history = s.history) (hctx : t.ctx = s.ctx) : Paused t :=
  ⟨h.toThreads.same hqueue hthread hpid hhist, by rw [hthread, hhist, hctx]; exact h.here⟩

theorem Queued.record {s : VmState} (h : Queued s) {e : Event} (he : e.Neutral) :
    Queued (s.record e) :=
  ⟨h.nodup, h.below, h.bound, fun t ht => (lastLeft_cons (he.1 _)).trans (h.left t ht),
    h.resumed.cons fun _ _ _ _ _ heq => absurd heq (he.2 _ _ _ _ _)⟩

theorem Threads.record {s : VmState} (h : Threads s) {e : Event} (he : e.Neutral) :
    Threads (s.record e) := ⟨h.toQueued.record he, h.apart, h.current⟩

/-- Waking threads changes neither their ids nor their contexts. -/
theorem Threads.wake {s : VmState} (h : Threads s) (c : HeapId) :
    Threads (s.unblockChannel c) := by
  have hsame : ∀ t : SuspendedThread,
      (t.unblock c).thread = t.thread ∧ (t.unblock c).ctx = t.ctx := by
    intro t
    unfold SuspendedThread.unblock
    split
    · split <;> exact ⟨rfl, rfl⟩
    · exact ⟨rfl, rfl⟩
  have hold : ∀ t ∈ (s.unblockChannel c).threadQueue,
      ∃ t' ∈ s.threadQueue, t.thread = t'.thread ∧ t.ctx = t'.ctx := by
    intro t ht
    obtain ⟨t', ht', rfl⟩ := List.mem_map.mp ht
    exact ⟨t', ht', hsame t'⟩
  refine ⟨⟨?_, fun t ht => ?_, h.bound, fun t ht => ?_, h.resumed⟩, fun t ht => ?_, h.current⟩
  · have hmap : (s.unblockChannel c).threadQueue.map (·.thread) = s.threadQueue.map (·.thread) := by
      rw [VmState.unblockChannel, List.map_map]
      exact List.map_congr_left fun t _ => (hsame t).1
    exact hmap ▸ h.nodup
  · obtain ⟨t', ht', hthread, _⟩ := hold t ht
    exact hthread ▸ h.below t' ht'
  · obtain ⟨t', ht', hthread, hctx⟩ := hold t ht
    rw [hthread, hctx]
    exact h.left t' ht'
  · obtain ⟨t', ht', hthread, _⟩ := hold t ht
    exact hthread ▸ h.apart t' ht'

theorem grown_wake (s : VmState) (c : HeapId) : Grown s (s.unblockChannel c) := by
  refine .of_same rfl ?_ rfl (List.suffix_refl _)
  rw [VmState.unblockChannel, List.map_map]
  refine List.map_congr_left fun t _ => ?_
  simp only [Function.comp_apply, SuspendedThread.unblock]
  split
  · split <;> rfl
  · rfl

theorem Grown.record (s : VmState) (e : Event) : Grown s (s.record e) :=
  .of_same rfl rfl rfl (List.suffix_cons _ _)

theorem forall_mem_snoc {α : Type} {P : α → Prop} {xs ys : List α} {x : α} (h : ys = xs ++ [x])
    (hold : ∀ y ∈ xs, P y) (hnew : P x) : ∀ y ∈ ys, P y := by
  rw [h]
  exact List.forall_mem_append.mpr ⟨hold, List.forall_mem_singleton.mpr hnew⟩

/-- A new thread gets the next id, which no event and no thread has yet. -/
theorem Threads.enqueue {s : VmState} (h : Threads s) (hpid : s.nextPid ≠ 0x7fffffff)
    {t : VmState} {th : SuspendedThread} (hth : th.thread = s.nextPid)
    (hqueue : t.threadQueue = s.threadQueue ++ [th]) (hthread : t.thread = s.thread)
    (hnext : t.nextPid = s.nextPid + 1)
    (hhist : t.history = .spawned th.thread th.ctx :: s.history) : Threads t := by
  have hbound := h.bound
  have hlt : s.nextPid < s.nextPid + 1 := by bv_omega
  have hne : ∀ t ∈ s.threadQueue, t.thread ≠ th.thread := fun t ht heq =>
    BitVec.lt_irrefl _ (hth ▸ heq ▸ h.below t ht)
  refine ⟨⟨?_, forall_mem_snoc hqueue (fun u hu => ?_) ?_, ?_, forall_mem_snoc hqueue (fun u hu => ?_) ?_, ?_⟩,
    forall_mem_snoc hqueue (fun u hu => ?_) ?_, ?_⟩
  · rw [hqueue, List.map_append, List.nodup_append]
    refine ⟨h.nodup, List.nodup_singleton _, fun a ha b hb heq => ?_⟩
    obtain ⟨u, hu, rfl⟩ := List.mem_map.mp ha
    exact hne u hu (heq.trans (List.mem_singleton.mp hb))
  · exact hnext ▸ BitVec.lt_trans (h.below u hu) hlt
  · exact hnext ▸ hth ▸ hlt
  · rw [hnext]; bv_omega
  · rw [hhist, lastLeft_cons]
    · exact h.left u hu
    · exact if_neg fun heq => hne u hu heq.symm
  · rw [hhist, lastLeft_spawned]
  · rw [hhist]
    exact h.resumed.cons nofun
  · exact hthread ▸ h.apart u hu
  · rw [hthread, hth]
    exact fun heq => BitVec.lt_irrefl _ (heq ▸ h.current)
  · rw [hthread, hnext]
    exact BitVec.lt_trans h.current hlt

/-- An instruction of the running thread begins where the thread was left. -/
theorem Paused.started {s : VmState} (h : Paused s) (due : Bool) (inst : Instruction) :
    Threads (s.started due inst) := by
  refine ⟨⟨h.nodup, h.below, h.bound, fun t ht => (lastLeft_cons rfl).trans (h.left t ht),
    h.resumed.cons fun i pid halting due' ctx heq => ?_⟩, h.apart, h.current⟩
  cases heq
  exact h.here

/-- The end of an instruction leaves the running thread in its new context. -/
theorem Threads.stopped {s : VmState} (h : Threads s) : Paused s.stopped := by
  refine ⟨⟨⟨h.nodup, h.below, h.bound, fun t ht => ?_, h.resumed.cons nofun⟩, h.apart, h.current⟩,
    lastLeft_stopped _ _ _⟩
  have hother : Event.left t.thread (.stopped s.thread s.ctx) = none :=
    if_neg fun heq => h.apart t ht heq.symm
  exact (lastLeft_cons hother).trans (h.left t ht)

theorem grown_started (s : VmState) (due : Bool) (inst : Instruction) :
    Grown s (s.started due inst) := .record s _

theorem grown_stopped (s : VmState) (pc : Nat) : Grown s ({ s with pc := pc } : VmState).stopped :=
  .of_same rfl rfl rfl (List.suffix_cons _ _)

/-- A queued thread that is installed goes on in the context it was left in. -/
theorem Queued.install {s t : VmState} (h : Queued s) {before after : List SuspendedThread}
    {th : SuspendedThread} (hqueue : s.threadQueue = before ++ th :: after)
    (hrest : (before ++ after).Perm t.threadQueue) (hthread : t.thread = th.thread)
    (hctx : t.ctx = th.ctx) (hnext : t.nextPid = s.nextPid) (hhist : t.history = s.history) :
    Paused t := by
  have hperm : (th :: t.threadQueue).Perm s.threadQueue := by
    rw [hqueue]
    exact (hrest.symm.cons th).trans List.perm_middle.symm
  have hmem : th ∈ s.threadQueue := hperm.subset List.mem_cons_self
  have hsub : ∀ u ∈ t.threadQueue, u ∈ s.threadQueue := fun u hu =>
    hperm.subset (List.mem_cons_of_mem th hu)
  have hnodup : ((th :: t.threadQueue).map (·.thread)).Nodup :=
    (hperm.map _).nodup_iff.mpr h.nodup
  obtain ⟨hfresh, hnodup⟩ := List.nodup_cons.mp hnodup
  refine ⟨⟨⟨hnodup, fun u hu => ?_, hnext ▸ h.bound, fun u hu => ?_, hhist ▸ h.resumed⟩,
    fun u hu heq => ?_, ?_⟩, ?_⟩
  · exact hnext ▸ h.below u (hsub u hu)
  · exact hhist ▸ h.left u (hsub u hu)
  · exact hfresh (List.mem_map.mpr ⟨u, hu, heq.trans hthread⟩)
  · rw [hthread, hnext]
    exact h.below th hmem
  · rw [hthread, hhist, hctx]
    exact h.left th hmem

theorem Threads.handOff {s : VmState} (h : Threads s) {idx : Nat} {other : SuspendedThread}
    (hother : s.threadQueue[idx]? = some other) : Paused (RiceVM.handOff other idx s) := by
  obtain ⟨hlt, hget⟩ := List.getElem?_eq_some_iff.mp hother
  have hsplit : s.threadQueue = s.threadQueue.take idx ++ other :: s.threadQueue.drop (idx + 1) := by
    rw [← hget, List.getElem_cons_drop hlt, List.take_append_drop]
  have hrecord : Queued (s.record (.handedOff other.thread)) :=
    h.toQueued.record ⟨fun _ => rfl, nofun⟩
  refine hrecord.install hsplit ?_ rfl rfl rfl rfl
  rw [← List.eraseIdx_eq_take_drop_succ]
  exact .refl _

theorem Queued.resumes {s t : VmState} (h : Queued s) (hr : Resumes s t) : Paused t := by
  cases hr with
  | load hqueue _ _ => exact h.install hqueue List.perm_append_comm rfl rfl rfl rfl

/-- A thread set aside keeps its id and its context. -/
theorem Paused.requeue {s t : VmState} (h : Paused s) {th : SuspendedThread}
    (hqueue : t.threadQueue = s.threadQueue ++ [th]) (hthread : th.thread = s.thread)
    (hctx : th.ctx = s.ctx) (hnext : t.nextPid = s.nextPid) (hhist : t.history = s.history) :
    Queued t := by
  refine ⟨?_, forall_mem_snoc hqueue (fun u hu => ?_) ?_, hnext ▸ h.bound, forall_mem_snoc hqueue (fun u hu => ?_) ?_,
    hhist ▸ h.resumed⟩
  · rw [hqueue, List.map_append, List.nodup_append]
    refine ⟨h.nodup, List.nodup_singleton _, fun a ha b hb heq => ?_⟩
    obtain ⟨u, hu, rfl⟩ := List.mem_map.mp ha
    exact h.apart u hu ((heq.trans (List.mem_singleton.mp hb)).trans hthread)
  · exact hnext ▸ h.below u hu
  · rw [hthread, hnext]; exact h.current
  · exact hhist ▸ h.left u hu
  · rw [hthread, hctx, hhist]; exact h.here

/-- A reader on the host stack is a thread of its own while another one runs. -/
theorem Paused.switchBack {reader u : VmState} (h : Paused u)
    (hapart : ∀ t ∈ u.threadQueue, t.thread ≠ reader.thread) (hne : u.thread ≠ reader.thread)
    (hcurrent : reader.thread < u.nextPid) (blockedOn : Option HeapId) :
    Threads (RiceVM.switchBack reader blockedOn u) := by
  by_cases hhalt : u.halted = true
  · have hqueue : (RiceVM.switchBack reader blockedOn u).threadQueue = u.threadQueue := if_pos hhalt
    exact ⟨h.toQueued.same hqueue rfl rfl, hqueue ▸ hapart, hcurrent⟩
  · have hqueue : (RiceVM.switchBack reader blockedOn u).threadQueue =
        u.threadQueue ++ [u.suspended blockedOn] := if_neg hhalt
    exact ⟨h.requeue hqueue rfl rfl rfl rfl, forall_mem_snoc hqueue hapart hne, hcurrent⟩

theorem Threads.work {s t : VmState} (h : Threads s) (hshared : t.shared = s.shared) :
    Threads t ∧ Grown s t := by
  have hqueue : t.threadQueue = s.threadQueue := congrArg Shared.threadQueue hshared
  have hthread : t.thread = s.thread := congrArg Shared.thread hshared
  have hnext : t.nextPid = s.nextPid := congrArg Shared.nextPid hshared
  have hhist : t.history = s.history := congrArg Shared.history hshared
  refine ⟨h.same hqueue hthread hnext hhist, .of_same hthread (by rw [hqueue]) hnext ?_⟩
  exact hhist ▸ List.suffix_refl _

theorem Threads.transfer {s : VmState} (h : Threads s) (heap : Heap) {e : Event}
    (he : e.Neutral) (c : HeapId) :
    Threads ((({ s with heap := heap } : VmState).record e).unblockChannel c) ∧
      Grown s ((({ s with heap := heap } : VmState).record e).unblockChannel c) := by
  have hheap : Threads { s with heap := heap } := h.same rfl rfl rfl rfl
  have hgrown : Grown s (({ s with heap := heap } : VmState).record e) :=
    .of_same rfl rfl rfl (List.suffix_cons _ _)
  exact ⟨(hheap.record he).wake c, hgrown.trans (grown_wake _ c)⟩

/-- Ids and contexts survive every run of instructions, hand-offs included. -/
theorem threadRules : Rules (fun s t => Threads s → Threads t ∧ Grown s t)
    (fun s t _ => Paused s → Paused t ∧ Grown s t) where
  trans s t u hst htu h := by
    obtain ⟨ht, hgt⟩ := hst h
    obtain ⟨hu, hgu⟩ := htu ht
    exact ⟨hu, hgt.trans hgu⟩
  work s t w h := h.work w.shared
  call s u w moduleIdx _ _ hu huw h := by
    obtain ⟨hthu, hgu⟩ := h.work hu.shared
    obtain ⟨hthw, hgw⟩ := huw hthu
    obtain ⟨ht, hgt⟩ := hthw.work (work_leaveModule (VmState.saveCaller s moduleIdx) moduleIdx w).shared
    exact ⟨ht, (hgu.trans hgw).trans hgt⟩
  fresh s typeId elemSize trace id heap _ h := h.work rfl
  put s c v _ _ h := h.transfer (e := .put c v) _ ⟨fun _ => rfl, nofun⟩ c
  take s c v _ _ h := h.transfer (e := .took c v) _ ⟨fun _ => rfl, nofun⟩ c
  inject s c v h := h.transfer (e := .injected c) _ ⟨fun _ => rfl, nofun⟩ c
  spawn s frames heap childFrames entryPc hpid _ h := by
    have hbound := h.bound
    refine ⟨h.enqueue hpid rfl rfl rfl rfl rfl, rfl, ?_, ?_, List.suffix_cons _ _⟩
    · refine forall_mem_snoc rfl (fun u hu => .inl ⟨u, hu, rfl⟩) (.inr (BitVec.le_refl _))
    · change s.nextPid ≤ s.nextPid + 1
      bv_omega
  nested s halting h := ⟨h.record ⟨fun _ => rfl, nofun⟩, .record s _⟩
  handOff s idx other u b _ _ hother _ hslice h := by
    obtain ⟨hu, hgrown⟩ := hslice (h.handOff hother)
    have hapart : ∀ t ∈ u.threadQueue, t.thread ≠ s.thread := by
      intro t ht heq
      rcases hgrown.joined t ht with ⟨t', ht', heq'⟩ | hle
      · exact h.apart t' (List.eraseIdx_subset ht') (heq'.trans heq)
      · exact absurd h.current (BitVec.not_lt.mpr (heq ▸ hle))
    have hmem : other ∈ s.threadQueue := List.mem_of_getElem? hother
    have hthread : u.thread = other.thread := hgrown.thread
    have hne : u.thread ≠ s.thread := fun heq => h.apart other hmem (hthread.symm.trans heq)
    have hcurrent : s.thread < u.nextPid := by
      have hle : s.nextPid ≤ u.nextPid := hgrown.nextPid
      have hlt := h.current
      bv_omega
    refine ⟨hu.switchBack hapart hne hcurrent b, rfl, fun t ht => ?_, hgrown.nextPid,
      (List.suffix_cons _ _).trans hgrown.history⟩
    have hold : ∀ t ∈ u.threadQueue, (∃ t' ∈ s.threadQueue, t'.thread = t.thread) ∨
        s.nextPid ≤ t.thread := by
      intro t ht
      rcases hgrown.joined t ht with ⟨t', ht', heq⟩ | hle
      · exact .inl ⟨t', List.eraseIdx_subset ht', heq⟩
      · exact .inr hle
    simp only [RiceVM.switchBack] at ht
    split at ht
    · exact hold t ht
    · exact forall_mem_snoc rfl hold (.inl ⟨other, hmem, hthread.symm⟩) t ht
  sliceDone s h := ⟨h, .refl s⟩
  sliceEnd s _ h := ⟨h.same rfl rfl rfl rfl rfl, .of_same rfl rfl rfl (List.suffix_refl _)⟩
  sliceStep s inst u w b _ hstep hrest h := by
    obtain ⟨hu, hgu⟩ := hstep (h.started false inst)
    have hmoved : Threads { u with pc := u.nextPc } := hu.same rfl rfl rfl rfl
    obtain ⟨hw, hgw⟩ := hrest hmoved.stopped
    exact ⟨hw, (((grown_started s false inst).trans hgu).trans (grown_stopped u u.nextPc)).trans hgw⟩
  sliceFault s inst u _ hstep h := by
    obtain ⟨hu, hgu⟩ := hstep (h.started false inst)
    exact ⟨hu.stopped, ((grown_started s false inst).trans hgu).trans (grown_stopped u u.pc)⟩
  sliceBlock s inst u c _ hbegun _ h := by
    obtain ⟨hu, hgu⟩ := (h.started false inst).work hbegun.shared
    exact ⟨hu.stopped, ((grown_started s false inst).trans hgu).trans (grown_stopped u u.pc)⟩

section turns
variable {q : Nat} {s t : VmState}

theorem Paused.wentOn {due : Bool} {inst : Instruction} (h : Paused s)
    (hw : WentOn (fun s t => Threads s → Threads t ∧ Grown s t) inst (s.started due inst) t) :
    Paused t := by
  obtain ⟨u, hu, _, _, rfl⟩ := hw
  have hu := (hu (h.started due inst)).1
  have hmoved : Threads { u with pc := u.nextPc } := hu.same rfl rfl rfl rfl
  exact hmoved.stopped

theorem Paused.blocked {due : Bool} {inst : Instruction} {c : HeapId} (h : Paused s)
    (hw : Blocked inst (s.started due inst) t c) : Paused t := by
  obtain ⟨u, hbegun, _, _, rfl⟩ := hw
  exact ((h.started due inst).work hbegun.shared).1.stopped

theorem Paused.work (h : Paused s) (hw : Work s t) (hctx : t.ctx = s.ctx) : Paused t :=
  h.same (congrArg Shared.threadQueue hw.shared) (congrArg Shared.thread hw.shared)
    (congrArg Shared.nextPid hw.shared) (congrArg Shared.history hw.shared) hctx

theorem Queued.exit (h : Queued s) (entry : String) : Queued (s.exit entry) :=
  (h.record (e := .exited s.currentPid) ⟨fun _ => rfl, nofun⟩).same rfl rfl rfl

theorem Paused.turn {q' : Nat} (h : Paused s)
    (ht : TurnResult (fun s t => Threads s → Threads t ∧ Grown s t) q s (some q') t) :
    Paused t := by
  cases ht with
  | exited entry _ hr => exact (h.toQueued.exit entry).resumes hr
  | fell _ _ => exact h.same rfl rfl rfl rfl rfl
  | wentOn _ _ hw _ ht hctx _ => exact (h.wentOn hw).work ht hctx
  | @rotated _ w _ _ _ _ hw _ hr ht hctx _ =>
      have hpark : Queued (w.park none) := (h.wentOn hw).requeue rfl rfl rfl rfl rfl
      exact (hpark.resumes hr).work ht hctx
  | @blocked _ w _ c _ _ hw hr =>
      have hpark : Queued (w.park (some c)) := (h.blocked hw).requeue rfl rfl rfl rfl rfl
      exact hpark.resumes hr

theorem suffix_wentOn {due : Bool} {inst : Instruction} (h : Paused s)
    (hw : WentOn (fun s t => Threads s → Threads t ∧ Grown s t) inst (s.started due inst) t) :
    s.history <:+ t.history := by
  obtain ⟨u, hu, _, _, rfl⟩ := hw
  have hgrown := (hu (h.started due inst)).2
  exact (((grown_started s due inst).trans hgrown).trans (grown_stopped u u.nextPc)).history

theorem suffix_resumes {u v : VmState} (hr : Resumes u v) : v.history = u.history := by
  cases hr with
  | load _ _ _ => rfl

/-- Nothing is ever taken back from the history. -/
theorem Paused.suffix {r : Option Nat} (h : Paused s)
    (ht : TurnResult (fun s t => Threads s → Threads t ∧ Grown s t) q s r t) :
    s.history <:+ t.history := by
  cases ht with
  | finished entry _ _ => exact List.suffix_cons _ _
  | exited entry _ hr =>
      rw [suffix_resumes hr]
      exact List.suffix_cons _ _
  | fell _ _ => exact List.suffix_refl _
  | @wentOn _ w _ _ _ hw _ hwork _ _ =>
      have hhist : t.history = w.history := congrArg Shared.history hwork.shared
      exact hhist ▸ suffix_wentOn h hw
  | @rotated _ w v _ _ _ hw _ hr hwork _ _ =>
      have hhist : t.history = v.history := congrArg Shared.history hwork.shared
      have hpark : (w.park none).history = w.history := rfl
      rw [hhist, suffix_resumes hr, hpark]
      exact suffix_wentOn h hw
  | blocked _ _ hw hr =>
      obtain ⟨u, hbegun, _, _, rfl⟩ := hw
      have hhist : u.history = (s.started (quantumDue q s) _).history :=
        congrArg Shared.history hbegun.shared
      rw [suffix_resumes hr]
      change s.history <:+ _ :: u.history
      rw [hhist]
      exact (List.suffix_cons _ _).trans (List.suffix_cons _ _)

theorem Paused.finished (h : Paused s)
    (ht : TurnResult (fun s t => Threads s → Threads t ∧ Grown s t) q s none t) : Queued t := by
  cases ht with
  | finished entry _ _ => exact h.toQueued.exit entry

theorem Paused.fault {e : ExecError} (h : Paused s)
    (ht : TurnFault (fun s t => Threads s → Threads t ∧ Grown s t) q s e t) : Queued t := by
  cases ht with
  | exitDeadlock entry _ _ _ => exact (h.toQueued.exit entry).same rfl rfl rfl
  | blockDeadlock _ _ hw _ => exact (h.blocked hw).toQueued
  | invalidPc _ _ => exact h.toQueued
  | @fault inst _ _ _ _ hw _ =>
      obtain ⟨u, hu, _, rfl⟩ := hw
      exact (hu (h.started (quantumDue q s) inst)).1.stopped.toQueued

end turns

theorem Paused.pristine {s : VmState} (hp : s.Pristine) : Paused s := by
  have hnone : ∀ {P : SuspendedThread → Prop}, ∀ t ∈ s.threadQueue, P t := by
    intro P t ht
    rw [hp.queue] at ht
    cases ht
  refine ⟨⟨⟨by rw [hp.queue]; exact List.nodup_nil, hnone, ?_, hnone, ?_⟩, hnone, ?_⟩, ?_⟩
  · rw [hp.nextPid]; decide
  · rw [hp.history]
    intro i pid halting due ctx older hsuf
    rcases List.suffix_cons_iff.mp hsuf with heq | hsuf
    · cases heq
    · cases List.suffix_nil.mp hsuf
  · rw [hp.thread, hp.nextPid]; decide
  · rw [hp.thread, hp.history]
    exact lastLeft_spawned 1 s.ctx []

theorem queued_observed {vm : VmState} (h : Observed vm) : Queued vm :=
  threadRules.observed (I := Paused) (fun _ => .pristine) (fun _ hs ht => hs.turn ht) (fun _ hs => hs.toQueued)
    (fun hs ht => hs.finished ht) (fun hs ht => hs.fault ht) h

end RiceVM
