import RiceVM.Lib.Slot
import RiceVM.Programs
import RiceVM.Threads

/-!
Every channel is a one-place buffer. The puts and takes of a run on one channel
are a run of the buffer, whatever the threads do in between, as long as no
built-in writes into the slot.
-/
namespace RiceVM
open Exec Ops

/-- What an event does to the slot of `c`. -/
def Event.act (c : HeapId) : Event → Option (Slot.Act (List Byte))
  | .put d value => if d = c then some (.put value) else none
  | .took d value => if d = c then some (.take value) else none
  | _ => none

def channelActs (c : HeapId) (history : List Event) : List (Slot.Act (List Byte)) :=
  history.filterMap (·.act c)

/-- The slot of `c` holds what its puts and takes leave in it. A channel that was freed
holds nothing any more, and one that is not allocated yet has no transfers. -/
structure Carries (vm : VmState) (c : HeapId) (slot : Option (List Byte)) : Prop where
  run : Slot.Run (channelActs c vm.history) slot
  holds : ∀ elemSize pending, vm.heap.chan c = some (elemSize, pending) → pending = slot
  fresh : vm.heap.nextId ≤ c → channelActs c vm.history = []

def Delivers (vm : VmState) : Prop :=
  ∀ c, Event.injected c ∉ vm.history → ∃ slot, Carries vm c slot

theorem Delivers.plain {s t : VmState} (h : Delivers s) (hheap : Heap.Plain s.heap t.heap)
    (hhist : t.history = s.history) : Delivers t := by
  intro c hc
  rw [hhist] at hc
  obtain ⟨slot, run, holds, fresh⟩ := h c hc
  refine ⟨slot, by rwa [hhist], fun elemSize pending hch => ?_, fun hle => ?_⟩
  · rcases hheap.chan c with hsame | hnone
    · exact holds elemSize pending (hsame ▸ hch)
    · rw [hnone] at hch; cases hch
  · rw [hhist]
    exact fresh (BitVec.le_trans hheap.nextId hle)

theorem Delivers.work {s t : VmState} (h : Delivers s) (w : Work s t) : Delivers t :=
  h.plain w.heap (congrArg Shared.history w.shared)

theorem Delivers.same {s t : VmState} (h : Delivers s) (hheap : t.heap = s.heap)
    (hhist : t.history = s.history) : Delivers t := h.plain (hheap ▸ .refl _) hhist

theorem Delivers.record {s : VmState} (h : Delivers s) {e : Event} (he : ∀ c, e.act c = none) :
    Delivers (s.record e) := by
  intro c hc
  obtain ⟨slot, run, holds, fresh⟩ := h c fun hmem => hc (List.mem_cons_of_mem e hmem)
  have hacts : channelActs c (s.record e).history = channelActs c s.history :=
    List.filterMap_cons_none (he c)
  exact ⟨slot, hacts.symm ▸ run, holds, hacts.symm ▸ fresh⟩

/-- A transfer that `c`'s slot allows keeps the account of every channel. -/
theorem Delivers.transfer {s : VmState} (h : Delivers s) {c : HeapId} {e : Event}
    {a : Slot.Act (List Byte)} {elemSize : Nat} {pending pending' : Option (List Byte)}
    (hact : ∀ d, e.act d = if c = d then some a else none)
    (hch : s.heap.chan c = some (elemSize, pending)) (hstep : Slot.Step pending a pending') :
    Delivers (({ s with heap := s.heap.setPending c pending' } : VmState).record e) := by
  intro d hd
  obtain ⟨slot, run, holds, fresh⟩ := h d fun hmem => hd (List.mem_cons_of_mem e hmem)
  by_cases hcd : c = d
  · subst hcd
    have hslot : pending = slot := holds elemSize pending hch
    have hacts : channelActs c (e :: s.history) = a :: channelActs c s.history :=
      List.filterMap_cons_some ((hact c).trans (if_pos rfl))
    refine ⟨pending', hacts.symm ▸ .act run (hslot ▸ hstep), fun _ p hp => ?_, fun hle => ?_⟩
    · simp only [VmState.record, Heap.chan_setPending, hch] at hp
      cases hp
      rfl
    · simp only [VmState.record, Heap.nextId_setPending] at hle
      exact absurd (Heap.lt_nextId_of_chan hch) (BitVec.not_lt.mpr hle)
  · have hacts : channelActs d (e :: s.history) = channelActs d s.history :=
      List.filterMap_cons_none ((hact d).trans (if_neg hcd))
    refine ⟨slot, hacts.symm ▸ run, fun n p hp => holds n p ?_, fun hle => ?_⟩
    · simpa only [VmState.record, Heap.chan_setPending, if_neg (Ne.symm hcd)] using hp
    · simp only [VmState.record, Heap.nextId_setPending] at hle
      exact hacts.symm ▸ fresh hle

theorem Delivers.fresh {s : VmState} (h : Delivers s) {typeId : BitVec 32} {elemSize : Nat}
    {trace : Option TraceMap} {id : HeapId} {heap : Heap}
    (ha : s.heap.alloc typeId (.channel elemSize none) trace = some (id, heap)) :
    Delivers { s with heap := heap } := by
  intro c hc
  obtain ⟨slot, run, holds, fresh⟩ := h c hc
  obtain ⟨hid, hlt, hget⟩ := Heap.alloc_cases ha
  refine ⟨slot, run, fun n p hp => ?_, fun hle => fresh (BitVec.le_trans (BitVec.le_of_lt hlt) hle)⟩
  by_cases hcid : c = id
  · subst hcid
    have hempty : channelActs c s.history = [] := fresh (hid ▸ BitVec.le_refl _)
    have hnone : slot = none := Slot.Run.nil (hempty ▸ run)
    simp only [Heap.chan, hget] at hp
    cases hp
    exact hnone.symm
  · refine holds n p ?_
    simpa only [Heap.chan, hget, if_neg hcid] using hp

/-- A write from outside concerns no other channel. -/
theorem Delivers.inject {s : VmState} (h : Delivers s) (c : HeapId) (value : List Byte) :
    Delivers (s.injectChannel c value) := by
  intro d hd
  have hne : d ≠ c := fun heq => hd (heq ▸ List.mem_cons_self)
  obtain ⟨slot, run, holds, fresh⟩ := h d fun hmem => hd (List.mem_cons_of_mem _ hmem)
  refine ⟨slot, run, fun n p hp => holds n p ?_, fun hle => fresh ?_⟩
  · simpa only [VmState.injectChannel, VmState.unblockChannel, VmState.record,
      Heap.chan_setPending, if_neg hne] using hp
  · simpa only [VmState.injectChannel, VmState.unblockChannel, VmState.record,
      Heap.nextId_setPending] using hle

/-- Every run of instructions keeps the account of the channels. -/
theorem deliverRules : Rules (fun s t => Delivers s → Delivers t)
    (fun s t _ => Delivers s → Delivers t) where
  trans _ _ _ hst htu h := htu (hst h)
  work _ _ w h := h.work w.toWork
  call _ _ w moduleIdx _ _ hu huw h := (huw (h.work hu)).work (work_leaveModule _ moduleIdx w)
  fresh _ _ _ _ _ _ ha h := h.fresh ha
  put s c v _ hch h :=
    (h.transfer (e := .put c v) (fun _ => rfl) hch (.put v)).same rfl rfl
  take s c v _ hch h :=
    (h.transfer (e := .took c v) (fun _ => rfl) hch (.take v)).same rfl rfl
  inject _ c v h := h.inject c v
  spawn s frames heap childFrames entryPc _ hplain h :=
    (h.record (e := .spawned s.nextPid (s.newThread childFrames entryPc).ctx)
      fun _ => rfl).plain hplain rfl
  nested _ _ h := h.record fun _ => rfl
  handOff s idx other u b _ _ _ _ hslice h := by
    have hoff : Delivers (RiceVM.handOff other idx s) :=
      (h.record (e := .handedOff other.thread) fun _ => rfl).same rfl rfl
    exact (hslice hoff).same rfl rfl
  sliceDone _ h := h
  sliceEnd _ _ h := h.same rfl rfl
  sliceStep s inst u w b _ hstep hrest h := by
    have hu := hstep (h.record fun _ => rfl)
    have hmoved : Delivers { u with pc := u.nextPc } := hu.same rfl rfl
    exact hrest (hmoved.record fun _ => rfl)
  sliceFault s inst u _ hstep h := (hstep (h.record fun _ => rfl)).record fun _ => rfl
  sliceBlock s inst u c _ hbegun _ h := by
    have hstarted : Delivers (s.started false inst) := h.record fun _ => rfl
    exact (hstarted.same hbegun.heap (congrArg Shared.history hbegun.shared)).record fun _ => rfl

theorem Delivers.pristine {s : VmState} (hp : s.Pristine) : Delivers s := by
  intro c _
  refine ⟨none, by rw [hp.history]; exact .start, fun n p hch => ?_, fun _ => by rw [hp.history]; rfl⟩
  rcases hp.heap.chan c with h | h
  · rw [h, Heap.chan_new] at hch; cases hch
  · rw [h] at hch; cases hch

theorem Delivers.resumes {s t : VmState} (h : Delivers s) (hr : Resumes s t) : Delivers t := by
  cases hr with
  | load _ _ _ => exact h.same rfl rfl

section turns
variable {q : Nat} {s t : VmState}

theorem Delivers.exit (h : Delivers s) (entry : String) : Delivers (s.exit entry) :=
  (h.record (e := .exited s.currentPid) fun _ => rfl).same rfl rfl

theorem Delivers.wentOn {due : Bool} {inst : Instruction} (h : Delivers s)
    (hw : WentOn (fun s t => Delivers s → Delivers t) inst (s.started due inst) t) : Delivers t := by
  obtain ⟨u, hu, _, _, rfl⟩ := hw
  have hu := hu (h.record fun _ => rfl)
  have hmoved : Delivers { u with pc := u.nextPc } := hu.same rfl rfl
  exact hmoved.record fun _ => rfl

theorem Delivers.blocked {due : Bool} {inst : Instruction} {c : HeapId} (h : Delivers s)
    (hw : Blocked inst (s.started due inst) t c) : Delivers t := by
  obtain ⟨u, hbegun, _, _, rfl⟩ := hw
  have hstarted : Delivers (s.started due inst) := h.record fun _ => rfl
  exact (hstarted.same hbegun.heap (congrArg Shared.history hbegun.shared)).record fun _ => rfl

theorem Delivers.turn {r : Option Nat} (h : Delivers s)
    (ht : TurnResult (fun s t => Delivers s → Delivers t) q s r t) : Delivers t := by
  cases ht with
  | finished entry _ _ => exact h.exit entry
  | exited entry _ hr => exact (h.exit entry).resumes hr
  | fell _ _ => exact h.same rfl rfl
  | wentOn _ _ hw _ hwork _ _ =>
      exact (h.wentOn hw).plain hwork.heap (congrArg Shared.history hwork.shared)
  | @rotated _ w _ _ _ _ hw _ hr hwork _ _ =>
      have hpark : Delivers (w.park none) := (h.wentOn hw).same rfl rfl
      exact (hpark.resumes hr).plain hwork.heap (congrArg Shared.history hwork.shared)
  | @blocked _ w _ c _ _ hw hr =>
      have hpark : Delivers (w.park (some c)) := (h.blocked hw).same rfl rfl
      exact hpark.resumes hr

theorem Delivers.fault {e : ExecError} (h : Delivers s)
    (ht : TurnFault (fun s t => Delivers s → Delivers t) q s e t) : Delivers t := by
  cases ht with
  | exitDeadlock entry _ _ _ => exact (h.exit entry).same rfl rfl
  | blockDeadlock _ _ hw _ => exact h.blocked hw
  | invalidPc _ _ => exact h
  | fault _ _ hw _ =>
      obtain ⟨u, hu, _, rfl⟩ := hw
      exact (hu (h.record fun _ => rfl)).record fun _ => rfl

end turns

theorem delivers_observed {vm : VmState} (h : Observed vm) : Delivers vm :=
  deliverRules.observed (fun _ => .pristine) (fun _ hs ht => hs.turn ht) (fun _ hs => hs)
    (fun hs ht => hs.turn ht) (fun hs ht => hs.fault ht) h

/-- A blocking operation that cannot go on changes nothing at all. -/
theorem dispatch_blocked {env : Env} {fuel : Nat} {inst : Instruction} {s t : VmState} {c : HeapId}
    (hs : s.blockedChannel = none) (hrun : dispatch env (nestedAt env fuel) inst s = .ok () t)
    (ht : t.blockedChannel = some c) : t = { s with blockedChannel := some c } := by
  rcases wp_ok (anyRules.dispatch_spec (anyRules.soundNested env fuel) env inst s) hrun with
    hkeeps | ⟨d, rfl, _⟩
  · rw [(hkeeps hs).2] at ht
    cases ht
  · cases ht
    rfl

/-- Its step leaves the thread where the operation begins. -/
theorem stepThread_blocked {env : Env} {fuel : Nat} {due : Bool} {inst : Instruction}
    {s w : VmState} {c : HeapId} (hs : s.blockedChannel = none)
    (hrun : stepThread env (nestedAt env fuel) due inst s = .ok (some c) w) :
    w.heap = s.heap ∧ w.history = .stopped s.thread s.ctx :: (s.started due inst).history := by
  have hspec := anyRules.stepThread_spec (anyRules.soundNested env fuel) env due inst s
  obtain ⟨u, hbegun, _, _, rfl⟩ := wp_ok hspec hrun hs
  have hthread : u.thread = s.thread := congrArg Shared.thread hbegun.shared
  have hhist : u.history = (s.started due inst).history := congrArg Shared.history hbegun.shared
  have hctx : u.ctx = s.ctx := hbegun.ctx
  exact ⟨hbegun.heap, by rw [VmState.stopped, VmState.record, hthread, hctx, hhist]⟩

def nestedBlockFault : ExecError :=
  .threadFault "deadlock: blocking channel operation inside a cross-module call"

/-- Inside a cross-module call the operation faults instead. -/
theorem nested_blocked {env : Env} {fuel : Nat} {inst : Instruction} {s t : VmState} {c : HeapId}
    (hs : s.blockedChannel = none) (hrun : dispatch env (nestedAt env fuel) inst s = .ok () t)
    (ht : t.blockedChannel = some c) : faultOnNestedBlock t = .error nestedBlockFault s := by
  rw [dispatch_blocked hs hrun ht]
  exact congrArg (Res.error nestedBlockFault) (VmState.clear_blockedChannel hs)

/-- On every channel only channel instructions write to, the values taken out are the first
of the values put in, and all but at most one are; it is the one in the slot. An operation
that has to wait changes nothing, and where its thread goes on, it goes on with it. -/
theorem channels_deliver {vm : VmState} (h : Observed vm) :
    (∀ c, Event.injected c ∉ vm.history →
      Slot.takes (channelActs c vm.history) <+: Slot.puts (channelActs c vm.history) ∧
      (Slot.puts (channelActs c vm.history)).length ≤
        (Slot.takes (channelActs c vm.history)).length + 1 ∧
      ∀ elemSize pending, vm.heap.chan c = some (elemSize, pending) →
        Slot.puts (channelActs c vm.history) =
          Slot.takes (channelActs c vm.history) ++ pending.toList) ∧
    (∀ env fuel inst s t c, s.blockedChannel = none →
      dispatch env (nestedAt env fuel) inst s = .ok () t → t.blockedChannel = some c →
      t = { s with blockedChannel := some c } ∧
        faultOnNestedBlock t = .error nestedBlockFault s) ∧
    (∀ env fuel due inst s w c, s.blockedChannel = none →
      stepThread env (nestedAt env fuel) due inst s = .ok (some c) w →
      w.heap = s.heap ∧ w.history = .stopped s.thread s.ctx :: (s.started due inst).history) ∧
    Resumed vm.history := by
  refine ⟨fun c hc => ?_, fun env fuel inst s t c hs hrun ht => ?_,
    fun env fuel due inst s w c hs hrun => stepThread_blocked hs hrun, (queued_observed h).resumed⟩
  · obtain ⟨slot, run, holds, _⟩ := delivers_observed h c hc
    refine ⟨run.takes_prefix, run.in_flight, fun elemSize pending hch => ?_⟩
    rw [holds elemSize pending hch]
    exact run.balance
  · exact ⟨dispatch_blocked hs hrun ht, nested_blocked hs hrun ht⟩

def sendThenReceive : Module :=
  .ofCode "m" [
    ⟨.newcw, .unused, .unused, .mp 0⟩,
    ⟨.send, .imm 1, .unused, .mp 0⟩,
    ⟨.recv, .mp 0, .unused, .fp 48⟩,
    ⟨.exit, .unused, .unused, .unused⟩] 4

theorem channels_deliver_sendThenReceive :
    ∃ vm, Observed vm ∧ Slot.takes (channelActs 0x10000005 vm.history) = [[1, 0, 0, 0]] ∧
      Slot.takes (channelActs 0x10000005 vm.history) <+:
        Slot.puts (channelActs 0x10000005 vm.history) := by
  have hrun : (sendThenReceive.after .bare 3 3).any (fun s =>
      decide (Slot.takes (channelActs 0x10000005 s.1.history) = [[1, 0, 0, 0]]) &&
        !s.1.history.contains (.injected 0x10000005)) = true := by decide +kernel
  obtain ⟨⟨vm, q⟩, hreach, htest⟩ := Module.reachable_after rfl hrun
  obtain ⟨htakes, hinj⟩ := Bool.and_eq_true_iff.mp htest
  have hnone : Event.injected 0x10000005 ∉ vm.history := by
    simpa using hinj
  exact ⟨vm, .top hreach, of_decide_eq_true htakes,
    ((channels_deliver (.top hreach)).1 0x10000005 hnone).1⟩

/-- A receive in a cross-module call, with a thread ready that would send. -/
def nestedReceive : Module :=
  { Module.ofCode "m" [
      ⟨.load, .mp 0, .imm 0, .mp 4⟩,
      ⟨.newcw, .unused, .unused, .mp 8⟩,
      ⟨.frame, .imm 0, .unused, .fp 48⟩,
      ⟨.spawn, .fp 48, .unused, .imm 9⟩,
      ⟨.mframe, .mp 4, .imm 0, .fp 52⟩,
      ⟨.mcall, .fp 52, .imm 0, .mp 4⟩,
      ⟨.exit, .unused, .unused, .unused⟩,
      ⟨.recv, .mp 8, .unused, .fp 40⟩,
      ⟨.ret, .unused, .unused, .unused⟩,
      ⟨.send, .imm 1, .unused, .mp 8⟩,
      ⟨.exit, .unused, .unused, .unused⟩] 16 with
    data := [.string 0 "$self"]
    exports := [⟨7, 0, 0, "receive"⟩]
    imports := [⟨[⟨0, "receive"⟩]⟩] }

/-- The receive has to wait and is not executed again: the run ends with its call. -/
theorem nestedReceive_not_resumed : ∃ s, Reachable s ∧ ∃ w,
    runIter .bare (nestedAt .bare 3) s.2 s.1 = .error nestedBlockFault w ∧
      ∃ t ∈ w.threadQueue, t.ready = true := by
  have hrun : (nestedReceive.after .bare 3 5).any (faults .bare 3 fun e w =>
      decide (e = nestedBlockFault) && w.threadQueue.any (·.ready)) = true := by decide +kernel
  obtain ⟨s, hreach, htest⟩ := Module.reachable_after rfl hrun
  obtain ⟨e, w, hfault, htest⟩ := of_faults htest
  obtain ⟨he, hready⟩ := Bool.and_eq_true_iff.mp htest
  exact ⟨s, hreach, w, of_decide_eq_true he ▸ hfault, List.any_eq_true.mp hready⟩

end RiceVM
