import RiceVM.Programs
import RiceVM.Turns

/-!
Waiting threads. A thread that is marked as blocked stands at an operation that its
channels do not let go on: a change of a slot wakes every thread it may concern, alts
included, and nothing else makes a channel ready.
-/
namespace RiceVM
open Exec Ops Memory

namespace SuspendedThread

/-- An operand, resolved in the thread's own memory. -/
def operand (t : SuspendedThread) (op : Operand) : Except ExecError AddrTarget :=
  resolveOperand op t.frames.currentDataOffset t.frames.data t.mp t.heapRefs

/-- The word at a target in the thread's own frames or module data. -/
def ownWord (t : SuspendedThread) : AddrTarget → Option Word
  | .frame off => some (readWord t.frames.data off)
  | .mp off => some (readWord t.mp off)
  | _ => none

/-- A target in the thread's own memory holds `c`. -/
def Names (t : SuspendedThread) (target : AddrTarget) (c : HeapId) : Prop :=
  ∀ w, t.ownWord target = some w → w = c

end SuspendedThread

/-- The instruction at a thread's pc and what its operands resolve to. -/
structure StandsAt (vm : VmState) (t : SuspendedThread) (inst : Instruction)
    (src mid dst : AddrTarget) : Prop where
  fetch : (vm.moduleAt t.currentLoadedModule).bind (·.code[t.pc]?) = some inst
  source : t.operand inst.source = .ok src
  middle : resolveMiddle inst.middle t.frames.currentDataOffset = .ok mid
  destination : t.operand inst.destination = .ok dst

theorem StandsAt.unique {vm : VmState} {t : SuspendedThread} {inst inst' : Instruction}
    {src mid dst src' mid' dst' : AddrTarget} (h : StandsAt vm t inst src mid dst)
    (h' : StandsAt vm t inst' src' mid' dst') : inst = inst' ∧ src = src' ∧ dst = dst' := by
  obtain rfl : inst = inst' := Option.some.inj (h.fetch.symm.trans h'.fetch)
  exact ⟨rfl, Except.ok.inj (h.source.symm.trans h'.source),
    Except.ok.inj (h.destination.symm.trans h'.destination)⟩

/-- The thread's next instruction is an operation that waits for `c`, or an alt that waits
for any channel of its table, and no slot lets it go on. -/
def Pending (vm : VmState) (t : SuspendedThread) (c : HeapId) : Prop :=
  ∃ inst src mid dst, StandsAt vm t inst src mid dst ∧
    match inst.opcode with
    | .send => t.Names dst c ∧ c ≠ nil ∧ Unready vm.heap true c
    | .recv => t.Names src c ∧ c ≠ nil ∧ Unready vm.heap false c
    | .alt => c = nil ∧ ∃ table, parseAltTable src t.frames t.mp = .ok table ∧
        altFault table.entries = none ∧ ∀ e ∈ table.entries, Unready vm.heap e.isSend e.channelId
    | _ => False

/-- A thread that is marked as blocked has a pending operation. -/
def Waiting (vm : VmState) : Prop :=
  ∀ t ∈ vm.threadQueue, ∀ c, t.blockedOn = some c → Pending vm t c

theorem Unready.plain {h h' : Heap} (hp : Heap.Plain h h') {isSend : Bool} {c : HeapId}
    (hc : Unready h isSend c) : Unready h' isSend c := by
  have hle : h.nextId ≤ h'.nextId := hp.nextId
  have hlt := hc.1
  refine ⟨by bv_omega, fun elemSize pending hch => ?_⟩
  rcases hp.chan c with hsame | hnone
  · exact hc.2 elemSize pending (hsame ▸ hch)
  · rw [hnone] at hch; cases hch

/-- A fresh id names none of the channels an operation waits for. -/
theorem Unready.alloc {h h' : Heap} {typeId : BitVec 32} {data : HeapData}
    {trace : Option TraceMap} {id : HeapId} (ha : h.alloc typeId data trace = some (id, h'))
    {isSend : Bool} {c : HeapId} (hc : Unready h isSend c) : Unready h' isSend c := by
  obtain ⟨hid, hlt, hget⟩ := Heap.alloc_cases ha
  have hne : c ≠ id := fun heq => BitVec.lt_irrefl _ (hid ▸ heq ▸ hc.1)
  refine ⟨BitVec.lt_trans hc.1 hlt, fun elemSize pending hch => hc.2 elemSize pending ?_⟩
  simpa only [Heap.chan, hget, if_neg hne] using hch

theorem Unready.setPending {h : Heap} {isSend : Bool} {c d : HeapId} (hne : d ≠ c)
    (hd : Unready h isSend d) (pending : Option (List Byte)) :
    Unready (h.setPending c pending) isSend d := by
  refine ⟨by rw [Heap.nextId_setPending]; exact hd.1, fun elemSize p hch => hd.2 elemSize p ?_⟩
  rwa [Heap.chan_setPending, if_neg hne] at hch

/-- A pending operation stays pending while its code stays and its channels stay unready. -/
theorem Pending.mono {s t : VmState} {th : SuspendedThread} {c : HeapId} (h : Pending s th c)
    (code : ∀ idx m, s.moduleAt idx = some m → t.moduleAt idx = some m)
    (heap : ∀ isSend d, c = nil ∨ d = c → Unready s.heap isSend d → Unready t.heap isSend d) :
    Pending t th c := by
  obtain ⟨inst, src, mid, dst, ⟨hfetch, hsrc, hmid, hdst⟩, hop⟩ := h
  refine ⟨inst, src, mid, dst, ⟨?_, hsrc, hmid, hdst⟩, ?_⟩
  · obtain ⟨m, hm, hinst⟩ := Option.bind_eq_some_iff.mp hfetch
    exact Option.bind_eq_some_iff.mpr ⟨m, code _ m hm, hinst⟩
  · split at hop
    · exact ⟨hop.1, hop.2.1, heap _ c (.inr rfl) hop.2.2⟩
    · exact ⟨hop.1, hop.2.1, heap _ c (.inr rfl) hop.2.2⟩
    · obtain ⟨hnil, table, htable, hfault, hstuck⟩ := hop
      exact ⟨hnil, table, htable, hfault, fun e he => heap _ _ (.inl hnil) (hstuck e he)⟩
    · exact hop.elim

/-- The blocked threads stay, their code stays and no channel becomes ready. -/
theorem Waiting.keep {s t : VmState} (h : Waiting s)
    (queue : ∀ th ∈ t.threadQueue, th.blockedOn.isSome → th ∈ s.threadQueue)
    (code : ∀ idx m, s.moduleAt idx = some m → t.moduleAt idx = some m)
    (heap : ∀ isSend d, Unready s.heap isSend d → Unready t.heap isSend d) : Waiting t := by
  intro th hth c hc
  have hold : th ∈ s.threadQueue := queue th hth (by rw [hc]; rfl)
  exact (h th hold c hc).mono code fun isSend d _ => heap isSend d

theorem Waiting.same {s t : VmState} (h : Waiting s) (hqueue : t.threadQueue = s.threadQueue)
    (code : ∀ idx, t.moduleAt idx = s.moduleAt idx) (hheap : t.heap = s.heap) : Waiting t :=
  h.keep (fun _ hth _ => hqueue ▸ hth) (fun idx _ hm => (code idx).trans hm)
    fun _ _ hd => hheap ▸ hd

theorem Waiting.work {s t : VmState} (h : Waiting s) (w : Work s t) : Waiting t := by
  have hqueue : t.threadQueue = s.threadQueue := congrArg Shared.threadQueue w.shared
  exact h.keep (fun _ hth _ => hqueue ▸ hth) w.code fun _ _ hd => hd.plain w.heap

/-- A thread that still waits after a wake-up waits for another channel, and for no alt. -/
theorem unblock_blocked {t : SuspendedThread} {c d : HeapId}
    (h : (t.unblock c).blockedOn = some d) :
    t.unblock c = t ∧ t.blockedOn = some d ∧ d ≠ c ∧ d ≠ nil := by
  unfold SuspendedThread.unblock at h ⊢
  cases hb : t.blockedOn with
  | none => rw [hb] at h; rw [hb] at h; cases h
  | some e =>
      rw [hb] at h
      dsimp only at h ⊢
      by_cases he : e = c ∨ e = nil
      · rw [if_pos he] at h; cases h
      · rw [if_neg he] at h ⊢
        rw [hb] at h
        cases h
        exact ⟨rfl, rfl, fun heq => he (.inl heq), fun heq => he (.inr heq)⟩

/-- A transfer on `c` concerns the threads it wakes and no others. -/
theorem Waiting.transfer {s : VmState} (h : Waiting s) (c : HeapId)
    (pending : Option (List Byte)) (e : Event) :
    Waiting ((({ s with heap := s.heap.setPending c pending } : VmState).record e).unblockChannel
      c) := by
  intro th hth d hd
  obtain ⟨th', hth', rfl⟩ := List.mem_map.mp hth
  obtain ⟨hsame, hd', hdc, hdn⟩ := unblock_blocked hd
  rw [hsame]
  refine (h th' hth' d hd').mono (fun _ _ hm => hm) fun isSend d' hor hun => ?_
  have heq : d' = d := hor.resolve_left hdn
  exact hun.setPending (heq ▸ hdc) pending

/-- The operation of a thread that blocks is pending. -/
theorem pending_of_stuck {s u : VmState} {due : Bool} {inst : Instruction} {c : HeapId}
    (hfetch : s.fetch = some inst) (hbegun : Begun inst (s.started due inst) u)
    (hstuck : Stuck inst u c) : Pending u.stopped (u.stopped.suspended (some c)) c := by
  have hframes : u.frames = s.frames := congrArg ThreadCtx.frames hbegun.ctx
  have hmp : u.mp = s.mp := congrArg ThreadCtx.mp hbegun.ctx
  have hpc : u.pc = s.pc := congrArg ThreadCtx.pc hbegun.ctx
  have hrefs : u.heapRefs = s.heapRefs := congrArg ThreadCtx.heapRefs hbegun.ctx
  have hmod : u.currentLoadedModule = s.currentLoadedModule :=
    congrArg ThreadCtx.currentLoadedModule hbegun.ctx
  have hnames : ∀ {target : AddrTarget} {imm : Word}, u.readWordAt target imm = c →
      (u.stopped.suspended (some c)).Names target c := by
    intro target imm hread w hw
    cases target with
    | frame off => cases hw; exact hread
    | mp off => cases hw; exact hread
    | moduleMp _ _ | immediate | none | heapArray _ _ => cases hw
  refine ⟨inst, u.src, u.mid, u.dst, ⟨?_, ?_, ?_, ?_⟩, ?_⟩
  · change (u.moduleAt u.currentLoadedModule).bind (·.code[u.pc]?) = some inst
    rw [hbegun.code, hmod, hpc]
    exact hfetch
  · change resolveOperand _ u.frames.currentDataOffset u.frames.data u.mp u.heapRefs = _
    rw [hframes, hmp, hrefs]
    exact hbegun.source
  · change resolveMiddle _ u.frames.currentDataOffset = _
    rw [hframes]
    exact hbegun.middle
  · change resolveOperand _ u.frames.currentDataOffset u.frames.data u.mp u.heapRefs = _
    rw [hframes, hmp, hrefs]
    exact hbegun.destination
  · obtain ⟨hop, hread, hne⟩ | ⟨hop, hread, hne⟩ | ⟨hop, hwait⟩ := hstuck.cases
    · rw [hop]
      exact ⟨hnames hread, hne⟩
    · rw [hop]
      exact ⟨hnames hread, hne⟩
    · rw [hop]
      exact hwait

/-- A thread that a slice ends with is queued with its pending operation. -/
theorem waitRules : Rules (fun s t => Waiting s → Waiting t)
    (fun s u b => Waiting s → Waiting u ∧ ∀ c, b = some c → Pending u (u.suspended (some c)) c) where
  trans _ _ _ hst htu h := htu (hst h)
  work _ _ w h := h.work w.toWork
  call _ _ w moduleIdx _ _ hu huw h := (huw (h.work hu)).work (work_leaveModule _ moduleIdx w)
  fresh _ _ _ _ _ _ ha h :=
    h.keep (fun _ hth _ => hth) (fun _ _ hm => hm) fun _ _ hd => hd.alloc ha
  put _ c v _ _ h := h.transfer c (some v) _
  take _ c v _ _ h := h.transfer c none _
  inject _ c v h := h.transfer c (some v) _
  spawn s frames heap childFrames entryPc _ hplain h := by
    refine h.keep (fun th hth hb => ?_) (fun _ _ hm => hm) fun _ _ hd => hd.plain hplain
    rcases List.mem_append.mp hth with hth | hth
    · exact hth
    · rw [List.mem_singleton.mp hth] at hb
      cases hb
  nested _ _ h := h.same rfl (fun _ => rfl) rfl
  handOff s idx other u b _ _ _ _ hslice h := by
    have hoff : Waiting (RiceVM.handOff other idx s) :=
      h.keep (fun th hth _ => List.eraseIdx_subset hth) (fun _ _ hm => hm) fun _ _ hd => hd
    obtain ⟨hu, hran⟩ := hslice hoff
    have hback : ∀ th ∈ (RiceVM.switchBack s b u).threadQueue,
        th ∈ u.threadQueue ∨ th = u.suspended b := by
      intro th hth
      simp only [RiceVM.switchBack] at hth
      split at hth
      · exact .inl hth
      · exact (List.mem_append.mp hth).imp id List.mem_singleton.mp
    intro th hth c hc
    rcases hback th hth with hold | rfl
    · exact (hu th hold c hc).mono (fun _ _ hm => hm) fun _ _ _ hd => hd
    · have hb : b = some c := hc
      subst hb
      exact (hran c rfl).mono (fun _ _ hm => hm) fun _ _ _ hd => hd
  sliceDone _ h := ⟨h, nofun⟩
  sliceEnd _ _ h := ⟨h.same rfl (fun _ => rfl) rfl, nofun⟩
  sliceStep s inst u w b _ hstep hrest h := by
    have hu : Waiting u := hstep (h.same rfl (fun _ => rfl) rfl)
    exact hrest (hu.same rfl (fun _ => rfl) rfl)
  sliceFault s inst u _ hstep h := by
    have hu : Waiting u := hstep (h.same rfl (fun _ => rfl) rfl)
    exact ⟨hu.same rfl (fun _ => rfl) rfl, nofun⟩
  sliceBlock s inst u c hfetch hbegun hstuck h := by
    have hu : Waiting u := h.same (congrArg Shared.threadQueue hbegun.shared) hbegun.code hbegun.heap
    refine ⟨hu.same rfl (fun _ => rfl) rfl, fun d hd => ?_⟩
    cases hd
    exact pending_of_stuck hfetch hbegun hstuck

theorem Waiting.resumes {s t : VmState} (h : Waiting s) (hr : Resumes s t) : Waiting t := by
  cases hr with
  | @load before after th hqueue _ _ =>
      refine h.keep (fun u hu _ => ?_) (fun _ _ hm => hm) fun _ _ hd => hd
      have hmem : u ∈ after ++ before := hu
      rw [hqueue]
      rcases List.mem_append.mp hmem with hu | hu
      · exact List.mem_append_right _ (List.mem_cons_of_mem _ hu)
      · exact List.mem_append_left _ hu

section turns
variable {q : Nat} {s t : VmState}

theorem Waiting.wentOn {due : Bool} {inst : Instruction} (h : Waiting s)
    (hw : WentOn (fun s t => Waiting s → Waiting t) inst (s.started due inst) t) : Waiting t := by
  obtain ⟨u, hu, _, _, rfl⟩ := hw
  have hu : Waiting u := hu (h.same rfl (fun _ => rfl) rfl)
  exact hu.same rfl (fun _ => rfl) rfl

theorem Waiting.blocked {due : Bool} {inst : Instruction} {c : HeapId} (h : Waiting s)
    (hfetch : s.fetch = some inst) (hw : Blocked inst (s.started due inst) t c) :
    Waiting (t.park (some c)) := by
  obtain ⟨u, hbegun, hstuck, _, rfl⟩ := hw
  have hu : Waiting u := h.same (congrArg Shared.threadQueue hbegun.shared) hbegun.code hbegun.heap
  intro th hth d hd
  rcases List.mem_append.mp hth with hold | hnew
  · exact (hu th hold d hd).mono (fun _ _ hm => hm) fun _ _ _ hd => hd
  · rw [List.mem_singleton.mp hnew] at hd ⊢
    cases hd
    exact (pending_of_stuck hfetch hbegun hstuck).mono (fun _ _ hm => hm) fun _ _ _ hd => hd

theorem Waiting.turn {q' : Nat} (h : Waiting s)
    (ht : TurnResult (fun s t => Waiting s → Waiting t) q s (some q') t) : Waiting t := by
  cases ht with
  | exited entry _ hr =>
      have hexit : Waiting (s.exit entry) := h.same rfl (fun _ => rfl) rfl
      exact hexit.resumes hr
  | fell _ _ => exact h.same rfl (fun _ => rfl) rfl
  | wentOn _ _ hw _ hwork _ _ => exact (h.wentOn hw).work hwork
  | @rotated _ w _ _ _ _ hw _ hr hwork _ _ =>
      have hpark : Waiting (w.park none) := by
        refine (h.wentOn hw).keep (fun th hth hb => ?_) (fun _ _ hm => hm) fun _ _ hd => hd
        rcases List.mem_append.mp hth with hth | hth
        · exact hth
        · rw [List.mem_singleton.mp hth] at hb
          cases hb
      exact (hpark.resumes hr).work hwork
  | blocked _ hfetch hw hr => exact (h.blocked hfetch hw).resumes hr

end turns

theorem waiting_reachable {vm : VmState} {q : Nat} (h : Reachable (vm, q)) : Waiting vm := by
  refine (waitRules.invariant (I := Waiting) (fun s hp t ht => ?_) (fun _ hs ht => hs.turn ht) h).2
  rw [hp.queue] at ht
  cases ht

/-- The channel's name is in the thread's own memory, and the channels the operation may go
on with still exist. -/
def Steady (vm : VmState) (t : SuspendedThread) (c : HeapId) : Prop :=
  ∀ inst src mid dst, StandsAt vm t inst src mid dst →
    match inst.opcode with
    | .send => (t.ownWord dst).isSome ∧ (vm.heap.chan c).isSome
    | .recv => (t.ownWord src).isSome ∧ (vm.heap.chan c).isSome
    | .alt => ∀ table, parseAltTable src t.frames t.mp = .ok table →
        ∀ e ∈ table.entries, (vm.heap.chan e.channelId).isSome
    | _ => True

theorem channelRef_of_chan (vm : VmState) {c : HeapId} {ch : Nat × Option (List Byte)}
    (hne : c ≠ nil) (h : vm.heap.chan c = some ch) : channelRef vm c = .ok ch := by
  obtain ⟨obj, hobj, hch⟩ := Option.bind_eq_some_iff.mp h
  unfold channelRef
  rw [if_neg hne, hobj]
  dsimp only
  rw [hch]

theorem firstReady_unready {vm : VmState} {entries : List AltEntry} (idx : Nat)
    (h : ∀ e ∈ entries, e.channelId ≠ nil ∧ (vm.heap.chan e.channelId).isSome ∧
      Unready vm.heap e.isSend e.channelId) : firstReady vm idx entries = .ok none := by
  induction entries generalizing idx with
  | nil => rfl
  | cons e rest ih =>
      obtain ⟨hne, hlive, hun⟩ := h e List.mem_cons_self
      obtain ⟨ch, hch⟩ := Option.isSome_iff_exists.mp hlive
      have hready : slotReady e.isSend ch.2 = false := hun.2 ch.1 ch.2 hch
      rw [firstReady, channelRef_of_chan vm hne hch]
      change (if slotReady e.isSend ch.2 then _ else _) = _
      rw [hready]
      exact ih _ fun e' he' => h e' (List.mem_cons_of_mem e he')

theorem altFault_none {entries : List AltEntry} (h : altFault entries = none) :
    ∀ e ∈ entries, e.channelId ≠ nil := by
  intro e he heq
  unfold altFault at h
  rw [if_pos (List.any_eq_true.mpr ⟨e, he, decide_eq_true heq⟩)] at h
  cases h

theorem readWordAt_own {vm : VmState} {t : SuspendedThread} {target : AddrTarget} {c w : Word}
    (imm : Word) (hframes : vm.frames = t.frames) (hmp : vm.mp = t.mp)
    (hnames : t.Names target c) (hw : t.ownWord target = some w) :
    vm.readWordAt target imm = c := by
  cases target with
  | frame off =>
      have hread : vm.readWordAt (.frame off) imm = readWord vm.frames.data off := rfl
      rw [hread, hframes]
      exact hnames _ rfl
  | mp off =>
      have hread : vm.readWordAt (.mp off) imm = readWord vm.mp off := rfl
      rw [hread, hmp]
      exact hnames _ rfl
  | moduleMp _ _ | immediate | none | heapArray _ _ => cases hw

theorem suspended_congr {s t : VmState} (hctx : t.ctx = s.ctx) (hpid : t.currentPid = s.currentPid)
    (hthread : t.thread = s.thread) (b : Option HeapId) : t.suspended b = s.suspended b := by
  have hframes : t.frames = s.frames := congrArg ThreadCtx.frames hctx
  have hmp : t.mp = s.mp := congrArg ThreadCtx.mp hctx
  have hpc : t.pc = s.pc := congrArg ThreadCtx.pc hctx
  have hrefs : t.heapRefs = s.heapRefs := congrArg ThreadCtx.heapRefs hctx
  have herr : t.lastError = s.lastError := congrArg ThreadCtx.lastError hctx
  have hmod : t.currentLoadedModule = s.currentLoadedModule :=
    congrArg ThreadCtx.currentLoadedModule hctx
  have hstack : t.callerMpStack = s.callerMpStack := congrArg ThreadCtx.callerMpStack hctx
  rw [VmState.suspended, VmState.suspended, hframes, hmp, hpc, hrefs, herr, hmod, hstack, hpid,
    hthread]

/-- The operation of a steady thread, dispatched with its operands, waits. -/
theorem Pending.dispatch {vm u : VmState} {t : SuspendedThread} {c : HeapId} {inst : Instruction}
    {src mid dst : AddrTarget} (hstands : StandsAt vm t inst src mid dst)
    (h : Pending vm t c) (hsteady : Steady vm t c) (env : Env) (nested : Nested)
    (hsrc : u.src = src) (hdst : u.dst = dst) (hframes : u.frames = t.frames) (hmp : u.mp = t.mp)
    (hheap : u.heap = vm.heap) :
    RiceVM.dispatch env nested inst u = .ok () { u with blockedChannel := some c } := by
  obtain ⟨inst', src', mid', dst', hstands', hop⟩ := h
  obtain ⟨rfl, rfl, rfl⟩ := hstands.unique hstands'
  have hsteady := hsteady inst src mid dst hstands
  unfold RiceVM.dispatch
  split at hop
  · next hcode =>
      rw [hcode] at hsteady ⊢
      obtain ⟨w, hw⟩ := Option.isSome_iff_exists.mp hsteady.1
      obtain ⟨ch, hch⟩ := Option.isSome_iff_exists.mp hsteady.2
      have hread : u.readWordAt u.dst u.immDst = c :=
        hdst ▸ readWordAt_own u.immDst hframes hmp hop.1 hw
      have hready := hop.2.2.2 ch.1 ch.2 hch
      obtain ⟨elemSize, pending⟩ := ch
      cases pending with
      | none => cases hready
      | some v =>
          have href := channelRef_of_chan u hop.2.1 (hheap ▸ hch)
          simp only [opSend, dstPtr, dstWord, bind_apply, get_apply, pure_apply, hread, href,
            modify_apply]
  · next hcode =>
      rw [hcode] at hsteady ⊢
      obtain ⟨w, hw⟩ := Option.isSome_iff_exists.mp hsteady.1
      obtain ⟨ch, hch⟩ := Option.isSome_iff_exists.mp hsteady.2
      have hread : u.readWordAt u.src u.immSrc = c :=
        hsrc ▸ readWordAt_own u.immSrc hframes hmp hop.1 hw
      have hready := hop.2.2.2 ch.1 ch.2 hch
      obtain ⟨elemSize, pending⟩ := ch
      cases pending with
      | some v => cases hready
      | none =>
          have href := channelRef_of_chan u hop.2.1 (hheap ▸ hch)
          simp only [opRecv, srcPtr, srcWord, bind_apply, get_apply, pure_apply, hread, href,
            modify_apply]
  · next hcode =>
      rw [hcode] at hsteady ⊢
      obtain ⟨rfl, table, htable, hfault, hun⟩ := hop
      have hready : firstReady u 0 table.entries = .ok none := by
        refine firstReady_unready 0 fun e he => ⟨altFault_none hfault e he, ?_⟩
        rw [hheap]
        exact ⟨hsteady table htable e he, hun e he⟩
      have htable : parseAltTable u.src u.frames u.mp = .ok table := by
        rw [hsrc, hframes, hmp]
        exact htable
      simp only [opAlt, executeAlt, bind_apply, get_apply, htable, hfault, hready, ofExcept_ok,
        pure_apply, if_true, set_apply]
  · exact hop.elim

/-- Executed again, a pending operation waits again. -/
theorem Pending.waits {vm : VmState} {t : SuspendedThread} {c : HeapId} (h : Pending vm t c)
    (hsteady : Steady vm t c) (env : Env) (nested : Nested) (due : Bool) :
    ∃ inst w, (loadThread t vm).fetch = some inst ∧
      stepThread env nested due inst (loadThread t vm) = .ok (some c) w := by
  have ⟨inst, src, mid, dst, hstands, _⟩ := h
  have hbegin := begin_ok (s := (loadThread t vm).started due inst) hstands.source hstands.middle
    hstands.destination
  exact ⟨inst, _, hstands.fetch,
    stepThread_waits hbegin (h.dispatch hstands hsteady env nested rfl rfl rfl rfl rfl)⟩

/-- A deadlock is reported when no thread can go on: the running one has halted or waits,
and so does every other. -/
theorem deadlock_pending {vm w : VmState} {q fuel : Nat} {env : Env} (h : Reachable (vm, q))
    (hrun : runIter env (nestedAt env fuel) q vm = .error deadlockFault w) :
    (vm.halted = true ∨ ∃ c, Pending vm (vm.suspended (some c)) c) ∧
      ∀ t ∈ vm.threadQueue, ∃ c, t.blockedOn = some c ∧ Pending vm t c := by
  have hwaiting := waiting_reachable h
  have hblocked : vm.blockedChannel = none :=
    (waitRules.invariant (I := fun _ => True) (fun _ _ => trivial) (fun _ _ _ => trivial) h).1
  have hall : (∀ t ∈ vm.threadQueue, t.ready = false) →
      ∀ t ∈ vm.threadQueue, ∃ c, t.blockedOn = some c ∧ Pending vm t c := by
    intro hready t ht
    have hb := hready t ht
    cases hc : t.blockedOn with
    | none => rw [SuspendedThread.ready, hc] at hb; cases hb
    | some c => exact ⟨c, rfl, hwaiting t ht c hc⟩
  cases wp_error (waitRules.runIter_spec env fuel q vm) hrun hblocked with
  | exitDeadlock entry hhalt _ hready => exact ⟨.inl hhalt, hall hready⟩
  | @blockDeadlock inst _ c _ hfetch hw hready =>
      obtain ⟨u, hbegun, hstuck, _, rfl⟩ := hw
      have hqueue : u.threadQueue = vm.threadQueue := congrArg Shared.threadQueue hbegun.shared
      refine ⟨.inr ⟨c, ?_⟩, hall fun t ht => hready t (hqueue ▸ ht)⟩
      have hself : u.stopped.suspended (some c) = vm.suspended (some c) :=
        suspended_congr hbegun.ctx (congrArg Shared.currentPid hbegun.shared)
          (congrArg Shared.thread hbegun.shared) _
      rw [← hself]
      refine (pending_of_stuck hfetch hbegun hstuck).mono (fun idx m hm => ?_) fun _ _ _ hd => ?_
      · exact (hbegun.code idx).symm.trans hm
      · exact hbegun.heap ▸ hd
  | fault _ _ _ hne => exact absurd rfl hne

/-- Blocked threads wait for slots that do not let them go on, and waiting is what they would
do if they were run; a deadlock is only ever reported of threads that all wait. -/
theorem no_lost_wakeup {vm : VmState} {q : Nat} (h : Reachable (vm, q)) :
    (∀ t ∈ vm.threadQueue, ∀ c, t.blockedOn = some c → Pending vm t c) ∧
    (∀ t ∈ vm.threadQueue, ∀ c, t.blockedOn = some c → Steady vm t c →
      ∀ env nested due, ∃ inst w, (loadThread t vm).fetch = some inst ∧
        stepThread env nested due inst (loadThread t vm) = .ok (some c) w) ∧
    ∀ env fuel w, runIter env (nestedAt env fuel) q vm = .error deadlockFault w →
      (vm.halted = true ∨ ∃ c, Pending vm (vm.suspended (some c)) c) ∧
        ∀ t ∈ vm.threadQueue, ∃ c, t.blockedOn = some c ∧ Pending vm t c := by
  have hwaiting := waiting_reachable h
  exact ⟨hwaiting, fun t ht c hc hsteady env nested due =>
    (hwaiting t ht c hc).waits hsteady env nested due, fun _ _ _ => deadlock_pending h⟩

/-- A thread that receives from the channel in a record, and another that replaces the
channel, sends on the new one and exits. -/
def swappedChannel : Module :=
  .ofCode "m" [
    ⟨.newcw, .unused, .unused, .mp 0⟩,
    ⟨.new, .imm 0, .unused, .fp 48⟩,
    ⟨.newcw, .unused, .unused, .deref 48 0⟩,
    ⟨.frame, .imm 0, .unused, .fp 56⟩,
    ⟨.movp, .fp 48, .unused, .deref 56 48⟩,
    ⟨.spawn, .fp 56, .unused, .imm 10⟩,
    ⟨.recv, .mp 0, .unused, .fp 60⟩,
    ⟨.newcw, .unused, .unused, .deref 48 0⟩,
    ⟨.send, .imm 2, .unused, .deref 48 0⟩,
    ⟨.exit, .unused, .unused, .unused⟩,
    ⟨.send, .imm 1, .unused, .mp 0⟩,
    ⟨.recv, .deref 48 0, .unused, .fp 60⟩,
    ⟨.exit, .unused, .unused, .unused⟩] 16

/-- A thread that receives, with a handler, from a channel whose counted references another
thread gives up. -/
def freedChannel : Module :=
  { Module.ofCode "m" [
      ⟨.newcw, .unused, .unused, .mp 0⟩,
      ⟨.newcw, .unused, .unused, .fp 48⟩,
      ⟨.movw, .fp 48, .unused, .fp 52⟩,
      ⟨.frame, .imm 0, .unused, .fp 56⟩,
      ⟨.movw, .fp 48, .unused, .deref 56 48⟩,
      ⟨.spawn, .fp 56, .unused, .imm 10⟩,
      ⟨.recv, .mp 0, .unused, .fp 60⟩,
      ⟨.movp, .imm 0, .unused, .fp 48⟩,
      ⟨.movp, .imm 0, .unused, .fp 52⟩,
      ⟨.exit, .unused, .unused, .unused⟩,
      ⟨.send, .imm 1, .unused, .mp 0⟩,
      ⟨.recv, .fp 48, .unused, .fp 60⟩,
      ⟨.exit, .unused, .unused, .unused⟩] 16 with
    handlers := [⟨40, 10, 12, none, [⟨none, 12⟩]⟩] }

theorem no_lost_wakeup_swappedChannel : ∃ s, Reachable s ∧ ∃ t ∈ s.1.threadQueue,
    t.blockedOn = some 0x10000007 ∧ Pending s.1 t 0x10000007 := by
  have hrun : (swappedChannel.after .bare 3 9).any (fun s =>
      s.1.threadQueue.any fun t => decide (t.blockedOn = some 0x10000007)) = true := by
    decide +kernel
  obtain ⟨⟨vm, q⟩, hreach, htest⟩ := Module.reachable_after rfl hrun
  obtain ⟨t, ht, hb⟩ := List.any_eq_true.mp htest
  have hb := of_decide_eq_true hb
  exact ⟨(vm, q), hreach, t, ht, hb, (no_lost_wakeup hreach).1 t ht _ hb⟩

/-- Whether the next instruction of a queued thread would be completed. -/
def goesOn (vm : VmState) (t : SuspendedThread) : Bool :=
  match (loadThread t vm).fetch with
  | none => false
  | some inst =>
    match stepThread .bare (nestedAt .bare 3) false inst (loadThread t vm) with
    | .ok none _ => true
    | _ => false

/-- A run reports the deadlock of a thread that could execute its instruction. -/
def FalseDeadlock (module : Module) : Prop :=
  ∃ n s w, module.after .bare 3 n = some s ∧ Reachable s ∧
    runIter .bare (nestedAt .bare 3) s.2 s.1 = .error deadlockFault w ∧
    ∃ t ∈ s.1.threadQueue, ∃ inst w', t.blockedOn.isSome ∧ (loadThread t s.1).fetch = some inst ∧
      stepThread .bare (nestedAt .bare 3) false inst (loadThread t s.1) = .ok none w'

theorem of_goesOn {vm : VmState} {t : SuspendedThread} (h : goesOn vm t = true) :
    ∃ inst w, (loadThread t vm).fetch = some inst ∧
      stepThread .bare (nestedAt .bare 3) false inst (loadThread t vm) = .ok none w := by
  unfold goesOn at h
  split at h
  · cases h
  · next inst hfetch =>
      split at h
      · next w hstep => exact ⟨inst, w, hfetch, hstep⟩
      · cases h

theorem falseDeadlock_of_test {module : Module} {n : Nat}
    (hentry : module.header.entryPc.msb = false)
    (h : (module.after .bare 3 n).any (fun s =>
      faults .bare 3 (fun e _ => decide (e = deadlockFault)) s &&
        s.1.threadQueue.any fun t => t.blockedOn.isSome && goesOn s.1 t) = true) :
    FalseDeadlock module := by
  obtain ⟨s, hafter, hreach, htest⟩ := Module.run_after hentry h
  obtain ⟨hfault, hthread⟩ := Bool.and_eq_true_iff.mp htest
  obtain ⟨e, w, hrun, he⟩ := of_faults hfault
  obtain ⟨t, ht, hgo⟩ := List.any_eq_true.mp hthread
  obtain ⟨hb, hgo⟩ := Bool.and_eq_true_iff.mp hgo
  obtain ⟨inst, w', hfetch, hstep⟩ := of_goesOn hgo
  obtain rfl := of_decide_eq_true he
  exact ⟨n, s, w, hafter, hreach, hrun, t, ht, inst, w', hb, hfetch, hstep⟩

theorem swappedChannel_freedChannel_falseDeadlock :
    FalseDeadlock swappedChannel ∧ FalseDeadlock freedChannel :=
  ⟨falseDeadlock_of_test (n := 13) rfl (by decide +kernel),
    falseDeadlock_of_test (n := 13) rfl (by decide +kernel)⟩

end RiceVM
