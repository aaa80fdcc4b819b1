import RiceVM.Rules

/-!
Every instruction stays within a relation that is closed under the rules, or
changes nothing and waits for a channel. The proof follows the definitions: the
accessors, the straight-line instructions, the module instructions, the channel
instructions and then, by induction on the host stack, the interpreter loops.
-/
namespace RiceVM
open Exec Ops

/-- From a state that waits for no channel, `R` holds and no wait begins. -/
def Keeps (R : VmState → VmState → Prop) (s t : VmState) : Prop :=
  s.blockedChannel = none → R s t ∧ t.blockedChannel = none

/-- A program that stays within the rules and never reports the deadlock of a run. -/
abbrev Sound {α : Type} (R : VmState → VmState → Prop) (m : VM α) : Prop :=
  Within (Keeps R) (· ≠ deadlockFault) m

theorem other_ne_deadlock (msg : String) : ExecError.other msg ≠ deadlockFault := nofun

namespace VmState

theorem moduleAt_loadedModules {vm : VmState} {lms : List LoadedModule}
    (h : ∀ (i : Nat) (lm : LoadedModule), vm.loadedModules[i]? = some lm →
      ∃ lm' : LoadedModule, lms[i]? = some lm' ∧ lm'.module = lm.module) (idx : Option Nat) (m : Module) (hm : vm.moduleAt idx = some m) :
    ({ vm with loadedModules := lms } : VmState).moduleAt idx = some m := by
  cases idx with
  | none => exact hm
  | some i =>
      simp only [moduleAt, Option.map_eq_some_iff] at hm ⊢
      obtain ⟨lm, hlm, rfl⟩ := hm
      obtain ⟨lm', hlm', heq⟩ := h i lm hlm
      exact ⟨lm', hlm', heq⟩

theorem moduleAt_modify {vm : VmState} {i : Nat} {f : LoadedModule → LoadedModule}
    (hf : ∀ lm, (f lm).module = lm.module) (idx : Option Nat) (m : Module)
    (hm : vm.moduleAt idx = some m) :
    ({ vm with loadedModules := vm.loadedModules.modify i f } : VmState).moduleAt idx = some m := by
  refine moduleAt_loadedModules (fun j lm hj => ?_) idx m hm
  rw [List.getElem?_modify, hj]
  refine ⟨_, rfl, ?_⟩
  split
  · exact hf lm
  · rfl

end VmState

/-- Parked data keeps its place when it changes. -/
theorem map_fst_modify (stack : List (Nat × List Byte)) (slot : Nat) (f : List Byte → List Byte) :
    (stack.modify slot fun e => (e.1, f e.2)).map (·.1) = stack.map (·.1) := by
  induction stack generalizing slot with
  | nil => rw [List.modify_nil]
  | cons e stack ih =>
      cases slot with
      | zero => rfl
      | succ slot => simp only [List.modify_succ_cons, List.map_cons, ih]

theorem work_modifyModuleMp (s : VmState) (moduleIdx : Nat) (f : List Byte → List Byte) :
    WorkIn s (s.modifyModuleMp moduleIdx f) := by
  unfold VmState.modifyModuleMp
  split
  · exact ⟨⟨rfl, .refl _, fun _ _ h => h, .inl rfl, List.suffix_rfl⟩, rfl⟩
  · split
    · refine ⟨⟨rfl, .refl _, fun _ _ h => h, .inl rfl, List.suffix_rfl⟩, ?_⟩
      simp only [VmState.callCtx, map_fst_modify]
    · split
      · exact .refl s
      · exact ⟨⟨rfl, .refl _, VmState.moduleAt_modify fun _ => rfl, .inl rfl, List.suffix_rfl⟩, rfl⟩

theorem work_modifyBuffer (s : VmState) (target : AddrTarget)
    (f : List Byte → Nat → List Byte) : WorkIn s (s.modifyBuffer target f) := by
  cases target with
  | frame off | mp off => exact ⟨⟨rfl, .refl _, fun _ _ h => h, .inl rfl, List.suffix_rfl⟩, rfl⟩
  | moduleMp moduleIdx offset => exact work_modifyModuleMp s moduleIdx (f · offset)
  | immediate | none | heapArray id offset => exact .refl s

theorem work_heap (s : VmState) {h : Heap} (hp : Heap.Plain s.heap h) :
    WorkIn s { s with heap := h } := ⟨⟨rfl, hp, fun _ _ h => h, .inl rfl, List.suffix_rfl⟩, rfl⟩

/-! No fault of the machine's own is the deadlock of a run. -/

def NoDeadlock {α : Type} (x : Except ExecError α) : Prop := ∀ e, x = .error e → e ≠ deadlockFault

section noDeadlock
variable {α β : Type}

theorem noDeadlock_ok (a : α) : NoDeadlock (.ok a) := nofun

theorem noDeadlock_other (msg : String) : NoDeadlock (.error (.other msg) : Except ExecError α) :=
  fun _ h => by cases h; exact other_ne_deadlock msg

theorem noDeadlock_bind {x : Except ExecError α} {f : α → Except ExecError β}
    (hx : NoDeadlock x) (hf : ∀ a, NoDeadlock (f a)) : NoDeadlock (x >>= f) := by
  cases x with
  | ok a => exact hf a
  | error e => exact fun _ h => by cases h; exact hx e rfl

theorem noDeadlock_ite {c : Prop} [Decidable c] {x y : Except ExecError α}
    (hx : NoDeadlock x) (hy : NoDeadlock y) : NoDeadlock (if c then x else y) := by
  split
  · exact hx
  · exact hy

theorem noDeadlock_offsetOperand (reg : Word) (what : String) :
    NoDeadlock (offsetOperand reg what) := by
  unfold offsetOperand
  split
  · exact noDeadlock_ok _
  · exact noDeadlock_other _

theorem noDeadlock_frameAddr (fpBase : Nat) (reg : Word) : NoDeadlock (frameAddr fpBase reg) :=
  noDeadlock_bind (noDeadlock_offsetOperand _ _) fun _ =>
    noDeadlock_ite (noDeadlock_ok _) (noDeadlock_other _)

theorem noDeadlock_resolveOperand (op : Operand) (fpBase : Nat) (stackData mpData : List Byte)
    (heapRefs : List (HeapId × Nat)) :
    NoDeadlock (resolveOperand op fpBase stackData mpData heapRefs) := by
  unfold resolveOperand
  split
  · exact noDeadlock_bind (noDeadlock_frameAddr _ _) fun _ => noDeadlock_ok _
  · exact noDeadlock_bind (noDeadlock_offsetOperand _ _) fun _ => noDeadlock_ok _
  · exact noDeadlock_ok _
  · exact noDeadlock_ok _
  · exact noDeadlock_bind (noDeadlock_frameAddr _ _) fun _ =>
      noDeadlock_bind (noDeadlock_offsetOperand _ _) fun _ => noDeadlock_ok _
  · refine noDeadlock_bind (noDeadlock_offsetOperand _ _) fun _ =>
      noDeadlock_bind (noDeadlock_offsetOperand _ _) fun _ => ?_
    split <;> exact noDeadlock_ok _
  · exact noDeadlock_other _
  · exact noDeadlock_other _

theorem noDeadlock_resolveMiddle (op : MiddleOperand) (fpBase : Nat) :
    NoDeadlock (resolveMiddle op fpBase) := by
  unfold resolveMiddle
  split
  · exact noDeadlock_ok _
  · exact noDeadlock_ok _
  · exact noDeadlock_bind (noDeadlock_frameAddr _ _) fun _ => noDeadlock_ok _
  · exact noDeadlock_bind (noDeadlock_offsetOperand _ _) fun _ => noDeadlock_ok _

theorem noDeadlock_pop (fs : FrameStack) : NoDeadlock fs.pop :=
  noDeadlock_ite (noDeadlock_other _) (noDeadlock_ok _)

theorem noDeadlock_allocPending (fs : FrameStack) (size : Nat) :
    NoDeadlock (fs.allocPending size) := noDeadlock_ite (noDeadlock_ok _) (noDeadlock_other _)

theorem noDeadlock_activatePending (fs : FrameStack) (off : Nat) (pc : Pc) :
    NoDeadlock (fs.activatePending off pc) :=
  noDeadlock_ite (noDeadlock_other _) (noDeadlock_ok _)

theorem noDeadlock_exportPc (m : Module) (funcMap : FuncMap) (funcIdx : Nat) (w : String) :
    NoDeadlock (exportPc m funcMap funcIdx w) := by
  unfold exportPc
  split
  · exact noDeadlock_ok _
  · exact noDeadlock_other _

theorem noDeadlock_parseAltTable (src : AddrTarget) (frames : FrameStack) (mp : List Byte) :
    NoDeadlock (parseAltTable src frames mp) := by
  refine noDeadlock_bind ?_ fun p => noDeadlock_ite (noDeadlock_ok _) (noDeadlock_other _)
  cases src with
  | frame off | mp off => exact noDeadlock_ok _
  | moduleMp moduleIdx offset | immediate | none | heapArray id offset =>
      exact noDeadlock_other _

end noDeadlock

/-- A fault text is told from the deadlock by its first character. -/
theorem threadFault_ne_deadlock {msg : String} (h : msg.toList.head? ≠ some 'd') :
    ExecError.threadFault msg ≠ deadlockFault := by
  intro heq
  cases heq
  exact h (by decide)

theorem noDeadlock_resolveModuleRef (vm : VmState) (id : HeapId) :
    NoDeadlock (resolveModuleRef vm id) := by
  intro e he
  unfold resolveModuleRef at he
  split at he
  · split at he <;> cases he
    exact threadFault_ne_deadlock (by decide)
  · cases he
    exact threadFault_ne_deadlock (by decide)

theorem noDeadlock_channelRef (vm : VmState) (c : HeapId) : NoDeadlock (channelRef vm c) := by
  intro e he
  unfold channelRef at he
  split at he
  · cases he
    exact threadFault_ne_deadlock (by decide)
  · split at he
    · cases he
      exact fun h => absurd (ExecError.threadFault.inj h) (by decide)
    · split at he <;> cases he
      exact threadFault_ne_deadlock (by decide)

theorem noDeadlock_firstReady (vm : VmState) (idx : Nat) (entries : List AltEntry) :
    NoDeadlock (firstReady vm idx entries) := by
  induction entries generalizing idx with
  | nil => exact noDeadlock_ok _
  | cons entry rest ih =>
      refine noDeadlock_bind (noDeadlock_channelRef vm _) fun ch => ?_
      exact noDeadlock_ite (noDeadlock_ok _) (ih _)

theorem channelRef_ok {vm : VmState} {c : HeapId} {ch : Nat × Option (List Byte)}
    (h : channelRef vm c = .ok ch) : c ≠ nil ∧ vm.heap.chan c = some ch := by
  unfold channelRef at h
  split at h
  · cases h
  · next hne =>
      split at h
      · cases h
      · next obj hobj =>
          split at h
          · next hdata =>
              cases h
              exact ⟨hne, by rw [Heap.chan, hobj]; exact hdata⟩
          · cases h

/-- The search stops at an entry that is ready and goes on past one that is not. -/
theorem firstReady_cons {vm : VmState} {entries : List AltEntry} {e : AltEntry} {idx : Nat}
    {r : Option (Nat × AltEntry × Nat × Option (List Byte))}
    (h : firstReady vm idx (e :: entries) = .ok r) :
    ∃ ch, vm.heap.chan e.channelId = some ch ∧
      ((slotReady e.isSend ch.2 = true ∧ r = some (idx, e, ch)) ∨
        (slotReady e.isSend ch.2 = false ∧ firstReady vm (idx + 1) entries = .ok r)) := by
  rw [firstReady] at h
  cases hch : channelRef vm e.channelId with
  | error err => rw [hch] at h; cases h
  | ok ch =>
      rw [hch] at h
      refine ⟨ch, (channelRef_ok hch).2, ?_⟩
      change (if slotReady e.isSend ch.2 then _ else _) = _ at h
      split at h
      · next hready =>
          cases h
          exact .inl ⟨hready, rfl⟩
      · next hready => exact .inr ⟨Bool.eq_false_iff.mpr hready, h⟩

theorem firstReady_some {vm : VmState} {entries : List AltEntry} {idx idx' : Nat}
    {entry : AltEntry} {elemSize : Nat} {pending : Option (List Byte)}
    (h : firstReady vm idx entries = .ok (some (idx', entry, elemSize, pending))) :
    vm.heap.chan entry.channelId = some (elemSize, pending) ∧
      slotReady entry.isSend pending := by
  induction entries generalizing idx with
  | nil => cases h
  | cons e rest ih =>
      obtain ⟨ch, hch, ⟨hready, heq⟩ | ⟨-, h⟩⟩ := firstReady_cons h
      · cases heq
        exact ⟨hch, hready⟩
      · exact ih h

theorem unready_of_chan {heap : Heap} {c : HeapId} {ch : Nat × Option (List Byte)} {isSend : Bool}
    (hch : heap.chan c = some ch) (h : slotReady isSend ch.2 = false) : Unready heap isSend c := by
  refine ⟨Heap.lt_nextId_of_chan hch, fun elemSize pending hc => ?_⟩
  rw [hch] at hc
  cases hc
  exact h

theorem firstReady_none {vm : VmState} {entries : List AltEntry} {idx : Nat}
    (h : firstReady vm idx entries = .ok none) :
    ∀ e ∈ entries, Unready vm.heap e.isSend e.channelId := by
  induction entries generalizing idx with
  | nil => nofun
  | cons e rest ih =>
      obtain ⟨ch, hch, ⟨-, heq⟩ | ⟨hready, h⟩⟩ := firstReady_cons h
      · cases heq
      · intro e' he'
        rcases List.mem_cons.mp he' with rfl | hrest
        · exact unready_of_chan hch hready
        · exact ih h e' hrest

theorem unhandled_ne_deadlock (msg : String) :
    ExecError.threadFault s!"unhandled exception: {msg}" ≠ deadlockFault := by
  refine threadFault_ne_deadlock ?_
  have happ : (s!"unhandled exception: {msg}").toList =
      "unhandled exception: ".toList ++ msg.toList := String.toList_append
  rw [happ, List.head?_append]
  exact fun h => absurd (Option.some.inj h) (by decide)

theorem work_takeCalleeMp (moduleIdx : Option Nat) (s : VmState) :
    wp (takeCalleeMp moduleIdx) (fun _ t => Work s t) (fun _ _ => False) s := by
  simp only [takeCalleeMp, wp_bind, wp_get]
  cases moduleIdx with
  | some idx =>
      rw [wp_bind]
      refine wp_unwrap fun lm _ => ?_
      exact ⟨rfl, .refl _, VmState.moduleAt_modify fun _ => rfl, .inl rfl, List.suffix_rfl⟩
  | none =>
      dsimp only
      split
      · rw [wp_bind]
        exact wp_unwrap fun entry _ => ⟨rfl, .refl _, fun _ _ h => h, .inl rfl, List.suffix_rfl⟩
      · exact ⟨rfl, .refl _, fun _ _ h => h, .inl rfl, List.suffix_rfl⟩

/-- Entering a module swaps data between the places it can rest in, and cannot fail. -/
theorem work_enterModule (moduleIdx : Option Nat) (entryPc : Nat) (s : VmState) :
    wp (enterModule moduleIdx entryPc) (fun _ t => Work s t) (fun _ _ => False) s := by
  simp only [enterModule, swapIn, wp_bind, wp_get]
  refine wp_ite (fun _ => ⟨rfl, .refl _, fun _ _ h => h, .inl rfl, List.suffix_rfl⟩) fun _ => ?_
  rw [wp_bind]
  refine wp_mono (work_takeCalleeMp moduleIdx s) (fun _ t ht => ?_) fun _ _ h => h
  exact ht.trans ⟨rfl, .refl _, fun _ _ h => h, .inl rfl, List.suffix_rfl⟩

theorem work_leaveModule (saved : SavedCaller) (moduleIdx : Option Nat) (s : VmState) :
    Work s (leaveModule saved moduleIdx s) := by
  have hret : Work s (returnCalleeMp saved moduleIdx s) := by
    cases moduleIdx with
    | some idx => exact ⟨rfl, .refl _, VmState.moduleAt_modify fun _ => rfl, .inl rfl, List.suffix_rfl⟩
    | none =>
        unfold returnCalleeMp
        dsimp only
        split <;> exact ⟨rfl, .refl _, fun _ _ h => h, .inl rfl, List.suffix_rfl⟩
  unfold leaveModule
  dsimp only
  split
  · exact hret.trans ⟨rfl, .refl _, fun _ _ h => h, .inl rfl, List.suffix_rfl⟩
  · exact ⟨rfl, .refl _, fun _ _ h => h, .inl rfl, List.suffix_rfl⟩

theorem plain_retainAll {mp : List Byte} {h h' : Heap} (hretain : retainAll mp h = some h') :
    Heap.Plain h h' := by
  unfold retainAll at hretain
  generalize (List.range (mp.length / 4)).map _ = vals at hretain
  induction vals generalizing h with
  | nil => cases hretain; exact .refl _
  | cons v vals ih =>
      rw [List.foldlM_cons] at hretain
      obtain ⟨u, hu, hrest⟩ := Option.bind_eq_some_iff.mp hretain
      refine Heap.Plain.trans ?_ (ih hrest)
      split at hu
      · exact Heap.plain_incRef hu
      · cases hu; exact .refl _

section accessors
variable {Q : Word → VmState → Prop} {E : ExecError → VmState → Prop} {s : VmState}

@[simp] theorem wp_srcWord : wp srcWord Q E s ↔ Q (s.readWordAt s.src s.immSrc) s := Iff.rfl
@[simp] theorem wp_midWord : wp midWord Q E s ↔ Q (s.readWordAt s.mid s.immMid) s := Iff.rfl
@[simp] theorem wp_dstWord : wp dstWord Q E s ↔ Q (s.readWordAt s.dst s.immDst) s := Iff.rfl
@[simp] theorem wp_srcPtr : wp srcPtr Q E s ↔ Q (s.readWordAt s.src s.immSrc) s := Iff.rfl
@[simp] theorem wp_dstPtr : wp dstPtr Q E s ↔ Q (s.readWordAt s.dst s.immDst) s := Iff.rfl

theorem wp_calleeFrame {kind : ModuleKind} {funcIdx : Nat} {Q : Nat × Word → VmState → Prop}
    (hQ : ∀ p, Q p s) (hE : ∀ msg, E (.other msg) s) : wp (calleeFrame kind funcIdx) Q E s := by
  simp only [calleeFrame, wp_bind, wp_get]
  cases kind with
  | builtin moduleId funcMap =>
      rw [wp_bind]
      exact wp_ofOption (fun _ _ => hQ _) fun _ => hE _
  | main funcMap => exact hQ _
  | loaded moduleIdx funcMap =>
      rw [wp_bind]
      exact wp_unwrap fun _ _ => hQ _

end accessors

section rules
variable {R : VmState → VmState → Prop} {RS : VmState → VmState → Option HeapId → Prop}
variable (hR : Rules R RS)
include hR

theorem Rules.keeps_trans (s t u : VmState) (a : Keeps R s t) (b : Keeps R t u) : Keeps R s u :=
  fun h => ⟨hR.trans _ _ _ (a h).1 (b (a h).2).1, (b (a h).2).2⟩

theorem Rules.keeps_work {s t : VmState} (h : WorkIn s t) : Keeps R s t :=
  fun hb => ⟨hR.work s t h, h.blocked.elim (·.trans hb) id⟩

theorem Rules.keeps_refl (s : VmState) : Keeps R s s := hR.keeps_work (.refl s)

/-- A change of the running thread's own fields. -/
theorem Rules.keeps_own {s t : VmState} (hs : t.shared = s.shared) (hh : t.heap = s.heap)
    (hm : t.loadedModules = s.loadedModules) (hc : t.callCtx = s.callCtx)
    (hb : t.blockedChannel = s.blockedChannel) (hw : t.waitRecords <:+ s.waitRecords) :
    Keeps R s t := by
  refine hR.keeps_work ⟨⟨hs, by rw [hh]; exact .refl _, fun idx m h => ?_, .inl hb, hw⟩, hc⟩
  have hmod : t.module = s.module := congrArg Shared.module hs
  cases idx with
  | none => exact (congrArg some hmod).trans h
  | some i => simpa only [VmState.moduleAt, hm] using h

theorem Rules.sound_work {f : VmState → VmState} (h : ∀ s, WorkIn s (f s)) :
    Sound R (modify f) := fun s => hR.keeps_work (h s)

theorem Rules.sound_pure {α : Type} (a : α) : Sound R (pure a : VM α) := fun s => hR.keeps_refl s

theorem Rules.sound_bind {α β : Type} {m : VM α} {f : α → VM β} (hm : Sound R m)
    (hf : ∀ a, Sound R (f a)) : Sound R (m >>= f) := Within.bind hR.keeps_trans hm hf

theorem Rules.sound_throw_other {α : Type} (msg : String) :
    Sound R (throw (.other msg) : VM α) := fun s => ⟨hR.keeps_refl s, other_ne_deadlock msg⟩

/-- Go on after a program that stays within the rules. -/
theorem Rules.step {α : Type} {m : VM α} {Q : α → VmState → Prop} {s₀ s : VmState}
    (hm : Sound R m) (h₀ : Keeps R s₀ s) (hQ : ∀ a t, Keeps R s₀ t → Q a t) :
    wp m Q (fun e t => Keeps R s₀ t ∧ e ≠ deadlockFault) s :=
  hm.then hR.keeps_trans h₀ hQ

/-- The last program of a sequence. -/
theorem Rules.last {α : Type} {m : VM α} {s₀ s : VmState} (hm : Sound R m)
    (h₀ : Keeps R s₀ s) :
    wp m (fun _ t => Keeps R s₀ t) (fun e t => Keeps R s₀ t ∧ e ≠ deadlockFault) s :=
  hR.step hm h₀ fun _ _ h => h

theorem Rules.sound_modifyHeap {f : Heap → Heap} (h : ∀ heap, Heap.Plain heap (f heap)) :
    Sound R (modifyHeap f) := hR.sound_work fun s => work_heap s (h s.heap)

theorem Rules.sound_tryHeap {f : Heap → Option Heap}
    (h : ∀ heap heap', f heap = some heap' → Heap.Plain heap heap') : Sound R (tryHeap f) :=
  fun s => wp_tryHeap fun heap hf => hR.keeps_work (work_heap s (h s.heap heap hf))

theorem Rules.sound_writeAt {α : Type} (write : List Byte → Nat → α → List Byte) (size : Nat)
    (target : AddrTarget) (val : α) : Sound R (writeAt write size target val) := by
  cases target with
  | immediate => exact hR.sound_throw_other _
  | heapArray id offset =>
      exact hR.sound_work fun s => work_heap s (Heap.plain_heapWrite _ _ _ _)
  | frame off | mp off | moduleMp moduleIdx offset | none =>
      exact hR.sound_work fun s => work_modifyBuffer s _ _

theorem Rules.sound_writeWordAt (target : AddrTarget) (val : Word) :
    Sound R (writeWordAt target val) := hR.sound_writeAt _ _ _ _

theorem Rules.sound_setDstWord (val : Word) : Sound R (setDstWord val) :=
  Within.get fun s => hR.sound_writeWordAt s.dst val s

theorem Rules.sound_movePtrToDst (id : HeapId) : Sound R (movePtrToDst id) := by
  intro s
  simp only [movePtrToDst, wp_bind, wp_dstPtr]
  refine hR.step (hR.sound_tryHeap fun h h' hinc => Heap.plain_incRef hinc) (hR.keeps_refl s)
    fun _ t ht => ?_
  refine hR.step (hR.sound_setDstWord id) ht fun _ u hu => ?_
  exact hR.last (hR.sound_modifyHeap fun h => h.plain_decRef _) hu

theorem Rules.sound_allocTyped (typeId : BitVec 32) {data : HeapData} (trace : Option TraceMap)
    (hd : data.channel? = none) : Sound R (allocTyped typeId data trace) := by
  intro s
  simp only [allocTyped, wp_bind, wp_get]
  refine wp_unwrap fun made ha => ?_
  exact hR.keeps_work (work_heap s (Heap.plain_alloc ha hd))

theorem Rules.sound_alloc (typeId : BitVec 32) {data : HeapData} (hd : data.channel? = none) :
    Sound R (alloc typeId data) := hR.sound_allocTyped typeId none hd

theorem Rules.sound_allocChannel' (elemSize : Nat) :
    Sound R (alloc 0 (.channel elemSize none)) := by
  intro s
  simp only [alloc, allocTyped, wp_bind, wp_get]
  refine wp_unwrap fun made ha => ?_
  exact fun hb => ⟨hR.fresh s _ _ _ made.1 made.2 ha, hb⟩

theorem Rules.sound_popTo (frameBase fuel : Nat) : Sound R (popTo frameBase fuel) := by
  induction fuel with
  | zero => intro s; trivial
  | succ fuel ih =>
      intro s
      simp only [popTo, wp_bind, wp_get]
      refine wp_ite (fun _ => ?_) fun _ => hR.keeps_refl s
      rw [wp_bind]
      refine wp_ofExcept (fun p _ => ?_) fun e he => ⟨hR.keeps_refl s, noDeadlock_pop _ e he⟩
      rw [wp_bind, wp_set]
      exact hR.last ih (hR.keeps_own rfl rfl rfl rfl rfl List.suffix_rfl)

theorem Rules.sound_raiseExceptionWithValue (msg : String) (strId : HeapId) :
    Sound R (raiseExceptionWithValue msg strId) := by
  intro s
  simp only [raiseExceptionWithValue, wp_bind, wp_get]
  split
  · rw [wp_bind]
    refine hR.step (hR.sound_popTo _ _) (hR.keeps_refl s) fun _ t ht => ?_
    exact hR.keeps_trans _ _ _ ht (hR.keeps_own rfl rfl rfl rfl rfl List.suffix_rfl)
  · exact ⟨hR.keeps_refl s, unhandled_ne_deadlock msg⟩

theorem Rules.sound_raiseException (msg : String) : Sound R (raiseException msg) :=
  hR.sound_bind (hR.sound_alloc 0 rfl) fun _ => hR.sound_raiseExceptionWithValue msg _

/-! Effects, moves and allocation. -/

theorem Rules.sound_effect (e : Effect) : Sound R e.apply := by
  cases e with
  | poke target bytes =>
      cases target with
      | heapArray id offset =>
          refine hR.sound_modifyHeap fun h => Heap.plain_update (fun obj => ?_) fun obj _ => ?_
          · split <;> rfl
          · split
            · exact HeapData.channel?_setBuffer _ _
            · rfl
      | frame off | mp off | moduleMp moduleIdx offset | immediate | none =>
          exact hR.sound_work fun s => work_modifyBuffer s _ _
  | setNextPc pc => exact fun s => hR.keeps_own rfl rfl rfl rfl rfl List.suffix_rfl
  | setLastError msg => exact fun s => hR.keeps_own rfl rfl rfl rfl rfl List.suffix_rfl
  | pushHeapRef id offset => exact fun s => hR.keeps_own rfl rfl rfl rfl rfl List.suffix_rfl
  | halt => exact fun s => hR.keeps_own rfl rfl rfl rfl rfl List.suffix_rfl
  | alloc typeId data trace =>
      exact hR.sound_bind (hR.sound_allocTyped typeId trace data.2) fun _ => hR.sound_pure ()
  | allocChannel elemSize =>
      exact hR.sound_bind (hR.sound_allocChannel' elemSize) fun _ => hR.sound_pure ()
  | incRef id => exact hR.sound_tryHeap fun h h' hinc => Heap.plain_incRef hinc
  | decRef id => exact hR.sound_modifyHeap fun h => h.plain_decRef id
  | replace id data =>
      refine hR.sound_modifyHeap fun h => Heap.plain_update (fun obj => ?_) fun obj _ => ?_
      · split <;> rfl
      · split
        · next hnone => exact data.2.trans (Option.isNone_iff_eq_none.mp hnone).symm
        · rfl
  | inject chan value => exact fun s hb => ⟨hR.inject s chan value, hb⟩

theorem Rules.sound_effects (es : List Effect) : Sound R (Effect.applyAll es) := by
  induction es with
  | nil => exact hR.sound_pure ()
  | cons e es ih => exact hR.sound_bind (hR.sound_effect e) fun _ => ih

theorem Rules.sound_outcome (o : Outcome) : Sound R o.run := by
  cases o with
  | done => exact hR.sound_pure ()
  | raise msg => exact hR.sound_raiseException msg
  | fault e => exact fun s => ⟨hR.keeps_refl s, e.2⟩
  | panic => exact fun _ => trivial

theorem Rules.sound_opCompute (env : Env) (op : Opcode) : Sound R (opCompute env op) :=
  Within.get fun s => by
    rw [wp_bind]
    exact hR.step (hR.sound_effects _) (hR.keeps_refl s) fun _ _ h =>
      hR.last (hR.sound_outcome _) h

theorem Rules.sound_opMovw : Sound R opMovw := by
  intro s
  simp only [opMovw, wp_bind, wp_srcWord]
  exact hR.sound_setDstWord _ s

theorem Rules.sound_opMovpc : Sound R opMovpc := hR.sound_opMovw
theorem Rules.sound_opMovb : Sound R opMovb := Within.get fun s => hR.sound_writeAt _ _ _ _ s
theorem Rules.sound_opMovf : Sound R opMovf := Within.get fun s => hR.sound_writeAt _ _ _ _ s
theorem Rules.sound_opMovl : Sound R opMovl := Within.get fun s => hR.sound_writeAt _ _ _ _ s

theorem Rules.sound_opMovp : Sound R opMovp := by
  intro s
  simp only [opMovp, wp_bind, wp_srcPtr]
  exact hR.sound_movePtrToDst _ s

theorem Rules.sound_opSelf : Sound R opSelf := by
  refine Within.get fun s => ?_
  rw [wp_bind]
  refine hR.step (hR.sound_alloc 0 ?_) (hR.keeps_refl s) fun _ _ h =>
    hR.last (hR.sound_movePtrToDst _) h
  split <;> rfl

theorem Rules.sound_opNew : Sound R opNew := by
  intro s
  simp only [opNew, wp_bind, wp_srcWord, wp_get]
  refine wp_ofOption (fun size _ => ?_) fun _ => ⟨hR.keeps_refl s, other_ne_deadlock _⟩
  refine wp_unwrap fun data _ => ?_
  exact hR.step (hR.sound_allocTyped _ _ rfl) (hR.keeps_refl s) fun _ _ h =>
    hR.last (hR.sound_movePtrToDst _) h

theorem Rules.sound_opNewa : Sound R opNewa := by
  intro s
  simp only [opNewa, wp_bind, wp_srcWord]
  refine wp_ite (fun _ => hR.sound_raiseException _ s) fun _ => ?_
  simp only [wp_bind, wp_midWord, wp_get]
  refine wp_ofOption (fun size _ => ?_) fun _ => ⟨hR.keeps_refl s, other_ne_deadlock _⟩
  refine wp_ite (fun _ => ?_) fun _ => hR.sound_raiseException _ s
  rw [wp_bind]
  exact hR.step (hR.sound_allocTyped _ _ rfl) (hR.keeps_refl s) fun _ _ h =>
    hR.last (hR.sound_movePtrToDst _) h

theorem Rules.sound_allocChannel (elemSize : Nat) : Sound R (allocChannel elemSize) :=
  hR.sound_bind (hR.sound_allocChannel' elemSize) fun _ => hR.sound_movePtrToDst _

theorem Rules.sound_opNewcm : Sound R opNewcm := by
  intro s
  simp only [opNewcm, wp_bind, wp_srcWord, wp_get]
  exact hR.sound_allocChannel _ s

/-! Control flow inside a module. -/

theorem Rules.sound_opExit : Sound R opExit := fun _ => hR.keeps_own rfl rfl rfl rfl rfl List.suffix_rfl
theorem Rules.sound_opBrkpt : Sound R opBrkpt := fun _ => hR.keeps_own rfl rfl rfl rfl rfl List.suffix_rfl
theorem Rules.sound_opJmp : Sound R opJmp := fun _ => hR.keeps_own rfl rfl rfl rfl rfl List.suffix_rfl
theorem Rules.sound_opGoto : Sound R opGoto := fun _ => hR.keeps_own rfl rfl rfl rfl rfl List.suffix_rfl

theorem Rules.sound_opRaise : Sound R opRaise := by
  intro s
  simp only [opRaise, wp_bind, wp_srcPtr, wp_get]
  exact hR.sound_raiseExceptionWithValue _ _ s

theorem Rules.sound_opFrame : Sound R opFrame := by
  intro s
  simp only [opFrame, wp_bind, wp_srcWord, wp_get]
  refine wp_ofOption (fun size _ => ?_) fun _ => ⟨hR.keeps_refl s, other_ne_deadlock _⟩
  refine wp_ofExcept (fun p _ => ?_) fun e he => ⟨hR.keeps_refl s, noDeadlock_allocPending _ _ e he⟩
  exact hR.last (hR.sound_setDstWord _) (hR.keeps_own rfl rfl rfl rfl rfl List.suffix_rfl)

theorem Rules.sound_opCall : Sound R opCall := by
  intro s
  simp only [opCall, wp_bind, wp_srcWord, wp_dstWord, wp_get]
  refine wp_ofExcept (fun fs _ => ?_) fun e he => ⟨hR.keeps_refl s, noDeadlock_activatePending _ _ _ e he⟩
  exact hR.keeps_own rfl rfl rfl rfl rfl List.suffix_rfl

theorem Rules.sound_opRet : Sound R opRet := by
  intro s
  simp only [opRet, wp_bind, wp_get]
  refine wp_ofExcept (fun p _ => ?_) fun e he => ⟨hR.keeps_refl s, noDeadlock_pop _ e he⟩
  exact wp_ite (fun _ => hR.keeps_own rfl rfl rfl rfl rfl List.suffix_rfl)
    fun _ => hR.keeps_own rfl rfl rfl rfl rfl List.suffix_rfl

/-! Module instructions. What runs nested is assumed sound here. -/

theorem Rules.sound_opLoad (env : Env) : Sound R (opLoad env) := by
  intro s
  simp only [opLoad, wp_bind, wp_srcPtr, wp_midWord, wp_get]
  refine wp_ite (fun _ => ?_) fun _ => ?_
  · rw [wp_bind]
    refine hR.step (hR.sound_alloc 0 ?_) (hR.keeps_refl s) fun _ _ h =>
      hR.last (hR.sound_movePtrToDst _) h
    split <;> rfl
  · split
    · rw [wp_bind]
      exact hR.step (hR.sound_alloc 0 rfl) (hR.keeps_refl s) fun _ _ h =>
        hR.last (hR.sound_movePtrToDst _) h
    · split
      · next m _ =>
          rw [wp_bind]
          refine wp_unwrap fun made hinit => ?_
          obtain ⟨mp, heap⟩ := made
          simp only [wp_bind, wp_set]
          refine hR.step (hR.sound_alloc 0 rfl) (hR.keeps_work ?_) fun _ _ h =>
            hR.last (hR.sound_movePtrToDst _) h
          refine ⟨⟨rfl, plain_initMpWithTypes hinit, VmState.moduleAt_loadedModules ?_, .inl rfl,
            List.suffix_rfl⟩, rfl⟩
          intro i lm hi
          exact ⟨lm, by rw [List.getElem?_append_left (List.getElem?_eq_some_iff.mp hi).1, hi], rfl⟩
      · exact hR.sound_movePtrToDst _ s

theorem Rules.sound_opMframe : Sound R opMframe := by
  intro s
  simp only [opMframe, wp_bind, wp_srcPtr, wp_midWord, wp_get]
  refine wp_ofExcept (fun kind _ => ?_)
    fun e he => ⟨hR.keeps_refl s, noDeadlock_resolveModuleRef _ _ e he⟩
  refine wp_calleeFrame (fun p => ?_) fun msg => ⟨hR.keeps_refl s, other_ne_deadlock msg⟩
  refine wp_ofExcept (fun q _ => ?_)
    fun e he => ⟨hR.keeps_refl s, noDeadlock_allocPending _ _ e he⟩
  rw [wp_set]
  exact hR.last (hR.sound_setDstWord _) (hR.keeps_own rfl rfl rfl rfl rfl List.suffix_rfl)

/-- The interpreter that runs nested stays within the rules. -/
structure SoundNested (R : VmState → VmState → Prop) (nested : Nested) : Prop where
  loop : ∀ moduleIdx callFrameBase, Sound R (nested.loop moduleIdx callFrameBase)
  native : ∀ handler seen, Sound R (nested.native handler seen)
  readWaitFile : ∀ len, Sound R (nested.readWaitFile len)

theorem Rules.sound_runNestedModuleCall {nested : Nested} (hn : SoundNested R nested)
    (moduleIdx : Option Nat) (entryPc callFrameBase : Nat) :
    Sound R (runNestedModuleCall nested moduleIdx entryPc callFrameBase) := by
  refine Within.get fun s => ?_
  rw [wp_bind]
  refine wp_of_ok (work_enterModule moduleIdx entryPc s) (fun _ _ h => h.elim) fun _ u henter hu => ?_
  have hleave : ∀ w, Keeps R u w → Keeps R s (leaveModule (VmState.saveCaller s moduleIdx) moduleIdx w) := by
    intro w hw hs
    obtain ⟨huw, hwb⟩ := hw (hu.blocked.elim (·.trans hs) id)
    refine ⟨hR.call s u w moduleIdx entryPc henter hu huw, ?_⟩
    exact (work_leaveModule _ moduleIdx w).blocked.elim (·.trans hwb) id
  rw [wp_restoring]
  exact wp_mono (hn.loop _ _ u) (fun _ w hw => hleave w hw) fun _ w hw => ⟨hleave w hw.1, hw.2⟩

theorem Rules.sound_copyResult : Sound R copyResult :=
  Within.get fun s =>
    wp_ite (fun _ => hR.keeps_refl s) fun _ => hR.sound_writeWordAt _ _ s

theorem Rules.sound_popBuiltinFrame : Sound R popBuiltinFrame := by
  refine Within.get fun s => ?_
  rw [wp_bind]
  refine wp_ofExcept (fun p _ => ?_) fun e he => ⟨hR.keeps_refl s, noDeadlock_pop _ e he⟩
  exact wp_ite (fun _ => hR.keeps_own rfl rfl rfl rfl rfl List.suffix_rfl)
    fun _ => hR.keeps_own rfl rfl rfl rfl rfl List.suffix_rfl

theorem Rules.sound_returnFromBuiltin : Sound R returnFromBuiltin :=
  hR.sound_bind hR.sound_copyResult fun _ => hR.sound_popBuiltinFrame

theorem Rules.sound_opMcall {nested : Nested} (hn : SoundNested R nested) :
    Sound R (opMcall nested) := by
  intro s
  simp only [opMcall, wp_bind, wp_srcWord, wp_midWord, wp_dstPtr, wp_get]
  refine wp_ofExcept (fun kind _ => ?_)
    fun e he => ⟨hR.keeps_refl s, noDeadlock_resolveModuleRef _ _ e he⟩
  refine wp_ofExcept (fun frames _ => ?_)
    fun e he => ⟨hR.keeps_refl s, noDeadlock_activatePending _ _ _ e he⟩
  rw [wp_set]
  have hact : Keeps R s { s with frames := frames } := hR.keeps_own rfl rfl rfl rfl rfl List.suffix_rfl
  cases kind with
  | builtin moduleId funcMap =>
      simp only [wp_bind]
      refine wp_ofOption (fun f _ => ?_) fun _ => ⟨hact, other_ne_deadlock _⟩
      exact hR.step (hn.native _ _) hact fun _ _ h => hR.last hR.sound_returnFromBuiltin h
  | main funcMap =>
      simp only [wp_bind]
      refine wp_ofExcept (fun entryPc _ => ?_) fun e he => ⟨hact, noDeadlock_exportPc _ _ _ _ e he⟩
      exact hR.last (hR.sound_runNestedModuleCall hn _ _ _) hact
  | loaded moduleIdx funcMap =>
      simp only [wp_bind]
      refine wp_unwrap fun lm _ => ?_
      refine wp_ofExcept (fun entryPc _ => ?_) fun e he => ⟨hact, noDeadlock_exportPc _ _ _ _ e he⟩
      exact hR.last (hR.sound_runNestedModuleCall hn _ _ _) hact

theorem Rules.sound_spawnThread (framePtr entryPc : Nat) : Sound R (spawnThread framePtr entryPc) := by
  refine Within.get fun s => ?_
  rw [wp_bind]
  refine wp_ofExcept (fun fs _ => ?_)
    fun e he => ⟨hR.keeps_refl s, noDeadlock_activatePending _ _ _ e he⟩
  dsimp only
  rw [wp_bind]
  refine wp_unwrap fun nextPid hpid => ?_
  split at hpid
  · cases hpid
  · next hne =>
      cases hpid
      rw [wp_bind]
      refine wp_unwrap fun heap hretain => ?_
      exact fun hb => ⟨hR.spawn s _ _ _ _ hne (plain_retainAll hretain), hb⟩

theorem Rules.sound_opSpawn : Sound R opSpawn := by
  intro s
  simp only [opSpawn, wp_bind, wp_srcWord, wp_dstWord]
  exact hR.sound_spawnThread _ _ s

theorem Rules.sound_opMspawn {nested : Nested} (hn : SoundNested R nested) :
    Sound R (opMspawn nested) := by
  intro s
  simp only [opMspawn, wp_bind, wp_srcWord, wp_midWord, wp_dstPtr, wp_get]
  refine wp_ofExcept (fun kind _ => ?_)
    fun e he => ⟨hR.keeps_refl s, noDeadlock_resolveModuleRef _ _ e he⟩
  cases kind with
  | main funcMap =>
      simp only [wp_bind]
      refine wp_ofExcept (fun entryPc _ => ?_)
        fun e he => ⟨hR.keeps_refl s, noDeadlock_exportPc _ _ _ _ e he⟩
      exact hR.sound_spawnThread _ _ s
  | builtin moduleId funcMap =>
      simp only [wp_bind]
      refine wp_ofExcept (fun frames _ => ?_)
        fun e he => ⟨hR.keeps_refl s, noDeadlock_activatePending _ _ _ e he⟩
      rw [wp_set]
      have hact : Keeps R s { s with frames := frames } := hR.keeps_own rfl rfl rfl rfl rfl List.suffix_rfl
      refine wp_ofOption (fun f _ => ?_) fun _ => ⟨hact, other_ne_deadlock _⟩
      refine hR.step (hn.native _ _) hact fun _ _ h => ?_
      exact hR.step hR.sound_popBuiltinFrame h fun _ _ h =>
        hR.keeps_trans _ _ _ h (hR.keeps_own rfl rfl rfl rfl rfl List.suffix_rfl)
  | loaded moduleIdx funcMap =>
      simp only [wp_bind]
      refine wp_ofExcept (fun frames _ => ?_)
        fun e he => ⟨hR.keeps_refl s, noDeadlock_activatePending _ _ _ e he⟩
      rw [wp_set]
      have hact : Keeps R s { s with frames := frames } := hR.keeps_own rfl rfl rfl rfl rfl List.suffix_rfl
      refine wp_unwrap fun lm _ => ?_
      refine wp_ofExcept (fun entryPc _ => ?_) fun e he => ⟨hact, noDeadlock_exportPc _ _ _ _ e he⟩
      exact hR.step (hR.sound_runNestedModuleCall hn _ _ _) hact fun _ _ h =>
        hR.keeps_trans _ _ _ h (hR.keeps_own rfl rfl rfl rfl rfl List.suffix_rfl)

/-! Channel instructions: they transfer a value, or wait and change nothing. -/

theorem Rules.sound_writeAddrBytes (target : AddrTarget) (data : List Byte) :
    Sound R (writeAddrBytes target data) := by
  cases target with
  | immediate => exact hR.sound_throw_other _
  | heapArray id offset =>
      refine hR.sound_bind (hR.sound_modifyHeap fun h => h.plain_arrayWrite _ _ _) fun _ => ?_
      refine hR.sound_modifyHeap fun h => Heap.plain_update (fun obj => ?_) fun obj _ => ?_
      · split <;> rfl
      · split
        · next heq => rw [heq]; rfl
        · rfl
  | frame off | mp off | moduleMp moduleIdx offset | none =>
      exact hR.sound_work fun s => work_modifyBuffer s _ _

theorem Rules.sound_transfer {s : VmState} (base : TableBase) (entry : AltEntry) {elemSize : Nat}
    {pending : Option (List Byte)} (hch : s.heap.chan entry.channelId = some (elemSize, pending))
    (hready : slotReady entry.isSend pending) :
    wp (transfer base entry elemSize pending) (fun _ t => Keeps R s t)
      (fun e t => Keeps R s t ∧ e ≠ deadlockFault) s := by
  simp only [transfer, wp_bind, wp_get]
  cases hsend : entry.isSend with
  | true =>
      cases pending with
      | some v => rw [hsend] at hready; cases hready
      | none => exact fun hb => ⟨hR.put s _ _ elemSize hch, hb⟩
  | false =>
      cases pending with
      | none => rw [hsend] at hready; cases hready
      | some v =>
          refine hR.last (s := s.takeChannel entry.channelId v) (hR.sound_writeAddrBytes _ _) ?_
          exact fun hb => ⟨hR.take s _ _ elemSize hch, hb⟩

theorem Rules.opSend_spec {inst : Instruction} (hop : inst.opcode = .send) (s : VmState) :
    wp opSend (fun _ t => Keeps R s t ∨ Waits inst s t)
      (fun e t => Keeps R s t ∧ e ≠ deadlockFault) s := by
  simp only [opSend, wp_bind, wp_dstPtr, wp_get]
  cases hch : channelRef s (s.readWordAt s.dst s.immDst) with
  | error e => exact wp_mono (hR.sound_raiseException _ s) (fun _ _ h => .inl h) fun _ _ h => h
  | ok ch =>
      obtain ⟨hne, hch⟩ := channelRef_ok hch
      obtain ⟨elemSize, pending⟩ := ch
      cases pending with
      | some v => exact .inr ⟨_, rfl, by rw [Stuck, hop]; exact ⟨rfl, hne, unready_of_chan hch rfl⟩⟩
      | none => exact .inl fun hb => ⟨hR.put s _ _ elemSize hch, hb⟩

theorem Rules.opRecv_spec {inst : Instruction} (hop : inst.opcode = .recv) (s : VmState) :
    wp opRecv (fun _ t => Keeps R s t ∨ Waits inst s t)
      (fun e t => Keeps R s t ∧ e ≠ deadlockFault) s := by
  simp only [opRecv, wp_bind, wp_srcPtr, wp_get]
  cases hch : channelRef s (s.readWordAt s.src s.immSrc) with
  | error e => exact wp_mono (hR.sound_raiseException _ s) (fun _ _ h => .inl h) fun _ _ h => h
  | ok ch =>
      obtain ⟨hne, hch⟩ := channelRef_ok hch
      obtain ⟨elemSize, pending⟩ := ch
      cases pending with
      | none => exact .inr ⟨_, rfl, by rw [Stuck, hop]; exact ⟨rfl, hne, unready_of_chan hch rfl⟩⟩
      | some v =>
          refine wp_mono (hR.last (hR.sound_writeAddrBytes s.dst v)
            (s := s.takeChannel _ v) fun hb => ⟨hR.take s _ _ elemSize hch, hb⟩)
            (fun _ _ h => .inl h) fun _ _ h => h

/-- An alt finds no ready entry, or stays within the rules. -/
theorem Rules.wp_executeAlt (blocking : Bool) (s : VmState) :
    wp (executeAlt blocking)
      (fun o t => match o with
        | .noneReady =>
          t = (if blocking then { s with blockedChannel := some nil } else s) ∧
            ∃ table, parseAltTable s.src s.frames s.mp = .ok table ∧
              altFault table.entries = none ∧
              ∀ e ∈ table.entries, Unready s.heap e.isSend e.channelId
        | _ => Keeps R s t)
      (fun e t => Keeps R s t ∧ e ≠ deadlockFault) s := by
  simp only [executeAlt, wp_bind, wp_get]
  refine wp_ofExcept (fun table htable => ?_)
    fun e he => ⟨hR.keeps_refl s, noDeadlock_parseAltTable _ _ _ e he⟩
  split
  · rw [wp_bind]
    exact hR.step (hR.sound_raiseException _) (hR.keeps_refl s) fun _ _ h => h
  · next hfault =>
    rw [wp_bind]
    refine wp_ofExcept (fun r hr => ?_)
      fun e he => ⟨hR.keeps_refl s, noDeadlock_firstReady _ _ _ e he⟩
    cases r with
    | some p =>
        obtain ⟨idx, entry, elemSize, pending⟩ := p
        obtain ⟨hch, hready⟩ := firstReady_some hr
        rw [wp_bind]
        exact wp_mono (hR.sound_transfer _ _ hch hready) (fun _ _ h => h) fun _ _ h => h
    | none =>
        have hstuck := firstReady_none hr
        cases blocking with
        | true => exact ⟨rfl, table, htable, hfault, hstuck⟩
        | false => exact ⟨rfl, table, htable, hfault, hstuck⟩

theorem Rules.opAlt_spec {inst : Instruction} (hop : inst.opcode = .alt) (s : VmState) :
    wp opAlt (fun _ t => Keeps R s t ∨ Waits inst s t)
      (fun e t => Keeps R s t ∧ e ≠ deadlockFault) s := by
  simp only [opAlt, wp_bind]
  refine wp_mono (hR.wp_executeAlt true s) (fun o t h => ?_) fun _ _ h => h
  cases o with
  | selected idx =>
      exact wp_mono (hR.last (hR.sound_setDstWord _) h) (fun _ _ h => .inl h) fun _ _ h => h
  | raised => exact .inl h
  | noneReady =>
      obtain ⟨rfl, table, htable, hstuck⟩ := h
      exact .inr ⟨nil, rfl, by rw [Stuck, hop]; exact ⟨rfl, table, htable, hstuck⟩⟩

theorem Rules.sound_opNbalt : Sound R opNbalt := by
  intro s
  simp only [opNbalt, wp_bind, wp_get]
  refine wp_ofExcept (fun table htable => ?_)
    fun e he => ⟨hR.keeps_refl s, noDeadlock_parseAltTable _ _ _ e he⟩
  refine wp_mono (hR.wp_executeAlt false s) (fun o t h => ?_) fun _ _ h => h
  cases o with
  | selected idx => exact hR.last (hR.sound_setDstWord _) h
  | raised => exact h
  | noneReady =>
      obtain ⟨rfl, _⟩ := h
      exact hR.last (hR.sound_setDstWord _) (hR.keeps_refl _)

end rules
end RiceVM
