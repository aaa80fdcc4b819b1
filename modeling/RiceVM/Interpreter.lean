import RiceVM.Instructions

/-!
The interpreter loops stay within the rules. The induction is on the host stack:
what runs nested has a smaller one. A slice and the main loop share the step of
one thread, `stepThread`.
-/
namespace RiceVM
open Exec Ops

/-- A step that went on: the pc has moved and no wait began. An instruction that ends its
thread does nothing else. -/
def WentOn (R : VmState → VmState → Prop) (inst : Instruction) (s w : VmState) : Prop :=
  ∃ u : VmState, R s u ∧ u.blockedChannel = none ∧
    (s.halting inst = true → Work s u ∧ u.halted = true) ∧
    w = { u with pc := u.nextPc }.stopped

/-- A step that has to wait for `c`: only the operands were resolved. -/
def Blocked (inst : Instruction) (s w : VmState) (c : HeapId) : Prop :=
  ∃ u : VmState, Begun inst s u ∧ Stuck inst u c ∧ u.blockedChannel = none ∧ w = u.stopped

/-- A step that faulted. -/
def Faulted (R : VmState → VmState → Prop) (s w : VmState) : Prop :=
  ∃ u : VmState, R s u ∧ u.blockedChannel = none ∧ w = u.stopped

theorem VmState.clear_blockedChannel {s : VmState} (h : s.blockedChannel = none) :
    { s with blockedChannel := none } = s := by
  cases s
  cases h
  rfl

theorem sound_acts {R : VmState → VmState → Prop} {m : VM Unit} (h : Sound R m)
    (inst : Instruction) (s : VmState) :
    wp m (fun _ t => Keeps R s t ∨ Waits inst s t)
      (fun e t => Keeps R s t ∧ e ≠ deadlockFault) s :=
  wp_mono (h s) (fun _ _ h => .inl h) fun _ _ h => h

theorem begin_ok {inst : Instruction} {s : VmState} {src mid dst : AddrTarget}
    (hsrc : resolveOperand inst.source s.frames.currentDataOffset s.frames.data s.mp s.heapRefs
      = .ok src)
    (hmid : resolveMiddle inst.middle s.frames.currentDataOffset = .ok mid)
    (hdst : resolveOperand inst.destination s.frames.currentDataOffset s.frames.data s.mp s.heapRefs
      = .ok dst) :
    begin inst s = .ok () { s with
      src := src, mid := mid, dst := dst
      immSrc := inst.source.register1, immMid := inst.middle.register1
      immDst := inst.destination.register1, nextPc := s.pc + 1 } := by
  simp only [begin, resolveOperands, bind_apply, get_apply, modify_apply, hsrc, hmid, hdst, ofExcept_ok]

/-- A step whose operation waits reports the channel. -/
theorem stepThread_waits {env : Env} {nested : Nested} {due : Bool} {inst : Instruction}
    {s u : VmState} {c : HeapId} (hbegin : begin inst (s.started due inst) = .ok () u)
    (hdisp : dispatch env nested inst u = .ok () { u with blockedChannel := some c }) :
    stepThread env nested due inst s =
      .ok (some c) ({ u with blockedChannel := none } : VmState).stopped := by
  have hexec : execute env nested inst (s.started due inst) =
      .ok () { u with blockedChannel := some c } := by
    rw [execute, bind_ok hbegin, bind_ok (attempt_ok hdisp)]
    rfl
  have hbody : (do execute env nested inst; settle) (s.started due inst) =
      .ok (some c) { u with blockedChannel := none } := by
    rw [bind_ok hexec]
    rfl
  rw [stepThread, bind_ok (modify_apply _ s), bind_ok (attempt_ok hbody)]
  rfl

theorem stepThread_done {env : Env} {nested : Nested} {due : Bool} {inst : Instruction}
    {s u v : VmState} (hbegin : begin inst (s.started due inst) = .ok () u)
    (hdisp : dispatch env nested inst u = .ok () v) (hv : v.blockedChannel = none) :
    stepThread env nested due inst s = .ok none ({ v with pc := v.nextPc } : VmState).stopped := by
  have hexec : execute env nested inst (s.started due inst) = .ok () v := by
    rw [execute, bind_ok hbegin, bind_ok (attempt_ok hdisp)]
    rfl
  have hbody : (do execute env nested inst; settle) (s.started due inst) =
      .ok none { v with pc := v.nextPc } := by
    rw [bind_ok hexec, settle, bind_ok (get_apply v), hv]
    rfl
  rw [stepThread, bind_ok (modify_apply _ s), bind_ok (attempt_ok hbody)]
  rfl

section rules
variable {R : VmState → VmState → Prop} {RS : VmState → VmState → Option HeapId → Prop}
variable (hR : Rules R RS)
include hR

theorem Rules.dispatch_spec {nested : Nested} (hn : SoundNested R nested) (env : Env)
    (inst : Instruction) (s : VmState) :
    wp (dispatch env nested inst) (fun _ t => Keeps R s t ∨ Waits inst s t)
      (fun e t => Keeps R s t ∧ e ≠ deadlockFault) s := by
  unfold dispatch
  split
  case h_35 hop => exact hR.opSend_spec hop s
  case h_36 hop => exact hR.opRecv_spec hop s
  case h_37 hop => exact hR.opAlt_spec hop s
  · exact sound_acts (hR.sound_pure ()) inst s
  · exact sound_acts hR.sound_opExit inst s
  · exact sound_acts hR.sound_opJmp inst s
  · exact sound_acts hR.sound_opFrame inst s
  · exact sound_acts hR.sound_opCall inst s
  · exact sound_acts hR.sound_opRet inst s
  · exact sound_acts (hR.sound_opLoad env) inst s
  · exact sound_acts hR.sound_opMframe inst s
  · exact sound_acts (hR.sound_opMcall hn) inst s
  · exact sound_acts hR.sound_opMovw inst s
  · exact sound_acts hR.sound_opMovb inst s
  · exact sound_acts hR.sound_opMovf inst s
  · exact sound_acts hR.sound_opMovl inst s
  · exact sound_acts hR.sound_opMovp inst s
  · exact sound_acts hR.sound_opMovpc inst s
  · exact sound_acts hR.sound_opNew inst s
  · exact sound_acts hR.sound_opNew inst s
  · exact sound_acts hR.sound_opNew inst s
  · exact sound_acts hR.sound_opNewa inst s
  · exact sound_acts hR.sound_opNewa inst s
  · exact sound_acts (hR.sound_allocChannel _) inst s
  · exact sound_acts (hR.sound_allocChannel _) inst s
  · exact sound_acts (hR.sound_allocChannel _) inst s
  · exact sound_acts (hR.sound_allocChannel _) inst s
  · exact sound_acts hR.sound_opNewcm inst s
  · exact sound_acts hR.sound_opNewcm inst s
  · exact sound_acts (hR.sound_allocChannel _) inst s
  · exact sound_acts hR.sound_opGoto inst s
  · exact sound_acts hR.sound_opRaise inst s
  · exact sound_acts (hR.sound_pure ()) inst s
  · exact sound_acts (hR.sound_pure ()) inst s
  · exact sound_acts hR.sound_opBrkpt inst s
  · exact sound_acts hR.sound_opSpawn inst s
  · exact sound_acts (hR.sound_opMspawn hn) inst s
  · exact sound_acts hR.sound_opNbalt inst s
  · exact sound_acts hR.sound_opSelf inst s
  · exact sound_acts (hR.sound_opCompute env _) inst s

/-- Resolving operands touches the operand slots only. -/
theorem Rules.begin_spec (inst : Instruction) (s : VmState) :
    wp (begin inst) (fun _ u => Begun inst s u) (fun e t => Keeps R s t ∧ e ≠ deadlockFault) s := by
  have hops : ∀ Q : Unit → VmState → Prop,
      (∀ u : VmState, Begun inst s { u with nextPc := u.pc + 1 } → Q () u) →
      wp (resolveOperands inst) Q (fun e t => Keeps R s t ∧ e ≠ deadlockFault) s := by
    intro Q hQ
    simp only [resolveOperands, wp_bind, wp_get, wp_modify]
    refine wp_ofExcept (fun src hsrc => ?_) fun e he =>
      ⟨hR.keeps_own rfl rfl rfl rfl rfl List.suffix_rfl, noDeadlock_resolveOperand _ _ _ _ _ e he⟩
    refine wp_ofExcept (fun mid hmid => ?_) fun e he =>
      ⟨hR.keeps_own rfl rfl rfl rfl rfl List.suffix_rfl, noDeadlock_resolveMiddle _ _ e he⟩
    refine wp_ofExcept (fun dst hdst => ?_) fun e he =>
      ⟨hR.keeps_own rfl rfl rfl rfl rfl List.suffix_rfl, noDeadlock_resolveOperand _ _ _ _ _ e he⟩
    exact hQ _ ⟨hsrc, hmid, hdst, rfl, rfl, rfl, rfl, fun _ => rfl, rfl, rfl⟩
  rw [begin, wp_bind]
  exact hops _ fun u hu => hu

omit hR in
theorem Begun.work {inst : Instruction} {s u : VmState} (h : Begun inst s u) : Work s u :=
  ⟨h.shared, by rw [h.heap]; exact .refl _, fun idx _ hm => (h.code idx).trans hm, .inl h.blocked,
    h.records ▸ List.suffix_rfl⟩

omit hR in
theorem Begun.callCtx {inst : Instruction} {s u : VmState} (h : Begun inst s u) :
    u.callCtx = s.callCtx := by
  have hmod : u.currentLoadedModule = s.currentLoadedModule :=
    congrArg ThreadCtx.currentLoadedModule h.ctx
  have hstack : u.callerMpStack = s.callerMpStack := congrArg ThreadCtx.callerMpStack h.ctx
  rw [VmState.callCtx, hmod, hstack, h.unwindFloor, VmState.callCtx]

theorem Rules.keeps_begun {inst : Instruction} {s u : VmState} (h : Begun inst s u) :
    Keeps R s u := hR.keeps_work ⟨h.work, h.callCtx⟩

omit hR in
theorem work_halt (s : VmState) (frames : FrameStack) :
    Work s { s with frames := frames, halted := true } :=
      ⟨rfl, .refl _, fun _ _ h => h, .inl rfl, List.suffix_rfl⟩

omit hR in
/-- `exit`, and `ret` from the entry frame, set the flag and change the frames at most. -/
theorem dispatch_halting {inst : Instruction} {s : VmState} (h : s.halting inst = true) (env : Env)
    (nested : Nested) :
    wp (dispatch env nested inst) (fun _ t => Work s t ∧ t.halted = true) (fun _ _ => False) s := by
  unfold VmState.halting at h
  split at h
  · next hop =>
      rw [dispatch, hop]
      exact ⟨work_halt s s.frames, rfl⟩
  · next hop =>
      rw [dispatch, hop]
      exact ⟨work_halt s s.frames, rfl⟩
  · next hop =>
      obtain ⟨hdata, hmsb⟩ := Bool.and_eq_true_iff.mp h
      have hdata : ¬ s.frames.data.isEmpty = true := by simpa using hdata
      rw [dispatch, hop]
      simp only [opRet, wp_bind, wp_get, FrameStack.pop, if_neg hdata, wp_ofExcept_ok, hmsb,
        if_true, wp_set]
      exact ⟨work_halt s _, trivial⟩
  · cases h

theorem Rules.execute_halting {inst : Instruction} {s : VmState} (h : s.halting inst = true)
    (env : Env) (nested : Nested) :
    wp (execute env nested inst) (fun _ t => Work s t ∧ t.halted = true) (fun _ _ => True) s := by
  simp only [execute, wp_bind, wp_attempt]
  refine wp_mono (hR.begin_spec inst s) (fun _ u hu => ?_) fun _ _ _ => trivial
  have hframes : u.frames = s.frames := congrArg ThreadCtx.frames hu.ctx
  have hhalting : u.halting inst = true := by
    rw [VmState.halting, hframes]
    exact h
  refine wp_mono (dispatch_halting hhalting env nested) (fun _ t ht => ?_) fun _ _ h => h.elim
  exact ⟨hu.work.trans ht.1, ht.2⟩

theorem Rules.execute_spec {nested : Nested} (hn : SoundNested R nested) (env : Env)
    (inst : Instruction) (s : VmState) :
    wp (execute env nested inst)
      (fun _ t => Keeps R s t ∨ ∃ u, Begun inst s u ∧ Waits inst u t)
      (fun e t => Keeps R s t ∧ e ≠ deadlockFault) s := by
  simp only [execute, wp_bind, wp_attempt]
  refine wp_mono (hR.begin_spec inst s) (fun _ u hu => ?_) fun _ _ h => h
  have hsu : Keeps R s u := hR.keeps_begun hu
  refine wp_mono (hR.dispatch_spec hn env inst u) (fun _ t ht => ?_) fun e t ht => ?_
  · rcases ht with ht | ht
    · exact .inl (hR.keeps_trans _ _ _ hsu ht)
    · exact .inr ⟨u, hu, ht⟩
  · have hst : Keeps R s t := hR.keeps_trans _ _ _ hsu ht.1
    split
    · contradiction
    · next msg heq =>
        refine wp_ite (fun _ => ?_) fun _ => ?_
        · exact wp_mono (hR.last (hR.sound_raiseException msg) hst) (fun _ _ h => .inl h)
            fun _ _ h => h
        · cases heq
          exact ⟨hst, ht.2⟩
    · next heq =>
        cases heq
        exact ⟨hst, ht.2⟩

theorem Rules.stepThread_spec {nested : Nested} (hn : SoundNested R nested) (env : Env)
    (due : Bool) (inst : Instruction) (s : VmState) :
    wp (stepThread env nested due inst)
      (fun b w => s.blockedChannel = none → match b with
        | none => WentOn R inst (s.started due inst) w
        | some c => Blocked inst (s.started due inst) w c)
      (fun e w => (s.blockedChannel = none → Faulted R (s.started due inst) w) ∧
        e ≠ deadlockFault) s := by
  simp only [stepThread, wp_bind, wp_attempt, wp_modify]
  have hend : wp (execute env nested inst)
      (fun _ t => (s.started due inst).halting inst = true →
        Work (s.started due inst) t ∧ t.halted = true) (fun _ _ => True) (s.started due inst) := by
    by_cases hhalting : (s.started due inst).halting inst = true
    · exact wp_mono (hR.execute_halting hhalting env nested) (fun _ _ h _ => h) fun _ _ h => h
    · exact wp_mono (hR.execute_spec hn env inst _) (fun _ _ _ h => absurd h hhalting)
        fun _ _ _ => trivial
  refine wp_mono (wp_and (hR.execute_spec hn env inst (s.started due inst)) hend) (fun _ t ht => ?_)
    fun e t ht => ⟨fun hs => ⟨t, (ht.1.1 hs).1, (ht.1.1 hs).2, rfl⟩, ht.1.2⟩
  obtain ⟨ht, hend⟩ := ht
  simp only [settle, wp_bind, wp_get]
  rcases ht with ht | ⟨u, hu, c, rfl, hc⟩
  · split
    · next c heq => exact fun hs => absurd ((ht hs).2.symm.trans heq).symm (Option.some_ne_none c)
    · exact fun hs => ⟨t, (ht hs).1, (ht hs).2, hend, rfl⟩
  · intro hs
    have hub : u.blockedChannel = none := hu.blocked.trans hs
    exact ⟨u, hu, hc, hub, congrArg VmState.stopped (VmState.clear_blockedChannel hub)⟩

theorem Rules.runThreadSlice_spec {nested : Nested} (hn : SoundNested R nested) (env : Env)
    (n : Nat) (s : VmState) :
    wp (runThreadSlice env nested n)
      (fun b u => s.blockedChannel = none → RS s u b)
      (fun e u => (s.blockedChannel = none → RS s u none) ∧ e ≠ deadlockFault) s := by
  induction n generalizing s with
  | zero => exact fun _ => hR.sliceDone s
  | succ n ih =>
      simp only [runThreadSlice, wp_bind, wp_get]
      refine wp_ite (fun _ _ => hR.sliceDone s) fun _ => ?_
      cases hmod : s.moduleAt s.currentLoadedModule with
      | none => exact fun _ => hR.sliceDone s
      | some m =>
          dsimp only
          have hfetch : s.fetch = m.code[s.pc]? := by
            rw [VmState.fetch, hmod]
            rfl
          cases hinst : m.code[s.pc]? with
          | none => exact fun _ => hR.sliceEnd s (hfetch.trans hinst)
          | some inst =>
              have hfetch := hfetch.trans hinst
              rw [wp_bind]
              refine wp_mono (hR.stepThread_spec hn env false inst s) (fun b w hw => ?_)
                fun e w hw => ⟨fun hs => ?_, hw.2⟩
              · cases b with
                | none =>
                    have hstep : ∀ v b, (w.blockedChannel = none → RS w v b) →
                        s.blockedChannel = none → RS s v b := by
                      intro v b hv hs
                      obtain ⟨u, hu, hub, _, rfl⟩ := hw hs
                      exact hR.sliceStep s inst u v b hfetch hu (hv hub)
                    exact wp_mono (ih w) (fun b v hv => hstep v b hv)
                      fun e v hv => ⟨hstep v none hv.1, hv.2⟩
                | some c =>
                    intro hs
                    obtain ⟨u, hu, hc, _, rfl⟩ := hw hs
                    exact hR.sliceBlock s inst u c hfetch hu hc
              · obtain ⟨u, hu, _, rfl⟩ := hw.1 hs
                exact hR.sliceFault s inst u hfetch hu

theorem Rules.sound_runOtherVmThread {nested : Nested} (hn : SoundNested R nested) (env : Env) :
    Sound R (runOtherVmThread env nested) := by
  refine Within.get fun s => ?_
  refine wp_ite (fun _ => hR.keeps_refl s) fun hyield => ?_
  split
  · exact hR.keeps_refl s
  · next idx hidx =>
      rw [wp_bind]
      refine wp_unwrap fun other hother => ?_
      obtain ⟨hlt, hrun, _⟩ := List.findIdx?_eq_some_iff_getElem.mp hidx
      have hrun : other.runnable := by
        rw [List.getElem?_eq_getElem hlt] at hother
        exact Option.some.inj hother ▸ hrun
      have hback : ∀ b u, (s.blockedChannel = none → RS (RiceVM.handOff other idx s) u b) →
          Keeps R s (switchBack s b u) := fun b u hu hb =>
        ⟨hR.handOff s idx other u b (Bool.eq_false_iff.mpr hyield) hb hother hrun (hu hb), rfl⟩
      simp only [wp_bind, wp_modify, wp_attempt]
      refine wp_mono (hR.runThreadSlice_spec hn env yieldQuantum (RiceVM.handOff other idx s))
        (fun b u hu => hback b u hu) fun e u hu => ⟨hback none u hu.1, hu.2⟩

theorem Rules.sound_faultOnNestedBlock : Sound R faultOnNestedBlock := by
  refine Within.get fun s => ?_
  split
  · refine ⟨hR.keeps_work ⟨⟨rfl, .refl _, fun _ _ h => h, .inr rfl, List.suffix_rfl⟩, rfl⟩, fun h => ?_⟩
    exact absurd (ExecError.threadFault.inj h) (by decide)
  · exact hR.keeps_refl s

theorem Rules.sound_stepNested {nested : Nested} (hn : SoundNested R nested) (env : Env)
    (inst : Instruction) : Sound R (stepNested env nested inst) := by
  intro s
  simp only [stepNested, wp_bind, wp_modify]
  have hrec : Keeps R s (s.record (.nested s.thread (s.halting inst))) := fun hs =>
    ⟨hR.nested s _, hs⟩
  refine wp_mono (hR.begin_spec inst _) (fun _ u hu => ?_)
    fun e t ht => ⟨hR.keeps_trans _ _ _ hrec ht.1, ht.2⟩
  have hsu : Keeps R s u := hR.keeps_trans _ _ _ hrec (hR.keeps_begun hu)
  refine wp_mono (hR.dispatch_spec hn env inst u) (fun _ t ht => ?_)
    fun e t ht => ⟨hR.keeps_trans _ _ _ hsu ht.1, ht.2⟩
  rcases ht with ht | ⟨c, rfl, hc⟩
  · refine hR.step hR.sound_faultOnNestedBlock (hR.keeps_trans _ _ _ hsu ht) fun _ v hv => ?_
    exact hR.keeps_trans _ _ _ hv (hR.keeps_own rfl rfl rfl rfl rfl List.suffix_rfl)
  · simp only [faultOnNestedBlock, wp_bind, wp_get]
    refine ⟨hR.keeps_trans _ _ _ hsu ?_, fun h => ?_⟩
    · exact hR.keeps_work ⟨⟨rfl, .refl _, fun _ _ h => h, .inr rfl, List.suffix_rfl⟩, rfl⟩
    · exact absurd (ExecError.threadFault.inj h) (by decide)

theorem Rules.soundNested (env : Env) (fuel : Nat) : SoundNested R (nestedAt env fuel) := by
  induction fuel with
  | zero => exact ⟨fun _ _ _ => trivial, fun _ _ _ => trivial, fun _ _ => trivial⟩
  | succ fuel ih =>
      refine ⟨fun moduleIdx base => Within.get fun s => ?_, fun handler seen => Within.get fun s => ?_,
        fun len => Within.get fun s => ?_⟩
      · rw [wp_bind]
        refine wp_unwrap fun m _ => wp_ite (fun _ => hR.keeps_refl s) fun _ => ?_
        split
        · exact hR.keeps_refl s
        · rw [wp_bind]
          refine hR.step (hR.sound_stepNested ih env _) (hR.keeps_refl s) fun _ t ht => ?_
          rw [wp_bind, wp_get]
          exact wp_ite (fun _ => ht) fun _ => hR.last (ih.loop _ _) ht
      · split
        · rw [wp_bind]
          exact hR.step (hR.sound_effects _) (hR.keeps_refl s) fun _ _ h =>
            hR.last (hR.sound_outcome _) h
        · rw [wp_bind]
          refine hR.step (hR.sound_effects _) (hR.keeps_refl s) fun _ _ h => ?_
          rw [wp_bind]
          exact hR.step (hR.sound_runOtherVmThread ih env) h fun _ _ h => hR.last (ih.native _ _) h
        · rw [wp_bind]
          refine hR.step (hR.sound_effects _) (hR.keeps_refl s) fun _ _ h => ?_
          rw [wp_bind]
          exact hR.step (ih.readWaitFile _) h fun _ _ h => hR.last (ih.native _ _) h
      · split
        · next hrecords =>
            exact hR.keeps_own rfl rfl rfl rfl rfl (hrecords ▸ List.suffix_cons _ _)
        · rw [wp_bind]
          refine hR.step (hR.sound_runOtherVmThread ih env) (hR.keeps_refl s) fun ran t ht => ?_
          exact wp_ite (fun _ => hR.last (ih.readWaitFile _) ht) fun _ => ht

end rules
end RiceVM
