import RiceVM.ModuleData

/-!
A spawned function of another module against the same function called. Both resolve a
module reference to a target; `mcall` runs it on the host stack from a state that has the
target's module and data swapped in, and that state is the measure for `mspawn`.
-/
namespace RiceVM
open Exec Ops Memory

/-- What a module reference makes the host run: module code until the frame at `base` is
left, or a native function. -/
inductive Body where
  | code (moduleIdx : Option Nat) (base : Nat)
  | native (handler : Nat)

def Body.run (nested : Nested) : Body → VM Unit
  | .code moduleIdx base => nested.loop moduleIdx base
  | .native handler => nested.native handler []

/-- What the host does to the frames behind a body: it pops the one a native function ran on. -/
def Body.leave : Body → FrameStack → Except ExecError FrameStack
  | .code .., fs => .ok fs
  | .native _, fs => fs.pop.map (·.2)

/-- The body does not end in a fault, and if it ends its frame has gone: the one at `base` is
the last. -/
def Body.Returns (nested : Nested) (body : Body) (c : VmState) (base : Nat) : Prop :=
  wp (body.run nested) (fun _ w => ∃ fs, body.leave w.frames = .ok fs ∧ fs.currentBase = base)
    (fun _ _ => False) c

/-- `op` from `s` runs `body` from `c`, and ends when it does. -/
def RunsFrom (op : Nested → VM Unit) (s : VmState) (body : Body) (c : VmState) : Prop :=
  ∃ rest : Res VmState ExecError Unit → Res VmState ExecError Unit,
    rest .panic = .panic ∧ rest .diverge = .diverge ∧
      ∀ nested, op nested s = rest (body.run nested c)

/-- The function import `funcIdx` of a module reference stands for, run on a frame at `base`. -/
inductive Target (s : VmState) (funcIdx base : Nat) : ModuleKind → Body → Prop
  | main {funcMap : FuncMap} {pc : Nat} : exportPc s.module funcMap funcIdx "main" = .ok pc →
      Target s funcIdx base (.main funcMap) (.code none base)
  | loaded {moduleIdx : Nat} {funcMap : FuncMap} {lm : LoadedModule} {pc : Nat} :
      s.loadedModules[moduleIdx]? = some lm → exportPc lm.module funcMap funcIdx "loaded" = .ok pc →
      Target s funcIdx base (.loaded moduleIdx funcMap) (.code (some moduleIdx) base)
  | builtin {moduleId : Nat} {funcMap : FuncMap} {f : BuiltinFunc} :
      s.modules.getFunc moduleId (funcMap.resolve funcIdx) = some f →
      Target s funcIdx base (.builtin moduleId funcMap) (.native f.handler)

/-- The state after `mspawn` has queued a thread that starts where a call from `s` would run
its target, in `c`, and has left the spawner as it was but for the pending frame. -/
structure Spawned (s c s' : VmState) (below : List Frame) : Prop where
  thread : ∃ t, s'.threadQueue = s.threadQueue ++ [t] ∧
    t.currentLoadedModule = c.currentLoadedModule ∧ t.mp = c.mp ∧ t.pc = c.pc
  code : ∀ moduleIdx, s'.moduleAt moduleIdx = c.moduleAt moduleIdx
  ctx : s'.ctx = { s.ctx with frames := s'.frames }
  data : s'.frames.data = s.frames.data.take (height below)
  base : s'.frames.currentBase = s.frames.currentBase

/-- A spawner goes on where it was: in its module and on its frame. -/
structure SpawnerKept (s s' : VmState) : Prop where
  callCtx : s'.callCtx = s.callCtx
  pc : s'.pc = s.pc
  nextPc : s'.nextPc = s.nextPc
  frame : s'.frames.currentBase = s.frames.currentBase

/-- `mspawn` runs its target where an `mcall` runs it: in a thread, or inline, and then the
spawner goes on. -/
def InTargetContext (nested : Nested) (s : VmState) (body : Body) (c : VmState)
    (below : List Frame) : Prop :=
  (∃ s', (∀ nested, opMspawn nested s = .ok () s') ∧ Spawned s c s' below) ∨
    RunsFrom opMspawn s body c ∧
      wp (opMspawn nested) (fun _ s' => SpawnerKept s s') (fun _ _ => False) s

/-- Cutting the last frame off the stack leaves the stack as it was below that frame. -/
theorem Holds.detach {below : List Frame} {locals : List Byte} {fs fs' : FrameStack} {pc : Pc}
    (h : Holds (⟨none, locals⟩ :: below) fs)
    (hact : fs.activatePending (height below + frameHeaderSize) pc = .ok fs') :
    (detachFrame fs').2.data = fs.data.take (height below) ∧
      (detachFrame fs').2.currentBase = fs.currentBase := by
  obtain ⟨fs₁, hrun, hfs₁⟩ := h.activatePending pc
  rw [hact] at hrun
  cases hrun
  have hbase : fs'.currentBase = height below := hfs₁.base
  have hcalled : fs.currentBase = calledBase below := h.base
  have htake : fs'.data.take (height below) = fs.data.take (height below) := by
    obtain ⟨_, _, heq⟩ := FrameStack.activatePending_cases hact
    obtain ⟨low, header, hdata, hlow, hh⟩ := h.laid.top
    have hpos : height below + frameHeaderSize - frameHeaderSize = low.length + 0 := by
      rw [hlow.length]
      omega
    rw [heq]
    simp only [hdata, hpos]
    rw [writeWord_append_right, Nat.add_assoc, writeWord_append_right, ← hlow.length,
      List.take_left, List.take_left]
  have hprev : (readWord (fs'.data.drop (height below)) 4).asUsize = calledBase below := by
    have hlaid := hfs₁.laid
    generalize fs'.data = data at hlaid
    cases hlaid with
    | @called _ low header _ _ hlow hh _ hcaller =>
        rw [← hlow.length, List.drop_left, readWord_append (by rw [hh]; decide)]
        exact hcaller
  have hlen : (fs.data.take (height below)).length = height below := by
    rw [List.length_take, h.laid.length]
    simp only [height]
    omega
  simp only [detachFrame, hbase, hprev, htake, hlen]
  split
  · exact ⟨rfl, hcalled.symm⟩
  · next hle =>
      have hnil : below = [] := by
        by_contra hne
        exact hle (calledBase_lt hne)
      subst hnil
      exact ⟨rfl, hcalled.symm⟩

/-- The host has a pid left for a thread, and room in the reference counts of what its copy of
the module data names. -/
def Spawnable (s : VmState) : Prop :=
  s.nextPid ≠ 0x7fffffff ∧ (retainAll s.mp s.heap).isSome

/-- A thread is queued on the last frame, unless the pid counter or a reference count
overflows. -/
theorem spawnThread_eq {below : List Frame} {locals : List Byte} {s : VmState}
    (h : Holds (⟨none, locals⟩ :: below) s.frames) (pc : Nat) :
    (¬ Spawnable s ∧ spawnThread (height below + frameHeaderSize) pc s = .panic) ∨
    Spawnable s ∧
      ∃ s', spawnThread (height below + frameHeaderSize) pc s = .ok () s' ∧
      (∃ t, s'.threadQueue = s.threadQueue ++ [t] ∧
        t.currentLoadedModule = s.currentLoadedModule ∧ t.mp = s.mp ∧ t.pc = pc) ∧
      (∀ i, s'.moduleAt i = s.moduleAt i) ∧ s'.ctx = { s.ctx with frames := s'.frames } ∧
      s'.frames.data = s.frames.data.take (height below) ∧
      s'.frames.currentBase = s.frames.currentBase := by
  obtain ⟨fs, hact, _⟩ := h.activatePending (-1)
  obtain ⟨hdata, hbase⟩ := h.detach hact
  by_cases hpid : s.nextPid = 0x7fffffff
  · refine .inl ⟨fun h => h.1 hpid, ?_⟩
    simp only [spawnThread, bind_apply, get_apply, hact, ofExcept_ok, if_pos hpid]
    rfl
  · cases hretain : retainAll s.mp s.heap with
    | none =>
        refine .inl ⟨fun h => absurd h.2 (by rw [hretain]; nofun), ?_⟩
        simp only [spawnThread, bind_apply, get_apply, hact, ofExcept_ok, if_neg hpid, unwrap_some,
          hretain]
        rfl
    | some heap =>
        refine .inr ⟨⟨hpid, by rw [hretain]; rfl⟩, ?_⟩
        simp only [spawnThread, bind_apply, get_apply, hact, ofExcept_ok, if_neg hpid, unwrap_some,
          hretain]
        exact ⟨_, rfl, ⟨_, rfl, rfl, rfl, rfl⟩, fun _ => rfl, rfl, hdata, hbase⟩

theorem RunsFrom.of_eq {op call : Nested → VM Unit} {s s₁ c : VmState} {body : Body}
    (hcall : RunsFrom call s₁ body c) (h : ∀ nested, op nested s = call nested s₁) :
    RunsFrom op s body c := by
  obtain ⟨rest, hpanic, hdiverge, hrun⟩ := hcall
  exact ⟨rest, hpanic, hdiverge, fun nested => (h nested).trans (hrun nested)⟩

/-- What an operation does first runs its callee, whatever it does then. -/
theorem RunsFrom.first {op call : Nested → VM Unit} {s s₁ c : VmState} {body : Body}
    {f : Unit → VM Unit} (hcall : RunsFrom call s₁ body c)
    (h : ∀ nested, op nested s = (call nested >>= f) s₁) : RunsFrom op s body c := by
  obtain ⟨rest, hpanic, hdiverge, hrun⟩ := hcall
  refine ⟨fun r => match rest r with
    | .ok a t => f a t
    | .error e t => .error e t
    | .panic => .panic
    | .diverge => .diverge, ?_, ?_, fun nested => ?_⟩
  · simp only [hpanic]
  · simp only [hdiverge]
  · simp only [h, bind_apply, hrun]
    cases rest (body.run nested c) <;> rfl

theorem runsFrom_native (handler : Nat) (s : VmState) :
    RunsFrom (fun nested => nested.native handler []) s (.native handler) s :=
  ⟨fun r => r, rfl, rfl, fun _ => rfl⟩

theorem runsFrom_nestedCall {moduleIdx : Option Nat} {pc : Nat} {s c : VmState}
    (henter : enterModule moduleIdx pc s = .ok () c) (base : Nat) :
    RunsFrom (fun nested => runNestedModuleCall nested moduleIdx pc base) s
      (.code moduleIdx base) c :=
  ⟨fun r => restoring (fun _ => r : VM Unit)
    (leaveModule (VmState.saveCaller s moduleIdx) moduleIdx) c, rfl, rfl,
    runNestedModuleCall_eq henter⟩

/-- An operation that ends the same way on every interpreter runs no callee. -/
theorem not_runsFrom {op : Nested → VM Unit} {s c : VmState} {body : Body}
    {r : Res VmState ExecError Unit} (h : ∀ nested, op nested s = r) :
    ¬ RunsFrom op s body c := by
  rintro ⟨rest, hpanic, hdiverge, hrun⟩
  have hrest : ∀ m : VM Unit, rest (m c) = r := by
    intro m
    have hbody := hrun ⟨fun _ _ => m, fun _ _ => m, fun _ => panic⟩
    rw [h] at hbody
    cases body <;> exact hbody.symm
  have hp : rest .panic = r := hrest panic
  have hd : rest .diverge = r := hrest diverge
  rw [hpanic] at hp
  rw [hdiverge, ← hp] at hd
  cases hd

section operations
variable {s : VmState} {fs : FrameStack} {ptr : Nat}

theorem opMcall_main {funcMap : FuncMap} {pc : Nat}
    (hkind : resolveModuleRef s (s.readWordAt s.dst s.immDst) = .ok (.main funcMap))
    (hact : s.frames.activatePending (s.readWordAt s.src s.immSrc).asUsize
      (Word.ofUsize s.nextPc) = .ok fs)
    (hpc : exportPc s.module funcMap (s.readWordAt s.mid s.immMid).toNat "main" = .ok pc)
    (nested : Nested) : opMcall nested s =
      runNestedModuleCall nested none pc fs.currentDataOffset { s with frames := fs } := by
  simp only [opMcall, bind_apply, srcWord_apply, midWord_apply, dstPtr_apply, get_apply, hkind,
    ofExcept_ok, hact, set_apply, hpc]

theorem opMcall_loaded {moduleIdx : Nat} {funcMap : FuncMap} {lm : LoadedModule} {pc : Nat}
    (hkind : resolveModuleRef s (s.readWordAt s.dst s.immDst) = .ok (.loaded moduleIdx funcMap))
    (hact : s.frames.activatePending (s.readWordAt s.src s.immSrc).asUsize
      (Word.ofUsize s.nextPc) = .ok fs)
    (hlm : s.loadedModules[moduleIdx]? = some lm)
    (hpc : exportPc lm.module funcMap (s.readWordAt s.mid s.immMid).toNat "loaded" = .ok pc)
    (nested : Nested) : opMcall nested s =
      runNestedModuleCall nested (some moduleIdx) pc fs.currentDataOffset
        { s with frames := fs } := by
  simp only [opMcall, bind_apply, srcWord_apply, midWord_apply, dstPtr_apply, get_apply, hkind,
    ofExcept_ok, hact, set_apply, hlm, unwrap_some, hpc]

theorem opMcall_builtin {moduleId : Nat} {funcMap : FuncMap} {f : BuiltinFunc}
    (hkind : resolveModuleRef s (s.readWordAt s.dst s.immDst) = .ok (.builtin moduleId funcMap))
    (hact : s.frames.activatePending (s.readWordAt s.src s.immSrc).asUsize
      (Word.ofUsize s.nextPc) = .ok fs)
    (hf : s.modules.getFunc moduleId (funcMap.resolve (s.readWordAt s.mid s.immMid).toNat) = some f)
    (nested : Nested) : opMcall nested s =
      (nested.native f.handler [] >>= fun _ => returnFromBuiltin) { s with frames := fs } := by
  simp only [opMcall, bind_apply, srcWord_apply, midWord_apply, dstPtr_apply, get_apply, hkind,
    ofExcept_ok, hact, set_apply, hf, ofOption, pure_apply]

theorem opMspawn_main {funcMap : FuncMap} {pc : Nat}
    (hkind : resolveModuleRef s (s.readWordAt s.dst s.immDst) = .ok (.main funcMap))
    (hpc : exportPc s.module funcMap (s.readWordAt s.mid s.immMid).toNat "main" = .ok pc)
    (nested : Nested) :
    opMspawn nested s = spawnThread (s.readWordAt s.src s.immSrc).asUsize pc s := by
  simp only [opMspawn, bind_apply, srcWord_apply, midWord_apply, dstPtr_apply, get_apply, hkind,
    ofExcept_ok, hpc]

theorem opMspawn_loaded {moduleIdx : Nat} {funcMap : FuncMap} {lm : LoadedModule} {pc : Nat}
    (hkind : resolveModuleRef s (s.readWordAt s.dst s.immDst) = .ok (.loaded moduleIdx funcMap))
    (hact : s.frames.activatePending (s.readWordAt s.src s.immSrc).asUsize
      (Word.ofUsize s.nextPc) = .ok fs)
    (hlm : s.loadedModules[moduleIdx]? = some lm)
    (hpc : exportPc lm.module funcMap (s.readWordAt s.mid s.immMid).toNat "loaded" = .ok pc)
    (nested : Nested) : opMspawn nested s =
      (runNestedModuleCall nested (some moduleIdx) pc fs.currentDataOffset >>= fun _ =>
        modify fun vm => { vm with pc := s.pc, nextPc := s.nextPc }) { s with frames := fs } := by
  simp only [opMspawn, bind_apply, srcWord_apply, midWord_apply, dstPtr_apply, get_apply, hkind,
    ofExcept_ok, hact, set_apply, hlm, unwrap_some, hpc]

theorem opMspawn_builtin {moduleId : Nat} {funcMap : FuncMap} {f : BuiltinFunc}
    (hkind : resolveModuleRef s (s.readWordAt s.dst s.immDst) = .ok (.builtin moduleId funcMap))
    (hact : s.frames.activatePending (s.readWordAt s.src s.immSrc).asUsize
      (Word.ofUsize s.nextPc) = .ok fs)
    (hf : s.modules.getFunc moduleId (funcMap.resolve (s.readWordAt s.mid s.immMid).toNat) = some f)
    (nested : Nested) : opMspawn nested s =
      (nested.native f.handler [] >>= fun _ => do
        popBuiltinFrame
        modify fun vm => { vm with pc := s.pc, nextPc := s.nextPc }) { s with frames := fs } := by
  simp only [opMspawn, bind_apply, srcWord_apply, midWord_apply, dstPtr_apply, get_apply, hkind,
    ofExcept_ok, hact, set_apply, hf, ofOption, pure_apply]

end operations

theorem currentDataOffset_activate {below : List Frame} {locals : List Byte} {pc : Pc}
    {fs : FrameStack} (h : Holds (⟨some pc, locals⟩ :: below) fs) :
    fs.currentDataOffset = height below + frameHeaderSize := by
  rw [FrameStack.currentDataOffset, h.base]
  rfl

section inline
variable {s c : VmState} {fs : FrameStack} {env : Env} {fuel : Nat}

theorem frames_leaveModule (saved : SavedCaller) (moduleIdx : Option Nat) (w : VmState) :
    (leaveModule saved moduleIdx w).frames = w.frames := by
  simp only [leaveModule]
  split
  · simp only [returnCalleeMp]
    cases moduleIdx with
    | some idx => rfl
    | none => cases saved.parkedSlot <;> rfl
  · rfl

/-- A spawner of a loaded module's function goes on exactly when the function returns. -/
theorem spawnerKept_loaded_iff {moduleIdx base pc : Nat} (hblocked : s.blockedChannel = none)
    (henter : enterModule (some moduleIdx) pc { s with frames := fs } = .ok () c) :
    wp (runNestedModuleCall (nestedAt env fuel) (some moduleIdx) pc base >>= fun _ =>
        modify fun vm => { vm with pc := s.pc, nextPc := s.nextPc })
      (fun _ s' => SpawnerKept s s') (fun _ _ => False) { s with frames := fs } ↔
    Body.Returns (nestedAt env fuel) (.code (some moduleIdx) base) c s.frames.currentBase := by
  have hcalled := called henter hblocked
  simp only [wp_bind, wp_modify]
  rw [wp, hcalled.runs, ← wp, wp_restoring]
  refine wp_iff_of (hcalled.ran env fuel base) fun _ w hran => ?_
  have hctx := (hcalled.restored w hran).1
  refine ⟨fun h => ⟨w.frames, rfl, ?_⟩, ?_⟩
  · exact (congrArg FrameStack.currentBase (frames_leaveModule _ _ w)).symm.trans h.frame
  · rintro ⟨_, ⟨⟩, hbase⟩
    exact ⟨hctx, rfl, rfl, (congrArg FrameStack.currentBase (frames_leaveModule _ _ w)).trans hbase⟩

/-- A spawner of a built-in goes on exactly when the frame below the built-in's is its own. -/
theorem spawnerKept_builtin_iff {handler : Nat} (hblocked : s.blockedChannel = none) :
    wp ((nestedAt env fuel).native handler [] >>= fun _ => do
        popBuiltinFrame
        modify fun vm => { vm with pc := s.pc, nextPc := s.nextPc })
      (fun _ s' => SpawnerKept s s') (fun _ _ => False) { s with frames := fs } ↔
    Body.Returns (nestedAt env fuel) (.native handler) { s with frames := fs }
      s.frames.currentBase := by
  have hran := wp_mono ((ranRules.soundNested env fuel).native handler [] { s with frames := fs })
    (fun _ w hw => (hw hblocked).1) fun _ w hw => (hw.1 hblocked).1
  rw [wp_bind]
  refine wp_iff_of hran fun _ w hw => ?_
  simp only [popBuiltinFrame, wp_bind, wp_get, Body.leave]
  cases hpop : w.frames.pop with
  | error e => exact iff_of_false id (by rintro ⟨_, ⟨⟩, _⟩)
  | ok popped =>
      simp only [wp_ofExcept_ok, Except.map]
      split
      all_goals
        refine ⟨fun h => ⟨popped.2, rfl, h.frame⟩, ?_⟩
        rintro ⟨_, ⟨⟩, hbase⟩
        exact ⟨hw.ctx, rfl, rfl, hbase⟩

end inline

/-- A thread of the main module starts where a call into the main module would, exactly when
its spawner executes the main module itself. -/
theorem mspawn_main_iff {nested : Nested} {s : VmState} {funcMap : FuncMap} {pc : Nat} {locals : List Byte}
    {below : List Frame}
    (hkind : resolveModuleRef s (s.readWordAt s.dst s.immDst) = .ok (.main funcMap))
    (hframes : Holds (⟨none, locals⟩ :: below) s.frames)
    (hptr : (s.readWordAt s.src s.immSrc).asUsize = height below + frameHeaderSize)
    (hpc : exportPc s.module funcMap (s.readWordAt s.mid s.immMid).toNat "main" = .ok pc) :
    ∃ c, RunsFrom opMcall s (.code none (height below + frameHeaderSize)) c ∧
      (InTargetContext nested s (.code none (height below + frameHeaderSize)) c below ↔
        s.currentLoadedModule = none ∧ Spawnable s) := by
  obtain ⟨fs, hact, hfs⟩ := hframes.activatePending (Word.ofUsize s.nextPc)
  have hoff := currentDataOffset_activate hfs
  rw [← hptr] at hact
  obtain ⟨c, henter, hcur, hcpc, hsame⟩ :=
    @enterModule_ok none { s with frames := fs } nofun pc
  have hmspawn : ∀ nested, opMspawn nested s = _ := opMspawn_main hkind hpc
  rw [hptr] at hmspawn
  have hcall := runsFrom_nestedCall henter fs.currentDataOffset
  rw [hoff] at hcall
  refine ⟨c, hcall.of_eq fun nested => hoff ▸ opMcall_main hkind hact hpc nested, ?_,
    fun h => ?_⟩
  · rintro (⟨s', hrun, hspawned⟩ | hrun)
    · have hrun := (hmspawn ⟨fun _ _ => panic, fun _ _ => panic, fun _ => panic⟩).symm.trans
        (hrun _)
      rcases spawnThread_eq hframes pc with ⟨_, hpanic⟩ | ⟨hpid, s₁, hok, ⟨t, hqueue, hcur', _⟩, _⟩
      · rw [hpanic] at hrun
        cases hrun
      · rw [hok] at hrun
        cases hrun
        obtain ⟨t', hqueue', hcur'', _⟩ := hspawned.thread
        rw [hqueue] at hqueue'
        cases List.append_cancel_left hqueue'
        exact ⟨hcur'.symm.trans (hcur''.trans hcur), hpid⟩
    · exact absurd hrun.1 (not_runsFrom hmspawn)
  · obtain ⟨hmain, hpid⟩ := h
    obtain ⟨hmp, hcode⟩ := hsame hmain.symm
    rcases spawnThread_eq hframes pc with ⟨hmax, _⟩ |
      ⟨_, s', hok, ⟨t, hqueue, hcur', hmp', hpc'⟩, hcode', hctx, hdata, hbase⟩
    · exact absurd hpid hmax
    · refine .inl ⟨s', fun nested => (hmspawn nested).trans hok, ?_, ?_, hctx, hdata, hbase⟩
      · exact ⟨t, hqueue, hcur'.trans (hmain.trans hcur.symm), hmp'.trans hmp.symm,
          hpc'.trans hcpc.symm⟩
      · exact fun i => (hcode' i).trans (hcode i).symm

/-- Of an operation that runs its callee only the second half is left to say. -/
theorem inTargetContext_inline {nested : Nested} {s c : VmState} {body : Body} {below : List Frame}
    (hrun : RunsFrom opMspawn s body c) : InTargetContext nested s body c below ↔
      wp (opMspawn nested) (fun _ s' => SpawnerKept s s') (fun _ _ => False) s := by
  refine ⟨?_, fun h => .inr ⟨hrun, h⟩⟩
  rintro (⟨s', hsame, _⟩ | ⟨_, h⟩)
  · exact absurd hrun (not_runsFrom hsame)
  · exact h

/-- `mspawn` runs its target in the context a call runs it in, and leaves the spawner in its own,
except in two cases. Where a module other than the main module spawns a function of the main module,
that thread has the code and the data of its spawner; and a function of a loaded module, which is run
inline, may end without having returned. -/
theorem mspawn_context_iff {env : Env} {fuel : Nat} {s : VmState} {kind : ModuleKind}
    {locals : List Byte} {below : List Frame} {body : Body}
    (hkind : resolveModuleRef s (s.readWordAt s.dst s.immDst) = .ok kind)
    (hframes : Holds (⟨none, locals⟩ :: below) s.frames)
    (hptr : (s.readWordAt s.src s.immSrc).asUsize = height below + frameHeaderSize)
    (htarget : Target s (s.readWordAt s.mid s.immMid).toNat (height below + frameHeaderSize)
      kind body)
    (hblocked : s.blockedChannel = none) :
    ∃ c, RunsFrom opMcall s body c ∧ (InTargetContext (nestedAt env fuel) s body c below ↔
      (∀ funcMap, kind = .main funcMap → s.currentLoadedModule = none ∧ Spawnable s) ∧
      ((∀ funcMap, kind ≠ .main funcMap) →
        body.Returns (nestedAt env fuel) c s.frames.currentBase)) := by
  obtain ⟨fs, hact, hfs⟩ := hframes.activatePending (Word.ofUsize s.nextPc)
  have hoff := currentDataOffset_activate hfs
  rw [← hptr] at hact
  cases htarget with
  | @main funcMap pc hpc =>
      obtain ⟨c, hcall, hiff⟩ := mspawn_main_iff hkind hframes hptr hpc
      refine ⟨c, hcall, hiff.trans ⟨fun h => ⟨fun _ _ => h, fun hne => absurd rfl (hne funcMap)⟩,
        fun h => h.1 funcMap rfl⟩⟩
  | @loaded moduleIdx funcMap lm pc hlm hpc =>
      have hne (f : FuncMap) : .loaded moduleIdx funcMap ≠ ModuleKind.main f := by
        intro heq
        cases heq
      have hlt : ∀ i, some moduleIdx = some i → i < s.loadedModules.length := by
        rintro i ⟨rfl⟩
        exact (List.getElem?_eq_some_iff.mp hlm).1
      obtain ⟨c, henter, _⟩ := @enterModule_ok (some moduleIdx) { s with frames := fs } hlt pc
      have hcall := runsFrom_nestedCall henter fs.currentDataOffset
      rw [hoff] at hcall
      have hmspawn nested := hoff ▸ opMspawn_loaded hkind hact hlm hpc nested
      refine ⟨c, hcall.of_eq fun nested => hoff ▸ opMcall_loaded hkind hact hlm hpc nested, ?_⟩
      rw [inTargetContext_inline (hcall.first hmspawn), wp, hmspawn, ← wp,
        spawnerKept_loaded_iff hblocked henter]
      exact ⟨fun h => ⟨fun _ heq => absurd heq (hne _), fun _ => h⟩, fun h => h.2 hne⟩
  | @builtin moduleId funcMap f hf =>
      have hne (f : FuncMap) : .builtin moduleId funcMap ≠ ModuleKind.main f := by
        intro heq
        cases heq
      have hcall := runsFrom_native f.handler { s with frames := fs }
      refine ⟨_, hcall.first (opMcall_builtin hkind hact hf), ?_⟩
      rw [inTargetContext_inline (hcall.first (opMspawn_builtin hkind hact hf)), wp,
        opMspawn_builtin hkind hact hf, ← wp, spawnerKept_builtin_iff hblocked]
      exact ⟨fun h => ⟨fun _ heq => absurd heq (hne _), fun _ => h⟩, fun h => h.2 hne⟩

/-- A machine about to spawn the first export of the main module, on a frame of 64 bytes. -/
def spawner (current : Option Nat) (fs : FrameStack) (heap : Heap) (vm : VmState) : VmState :=
  { vm with
    currentLoadedModule := current, frames := fs, heap := heap
    src := .immediate, immSrc := 96, mid := .immediate, immMid := 0
    dst := .immediate, immDst := heapIdBase }

/-- A module that starts with `code` and exports it. -/
def Module.exporting (name : String) (code : List Instruction) : Module :=
  { Module.ofCode name code 8 with exports := [⟨0, 0, 0, "run"⟩] }

/-- The frames of such a machine below the one the thread gets. -/
def spawnerFrames : List Frame := [⟨some (-1), List.replicate 64 0⟩]

theorem exists_spawner (current : Option Nat) : ∃ s : VmState,
    s.currentLoadedModule = current ∧ Spawnable s ∧ s.blockedChannel = none ∧
    resolveModuleRef s (s.readWordAt s.dst s.immDst) = .ok (.main []) ∧
    Holds (⟨none, List.replicate 64 0⟩ :: spawnerFrames) s.frames ∧
    (s.readWordAt s.src s.immSrc).asUsize = height spawnerFrames + frameHeaderSize ∧
    exportPc s.module [] (s.readWordAt s.mid s.immMid).toNat "main" = .ok 0 := by
  obtain ⟨vm, hvm, hmodule, hpid, hmp, hblocked⟩ : ∃ vm,
      VmState.withArgs [] true (.exporting "main" []) [] = some vm ∧
      vm.module = .exporting "main" [] ∧ vm.nextPid = 2 ∧ retainAll vm.mp = some ∧
      vm.blockedChannel = none := ⟨_, rfl, rfl, rfl, rfl, rfl⟩
  obtain ⟨heap, ha⟩ : ∃ heap, Heap.new.alloc 0 (.mainModule []) none = some (heapIdBase, heap) :=
    ⟨_, rfl⟩
  obtain ⟨fs, halloc⟩ : ∃ fs, (FrameStack.new.pushEntry 64 (-1)).allocPending 64 = .ok (96, fs) :=
    ⟨_, rfl⟩
  have hget := (Heap.alloc_cases ha).2.2 heapIdBase
  rw [if_pos rfl] at hget
  refine ⟨spawner current fs heap vm, rfl, ?_, hblocked, ?_,
    ((holds_pushEntry 64 (-1)).allocPending halloc).2, rfl, ?_⟩
  · refine ⟨?_, ?_⟩
    · rw [spawner, hpid]
      decide
    · rw [spawner, hmp]
      rfl
  · simp only [resolveModuleRef, spawner, VmState.readWordAt, VmState.readAt, id, hget]
  · rw [spawner, hmodule]
    rfl

/-- The main module spawns one of its own functions. -/
theorem mspawn_context_iff_main : ∃ s body c below, s.currentLoadedModule = none ∧
    RunsFrom opMcall s body c ∧ InTargetContext (nestedAt .bare 1) s body c below := by
  obtain ⟨s, hcur, hpid, hblocked, hkind, hholds, hptr, hpc⟩ := exists_spawner none
  obtain ⟨c, hcall, hiff⟩ := mspawn_context_iff hkind hholds hptr (.main hpc) hblocked
  refine ⟨s, _, c, spawnerFrames, hcur, hcall, hiff.mpr ⟨fun _ _ => ⟨hcur, hpid⟩, fun hne => ?_⟩⟩
  exact absurd rfl (hne [])

/-- A module that is handed a reference to its caller and spawns the caller's first export. -/
def spawnsCaller : Module :=
  .exporting "a" [
    ⟨.mframe, .fp 32, .imm 0, .fp 40⟩,
    ⟨.mspawn, .fp 40, .imm 0, .fp 32⟩,
    ⟨.ret, .unused, .unused, .unused⟩]

/-- Loads that module, hands it a reference to itself and calls it. -/
def handsOverItself : Module :=
  { Module.ofCode "main" [
      ⟨.load, .mp 4, .imm 0, .mp 0⟩,
      ⟨.self, .unused, .unused, .mp 4⟩,
      ⟨.mframe, .mp 0, .imm 0, .fp 48⟩,
      ⟨.movp, .mp 4, .unused, .deref 48 32⟩,
      ⟨.mcall, .fp 48, .imm 0, .mp 0⟩,
      ⟨.exit, .unused, .unused, .unused⟩,
      ⟨.exit, .unused, .unused, .unused⟩] 8 with
    exports := [⟨6, 0, 0, "work"⟩] }

/-- Loads a module and spawns its first export. -/
def spawnsLoaded : Module :=
  .ofCode "main" [
    ⟨.load, .mp 4, .imm 0, .mp 0⟩,
    ⟨.mframe, .mp 0, .imm 0, .fp 48⟩,
    ⟨.mspawn, .fp 48, .imm 0, .mp 0⟩,
    ⟨.exit, .unused, .unused, .unused⟩] 8

/-- The main module is behind its spawn, on a frame above its own. -/
def aboveItsFrame (s : VmState × Nat) : Bool :=
  decide (s.1.currentLoadedModule = none ∧ s.1.pc = 3 ∧ 0 < s.1.frames.currentBase)

/-- A queued thread that starts at the pc of the main module's export, in another module. -/
def spawnedAstray (s : VmState × Nat) : Bool :=
  s.1.threadQueue.any fun t => decide (t.currentLoadedModule = some 0 ∧ t.pc = 6)

/-- A loaded module that spawns a function of the main module gets a thread that executes the
loaded module, where a call would have executed the main module; and a function of a loaded module
that exits leaves its spawner on the function's frame. -/
theorem handsOverItself_spawnedAstray :
    (∃ s, Reachable s ∧ ∃ t ∈ s.1.threadQueue, t.currentLoadedModule = some 0 ∧ t.pc = 6) ∧
    (∃ s body c below, RunsFrom opMcall s body c ∧
      ¬ InTargetContext (nestedAt .bare 1) s body c below) ∧
    ∃ s, Reachable s ∧ s.1.currentLoadedModule = none ∧ s.1.pc = 3 ∧
      0 < s.1.frames.currentBase := by
  refine ⟨?_, ?_, ?_⟩
  · have hrun : (handsOverItself.after (.loading spawnsCaller) 6 5).any spawnedAstray = true := by
      decide +kernel
    obtain ⟨s, hreach, htest⟩ := Module.reachable_after rfl hrun
    obtain ⟨t, ht, htest⟩ := List.any_eq_true.mp htest
    exact ⟨s, hreach, t, ht, of_decide_eq_true htest⟩
  · obtain ⟨s, hcur, _, _, hkind, hholds, hptr, hpc⟩ := exists_spawner (some 0)
    obtain ⟨c, hcall, hiff⟩ := @mspawn_main_iff (nestedAt .bare 1) _ _ _ _ _ hkind hholds hptr hpc
    refine ⟨s, _, c, spawnerFrames, hcall, fun hcontext => ?_⟩
    have hnone := (hiff.mp hcontext).1
    rw [hcur] at hnone
    cases hnone
  · have hrun : (spawnsLoaded.after
        (.loading (.exporting "a" [⟨.exit, .unused, .unused, .unused⟩])) 6 3).any aboveItsFrame =
          true := by decide +kernel
    obtain ⟨s, hreach, htest⟩ := Module.reachable_after rfl hrun
    exact ⟨s, hreach, of_decide_eq_true htest⟩

end RiceVM
