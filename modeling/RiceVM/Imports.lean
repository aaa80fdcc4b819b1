import RiceVM.SentPointers
import RiceVM.Instructions

/-!
How an import finds its function. A load maps each entry of the import table to a function of
the module it loads; `mframe` and `mcall` read that map, and an entry it leaves out stands for
the function with the import's own number.
-/
namespace RiceVM
open Exec Ops Memory Heap

/-- Where a call goes: native code, or a pc of a module. -/
inductive Entry where
  | native (handler : Nat)
  | code (moduleIdx : Option Nat) (pc : Nat)
  deriving DecidableEq, Repr

/-- A function to its callers: the size and type of its frame, and where a call of it goes. -/
structure Callee where
  frame : Nat × Word
  entry : Entry
  deriving DecidableEq, Repr

namespace Ops.ModuleKind

def funcMap : ModuleKind → FuncMap
  | .builtin _ funcMap | .main funcMap | .loaded _ funcMap => funcMap

/-- The object that is the reference. -/
def data : ModuleKind → HeapData
  | .builtin moduleId funcMap => .moduleRef moduleId funcMap
  | .main funcMap => .mainModule funcMap
  | .loaded moduleIdx funcMap => .loadedModule moduleIdx funcMap

/-- The names and signatures of the functions of a module. -/
def functions (vm : VmState) : ModuleKind → List (String × Word)
  | .builtin moduleId _ =>
    (((vm.modules[moduleId]?).map (·.funcs)).getD []).map fun f => (f.name, f.sig)
  | .main _ => vm.module.exports.map fun e => (e.name, e.signature)
  | .loaded moduleIdx _ =>
    (((vm.moduleAt (some moduleIdx)).map (·.exports)).getD []).map fun e => (e.name, e.signature)

/-- Function `k` of a module. -/
def callee (vm : VmState) (k : Nat) : ModuleKind → Option Callee
  | .builtin moduleId _ =>
    (vm.modules.getFunc moduleId k).map fun f => ⟨(f.frameSize, noFrameType), .native f.handler⟩
  | .main _ =>
    (vm.module.exports[k]?).map fun e => ⟨exportFrame vm.module k, .code none e.pc.asUsize⟩
  | .loaded moduleIdx _ => do
    let m ← vm.moduleAt (some moduleIdx)
    (m.exports[k]?).map fun e => ⟨exportFrame m k, .code (some moduleIdx) e.pc.asUsize⟩

/-- The function an import index stands for. -/
def called (kind : ModuleKind) (vm : VmState) (i : Nat) : Option Callee :=
  kind.callee vm (kind.funcMap.resolve i)

theorem callee_eq_none_iff (kind : ModuleKind) (vm : VmState) (k : Nat) :
    kind.callee vm k = none ↔ (kind.functions vm).length ≤ k := by
  cases kind with
  | builtin moduleId funcMap =>
      simp only [callee, functions, Option.map_eq_none_iff, ModuleRegistry.getFunc, List.length_map,
        Option.bind_eq_bind]
      cases vm.modules[moduleId]? with
      | none => simp
      | some m => simp
  | main funcMap => simp [callee, functions]
  | loaded moduleIdx funcMap =>
      simp only [callee, functions, List.length_map, Option.bind_eq_bind]
      cases vm.moduleAt (some moduleIdx) with
      | none => simp
      | some m => simp

end Ops.ModuleKind

theorem resolveModuleRef_eq_ok {vm : VmState} {id : HeapId} {kind : ModuleKind} :
    resolveModuleRef vm id = .ok kind ↔ ∃ obj, vm.heap.get id = some obj ∧ obj.data = kind.data := by
  unfold resolveModuleRef
  cases vm.heap.get id with
  | none => simp
  | some obj =>
      obtain ⟨_, _, _, d⟩ := obj
      cases d <;> cases kind <;> simp [ModuleKind.data]

/-! What a state keeps of another's modules. -/

/-- No module is replaced; more may have been loaded. -/
structure SameModules (s t : VmState) : Prop where
  main : t.module = s.module
  builtin : t.modules = s.modules
  code : ∀ idx m, s.moduleAt idx = some m → t.moduleAt idx = some m

theorem SameModules.refl (s : VmState) : SameModules s s := ⟨rfl, rfl, fun _ _ h => h⟩

theorem SameModules.trans {s t u : VmState} (a : SameModules s t) (b : SameModules t u) :
    SameModules s u :=
  ⟨b.main.trans a.main, b.builtin.trans a.builtin, fun idx m h => b.code idx m (a.code idx m h)⟩

theorem sameModules_modifyModuleMp (s : VmState) (moduleIdx : Nat) (f : List Byte → List Byte) :
    SameModules s (s.modifyModuleMp moduleIdx f) := by
  refine ⟨?_, ?_, (work_modifyModuleMp s moduleIdx f).code⟩
  all_goals
    unfold VmState.modifyModuleMp
    repeat' split
    all_goals rfl

theorem sameModules_modifyBuffer (s : VmState) (target : AddrTarget)
    (f : List Byte → Nat → List Byte) : SameModules s (s.modifyBuffer target f) := by
  cases target with
  | frame off | mp off => exact ⟨rfl, rfl, fun _ _ h => h⟩
  | moduleMp moduleIdx offset => exact sameModules_modifyModuleMp s moduleIdx (f · offset)
  | immediate | none | heapArray id offset => exact .refl s

/-! What a heap keeps of another's module references. -/

/-- Every module reference was one before. -/
def Heap.NoNewRef (h h' : Heap) : Prop :=
  ∀ id obj, h'.get id = some obj → obj.data.isPermanent = true →
    ∃ obj₀, h.get id = some obj₀ ∧ obj₀.data = obj.data

namespace Heap.NoNewRef

theorem refl (h : Heap) : NoNewRef h h := fun _ obj hobj _ => ⟨obj, hobj, rfl⟩

theorem trans {h h' h'' : Heap} (a : NoNewRef h h') (b : NoNewRef h' h'') : NoNewRef h h'' := by
  intro id obj hobj hperm
  obtain ⟨obj', hobj', heq'⟩ := b id obj hobj hperm
  obtain ⟨obj₀, hobj₀, heq⟩ := a id obj' hobj' (heq' ▸ hperm)
  exact ⟨obj₀, hobj₀, heq.trans heq'⟩

theorem update {h : Heap} {id : HeapId} {f : HeapObject → HeapObject}
    (hf : ∀ obj, (f obj).data.isPermanent = true → obj.data = (f obj).data) :
    NoNewRef h (h.update id f) := by
  intro i obj hobj hperm
  rw [get_update] at hobj
  split at hobj
  · obtain ⟨obj₀, hobj₀, rfl⟩ := Option.map_eq_some_iff.mp hobj
    exact ⟨obj₀, hobj₀, hf obj₀ hperm⟩
  · exact ⟨obj, hobj, rfl⟩

theorem setBuffer {h : Heap} {id : HeapId} (data : List Byte) :
    NoNewRef h (h.update id fun obj => { obj with data := obj.data.setBuffer data }) := by
  refine update fun obj hperm => ?_
  obtain ⟨_, _, _, d⟩ := obj
  cases d with
  | record | array | adt => cases hperm
  | _ => rfl

theorem alloc {h h' : Heap} {typeId : BitVec 32} {data : HeapData} {trace : Option TraceMap}
    {id : HeapId} (ha : h.alloc typeId data trace = some (id, h'))
    (hdata : data.isPermanent = false) : NoNewRef h h' := by
  obtain ⟨_, _, hget⟩ := alloc_cases ha
  intro i obj hobj hperm
  rw [hget] at hobj
  split at hobj
  · cases hobj
    rw [hdata] at hperm
    cases hperm
  · exact ⟨obj, hobj, rfl⟩

theorem addRef (h : Heap) (id : HeapId) : NoNewRef h (h.addRef id) := by
  unfold Heap.addRef
  split
  · exact refl h
  · exact update fun _ _ => rfl

theorem decRef (h : Heap) (id : HeapId) : NoNewRef h (h.decRef id) := by
  intro i obj hobj _
  obtain ⟨obj₀, hobj₀, hdata⟩ := data_decRef hobj
  exact ⟨obj₀, hobj₀, hdata.symm⟩

theorem heapWrite (h : Heap) (id : HeapId) (offset : Nat) (bytes : List Byte) :
    NoNewRef h (h.heapWrite id offset bytes) := by
  unfold Heap.heapWrite
  generalize h.objects.entries.length + 1 = fuel
  induction fuel generalizing id offset with
  | zero => exact refl h
  | succ fuel ih =>
      simp only [heapWriteLoop]
      split
      · exact refl h
      · split
        · exact ih _ _
        iterate 3
          split
          · exact setBuffer _
          · exact refl h
        · exact refl h

end Heap.NoNewRef

namespace Data

theorem noNewRef_setActiveBuffer (s : Init) (buf : List Byte) :
    NoNewRef s.heap (setActiveBuffer s buf).heap := by
  unfold setActiveBuffer
  split
  · exact .setBuffer _
  · exact .refl _

theorem noNewRef_putElements {α : Type} (write : List Byte → Nat → α → List Byte) (size : Nat)
    (offset : Word) (values : List α) (s : Init) :
    NoNewRef s.heap (putElements write size offset values s).heap := by
  unfold putElements
  split
  · exact noNewRef_setActiveBuffer s _
  · exact .refl _

theorem noNewRef_putObject {off : Nat} {typeId : BitVec 32} {data : HeapData} {s t : Init}
    (hd : data.isPermanent = false) (h : putObject off typeId data s = some t) :
    NoNewRef s.heap t.heap := by
  simp only [putObject, Option.bind_eq_bind, Option.bind_eq_some_iff] at h
  obtain ⟨⟨id, heap⟩, ha, h⟩ := h
  cases h
  exact (NoNewRef.alloc ha hd).trans (noNewRef_setActiveBuffer { s with heap := heap } _)

theorem noNewRef_initItem {types : List TypeDescriptor} {item : DataItem} {s t : Init}
    (h : initItem types item s = some t) : NoNewRef s.heap t.heap := by
  cases item with
  | bytes offset values | words offset values | bigs offset values | reals offset values =>
      cases h
      exact noNewRef_putElements _ _ _ _ _
  | string offset value =>
      simp only [initItem] at h
      repeat' split at h
      all_goals first
        | exact noNewRef_putObject rfl h
        | (cases h; exact .refl _)
  | array offset elementType length =>
      simp only [initItem] at h
      repeat' split at h
      all_goals first
        | exact noNewRef_putObject rfl h
        | (cases h; exact .refl _)
  | setArray offset index =>
      simp only [initItem] at h
      repeat' split at h
      all_goals (cases h; exact .refl _)
  | restoreBase =>
      cases h
      exact .refl _

theorem noNewRef_initItems {types : List TypeDescriptor} {items : List DataItem} {s t : Init}
    (h : initItems types items s = some t) : NoNewRef s.heap t.heap := by
  induction items generalizing s with
  | nil => cases h; exact .refl _
  | cons item items ih =>
      simp only [initItems, Option.bind_eq_bind, Option.bind_eq_some_iff] at h
      obtain ⟨u, hu, h⟩ := h
      exact (noNewRef_initItem hu).trans (ih h)

end Data

theorem noNewRef_initMpWithTypes {dataSize : Word} {items : List DataItem} {heap heap' : Heap}
    {types : List TypeDescriptor} {mp : List Byte}
    (h : initMpWithTypes dataSize items heap types = some (mp, heap')) : NoNewRef heap heap' := by
  simp only [initMpWithTypes, Option.bind_eq_bind, Option.bind_eq_some_iff] at h
  obtain ⟨_, _, s, hs, h⟩ := h
  cases h
  exact Data.noNewRef_initItems hs

/-! Loading. -/

namespace VmState

/-- The path a load names. -/
def loadPath (vm : VmState) : String :=
  (vm.heap.getString (vm.readWordAt vm.src vm.immSrc)).getD ""

/-- The import table a load names. -/
def importTable (vm : VmState) : Option ImportModule :=
  (vm.moduleAt vm.currentLoadedModule).bind (·.imports[(vm.readWordAt vm.mid vm.immMid).asUsize]?)

end VmState

theorem writeWordAt_keeps {target : AddrTarget} {val : Word} {s t : VmState}
    (h : writeWordAt target val s = .ok () t) : SameModules s t ∧ NoNewRef s.heap t.heap := by
  cases target with
  | immediate => cases h
  | heapArray id offset =>
      cases h
      exact ⟨⟨rfl, rfl, fun _ _ h => h⟩, .heapWrite _ _ _ _⟩
  | none | frame | mp | moduleMp =>
      cases h
      refine ⟨sameModules_modifyBuffer s _ _, ?_⟩
      rw [heap_modifyBuffer]
      exact .refl _

theorem movePtrToDst_keeps {id : HeapId} {s t : VmState} (h : movePtrToDst id s = .ok () t) :
    SameModules s t ∧ NoNewRef s.heap t.heap := by
  obtain ⟨u, hwrite, rfl⟩ := movePtrToDst_cases h
  obtain ⟨hsame, hrefs⟩ := writeWordAt_keeps hwrite
  exact ⟨⟨hsame.main, hsame.builtin, hsame.code⟩,
    ((NoNewRef.addRef s.heap id).trans hrefs).trans (.decRef _ _)⟩

theorem Ops.ModuleKind.isPermanent_data (kind : ModuleKind) : kind.data.isPermanent = true := by
  cases kind <;> rfl

/-- The reference a load allocates is the only new one. -/
theorem alloc_movePtrToDst {data : HeapData} {s t : VmState}
    (h : (do movePtrToDst (← alloc 0 data)) s = .ok () t) :
    SameModules s t ∧ ∀ id kind, resolveModuleRef t id = .ok kind →
      kind.data = data ∨ ∃ obj, s.heap.get id = some obj ∧ obj.data = kind.data := by
  obtain ⟨newId, u, halloc, hmove⟩ := bind_eq_ok.mp h
  obtain ⟨_, _, hget, halloc⟩ := bind_eq_ok.mp halloc
  cases hget
  obtain ⟨⟨_, heap⟩, _, hunwrap, halloc⟩ := bind_eq_ok.mp halloc
  obtain ⟨hsame, hrefs⟩ := movePtrToDst_keeps hmove
  cases hnew : s.heap.alloc 0 data none with
  | none => rw [hnew] at hunwrap; cases hunwrap
  | some p =>
      rw [hnew] at hunwrap
      cases hunwrap
      cases halloc
      refine ⟨⟨hsame.main, hsame.builtin, hsame.code⟩, fun id kind hkind => ?_⟩
      obtain ⟨obj, hobj, hdata⟩ := resolveModuleRef_eq_ok.mp hkind
      obtain ⟨obj₀, hobj₀, heq⟩ := hrefs id obj hobj (hdata ▸ kind.isPermanent_data)
      obtain ⟨_, _, hget⟩ := alloc_cases hnew
      rw [hget] at hobj₀
      split at hobj₀
      · cases hobj₀
        exact .inl (heq.trans hdata).symm
      · exact .inr ⟨obj₀, hobj₀, heq.trans hdata⟩

/-- The map from the imports of a table to the functions of a module: a module maps its own
functions by signature alone, all others by name where the module has the name. -/
def importMap (self : Bool) (functions : List (String × Word)) (imports : ImportModule) : FuncMap :=
  if self then mapBySig Prod.snd functions imports
  else mapByName Prod.fst Prod.snd functions imports

theorem mapBySig_map {α : Type} (name : α → String) (sig : α → Word) (funcs : List α)
    (imports : ImportModule) :
    mapBySig Prod.snd (funcs.map fun f => (name f, sig f)) imports = mapBySig sig funcs imports := by
  simp only [mapBySig, List.findIdx?_map, Function.comp_def]

theorem mapByName_map {α : Type} (name : α → String) (sig : α → Word) (funcs : List α)
    (imports : ImportModule) :
    mapByName Prod.fst Prod.snd (funcs.map fun f => (name f, sig f)) imports =
      mapByName name sig funcs imports := by
  simp only [mapByName, List.findIdx?_map, Function.comp_def]

/-- A reference of a loaded module names a module that is there. -/
def Ops.ModuleKind.Valid (vm : VmState) : ModuleKind → Prop
  | .loaded moduleIdx _ => (vm.moduleAt (some moduleIdx)).isSome
  | _ => True

/-- What a load puts in the reference it makes. -/
theorem opLoad_ref {env : Env} {s t : VmState} (h : opLoad env s = .ok () t)
    {imports : ImportModule} (himports : s.importTable = some imports) {id : HeapId}
    {kind : ModuleKind} (hid : s.heap.get id = none) (hkind : resolveModuleRef t id = .ok kind) :
    kind.funcMap = importMap (s.loadPath = "$self") (kind.functions t) imports ∧ kind.Valid t := by
  have hmapped {table : Option ImportModule} (htable : table = some imports)
      (map : ImportModule → FuncMap) : funcMapOf table map = map imports := by
    rw [htable]
    rfl
  have hnew {h : Heap} (hrefs : NoNewRef s.heap h) {data : HeapData}
      (hdata : kind.data = data ∨ ∃ obj, h.get id = some obj ∧ obj.data = kind.data) :
      kind.data = data := by
    refine hdata.resolve_right fun ⟨obj, hobj, heq⟩ => ?_
    obtain ⟨obj₀, hobj₀, _⟩ := hrefs id obj hobj (heq ▸ kind.isPermanent_data)
    rw [hid] at hobj₀
    cases hobj₀
  rw [opLoad, bind_ok (show srcPtr s = .ok (s.readWordAt s.src s.immSrc) s from rfl),
    bind_ok (get_apply s), bind_ok (midWord_apply s)] at h
  change (if s.loadPath = "$self" then _ else _ : VM Unit) s = _ at h
  split at h
  · next hself =>
      rw [decide_eq_true hself]
      obtain ⟨hsame, hdata⟩ := alloc_movePtrToDst h
      have hdata := hnew (.refl _) (hdata id kind hkind)
      cases hmod : s.currentLoadedModule with
      | none =>
          cases kind with
          | main funcMap =>
              rw [hmod] at hdata
              cases hdata
              refine ⟨?_, trivial⟩
              rw [ModuleKind.functions, hsame.main, importMap, if_pos rfl, mapBySig_map]
              rw [VmState.importTable, hmod] at himports
              exact hmapped himports _
          | builtin | loaded => rw [hmod] at hdata; cases hdata
      | some moduleIdx =>
          cases kind with
          | loaded idx funcMap =>
              rw [hmod] at hdata
              cases hdata
              rw [VmState.importTable, hmod] at himports
              obtain ⟨m, hm, _⟩ := Option.bind_eq_some_iff.mp himports
              have ht := hsame.code _ _ hm
              refine ⟨?_, by rw [ModuleKind.Valid, ht]; rfl⟩
              rw [ModuleKind.functions, ht, importMap, if_pos rfl, mapBySig_map]
              rw [hm]
              exact hmapped (hm ▸ himports) _
          | builtin | main => rw [hmod] at hdata; cases hdata
  · next hself =>
      rw [decide_eq_false hself]
      cases hbuiltin : s.modules.findBuiltin s.loadPath with
      | some moduleId =>
          unfold VmState.loadPath at hbuiltin
          rw [hbuiltin] at h
          obtain ⟨hsame, hdata⟩ := alloc_movePtrToDst h
          have hdata := hnew (.refl _) (hdata id kind hkind)
          cases kind with
          | builtin moduleId' funcMap =>
              cases hdata
              refine ⟨?_, trivial⟩
              rw [ModuleKind.functions, hsame.builtin, importMap, if_neg Bool.false_ne_true,
                mapByName_map]
              exact hmapped himports _
          | main | loaded => cases hdata
      | none =>
          cases hfile : env.loadFile s.loadPath with
          | some module =>
              unfold VmState.loadPath at hbuiltin hfile
              rw [hbuiltin] at h
              dsimp only at h
              rw [hfile] at h
              obtain ⟨⟨mp, heap⟩, _, hinit, h⟩ := bind_eq_ok.mp h
              cases hmp : initMpWithTypes module.header.dataSize module.data s.heap module.types with
              | none => rw [hmp] at hinit; cases hinit
              | some p =>
                  rw [hmp] at hinit
                  cases hinit
                  obtain ⟨_, u, hset, h⟩ := bind_eq_ok.mp h
                  cases hset
                  obtain ⟨hsame, hdata⟩ := alloc_movePtrToDst h
                  have hdata := hnew (noNewRef_initMpWithTypes hmp) (hdata id kind hkind)
                  cases kind with
                  | loaded moduleIdx funcMap =>
                      cases hdata
                      have ht := hsame.code (some s.loadedModules.length) module (by
                        rw [VmState.moduleAt, List.getElem?_concat_length]
                        rfl)
                      refine ⟨?_, by rw [ModuleKind.Valid, ht]; rfl⟩
                      rw [ModuleKind.functions, ht, importMap, if_neg Bool.false_ne_true,
                        mapByName_map]
                      exact hmapped himports _
                  | builtin | main => cases hdata
          | none =>
              unfold VmState.loadPath at hbuiltin hfile
              rw [hbuiltin] at h
              dsimp only at h
              rw [hfile] at h
              obtain ⟨obj, hobj, hdata⟩ := resolveModuleRef_eq_ok.mp hkind
              obtain ⟨obj₀, hobj₀, _⟩ := (movePtrToDst_keeps h).2 id obj hobj
                (hdata ▸ kind.isPermanent_data)
              rw [hid] at hobj₀
              cases hobj₀

/-! Calling. -/

/-- What `mframe` does once it knows the frame. -/
def makeFrame (frame : Nat × Word) : VM Unit := do
  let vm ← get
  let (off, frames) ← ofExcept (vm.frames.allocPending frame.1)
  set { vm with frames := { frames with data := writeWord frames.data (off - 8) frame.2 } }
  setDstWord (Word.ofUsize off)

def Entry.run (nested : Nested) (callFrameBase : Nat) : Entry → VM Unit
  | .native handler => do nested.native handler []; returnFromBuiltin
  | .code moduleIdx entryPc => runNestedModuleCall nested moduleIdx entryPc callFrameBase

/-- What `mcall` does once it knows the function. -/
def callEntry (nested : Nested) (entry : Entry) : VM Unit := do
  let vm ← get
  let frameDataOffset := (vm.readWordAt vm.src vm.immSrc).asUsize
  let frames ← ofExcept (vm.frames.activatePending frameDataOffset (Word.ofUsize vm.nextPc))
  set { vm with frames := frames }
  entry.run nested frames.currentDataOffset

/-- From `vm`, `mframe` and `mcall` with index `i` of a reference use the function `called`, and
where there is none, no function runs and `mcall` fails. -/
structure Uses (kind : ModuleKind) (i : Nat) (called : Option Callee) (vm : VmState) : Prop where
  mframe : resolveModuleRef vm (vm.readWordAt vm.src vm.immSrc) = .ok kind →
    (vm.readWordAt vm.mid vm.immMid).toNat = i → ∀ callee, called = some callee →
    opMframe vm = makeFrame callee.frame vm
  mcall : resolveModuleRef vm (vm.readWordAt vm.dst vm.immDst) = .ok kind →
    (vm.readWordAt vm.mid vm.immMid).toNat = i → ∀ nested callee, called = some callee →
    opMcall nested vm = callEntry nested callee.entry vm
  fault : resolveModuleRef vm (vm.readWordAt vm.dst vm.immDst) = .ok kind →
    (vm.readWordAt vm.mid vm.immMid).toNat = i → called = none →
    ∃ e t, ∀ nested, opMcall nested vm = .error e t

theorem callee_sameModules {s t : VmState} (h : SameModules s t) {kind : ModuleKind}
    (hvalid : kind.Valid s) (k : Nat) : kind.callee t k = kind.callee s k := by
  cases kind with
  | builtin moduleId funcMap => rw [ModuleKind.callee, h.builtin, ModuleKind.callee]
  | main funcMap => rw [ModuleKind.callee, h.main, ModuleKind.callee]
  | loaded moduleIdx funcMap =>
      obtain ⟨m, hm⟩ := Option.isSome_iff_exists.mp hvalid
      rw [ModuleKind.callee, ModuleKind.callee, hm, h.code _ _ hm]

theorem valid_sameModules {s t : VmState} (h : SameModules s t) {kind : ModuleKind}
    (hvalid : kind.Valid s) : kind.Valid t := by
  cases kind with
  | builtin | main => trivial
  | loaded moduleIdx funcMap =>
      obtain ⟨m, hm⟩ := Option.isSome_iff_exists.mp hvalid
      rw [ModuleKind.Valid, h.code _ _ hm]
      rfl

theorem opMframe_eq {vm : VmState} {kind : ModuleKind}
    (hkind : resolveModuleRef vm (vm.readWordAt vm.src vm.immSrc) = .ok kind) {callee : Callee}
    (hcalled : kind.called vm (vm.readWordAt vm.mid vm.immMid).toNat = some callee) :
    opMframe vm = makeFrame callee.frame vm := by
  have hframe : calleeFrame kind (vm.readWordAt vm.mid vm.immMid).toNat vm = .ok callee.frame vm := by
    unfold ModuleKind.called at hcalled
    cases kind with
    | builtin moduleId funcMap =>
        obtain ⟨f, hf, rfl⟩ := Option.map_eq_some_iff.mp hcalled
        rw [calleeFrame, bind_ok (get_apply vm)]
        dsimp only
        rw [show vm.modules.getFunc moduleId (funcMap.resolve _) = some f from hf]
        rfl
    | main funcMap =>
        obtain ⟨e, _, rfl⟩ := Option.map_eq_some_iff.mp hcalled
        rfl
    | loaded moduleIdx funcMap =>
        obtain ⟨m, hm, hcalled⟩ := Option.bind_eq_some_iff.mp hcalled
        obtain ⟨e, _, rfl⟩ := Option.map_eq_some_iff.mp hcalled
        obtain ⟨lm, hlm, rfl⟩ := Option.map_eq_some_iff.mp hm
        rw [calleeFrame, bind_ok (get_apply vm)]
        dsimp only
        rw [hlm]
        rfl
  rw [opMframe, bind_ok (show srcPtr vm = .ok _ vm from rfl), bind_ok (midWord_apply vm),
    bind_ok (get_apply vm), hkind, bind_ok (ofExcept_ok _ vm), bind_ok hframe]
  rfl

theorem opMcall_eq {vm : VmState} {kind : ModuleKind}
    (hkind : resolveModuleRef vm (vm.readWordAt vm.dst vm.immDst) = .ok kind) {callee : Callee}
    (hcalled : kind.called vm (vm.readWordAt vm.mid vm.immMid).toNat = some callee)
    (nested : Nested) : opMcall nested vm = callEntry nested callee.entry vm := by
  rw [opMcall, bind_ok (srcWord_apply vm), bind_ok (midWord_apply vm), bind_ok (dstPtr_apply vm),
    bind_ok (get_apply vm), hkind, bind_ok (ofExcept_ok _ vm), callEntry, bind_ok (get_apply vm)]
  cases vm.frames.activatePending (vm.readWordAt vm.src vm.immSrc).asUsize
    (Word.ofUsize vm.nextPc) with
  | error e => rfl
  | ok frames =>
      rw [bind_ok (ofExcept_ok _ vm), bind_ok (ofExcept_ok _ vm), bind_ok (set_apply vm _),
        bind_ok (set_apply vm _)]
      unfold ModuleKind.called at hcalled
      cases kind with
      | builtin moduleId funcMap =>
          obtain ⟨f, hf, rfl⟩ := Option.map_eq_some_iff.mp hcalled
          dsimp only
          rw [show vm.modules.getFunc moduleId (funcMap.resolve _) = some f from hf]
          rfl
      | main funcMap =>
          obtain ⟨e, he, rfl⟩ := Option.map_eq_some_iff.mp hcalled
          dsimp only
          rw [exportPc, show vm.module.exports[funcMap.resolve _]? = some e from he]
          rfl
      | loaded moduleIdx funcMap =>
          obtain ⟨m, hm, hcalled⟩ := Option.bind_eq_some_iff.mp hcalled
          obtain ⟨e, he, rfl⟩ := Option.map_eq_some_iff.mp hcalled
          obtain ⟨lm, hlm, rfl⟩ := Option.map_eq_some_iff.mp hm
          dsimp only
          rw [hlm, bind_ok (unwrap_some _ _), exportPc,
            show lm.module.exports[funcMap.resolve _]? = some e from he]
          rfl

/-- A call of a function that is not there fails before anything runs. -/
theorem opMcall_fault {vm : VmState} {kind : ModuleKind} (hvalid : kind.Valid vm)
    (hkind : resolveModuleRef vm (vm.readWordAt vm.dst vm.immDst) = .ok kind) {i : Nat}
    (hi : (vm.readWordAt vm.mid vm.immMid).toNat = i) (hcalled : kind.called vm i = none) :
    ∃ e t, ∀ nested, opMcall nested vm = .error e t := by
  have hrun (nested : Nested) := show opMcall nested vm = _ by
    rw [opMcall, bind_ok (srcWord_apply vm), bind_ok (midWord_apply vm), bind_ok (dstPtr_apply vm),
      bind_ok (get_apply vm), hkind, bind_ok (ofExcept_ok _ vm), hi]
  cases hact : vm.frames.activatePending (vm.readWordAt vm.src vm.immSrc).asUsize
    (Word.ofUsize vm.nextPc) with
  | error e =>
      refine ⟨e, vm, fun nested => ?_⟩
      rw [hrun, hact]
      rfl
  | ok frames =>
      unfold ModuleKind.called at hcalled
      cases kind with
      | builtin moduleId funcMap =>
          have hf := Option.map_eq_none_iff.mp hcalled
          refine ⟨builtinNotFound moduleId i (funcMap.resolve i), { vm with frames := frames },
            fun nested => ?_⟩
          rw [hrun, hact, bind_ok (ofExcept_ok _ vm), bind_ok (set_apply vm _)]
          dsimp only
          rw [show vm.modules.getFunc moduleId (funcMap.resolve i) = none from hf]
          rfl
      | main funcMap =>
          have he := Option.map_eq_none_iff.mp hcalled
          refine ⟨exportNotFound i (funcMap.resolve i) "main", { vm with frames := frames },
            fun nested => ?_⟩
          rw [hrun, hact, bind_ok (ofExcept_ok _ vm), bind_ok (set_apply vm _)]
          dsimp only
          rw [exportPc, show vm.module.exports[funcMap.resolve i]? = none from he]
          rfl
      | loaded moduleIdx funcMap =>
          obtain ⟨m, hm⟩ := Option.isSome_iff_exists.mp hvalid
          obtain ⟨lm, hlm, rfl⟩ := Option.map_eq_some_iff.mp hm
          rw [ModuleKind.callee, hm] at hcalled
          have he := Option.map_eq_none_iff.mp hcalled
          refine ⟨exportNotFound i (funcMap.resolve i) "loaded", { vm with frames := frames },
            fun nested => ?_⟩
          rw [hrun, hact, bind_ok (ofExcept_ok _ vm), bind_ok (set_apply vm _)]
          dsimp only
          rw [hlm, bind_ok (unwrap_some _ _), exportPc,
            show lm.module.exports[funcMap.resolve i]? = none from he]
          rfl

theorem uses_called {s vm : VmState} (h : SameModules s vm) {kind : ModuleKind}
    (hvalid : kind.Valid s) (i : Nat) : Uses kind i (kind.called s i) vm := by
  have hcallee : kind.called vm i = kind.called s i := callee_sameModules h hvalid _
  refine ⟨fun hkind hi callee hcalled => ?_, fun hkind hi nested callee hcalled => ?_,
    fun hkind hi hcalled => ?_⟩
  · subst hi
    exact opMframe_eq hkind (hcallee.trans hcalled)
  · subst hi
    exact opMcall_eq hkind (hcallee.trans hcalled) nested
  · exact opMcall_fault (valid_sameModules h hvalid) hkind hi (hcallee.trans hcalled)

/-! Names. -/

/-- The first function with the import's name. -/
def firstNamed (functions : List (String × Word)) (imp : ImportEntry) : Option Nat :=
  functions.findIdx? (·.1 = imp.name)

/-- The first function with the import's signature. -/
def firstSigned (functions : List (String × Word)) (imp : ImportEntry) : Option Nat :=
  functions.findIdx? (·.2 = imp.signature)

/-- Import `i` is resolved by name: it stands for the function with its name where the module
has one, and for none where the module has neither its name nor its signature. -/
structure ResolvedByName (vm : VmState) (kind : ModuleKind) (i : Nat) (imp : ImportEntry) : Prop where
  named : ∀ k, firstNamed (kind.functions vm) imp = some k → kind.called vm i = kind.callee vm k
  missing : firstNamed (kind.functions vm) imp = none → firstSigned (kind.functions vm) imp = none →
    kind.called vm i = none

theorem resolve_importMap {self : Bool} {functions : List (String × Word)} {imports : ImportModule}
    {i : Nat} {imp : ImportEntry} (himp : imports.functions[i]? = some imp) :
    (importMap self functions imports).resolve i =
      if self then (firstSigned functions imp).getD i
      else ((firstNamed functions imp).or (firstSigned functions imp)).getD i := by
  cases self with
  | true =>
      rw [if_pos rfl, importMap, if_pos rfl, FuncMap.resolve, mapBySig, List.getElem?_map, himp]
      rfl
  | false =>
      rw [if_neg Bool.false_ne_true, importMap, if_neg Bool.false_ne_true, FuncMap.resolve,
        mapByName, List.getElem?_map, himp]
      rfl

/-- An import of a module that is loaded is resolved by name exactly when the tables leave no
choice: its number is no function's where its name and its signature are missing, and in a
module that loads itself, the first function with its signature, or the one with its number
where there is none, is to its callers the first with its name. -/
theorem load_resolvedByName_iff {env : Env} {s t : VmState} (h : opLoad env s = .ok () t)
    {imports : ImportModule} (himports : s.importTable = some imports) {i : Nat} {imp : ImportEntry}
    (himp : imports.functions[i]? = some imp) {id : HeapId} (hid : s.heap.get id = none)
    {kind : ModuleKind} (hkind : resolveModuleRef t id = .ok kind) :
    (∀ vm, SameModules t vm → Uses kind i (kind.called t i) vm) ∧
    (ResolvedByName t kind i imp ↔
      (s.loadPath = "$self" → ∀ k, firstNamed (kind.functions t) imp = some k →
        kind.callee t ((firstSigned (kind.functions t) imp).getD i) = kind.callee t k) ∧
      (firstNamed (kind.functions t) imp = none → firstSigned (kind.functions t) imp = none →
        (kind.functions t).length ≤ i)) := by
  obtain ⟨hmap, hvalid⟩ := opLoad_ref h himports hid hkind
  refine ⟨fun vm hvm => uses_called hvm hvalid i, ?_⟩
  have hresolve : kind.funcMap.resolve i = _ :=
    (congrArg (FuncMap.resolve · i) hmap).trans (resolve_importMap himp)
  have hcalled := congrArg (fun k => kind.callee t k) hresolve
  rw [show kind.callee t (kind.funcMap.resolve i) = kind.called t i from rfl] at hcalled
  refine ⟨fun hby => ⟨fun hself k hk => ?_, fun hname hsig => ?_⟩, fun ⟨hself, hnumber⟩ =>
    ⟨fun k hk => ?_, fun hname hsig => ?_⟩⟩
  · rw [if_pos (decide_eq_true hself)] at hcalled
    exact hcalled.symm.trans (hby.named k hk)
  · have hnone := hby.missing hname hsig
    rw [hcalled, hname, hsig, Option.or_none, ite_self, ModuleKind.callee_eq_none_iff] at hnone
    exact hnone
  · by_cases hpath : s.loadPath = "$self"
    · rw [hcalled, if_pos (decide_eq_true hpath)]
      exact hself hpath k hk
    · rw [hcalled, if_neg (by simpa using hpath), hk]
      rfl
  · rw [hcalled, hname, hsig, Option.or_none, ite_self, ModuleKind.callee_eq_none_iff]
    exact hnumber hname hsig

/-- A program that imports `g` from itself and calls it. It exports two functions with one
signature: `f` stores 1 and `g` stores 2. -/
def importsSelf : Module :=
  { Module.ofCode "m" [
      ⟨.load, .mp 0, .imm 0, .mp 4⟩,
      ⟨.mframe, .mp 4, .imm 0, .fp 32⟩,
      ⟨.mcall, .fp 32, .imm 0, .mp 4⟩,
      ⟨.exit, .unused, .unused, .unused⟩,
      ⟨.movw, .imm 1, .unused, .mp 8⟩,
      ⟨.ret, .unused, .unused, .unused⟩,
      ⟨.movw, .imm 2, .unused, .mp 8⟩,
      ⟨.ret, .unused, .unused, .unused⟩] 12 with
    data := [.string 0 "$self"]
    exports := [⟨4, 0, 7, "f"⟩, ⟨6, 0, 7, "g"⟩]
    imports := [⟨[⟨7, "g"⟩]⟩] }

def importG : ImportEntry := ⟨7, "g"⟩

/-- The reference that the first instruction loads calls `f` for the import of `g`. -/
def callsOther (s : VmState × Nat) : Bool :=
  match begin ⟨.load, .mp 0, .imm 0, .mp 4⟩ s.1 with
  | .ok _ u =>
    match opLoad .bare u with
    | .ok _ t =>
      match resolveModuleRef t u.heap.nextId with
      | .ok kind => decide (u.importTable = some ⟨[importG]⟩ ∧ u.heap.get u.heap.nextId = none ∧
          firstNamed (kind.functions t) importG = some 1 ∧
          kind.called t 0 = kind.callee t 0 ∧ kind.callee t 0 ≠ kind.callee t 1)
      | .error _ => false
    | _ => false
  | _ => false

/-- A load in a reachable state, of a module by itself. -/
theorem calls_other : ∃ s u t id kind, Reachable s ∧
    begin ⟨.load, .mp 0, .imm 0, .mp 4⟩ s.1 = .ok () u ∧ opLoad .bare u = .ok () t ∧
    u.importTable = some ⟨[importG]⟩ ∧ u.heap.get id = none ∧ resolveModuleRef t id = .ok kind ∧
    firstNamed (kind.functions t) importG = some 1 ∧
    kind.called t 0 = kind.callee t 0 ∧ kind.callee t 0 ≠ kind.callee t 1 := by
  obtain ⟨s, hreach, htest⟩ := Module.reachable_after rfl
    (by decide +kernel : (importsSelf.after .bare 1 0).any callsOther = true)
  unfold callsOther at htest
  split at htest
  · next u hbegin =>
      split at htest
      · next t hload =>
          split at htest
          · next kind hkind =>
              obtain ⟨htable, hnew, htail⟩ := of_decide_eq_true htest
              exact ⟨s, u, t, _, kind, hreach, hbegin, hload, htable, hnew, hkind, htail⟩
          · cases htest
      · cases htest
  · cases htest

theorem load_resolvedByName_iff_importsSelf : ∃ s t kind, opLoad .bare s = .ok () t ∧
    ∀ vm, SameModules t vm → Uses kind 0 (kind.called t 0) vm := by
  obtain ⟨_, u, t, id, kind, _, _, hload, htable, hnew, hkind, _⟩ := calls_other
  exact ⟨u, t, kind, hload, (load_resolvedByName_iff hload htable rfl hnew hkind).1⟩

/-- The module exports `g`, and a call of the import `g` goes to `f`. -/
theorem import_calls_other : ∃ s u t id kind, Reachable s ∧
    begin ⟨.load, .mp 0, .imm 0, .mp 4⟩ s.1 = .ok () u ∧ opLoad .bare u = .ok () t ∧
    u.importTable = some ⟨[importG]⟩ ∧ u.heap.get id = none ∧ resolveModuleRef t id = .ok kind ∧
    firstNamed (kind.functions t) importG = some 1 ∧ kind.called t 0 = kind.callee t 0 ∧
    ¬ ResolvedByName t kind 0 importG := by
  obtain ⟨s, u, t, id, kind, hreach, hbegin, hload, htable, hnew, hkind, hnamed, hcalled, hne⟩ :=
    calls_other
  refine ⟨s, u, t, id, kind, hreach, hbegin, hload, htable, hnew, hkind, hnamed, hcalled,
    fun hby => hne ?_⟩
  exact hcalled.symm.trans (hby.named 1 hnamed)

end RiceVM
