import RiceVM.Ops.Data

/-!
Loading modules and calling into them. A call into a loaded module, or back into
the main module, runs the callee on a nested interpreter loop with the callee's
data swapped in, and swaps the caller's back however the loop ends.
-/
namespace RiceVM.Ops
open Exec Memory

/-- Which function a module reference calls for each import index. -/
abbrev FuncMap := List (Option Nat)

/-- An unmapped import index is used as it stands. -/
def FuncMap.resolve (funcMap : FuncMap) (funcIdx : Nat) : Nat :=
  ((funcMap[funcIdx]?).join).getD funcIdx

/-- Map imports by signature alone, as `$self` does. -/
def mapBySig {α : Type} (sig : α → BitVec 32) (funcs : List α) (imports : ImportModule) :
    FuncMap :=
  imports.functions.map fun imp => funcs.findIdx? (sig · = imp.signature)

/-- Map imports by name, and by signature where the name is missing. -/
def mapByName {α : Type} (name : α → String) (sig : α → BitVec 32) (funcs : List α)
    (imports : ImportModule) : FuncMap :=
  imports.functions.map fun imp =>
    (funcs.findIdx? (name · = imp.name)).or (funcs.findIdx? (sig · = imp.signature))

def funcMapOf (imports : Option ImportModule) (map : ImportModule → FuncMap) : FuncMap :=
  (imports.map map).getD []

def opLoad (env : Env) : VM Unit := do
  let pathId ← srcPtr
  let vm ← get
  let path := (vm.heap.getString pathId).getD ""
  let importIdx := (← midWord).asUsize
  let imports := (vm.moduleAt vm.currentLoadedModule).bind (·.imports[importIdx]?)
  if path = "$self" then
    let exports := ((vm.moduleAt vm.currentLoadedModule).map (·.exports)).getD []
    let funcMap := funcMapOf imports (mapBySig ExportEntry.signature exports)
    let data := match vm.currentLoadedModule with
      | some moduleIdx => HeapData.loadedModule moduleIdx funcMap
      | none => .mainModule funcMap
    movePtrToDst (← alloc 0 data)
  else
    match vm.modules.findBuiltin path with
    | some moduleId =>
      let funcs := ((vm.modules[moduleId]?).map (·.funcs)).getD []
      let funcMap := funcMapOf imports (mapByName BuiltinFunc.name BuiltinFunc.sig funcs)
      movePtrToDst (← alloc 0 (.moduleRef moduleId funcMap))
    | none =>
      match env.loadFile path with
      | some module =>
        let (mp, heap) ←
          unwrap (initMpWithTypes module.header.dataSize module.data vm.heap module.types)
        let funcMap :=
          funcMapOf imports (mapByName ExportEntry.name ExportEntry.signature module.exports)
        set { vm with heap := heap, loadedModules := vm.loadedModules ++ [⟨module, mp⟩] }
        movePtrToDst (← alloc 0 (.loadedModule vm.loadedModules.length funcMap))
      | none => movePtrToDst nil

inductive ModuleKind where
  | builtin (moduleId : Nat) (funcMap : FuncMap)
  | main (funcMap : FuncMap)
  | loaded (moduleIdx : Nat) (funcMap : FuncMap)
  deriving DecidableEq, Repr

def resolveModuleRef (vm : VmState) (heapId : HeapId) : Except ExecError ModuleKind :=
  match vm.heap.get heapId with
  | some obj =>
    match obj.data with
    | .moduleRef moduleId funcMap => .ok (.builtin moduleId funcMap)
    | .mainModule funcMap => .ok (.main funcMap)
    | .loadedModule moduleIdx funcMap => .ok (.loaded moduleIdx funcMap)
    | _ => .error (.threadFault "not a module ref")
  | none => .error (.threadFault "nil module")

/-- The result type of a frame no type describes: `i32::MAX`. -/
def noFrameType : Word := 0x7fffffff

/-- Frame size and frame type of an export; 64 bytes where it has none. -/
def exportFrame (module : Module) (exportIdx : Nat) : Nat × Word :=
  match module.exports[exportIdx]? with
  | some e =>
    match module.types[e.frameType.asUsize]? with
    | some td => (td.size.asUsize, e.frameType)
    | none => (64, noFrameType)
  | none => (64, noFrameType)

def builtinNotFound (moduleId funcIdx builtinIdx : Nat) : ExecError :=
  .other s!"builtin function not found: module={moduleId}, func={funcIdx} (mapped to {builtinIdx})"

/-- The frame `mframe` allocates for a function of a module reference. -/
def calleeFrame (kind : ModuleKind) (funcIdx : Nat) : VM (Nat × Word) := do
  let vm ← get
  match kind with
  | .builtin moduleId funcMap =>
    let builtinIdx := funcMap.resolve funcIdx
    let f ← ofOption (builtinNotFound moduleId funcIdx builtinIdx)
      (vm.modules.getFunc moduleId builtinIdx)
    return (f.frameSize, noFrameType)
  | .main funcMap => return exportFrame vm.module (funcMap.resolve funcIdx)
  | .loaded moduleIdx funcMap =>
    let lm ← unwrap vm.loadedModules[moduleIdx]?
    return exportFrame lm.module (funcMap.resolve funcIdx)

def opMframe : VM Unit := do
  let modRefId ← srcPtr
  let funcIdx := (← midWord).toNat
  let vm ← get
  let kind ← ofExcept (resolveModuleRef vm modRefId)
  let (frameSize, typeIdx) ← calleeFrame kind funcIdx
  let (off, frames) ← ofExcept (vm.frames.allocPending frameSize)
  set { vm with frames := { frames with data := writeWord frames.data (off - 8) typeIdx } }
  setDstWord (Word.ofUsize off)

/-- What a nested call restores in its caller. -/
structure SavedCaller where
  pc : Nat
  nextPc : Nat
  loadedModule : Option Nat
  unwindFloor : Nat
  /-- Whether the callee is another module than the one that executes. -/
  entering : Bool
  /-- Where the main module's data is parked on the caller stack. -/
  parkedSlot : Option Nat
  deriving DecidableEq, Repr

def VmState.saveCaller (vm : VmState) (moduleIdx : Option Nat) : SavedCaller where
  pc := vm.pc
  nextPc := vm.nextPc
  loadedModule := vm.currentLoadedModule
  unwindFloor := vm.unwindFloor
  entering := moduleIdx ≠ vm.currentLoadedModule
  parkedSlot := vm.parkedSlot 0

/-- Take a module's data out of the place it rests in. -/
def takeCalleeMp (moduleIdx : Option Nat) : VM (List Byte) := do
  let vm ← get
  match moduleIdx with
  | some idx =>
    let lm ← unwrap vm.loadedModules[idx]?
    set { vm with loadedModules := vm.loadedModules.modify idx fun lm => { lm with mp := [] } }
    return lm.mp
  | none =>
    match vm.parkedSlot 0 with
    | some slot =>
      let entry ← unwrap vm.callerMpStack[slot]?
      set { vm with callerMpStack := vm.callerMpStack.modify slot fun e => (e.1, []) }
      return entry.2
    | none =>
      set { vm with mp := [] }
      return vm.mp

/-- Park the caller's data and make the callee's active. -/
def swapIn (moduleIdx : Option Nat) : VM Unit := do
  let vm ← get
  if moduleIdx = vm.currentLoadedModule then pure ()
  else do
    let calleeMp ← takeCalleeMp moduleIdx
    modify fun vm' => { vm' with
      mp := calleeMp
      callerMpStack := vm'.callerMpStack ++ [(vm.currentModuleVirtIdx, vm'.mp)]
      currentLoadedModule := moduleIdx }

/-- Swap the callee's data and context in. -/
def enterModule (moduleIdx : Option Nat) (entryPc : Nat) : VM Unit := do
  let vm ← get
  swapIn moduleIdx
  modify fun vm' => { vm' with
    unwindFloor := vm.frames.currentBase, pc := entryPc, halted := false }

/-- Hand the callee's data back to its home and restore the caller's. -/
def returnCalleeMp (saved : SavedCaller) (moduleIdx : Option Nat) (vm : VmState) : VmState :=
  let parentMp := (vm.callerMpStack.getLast?.map (·.2)).getD []
  let calleeMp := vm.mp
  let vm := { vm with mp := parentMp, callerMpStack := vm.callerMpStack.dropLast }
  match moduleIdx with
  | some idx => { vm with
      loadedModules := vm.loadedModules.modify idx fun lm => { lm with mp := calleeMp } }
  | none =>
    match saved.parkedSlot with
    | some slot => { vm with
        callerMpStack := vm.callerMpStack.modify slot fun e => (e.1, calleeMp) }
    | none => { vm with mp := calleeMp }

def leaveModule (saved : SavedCaller) (moduleIdx : Option Nat) (vm : VmState) : VmState :=
  let vm := if saved.entering then returnCalleeMp saved moduleIdx vm else vm
  { vm with
    unwindFloor := saved.unwindFloor
    pc := saved.pc
    nextPc := saved.nextPc
    currentLoadedModule := saved.loadedModule
    halted := false }

/-- Run a module's code from `entryPc` on a nested interpreter loop. -/
def runNestedModuleCall (nested : Nested) (moduleIdx : Option Nat)
    (entryPc callFrameBase : Nat) : VM Unit := do
  let vm ← get
  enterModule moduleIdx entryPc
  restoring (nested.loop moduleIdx callFrameBase)
    (leaveModule (VmState.saveCaller vm moduleIdx) moduleIdx)

/-- Where a built-in's result is stored besides its frame. -/
def decodeReturnTarget (vm : VmState) (retPtr : Word) : AddrTarget :=
  if retPtr = 0 then .none
  else if retPtr.msb then
    match vm.heapRefs[heapRefIdx retPtr]? with
    | some (id, offset) => .heapArray id offset
    | none => .none
  else decodeVirtualAddr retPtr 0

/-- Copy a built-in's result from its frame through the return pointer. -/
def copyResult : VM Unit := do
  let vm ← get
  let dataOff := vm.frames.currentDataOffset
  let retPtr := readWord vm.frames.data (dataOff + 16)
  if retPtr = 0 then pure ()
  else writeWordAt (decodeReturnTarget vm retPtr) (readWord vm.frames.data dataOff)

/-- Return from a built-in as `ret` does from a function. -/
def popBuiltinFrame : VM Unit := do
  let vm ← get
  let (prevPc, frames) ← ofExcept vm.frames.pop
  if prevPc.msb then set { vm with frames := frames }
  else set { vm with frames := frames, nextPc := prevPc.asUsize }

def returnFromBuiltin : VM Unit := do
  copyResult
  popBuiltinFrame

def exportNotFound (funcIdx exportIdx : Nat) (where_ : String) : ExecError :=
  .other s!"export function {funcIdx} (mapped to {exportIdx}) not found in {where_} module"

/-- The pc of an exported function. -/
def exportPc (module : Module) (funcMap : FuncMap) (funcIdx : Nat) (where_ : String) :
    Except ExecError Nat :=
  match module.exports[funcMap.resolve funcIdx]? with
  | some e => .ok e.pc.asUsize
  | none => .error (exportNotFound funcIdx (funcMap.resolve funcIdx) where_)

def opMcall (nested : Nested) : VM Unit := do
  let frameDataOffset := (← srcWord).asUsize
  let funcIdx := (← midWord).toNat
  let modRefId ← dstPtr
  let vm ← get
  let kind ← ofExcept (resolveModuleRef vm modRefId)
  let frames ← ofExcept (vm.frames.activatePending frameDataOffset (Word.ofUsize vm.nextPc))
  set { vm with frames := frames }
  match kind with
  | .builtin moduleId funcMap =>
    let builtinIdx := funcMap.resolve funcIdx
    let f ← ofOption (builtinNotFound moduleId funcIdx builtinIdx)
      (vm.modules.getFunc moduleId builtinIdx)
    nested.native f.handler []
    returnFromBuiltin
  | .main funcMap =>
    let entryPc ← ofExcept (exportPc vm.module funcMap funcIdx "main")
    runNestedModuleCall nested none entryPc frames.currentDataOffset
  | .loaded moduleIdx funcMap =>
    let lm ← unwrap vm.loadedModules[moduleIdx]?
    let entryPc ← ofExcept (exportPc lm.module funcMap funcIdx "loaded")
    runNestedModuleCall nested (some moduleIdx) entryPc frames.currentDataOffset

end RiceVM.Ops
