import RiceVM.State

/-!
Module data initialisation and the state a program starts in. An item whose
offset is negative or does not fit is skipped, and an array item that is too
large is not allocated.
-/
namespace RiceVM
open Memory

/-- Largest array one allocation may produce. -/
def maxArrayBytes : Nat := 64 * 1024 * 1024

namespace Data

/-- Module data under construction and the arrays that are being filled. -/
structure Init where
  mp : List Byte
  heap : Heap
  arrayStack : List HeapId

/-- The array an item is written into, when one is selected and still an array. -/
def activeArray (s : Init) : Option (HeapId × List Byte) := do
  let id ← s.arrayStack.head?
  match (← s.heap.get id).data with
  | .array _ _ data _ => some (id, data)
  | _ => none

def activeBuffer (s : Init) : List Byte :=
  match activeArray s with
  | some (_, data) => data
  | none => s.mp

def setActiveBuffer (s : Init) (buf : List Byte) : Init :=
  match activeArray s with
  | some (id, _) =>
    { s with heap := s.heap.update id fun obj => { obj with data := obj.data.setBuffer buf } }
  | none => { s with mp := buf }

/-- Write elements one after the other, up to the first that does not fit. -/
def writeElements {α : Type} (write : List Byte → Nat → α → List Byte) (size : Nat) :
    List Byte → Nat → List α → List Byte
  | buf, _, [] => buf
  | buf, pos, v :: vs =>
    if pos + size ≤ buf.length then writeElements write size (write buf pos v) (pos + size) vs
    else buf

def putElements {α : Type} (write : List Byte → Nat → α → List Byte) (size : Nat)
    (offset : Word) (values : List α) (s : Init) : Init :=
  match offset.toUsize? with
  | some off => setActiveBuffer s (writeElements write size (activeBuffer s) off values)
  | none => s

/-- Allocate an object and store its id, unless the id has nowhere to go. -/
def putObject (off : Nat) (typeId : BitVec 32) (data : HeapData) (s : Init) : Option Init := do
  let (id, heap) ← s.heap.alloc typeId data none
  let s := { s with heap := heap }
  return setActiveBuffer s (writeWord (activeBuffer s) off id)

def wordSlotFits (s : Init) (off : Nat) : Bool := off + 4 ≤ (activeBuffer s).length

/-- The array id stored at an offset of the selected array, or of the module data. -/
def arrayIdAt (s : Init) (off : Nat) : HeapId :=
  match s.arrayStack with
  | [] => readWord s.mp off
  | _ :: _ =>
    match activeArray s with
    | some (_, data) => readWord data off
    | none => 0

/-- The element size of an array; a word where the id names none. -/
def elemSizeOf (s : Init) (id : HeapId) : Nat :=
  match s.heap.get id with
  | some { data := .array _ elemSize _ _, .. } => elemSize
  | _ => 4

def initItem (types : List TypeDescriptor) (item : DataItem) (s : Init) : Option Init :=
  match item with
  | .bytes offset values => some (putElements writeByte 1 offset values s)
  | .words offset values => some (putElements writeWord 4 offset values s)
  | .bigs offset values => some (putElements writeBig 8 offset values s)
  | .reals offset values => some (putElements writeBig 8 offset values s)
  | .string offset value =>
    match offset.toUsize? with
    | some off => if wordSlotFits s off then putObject off 0 (.str value) s else some s
    | none => some s
  | .array offset elementType length =>
    match offset.toUsize?, length.toUsize? with
    | some off, some len =>
      if wordSlotFits s off then
        let elemSize := max (((types[elementType.asUsize]?).map (·.size.asUsize)).getD 4) 1
        if len * elemSize ≤ maxArrayBytes then
          putObject off elementType
            (.array elementType elemSize (List.replicate (len * elemSize) 0) len) s
        else some s
      else some s
    | _, _ => some s
  | .setArray offset index =>
    match offset.toUsize?, index.toUsize? with
    | some off, some idx =>
      let arrId := arrayIdAt s off
      some (if arrId = nil ∨ 2 ^ 64 ≤ idx * elemSizeOf s arrId then s
        else { s with arrayStack := arrId :: s.arrayStack })
    | _, _ => some s
  | .restoreBase => some { s with arrayStack := s.arrayStack.tail }

def initItems (types : List TypeDescriptor) : List DataItem → Init → Option Init
  | [], s => some s
  | item :: items, s => do initItems types items (← initItem types item s)

end Data

/-- The data of a module and the heap that holds its strings and arrays. -/
def initMpWithTypes (dataSize : Word) (items : List DataItem) (heap : Heap)
    (types : List TypeDescriptor) : Option (List Byte × Heap) := do
  let size ← dataSize.toUsize?
  let s ← Data.initItems types items ⟨List.replicate size 0, heap, []⟩
  return (s.mp, s.heap)

namespace Data

theorem plain_setActiveBuffer (s : Init) (buf : List Byte) :
    Heap.Plain s.heap (setActiveBuffer s buf).heap := by
  unfold setActiveBuffer
  split
  · exact Heap.plain_update (fun _ => rfl) fun _ _ => HeapData.channel?_setBuffer _ _
  · exact .refl _

theorem plain_putElements {α : Type} (write : List Byte → Nat → α → List Byte) (size : Nat)
    (offset : Word) (values : List α) (s : Init) :
    Heap.Plain s.heap (putElements write size offset values s).heap := by
  unfold putElements
  split
  · exact plain_setActiveBuffer s _
  · exact .refl _

theorem plain_putObject {off : Nat} {typeId : BitVec 32} {data : HeapData} {s t : Init}
    (hd : data.channel? = none) (h : putObject off typeId data s = some t) :
    Heap.Plain s.heap t.heap := by
  simp only [putObject, Option.bind_eq_bind, Option.bind_eq_some_iff] at h
  obtain ⟨⟨id, heap⟩, ha, h⟩ := h
  cases h
  exact (Heap.plain_alloc ha hd).trans (plain_setActiveBuffer { s with heap := heap } _)

theorem plain_initItem {types : List TypeDescriptor} {item : DataItem} {s t : Init}
    (h : initItem types item s = some t) : Heap.Plain s.heap t.heap := by
  cases item with
  | bytes offset values | words offset values | bigs offset values | reals offset values =>
      cases h
      exact plain_putElements _ _ _ _ _
  | string offset value =>
      simp only [initItem] at h
      split at h
      · split at h
        · exact plain_putObject (by rfl) h
        · cases h; exact .refl _
      · cases h; exact .refl _
  | array offset elementType length =>
      simp only [initItem] at h
      split at h
      · split at h
        · split at h
          · exact plain_putObject (by rfl) h
          · cases h; exact .refl _
        · cases h; exact .refl _
      · cases h; exact .refl _
  | setArray offset index =>
      simp only [initItem] at h
      split at h
      · cases h
        split <;> exact .refl _
      · cases h; exact .refl _
  | restoreBase => cases h; exact .refl _

theorem plain_initItems {types : List TypeDescriptor} {items : List DataItem} {s t : Init}
    (h : initItems types items s = some t) : Heap.Plain s.heap t.heap := by
  induction items generalizing s with
  | nil => cases h; exact .refl _
  | cons item items ih =>
      simp only [initItems, Option.bind_eq_bind, Option.bind_eq_some_iff] at h
      obtain ⟨u, hu, h⟩ := h
      exact (plain_initItem hu).trans (ih h)

end Data

theorem plain_initMpWithTypes {dataSize : Word} {items : List DataItem} {heap heap' : Heap}
    {types : List TypeDescriptor} {mp : List Byte}
    (h : initMpWithTypes dataSize items heap types = some (mp, heap')) :
    Heap.Plain heap heap' := by
  simp only [initMpWithTypes, Option.bind_eq_bind, Option.bind_eq_some_iff] at h
  obtain ⟨size, _, s, hs, h⟩ := h
  cases h
  exact Data.plain_initItems hs

/-- The argument list of `init`: one list node for each string, built from the back. -/
def buildArgs : List String → Heap → Option (HeapId × Heap)
  | [], heap => some (nil, heap)
  | arg :: args, heap => do
    let (tail, heap) ← buildArgs args heap
    let (strId, heap) ← heap.alloc 0 (.str arg) none
    let head := writeWord (List.replicate 4 0) 0 strId
    let heap ← heap.incRef tail
    heap.alloc 0 (.list head tail) none

/-- The drawing context and the arguments, stored in the entry frame. -/
def setEntryArgs (frames : FrameStack) (heap : Heap) (args : List String) :
    Option (FrameStack × Heap) := do
  let (displayId, heap) ← heap.alloc 0 (.record (List.replicate 32 0)) none
  let (screenId, heap) ← heap.alloc 0 (.record (List.replicate 16 0)) none
  let ctxData := writeWord (writeWord (List.replicate 16 0) 0 displayId) 4 screenId
  let (ctxId, heap) ← heap.alloc 0 (.record ctxData) none
  let (argsList, heap) ← buildArgs args heap
  let fpBase := frames.currentDataOffset
  let data := writeWord (writeWord frames.data (fpBase + 32) ctxId) (fpBase + 36) argsList
  return ({ frames with data := data }, heap)

/-- The frame size of the entry function; a frame of 64 bytes where it has no type. The size is
not checked, and the host cannot allocate a frame of a negative one. -/
def entryFrameSize (module : Module) : Option Nat :=
  match module.header.entryType.toUsize? with
  | some idx =>
    match module.types[idx]? with
    | some td => td.size.toUsize?
    | none => some 64
  | none => some 64

/-- The state a program starts in. The registry holds the built-in modules. -/
def VmState.withArgs (modules : ModuleRegistry) (gcEnabled : Bool) (module : Module)
    (args : List String) : Option VmState := do
  let (mp, heap) ← initMpWithTypes module.header.dataSize module.data Heap.new module.types
  let frameSize ← entryFrameSize module
  let frames := FrameStack.new.pushEntry frameSize (-1)
  let (frames, heap) ←
    if frameSize ≥ 40 then setEntryArgs frames heap (module.name :: args) else some (frames, heap)
  return {
    module, mp, frames, heap, modules, gcEnabled
    loadedModules := []
    pc := module.header.entryPc.asUsize
    nextPc := 0
    halted := false
    gcCounter := 0
    currentLoadedModule := none
    src := .none, mid := .none, dst := .none
    immSrc := 0, immMid := 0, immDst := 0
    lastError := ""
    callerMpStack := []
    heapRefs := []
    blockedChannel := none
    unwindFloor := 0
    threadQueue := []
    currentPid := 1
    nextPid := 2
    waitRecords := []
    yielding := false
    thread := 1
    history := [.spawned 1 ⟨frames, mp, module.header.entryPc.asUsize, [], "", none, []⟩] }

theorem plain_buildArgs {args : List String} {heap heap' : Heap} {id : HeapId}
    (h : buildArgs args heap = some (id, heap')) : Heap.Plain heap heap' := by
  induction args generalizing id heap' with
  | nil => cases h; exact .refl _
  | cons arg args ih =>
      simp only [buildArgs, Option.bind_eq_bind, Option.bind_eq_some_iff] at h
      obtain ⟨⟨tail, h₁⟩, htail, ⟨strId, h₂⟩, hstr, h₃, hinc, h⟩ := h
      have hstr : Heap.Plain h₁ h₂ := Heap.plain_alloc hstr rfl
      exact (((ih htail).trans hstr).trans (Heap.plain_incRef hinc)).trans (Heap.plain_alloc h rfl)

theorem plain_setEntryArgs {frames frames' : FrameStack} {heap heap' : Heap} {args : List String}
    (h : setEntryArgs frames heap args = some (frames', heap')) : Heap.Plain heap heap' := by
  simp only [setEntryArgs, Option.bind_eq_bind, Option.bind_eq_some_iff] at h
  obtain ⟨⟨_, h₁⟩, hdisplay, ⟨_, h₂⟩, hscreen, ⟨_, h₃⟩, hctx, ⟨_, h₄⟩, hargs, h⟩ := h
  cases h
  have hdisplay : Heap.Plain heap h₁ := Heap.plain_alloc hdisplay rfl
  have hscreen : Heap.Plain h₁ h₂ := Heap.plain_alloc hscreen rfl
  have hctx : Heap.Plain h₂ h₃ := Heap.plain_alloc hctx rfl
  exact ((hdisplay.trans hscreen).trans hctx).trans (plain_buildArgs hargs)

/-- One thread, no channel, and nothing that has happened yet. -/
structure VmState.Pristine (vm : VmState) : Prop where
  heap : Heap.Plain Heap.new vm.heap
  queue : vm.threadQueue = []
  thread : vm.thread = 1
  pid : vm.currentPid = 1
  nextPid : vm.nextPid = 2
  halted : vm.halted = false
  blocked : vm.blockedChannel = none
  yielding : vm.yielding = false
  history : vm.history = [.spawned 1 vm.ctx]

theorem VmState.pristine_withArgs {modules : ModuleRegistry} {gcEnabled : Bool} {module : Module}
    {args : List String} {vm : VmState}
    (h : VmState.withArgs modules gcEnabled module args = some vm) : vm.Pristine := by
  simp only [VmState.withArgs, Option.bind_eq_bind, Option.bind_eq_some_iff] at h
  obtain ⟨⟨mp, h₁⟩, hmp, frameSize, _, h⟩ := h
  have hmp := plain_initMpWithTypes hmp
  split at h
  · simp only [Option.bind_eq_some_iff] at h
    obtain ⟨⟨frames, h₂⟩, hargs, h⟩ := h
    cases h
    exact ⟨hmp.trans (plain_setEntryArgs hargs), rfl, rfl, rfl, rfl, rfl, rfl, rfl, rfl⟩
  · cases h
    exact ⟨hmp, rfl, rfl, rfl, rfl, rfl, rfl, rfl, rfl⟩

end RiceVM
