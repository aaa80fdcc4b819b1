import RiceVM.Loader.Decode
import RiceVM.HeapIds
import RiceVM.Ops.Data

/-!
Starting the modules the loader accepts. Sizes come from the file as signed words and the host
takes them as lengths: the loader checks the sign of its counts, not of the size of the module
data nor of the sizes of types.
-/
namespace RiceVM
open Exec Memory

/-- Heap ids left for objects to come. -/
def Heap.room (h : Heap) : Nat := 2 ^ 32 - 1 - h.nextId.toNat

theorem Heap.room_update (h : Heap) (id : HeapId) (f : HeapObject → HeapObject) :
    (h.update id f).room = h.room := by
  rw [room, nextId_update, room]

theorem Heap.alloc_isSome {h : Heap} (typeId : BitVec 32) (data : HeapData)
    (trace : Option TraceMap) (hroom : 0 < h.room) :
    ∃ id h', h.alloc typeId data trace = some (id, h') ∧ h'.room + 1 = h.room := by
  unfold Heap.room at hroom ⊢
  have hnext : (h.nextId + 1).toNat = h.nextId.toNat + 1 := by
    rw [BitVec.toNat_add]
    change (h.nextId.toNat + 1) % 2 ^ 32 = _
    omega
  have hlt : h.nextId < h.nextId + 1 := by
    rw [BitVec.lt_def, hnext]
    omega
  unfold Heap.alloc
  rw [dif_pos hlt]
  refine ⟨_, _, rfl, ?_⟩
  rw [hnext]
  omega

namespace Data

theorem room_setActiveBuffer (s : Init) (buf : List Byte) :
    (setActiveBuffer s buf).heap.room = s.heap.room := by
  unfold setActiveBuffer
  split
  · exact Heap.room_update _ _ _
  · rfl

theorem putObject_isSome {s : Init} (off : Nat) (typeId : BitVec 32) (data : HeapData)
    (hroom : 0 < s.heap.room) :
    ∃ t, putObject off typeId data s = some t ∧ s.heap.room ≤ t.heap.room + 1 := by
  obtain ⟨id, heap, ha, hheap⟩ := Heap.alloc_isSome typeId data none hroom
  refine ⟨setActiveBuffer { s with heap := heap }
    (writeWord (activeBuffer { s with heap := heap }) off id), ?_, ?_⟩
  · simp only [putObject, ha, Option.bind_eq_bind, Option.bind_some]
    rfl
  · rw [room_setActiveBuffer]
    exact Nat.le_of_eq hheap.symm

/-- An item takes at most one heap id, and never fails while there is one. -/
theorem initItem_isSome (types : List TypeDescriptor) (item : DataItem) {s : Init}
    (hroom : 0 < s.heap.room) :
    ∃ t, initItem types item s = some t ∧ s.heap.room ≤ t.heap.room + 1 := by
  have skip : ∃ t, some s = some t ∧ s.heap.room ≤ t.heap.room + 1 := ⟨s, rfl, Nat.le_succ _⟩
  cases item with
  | bytes offset values | words offset values | bigs offset values | reals offset values =>
      refine ⟨_, rfl, ?_⟩
      unfold putElements
      split
      · rw [room_setActiveBuffer]
        exact Nat.le_succ _
      · exact Nat.le_succ _
  | string offset value =>
      simp only [initItem]
      split
      · split
        · exact putObject_isSome _ _ _ hroom
        · exact skip
      · exact skip
  | array offset elementType length =>
      simp only [initItem]
      split
      · split
        · split
          · exact putObject_isSome _ _ _ hroom
          · exact skip
        · exact skip
      · exact skip
  | setArray offset index =>
      simp only [initItem]
      split
      · refine ⟨_, rfl, ?_⟩
        split <;> exact Nat.le_succ _
      · exact skip
  | restoreBase => exact ⟨_, rfl, Nat.le_succ _⟩

theorem initItems_isSome (types : List TypeDescriptor) (items : List DataItem) {s : Init}
    (hroom : items.length ≤ s.heap.room) :
    ∃ t, initItems types items s = some t ∧ s.heap.room ≤ t.heap.room + items.length := by
  induction items generalizing s with
  | nil => exact ⟨s, rfl, Nat.le_refl _⟩
  | cons item items ih =>
      rw [List.length_cons] at hroom ⊢
      obtain ⟨u, hu, hlast⟩ := initItem_isSome types item (by omega : 0 < s.heap.room)
      obtain ⟨t, ht, hrest⟩ := ih (s := u) (by omega)
      refine ⟨t, ?_, by omega⟩
      simp only [initItems, hu, Option.bind_eq_bind, Option.bind_some, ht]

end Data

theorem buildArgs_isSome (args : List String) (heap : Heap) (hroom : 2 * args.length ≤ heap.room) :
    ∃ id heap', buildArgs args heap = some (id, heap') ∧
      heap.room ≤ heap'.room + 2 * args.length ∧ heap'.refs id ≤ 1 := by
  induction args with
  | nil => exact ⟨_, _, rfl, Nat.le_refl _, Nat.zero_le 1⟩
  | cons arg args ih =>
      rw [List.length_cons] at hroom ⊢
      obtain ⟨tail, h₁, htail, hroom₁, hrefs⟩ := ih (by omega)
      obtain ⟨strId, h₂, hstr, hroom₂⟩ := Heap.alloc_isSome (h := h₁) 0 (.str arg) none (by omega)
      have hinc : (h₂.addRef tail).room = h₂.room := by
        unfold Heap.addRef
        split
        · rfl
        · exact Heap.room_update _ _ _
      obtain ⟨id, h₃, hnode, hroom₃⟩ := Heap.alloc_isSome (h := h₂.addRef tail) 0
        (.list (writeWord (List.replicate 4 0) 0 strId) tail) none (by omega)
      have htaken : h₂.incRef tail = some (h₂.addRef tail) := by
        refine Heap.incRef_eq_some.mpr ⟨?_, rfl⟩
        have hone := Heap.refs_alloc hstr tail
        simp only [Heap.maxRefs]
        split at hone <;> omega
      refine ⟨id, h₃, ?_, by omega, Nat.le_of_eq (Heap.refs_of_alloc hnode)⟩
      simp only [buildArgs, htail, hstr, htaken, Option.bind_eq_bind, Option.bind_some, hnode]

theorem setEntryArgs_isSome (frames : FrameStack) (heap : Heap) (args : List String)
    (hroom : 2 * args.length + 3 ≤ heap.room) : (setEntryArgs frames heap args).isSome := by
  obtain ⟨displayId, h₁, hdisplay, hroom₁⟩ :=
    Heap.alloc_isSome (h := heap) 0 (.record (List.replicate 32 0)) none (by omega)
  obtain ⟨screenId, h₂, hscreen, hroom₂⟩ :=
    Heap.alloc_isSome (h := h₁) 0 (.record (List.replicate 16 0)) none (by omega)
  obtain ⟨ctxId, h₃, hctx, hroom₃⟩ := Heap.alloc_isSome (h := h₂) 0
    (.record (writeWord (writeWord (List.replicate 16 0) 0 displayId) 4 screenId)) none (by omega)
  obtain ⟨argsList, h₄, hargs, -, -⟩ := buildArgs_isSome args h₃ (by omega)
  simp only [setEntryArgs, hdisplay, hscreen, hctx, hargs, Option.bind_eq_bind, Option.bind_some]
  rfl

/-- Objects that starting a module asks the heap for, at most. -/
def startObjects (m : Module) (args : List String) : Nat :=
  m.data.length + 2 * (args.length + 1) + 3

/-- The sizes of the module data and of every type are lengths. -/
structure Module.SizesOk (m : Module) : Prop where
  data : m.header.dataSize.msb = false
  types : ∀ td ∈ m.types, td.size.msb = false

theorem entryFrameSize_isSome {m : Module} (h : m.SizesOk) : ∃ size, entryFrameSize m = some size := by
  unfold entryFrameSize
  split
  · split
    · next td htd =>
        rw [Word.toUsize?, if_neg (by rw [h.types td (List.mem_of_getElem? htd)]; decide)]
        exact ⟨_, rfl⟩
    · exact ⟨_, rfl⟩
  · exact ⟨_, rfl⟩

theorem withArgs_isSome {m : Module} (h : m.SizesOk) (modules : ModuleRegistry) (gcEnabled : Bool)
    (args : List String) (hroom : startObjects m args ≤ Heap.new.room) :
    (VmState.withArgs modules gcEnabled m args).isSome := by
  unfold startObjects at hroom
  have hsize : m.header.dataSize.toUsize? = some m.header.dataSize.toNat := by
    rw [Word.toUsize?, if_neg (by rw [h.data]; decide)]
  obtain ⟨s, hs, hleft⟩ := Data.initItems_isSome m.types m.data
    (s := ⟨List.replicate m.header.dataSize.toNat 0, Heap.new, []⟩) (by dsimp only; omega)
  dsimp only at hleft
  obtain ⟨frameSize, hframe⟩ := entryFrameSize_isSome h
  simp only [VmState.withArgs, initMpWithTypes, hsize, hs, hframe, Option.bind_eq_bind,
    Option.bind_some, Option.pure_def]
  split
  · obtain ⟨⟨frames, heap⟩, hargs⟩ := Option.isSome_iff_exists.mp
      (setEntryArgs_isSome (FrameStack.new.pushEntry frameSize (-1)) s.heap
        (m.name :: args) (by rw [List.length_cons]; omega))
    rw [hargs]
    rfl
  · rfl

/-! What a program does with the types of the module it executes. -/

theorem ends_setDstWord (val : Word) (vm : VmState) : Ends (setDstWord val) (fun _ _ => True) vm := by
  refine Ends.get_bind ?_
  unfold writeWordAt writeAt
  split
  · exact Ends.throw _
  · exact Ends.modify trivial
  · exact Ends.modify trivial

theorem ends_movePtrToDst {id : HeapId} {vm : VmState} (hcount : vm.heap.refs id ≤ 1) :
    Ends (movePtrToDst id) (fun _ _ => True) vm := by
  have htaken : tryHeap (·.incRef id) vm = .ok () { vm with heap := vm.heap.addRef id } := by
    refine tryHeap_apply (Heap.incRef_eq_some.mpr ⟨?_, rfl⟩)
    simp only [Heap.maxRefs]
    omega
  refine Ends.bind (m := dstPtr) (Q := fun _ t => t = vm) rfl fun _ u hu => ?_
  subst hu
  refine Ends.andThen (m := tryHeap (·.incRef id)) (by rw [Ends, htaken]; trivial) fun _ u => ?_
  refine Ends.andThen (ends_setDstWord id u) fun _ _ => ?_
  exact Ends.modify trivial

theorem ends_allocTyped {vm : VmState} (typeId : BitVec 32) (data : HeapData)
    (trace : Option TraceMap) (hroom : 0 < vm.heap.room) :
    Ends (allocTyped typeId data trace) (fun id t => t.heap.refs id ≤ 1) vm := by
  obtain ⟨id, heap, ha, _⟩ := Heap.alloc_isSome typeId data trace hroom
  have hrun : allocTyped typeId data trace vm = .ok id { vm with heap := heap } := by
    simp only [allocTyped, bind_apply, get_apply, ha, unwrap_some, set_apply, pure_apply]
  rw [Ends, hrun]
  exact Nat.le_of_eq (Heap.refs_of_alloc ha)

theorem ends_raiseException {vm : VmState} (msg : String) (hroom : 0 < vm.heap.room) :
    Ends (raiseException msg) (fun _ _ => True) vm :=
  (ends_allocTyped 0 _ none hroom).bind fun strId _ _ => ends_raiseExceptionWithValue msg strId _

/-- A buffer of a type's size is one the host can allocate when the size is not negative. -/
theorem asUsize_le_maxAlloc_iff (size : Word) : size.asUsize ≤ maxAlloc ↔ size.msb = false := by
  unfold maxAlloc
  have hlt := size.isLt
  cases hmsb : size.msb with
  | false =>
      rw [Word.asUsize_of_msb_false hmsb]
      simp only [iff_true]
      omega
  | true =>
      have hbig : size.asUsize = size.toNat + (2 ^ 64 - 2 ^ 32) := by
        rw [Word.asUsize, BitVec.toNat_signExtend, hmsb, if_pos rfl, BitVec.toNat_setWidth]
        omega
      simp only [reduceCtorEq, iff_false]
      omega

/-- The machine executes code of a module and its heap has an id left. -/
structure VmState.Allocates (vm : VmState) (m : Module) : Prop where
  executes : vm.moduleAt vm.currentLoadedModule = some m
  room : 0 < vm.heap.room

theorem currentTypeSize_of_executes {vm : VmState} {m : Module}
    (h : vm.moduleAt vm.currentLoadedModule = some m) (typeIdx : Nat) :
    vm.currentTypeSize typeIdx = (m.types[typeIdx]?).map (·.size.asUsize) := by
  simp only [VmState.currentTypeSize, VmState.currentType, h, Option.bind_eq_bind, Option.bind_some]

theorem ends_opNew {vm : VmState} {m : Module} (hvm : vm.Allocates m)
    (htypes : ∀ td ∈ m.types, td.size.msb = false) : Ends Ops.opNew (fun _ _ => True) vm := by
  refine Ends.get_bind (Ends.get_bind ?_)
  refine Ends.bind (Ends.ofOption (Q := fun size t => size ≤ maxAlloc ∧ t = vm)
    fun size hsize => ⟨?_, rfl⟩) fun size t ht => ?_
  · rw [currentTypeSize_of_executes hvm.executes, Option.map_eq_some_iff] at hsize
    obtain ⟨td, htd, rfl⟩ := hsize
    exact (asUsize_le_maxAlloc_iff _).mpr (htypes td (List.mem_of_getElem? htd))
  · obtain ⟨hsize, rfl⟩ := ht
    refine Ends.bind (Ends.unwrap (Q := fun _ u => u = t) (if_pos hsize) rfl) fun _ u hu => ?_
    subst hu
    exact (ends_allocTyped _ _ _ hvm.room).bind fun _ _ hid => ends_movePtrToDst hid

/-- An array larger than the machine allows is an exception, whatever its element type. -/
theorem ends_opNewa {vm : VmState} {m : Module} (hvm : vm.Allocates m) :
    Ends Ops.opNewa (fun _ _ => True) vm := by
  refine Ends.get_bind ?_
  split
  · exact ends_raiseException _ hvm.room
  · refine Ends.get_bind (Ends.get_bind ?_)
    refine Ends.bind (Ends.ofOption (Q := fun _ t => t = vm) fun _ _ => rfl) fun elemSize t ht => ?_
    subst ht
    split
    · exact (ends_allocTyped _ _ _ hvm.room).bind fun _ _ hid => ends_movePtrToDst hid
    · exact ends_raiseException _ hvm.room

/-- A frame larger than the frame stack is an error, whatever its type. -/
theorem ends_opFrame (vm : VmState) : Ends Ops.opFrame (fun _ _ => True) vm := by
  refine Ends.get_bind (Ends.get_bind ?_)
  refine Ends.andThen (Ends.ofOption fun _ _ => trivial) fun _ _ => ?_
  refine Ends.andThen (Ends.ofExcept fun _ _ => trivial) fun ⟨off, frames⟩ _ => ?_
  exact Ends.andThen (Ends.set trivial) fun _ _ => ends_setDstWord _ _

/-- A module can be started and its types allocated: no buffer that is asked for is larger than
the host can allocate, the machine starts while there are heap ids, and the instructions that
allocate by a type end whatever state they are executed in. -/
structure Instantiable (m : Module) : Prop where
  data : m.header.dataSize.asUsize ≤ maxAlloc
  starts : ∀ modules gcEnabled args, startObjects m args ≤ Heap.new.room →
    (VmState.withArgs modules gcEnabled m args).isSome
  new : ∀ vm : VmState, vm.Allocates m → Ends Ops.opNew (fun _ _ => True) vm
  newa : ∀ vm : VmState, vm.Allocates m → Ends Ops.opNewa (fun _ _ => True) vm
  frame : ∀ vm : VmState, vm.Allocates m → Ends Ops.opFrame (fun _ _ => True) vm

/-- A machine with an empty heap about to allocate a record of a type of its module. -/
def VmState.allocating (m : Module) (typeIdx : Word) : VmState where
  module := m
  mp := []
  frames := FrameStack.new
  heap := Heap.new
  modules := []
  loadedModules := []
  pc := 0
  nextPc := 0
  halted := false
  gcEnabled := false
  gcCounter := 0
  currentLoadedModule := none
  src := .immediate
  mid := .none
  dst := .none
  immSrc := typeIdx
  immMid := 0
  immDst := 0
  lastError := ""
  callerMpStack := []
  heapRefs := []
  blockedChannel := none
  unwindFloor := 0
  threadQueue := []
  currentPid := 1
  nextPid := 2
  waitRecords := []
  yielding := false
  thread := 1
  history := []

theorem allocates_allocating (m : Module) (typeIdx : Word) :
    (VmState.allocating m typeIdx).Allocates m where
  executes := rfl
  room := by
    change 0 < Heap.new.room
    decide

theorem opNew_negative {m : Module} {i : Nat} {td : TypeDescriptor} (htd : m.types[i]? = some td)
    (hi : i < 2 ^ 31) (hsize : td.size.msb = true) :
    Ops.opNew (VmState.allocating m (Word.ofUsize i)) = .panic := by
  have hsrc : srcWord (VmState.allocating m (Word.ofUsize i)) =
      .ok (Word.ofUsize i) (VmState.allocating m (Word.ofUsize i)) := rfl
  have htype : (VmState.allocating m (Word.ofUsize i)).currentTypeSize i = some td.size.asUsize := by
    rw [currentTypeSize_of_executes (m := m) rfl, htd, Option.map_some]
  have hzeroed : zeroed td.size.asUsize = none := by
    refine if_neg fun h => ?_
    rw [asUsize_le_maxAlloc_iff, hsize] at h
    cases h
  unfold Ops.opNew
  rw [bind_ok hsrc, bind_ok (get_apply _)]
  simp only [Word.asUsize_ofUsize hi, htype, ofOption]
  rw [bind_ok (pure_apply _ _), hzeroed]
  rfl

theorem Loader.length_parseTypes {count : Word} {input rest : List Byte} {tds : List TypeDescriptor}
    (h : parseTypes count input = .ok tds rest) : tds.length < 2 ^ 31 := by
  obtain ⟨n, _, hn, h⟩ := bind_eq_ok.mp h
  rw [length_times h]
  unfold checkedCount Word.toUsize? at hn
  cases hmsb : count.msb with
  | true => rw [hmsb] at hn; cases hn
  | false =>
      rw [hmsb] at hn
      cases hn
      have := BitVec.msb_eq_false_iff_two_mul_lt.mp hmsb
      omega

theorem length_types_of_load {bytes : List Byte} {m : Module} (h : load bytes = some (.ok m)) :
    m.types.length < 2 ^ 31 := by
  unfold load at h
  split at h
  · cases h
  · cases hparse : Loader.parseModule bytes with
    | ok module rest =>
        rw [hparse] at h
        cases h
        obtain ⟨header, _, _, hparse⟩ := bind_eq_ok.mp hparse
        obtain ⟨code, _, _, hparse⟩ := bind_eq_ok.mp hparse
        obtain ⟨types, _, htypes, hparse⟩ := bind_eq_ok.mp hparse
        obtain ⟨data, _, _, hparse⟩ := bind_eq_ok.mp hparse
        obtain ⟨name, _, _, hparse⟩ := bind_eq_ok.mp hparse
        obtain ⟨exports, _, _, hparse⟩ := bind_eq_ok.mp hparse
        obtain ⟨imports, _, _, hparse⟩ := bind_eq_ok.mp hparse
        obtain ⟨handlers, _, _, hparse⟩ := bind_eq_ok.mp hparse
        obtain ⟨_, _, _, hparse⟩ := bind_eq_ok.mp hparse
        cases hparse
        exact Loader.length_parseTypes htypes
    | error e rest => rw [hparse] at h; cases h
    | panic | diverge => rw [hparse] at h; cases h

/-- A file the loader accepts can be instantiated exactly when the sizes it declares for the
module data and for its types are not negative. The loader does not check either. -/
theorem load_instantiable_iff {bytes : List Byte} {m : Module} (h : load bytes = some (.ok m)) :
    Instantiable m ↔ m.SizesOk := by
  constructor
  · intro hm
    refine ⟨(asUsize_le_maxAlloc_iff _).mp hm.data, fun td htd => ?_⟩
    obtain ⟨i, hi, hget⟩ := List.mem_iff_getElem.mp htd
    have hlength := length_types_of_load h
    cases hsize : td.size.msb with
    | false => rfl
    | true =>
        have hpanic := opNew_negative (by rw [List.getElem?_eq_getElem hi, hget]) (by omega) hsize
        have hends := hm.new _ (allocates_allocating m (Word.ofUsize i))
        rw [Ends, hpanic] at hends
        exact hends.elim
  · intro hm
    exact {
      data := (asUsize_le_maxAlloc_iff _).mpr hm.data
      starts := withArgs_isSome hm
      new := fun vm hvm => ends_opNew hvm hm.types
      newa := fun vm hvm => ends_opNewa hvm
      frame := fun vm _ => ends_opFrame vm }

/-- A module with a type of eight bytes and as much data. -/
def sizedModule : List Byte :=
  [0xC0, 0x0C, 0x80, 0x30, 0, 0, 0, 8, 1, 0, 0x7F, 0x7F, 0, 8, 0, 0, 0]

theorem load_instantiable_iff_sizedModule : ∃ m, load sizedModule = some (.ok m) ∧
    m.types.map (·.size) = [8] ∧ (Instantiable m ↔ m.SizesOk) :=
  ⟨_, rfl, rfl, @load_instantiable_iff sizedModule _ rfl⟩

/-- A module whose data has the size -1. -/
def negativeData : List Byte := [0xC0, 0x0C, 0x80, 0x30, 0, 0, 0, 0x7F, 0, 0, 0x7F, 0x7F, 0, 0]

/-- A module whose only type has the size -1. -/
def negativeType : List Byte :=
  [0xC0, 0x0C, 0x80, 0x30, 0, 0, 0, 0, 1, 0, 0x7F, 0x7F, 0, 0x7F, 0, 0, 0]

/-- The loader accepts both modules. The first cannot be started, and the first record of the
second's type ends the host. -/
theorem negative_sizes_accepted :
    (∃ m, load negativeData = some (.ok m) ∧
      ∀ modules gcEnabled args, VmState.withArgs modules gcEnabled m args = none) ∧
    ∃ m, load negativeType = some (.ok m) ∧ ¬ Instantiable m ∧
      Ops.opNew (VmState.allocating m 0) = .panic := by
  obtain ⟨m, hload, td, htd, hsize⟩ : ∃ m, load negativeType = some (.ok m) ∧
      ∃ td, m.types[0]? = some td ∧ td.size.msb = true := ⟨_, rfl, _, rfl, rfl⟩
  have hpanic : Ops.opNew (VmState.allocating m 0) = .panic := opNew_negative htd (by decide) hsize
  refine ⟨⟨_, rfl, fun _ _ _ => rfl⟩, m, hload, fun h => ?_, hpanic⟩
  have hends := h.new (VmState.allocating m 0) (allocates_allocating m 0)
  rw [Ends, hpanic] at hends
  exact hends

end RiceVM
