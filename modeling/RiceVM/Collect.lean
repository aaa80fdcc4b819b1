import RiceVM.Gc
import RiceVM.RefCounts
import RiceVM.Lib.Reach

/-!
What the collector keeps. `Reachable` says which objects the machine can still name,
from the roots through the pointers of each kind of object; the marked objects are
these and no others.
-/
namespace RiceVM.Gc
open Memory Exec

/-- A word-aligned value of a buffer. -/
def Holds (buf : List Byte) (id : HeapId) : Prop :=
  ∃ i, i < buf.length / 4 ∧ readWord buf (i * 4) = id

/-- The ids an object names, by its kind and, where it has one, its trace map. -/
def Names (obj : HeapObject) (id : HeapId) : Prop :=
  match obj.data with
  | .record data | .array _ _ data _ | .adt _ data =>
    match obj.trace with
    | some map => ∃ off ∈ map.pointerOffsets data.length, readWord data off = id
    | none => Holds data id
  | .list head tail => Holds head id ∨ id = tail
  | .arraySlice parentId .. => id = parentId
  | .channel _ (some pending) => Holds pending id
  | _ => False

/-- The ids the machine holds outside the heap. -/
inductive Root (vm : VmState) : HeapId → Prop
  | frames {id : HeapId} : Holds vm.frames.data id → Root vm id
  | mp {id : HeapId} : Holds vm.mp id → Root vm id
  | callerMp {e : Nat × List Byte} {id : HeapId} : e ∈ vm.callerMpStack → Holds e.2 id → Root vm id
  | loadedMp {lm : LoadedModule} {id : HeapId} : lm ∈ vm.loadedModules → Holds lm.mp id → Root vm id
  | heapRef {r : HeapId × Nat} : r ∈ vm.heapRefs → Root vm r.1
  | threadFrames {t : SuspendedThread} {id : HeapId} : t ∈ vm.threadQueue →
      Holds t.frames.data id → Root vm id
  | threadMp {t : SuspendedThread} {id : HeapId} : t ∈ vm.threadQueue → Holds t.mp id → Root vm id
  | threadCallerMp {t : SuspendedThread} {e : Nat × List Byte} {id : HeapId} :
      t ∈ vm.threadQueue → e ∈ t.callerMpStack → Holds e.2 id → Root vm id
  | threadHeapRef {t : SuspendedThread} {r : HeapId × Nat} : t ∈ vm.threadQueue →
      r ∈ t.heapRefs → Root vm r.1

/-- The live objects the machine can name. -/
inductive Reachable (vm : VmState) : HeapId → Prop
  | root {id : HeapId} : Root vm id → vm.heap.contains id → Reachable vm id
  | child {id id' : HeapId} {obj : HeapObject} : Reachable vm id → vm.heap.get id = some obj →
      Names obj id' → vm.heap.contains id' → Reachable vm id'

/-! The mark loop is the marking of a graph: its nodes are the ids, and nil is no node. -/

def children (heap : Heap) (id : HeapId) : List HeapId :=
  match heap.get id with
  | some obj => references heap obj
  | none => []

def isNil (id : HeapId) : Bool := id = nil

abbrev Reached (heap : Heap) : List HeapId → HeapId → Prop := Reach.Reached (children heap) isNil

theorem markLoop_eq (heap : Heap) (fuel : Nat) (worklist marked : List HeapId) :
    markLoop heap fuel worklist marked =
      Reach.markLoop (children heap) isNil fuel worklist marked := by
  induction fuel generalizing worklist marked with
  | zero => cases worklist <;> rfl
  | succ fuel ih =>
      cases worklist with
      | nil => rfl
      | cons id worklist =>
          simp only [markLoop, Reach.markLoop, isNil, decide_eq_true_eq, List.contains_iff_mem]
          split
          · exact ih worklist marked
          · cases hget : heap.get id with
            | none => simp only [children, hget, List.nil_append]; exact ih _ _
            | some obj => simp only [children, hget]; exact ih _ _

/-- The ids of the heap, among which every object with children is. -/
def nodes (heap : Heap) : Finset HeapId := (heap.objects.entries.map (·.1)).toFinset

theorem mem_nodes {heap : Heap} {id : HeapId} (h : children heap id ≠ []) : id ∈ nodes heap := by
  unfold children Heap.get at h
  split at h
  · next obj hget =>
      split at hget
      · cases hget
      · rw [nodes, List.mem_toFinset]
        exact AList.mem_keys.mp (AList.lookup_isSome.mp (by rw [hget]; rfl))
  · exact absurd rfl h

/-- `markAll` has fuel for every expansion. -/
theorem cost_lt (heap : Heap) (worklist marked : List HeapId) :
    Reach.cost (children heap) (nodes heap) worklist marked <
      worklist.length +
        (heap.objects.entries.map fun e => (references heap e.2).length).sum + 1 := by
  have hsub : ∑ id ∈ nodes heap with id ∉ marked, (children heap id).length ≤
      ∑ id ∈ nodes heap, (children heap id).length :=
    Finset.sum_le_sum_of_subset (Finset.filter_subset _ _)
  have hkeys : ∑ id ∈ nodes heap, (children heap id).length =
      ((heap.objects.entries.map (·.1)).map fun id => (children heap id).length).sum :=
    List.sum_toFinset _ heap.objects.nodupKeys
  have hentries : ((heap.objects.entries.map (·.1)).map fun id => (children heap id).length).sum ≤
      (heap.objects.entries.map fun e => (references heap e.2).length).sum := by
    rw [List.map_map]
    refine List.sum_le_sum fun e he => ?_
    have hlookup : heap.objects.lookup e.1 = some e.2 :=
      (List.mem_dlookup_iff heap.objects.nodupKeys).mpr he
    simp only [Function.comp, children, Heap.get, hlookup]
    split
    · next hget =>
        split at hget
        · cases hget
        · cases hget
          exact Nat.le_refl _
    · exact Nat.zero_le _
  simp only [Reach.cost]
  omega

/-- The marks are exactly what the roots so far reach. -/
def Marked (heap : Heap) (roots marked : List HeapId) : Prop :=
  ∀ id, id ∈ marked ↔ Reached heap roots id

theorem Marked.frontier {heap : Heap} {roots marked : List HeapId} (h : Marked heap roots marked)
    (work : List HeapId) : Reach.Frontier (children heap) isNil work marked :=
  fun _ ha b hb => .inl ((h b).mpr (((h _).mp ha).step hb))

theorem Marked.markAll {heap : Heap} {roots marked : List HeapId} (h : Marked heap roots marked)
    (work : List HeapId) : Marked heap (roots ++ work) (markAll heap marked work) := by
  intro id
  rw [Gc.markAll, markLoop_eq, Reach.mem_markLoop (fun _ => mem_nodes) (cost_lt heap work marked)
    (h.frontier work), h id]
  constructor
  · rintro (hr | hr)
    · exact hr.mono fun r hr => List.mem_append_left work hr
    · exact hr.mono fun r hr => List.mem_append_right roots hr
  · rintro ⟨r, hr, hrest⟩
    rcases List.mem_append.mp hr with hr | hr
    · exact .inl ⟨r, hr, hrest⟩
    · exact .inr ⟨r, hr, hrest⟩

/-- Marking several lists of roots one after the other marks what all of them reach. -/
theorem Marked.foldl {β : Type} {heap : Heap} {mark : List HeapId → β → List HeapId}
    {rootsOf : β → List HeapId}
    (hmark : ∀ b {roots marked}, Marked heap roots marked →
      Marked heap (roots ++ rootsOf b) (mark marked b)) (bs : List β) {roots marked : List HeapId}
    (h : Marked heap roots marked) :
    Marked heap (roots ++ bs.flatMap rootsOf) (bs.foldl mark marked) := by
  induction bs generalizing roots marked with
  | nil => rwa [List.flatMap_nil, List.append_nil]
  | cons b bs ih =>
      rw [List.flatMap_cons, ← List.append_assoc, List.foldl_cons]
      exact ih (hmark b h)

/-! The roots the collector scans are the roots of the machine. -/

theorem mem_collectIds {buf : List Byte} {heap : Heap} {id : HeapId} :
    id ∈ collectIds buf heap ↔ Holds buf id ∧ heap.contains id = true := by
  simp only [collectIds, List.mem_filter, List.mem_map, List.mem_range, Holds]

def threadRoots (heap : Heap) (t : SuspendedThread) : List HeapId :=
  (t.frames.data :: t.mp :: t.callerMpStack.map (·.2)).flatMap (collectIds · heap) ++
    t.heapRefs.map (·.1)

def roots (vm : VmState) : List HeapId :=
  (vm.frames.data :: vm.mp ::
    (vm.callerMpStack.map (·.2) ++ vm.loadedModules.map (·.mp))).flatMap (collectIds · vm.heap) ++
    vm.heapRefs.map (·.1) ++ vm.threadQueue.flatMap (threadRoots vm.heap)

theorem marked_scanBuffer {heap : Heap} (buf : List Byte) {roots marked : List HeapId}
    (h : Marked heap roots marked) :
    Marked heap (roots ++ collectIds buf heap) (scanBuffer heap marked buf) := h.markAll _

theorem marked_scanThread {heap : Heap} (t : SuspendedThread) {roots marked : List HeapId}
    (h : Marked heap roots marked) :
    Marked heap (roots ++ threadRoots heap t) (scanThread heap marked t) := by
  rw [threadRoots, ← List.append_assoc]
  exact Marked.markAll (Marked.foldl marked_scanBuffer _ h) _

theorem marked_marks (vm : VmState) : Marked vm.heap (roots vm) (marks vm) := by
  have hnone : Marked vm.heap [] [] := fun id => by
    refine iff_of_false List.not_mem_nil ?_
    rintro ⟨r, hr, _⟩
    exact absurd hr List.not_mem_nil
  have hbuffers := @Marked.foldl _ vm.heap _ _ marked_scanBuffer
    (vm.frames.data :: vm.mp :: (vm.callerMpStack.map (·.2) ++ vm.loadedModules.map (·.mp))) _ _
    hnone
  rw [List.nil_append] at hbuffers
  exact Marked.foldl marked_scanThread vm.threadQueue (hbuffers.markAll _)

theorem mem_roots {vm : VmState} {id : HeapId} (hid : vm.heap.contains id = true) :
    id ∈ roots vm ↔ Root vm id := by
  simp only [roots, threadRoots, List.mem_append, List.mem_flatMap, List.mem_cons, List.mem_map,
    mem_collectIds, hid, and_true]
  constructor
  · rintro ((⟨buf, hbuf, hholds⟩ | ⟨r, hr, rfl⟩) | ⟨t, ht, ⟨buf, hbuf, hholds⟩ | ⟨r, hr, rfl⟩⟩)
    · rcases hbuf with rfl | rfl | ⟨e, he, rfl⟩ | ⟨lm, hlm, rfl⟩
      · exact .frames hholds
      · exact .mp hholds
      · exact .callerMp he hholds
      · exact .loadedMp hlm hholds
    · exact .heapRef hr
    · rcases hbuf with rfl | rfl | ⟨e, he, rfl⟩
      · exact .threadFrames ht hholds
      · exact .threadMp ht hholds
      · exact .threadCallerMp ht he hholds
    · exact .threadHeapRef ht hr
  · intro h
    cases h with
    | frames h => exact .inl (.inl ⟨_, .inl rfl, h⟩)
    | mp h => exact .inl (.inl ⟨_, .inr (.inl rfl), h⟩)
    | callerMp he h => exact .inl (.inl ⟨_, .inr (.inr (.inl ⟨_, he, rfl⟩)), h⟩)
    | loadedMp hlm h => exact .inl (.inl ⟨_, .inr (.inr (.inr ⟨_, hlm, rfl⟩)), h⟩)
    | heapRef hr => exact .inl (.inr ⟨_, hr, rfl⟩)
    | threadFrames ht h => exact .inr ⟨_, ht, .inl ⟨_, .inl rfl, h⟩⟩
    | threadMp ht h => exact .inr ⟨_, ht, .inl ⟨_, .inr (.inl rfl), h⟩⟩
    | threadCallerMp ht he h => exact .inr ⟨_, ht, .inl ⟨_, .inr (.inr ⟨_, he, rfl⟩), h⟩⟩
    | threadHeapRef ht hr => exact .inr ⟨_, ht, .inr ⟨_, hr, rfl⟩⟩

theorem contains_iff {heap : Heap} {id : HeapId} :
    heap.contains id = true ↔ ∃ obj, heap.get id = some obj := by
  simp only [Heap.contains, Heap.get, Bool.and_eq_true, decide_eq_true_eq]
  by_cases hnil : id = nil
  · simp [hnil]
  · simp [hnil, Option.isSome_iff_exists]

theorem mem_references {heap : Heap} {obj : HeapObject} {id : HeapId}
    (hid : heap.contains id = true) : id ∈ references heap obj ↔ Names obj id := by
  obtain ⟨refCount, typeId, trace, data⟩ := obj
  cases data with
  | record data | array _ _ data _ | adt _ data =>
      cases trace with
      | none => simp only [references, Names, mem_collectIds, hid, and_true]
      | some map =>
          simp only [references, Names, collectMappedIds, List.mem_filter, List.mem_map, hid, and_true]
  | list head tail =>
      simp only [references, Names, List.mem_append, mem_collectIds, hid, and_true,
        List.mem_singleton]
  | arraySlice parentId => simp only [references, Names, List.mem_singleton]
  | channel elemSize pending =>
      cases pending with
      | none => simp only [references, Names, List.not_mem_nil]
      | some pending => simp only [references, Names, mem_collectIds, hid, and_true]
  | str _ | moduleRef _ _ | mainModule _ | loadedModule _ _ =>
      simp only [references, Names, List.not_mem_nil]

theorem isNil_of_contains {heap : Heap} {id : HeapId} (hid : heap.contains id = true) :
    isNil id = false := by
  simp only [Heap.contains, Bool.and_eq_true, decide_eq_true_eq] at hid
  exact decide_eq_false hid.1

theorem reached_iff {vm : VmState} {id : HeapId} (hid : vm.heap.contains id = true) :
    Reached vm.heap (roots vm) id ↔ Reachable vm id := by
  constructor
  · rintro ⟨r, hr, _, hpath⟩
    induction hpath with
    | refl => exact .root ((mem_roots hid).mp hr) hid
    | @tail a b _ hedge ih =>
        -- a node with a child is a live object
        obtain ⟨hchild, _⟩ := hedge
        unfold children at hchild
        split at hchild
        · next obj hget =>
            exact .child (ih (contains_iff.mpr ⟨obj, hget⟩)) hget ((mem_references hid).mp hchild) hid
        · exact absurd hchild List.not_mem_nil
  · intro h
    induction h with
    | root hroot hlive =>
        exact ⟨_, (mem_roots hlive).mpr hroot, isNil_of_contains hlive, .refl⟩
    | @child a b obj _ hget hnames hlive ih =>
        refine (ih (contains_iff.mpr ⟨obj, hget⟩)).step ⟨?_, isNil_of_contains hlive⟩
        rw [children, hget]
        exact (mem_references hlive).mpr hnames

theorem get_collect (vm : VmState) (id : HeapId) (obj : HeapObject) :
    (collect vm).get id = some obj ↔
      vm.heap.get id = some obj ∧ (obj.data.isPermanent = true ∨ Reachable vm id) := by
  unfold collect
  split
  · next hempty =>
      have hget : vm.heap.get id = none := by
        have hnil : vm.heap.objects.entries = [] := List.isEmpty_iff.mp hempty
        unfold Heap.get
        split
        · rfl
        · rw [AList.lookup, hnil]
          rfl
      rw [hget]
      simp only [reduceCtorEq, false_and]
  · rw [Heap.get_sweep_some]
    refine and_congr_right fun hget => ?_
    rw [Bool.or_eq_true, List.contains_iff_mem, marked_marks vm id,
      reached_iff (contains_iff.mpr ⟨obj, hget⟩), or_comm]

/-- A collection keeps the permanent and the reachable objects, with their contents, and
drops all others. Its mark loops end by themselves: more fuel marks nothing more. -/
theorem collect_keeps_reachable (vm : VmState) :
    (∀ id obj, (collect vm).get id = some obj ↔
      vm.heap.get id = some obj ∧ (obj.data.isPermanent = true ∨ Reachable vm id)) ∧
    ∀ (worklist marked : List HeapId) (more : Nat),
      markLoop vm.heap (worklist.length +
        (vm.heap.objects.entries.map fun e => (references vm.heap e.2).length).sum + 1 + more)
        worklist marked = markAll vm.heap marked worklist := by
  refine ⟨get_collect vm, fun worklist marked more => ?_⟩
  rw [markAll, markLoop_eq, markLoop_eq]
  exact Reach.markLoop_fuel (fun _ => mem_nodes) (cost_lt vm.heap worklist marked) more

end RiceVM.Gc
