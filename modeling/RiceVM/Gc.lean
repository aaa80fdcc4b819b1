import RiceVM.State

/-!
Mark and sweep. The roots are untyped and scanned word by word; an object
allocated against a type descriptor is traced by its pointer map.
-/
namespace RiceVM.Gc
open Memory Exec

/-- Every word-aligned value of a buffer that names a live object. -/
def collectIds (buf : List Byte) (heap : Heap) : List HeapId :=
  ((List.range (buf.length / 4)).map fun i => readWord buf (i * 4)).filter heap.contains

def collectMappedIds (buf : List Byte) (map : TraceMap) (heap : Heap) : List HeapId :=
  ((map.pointerOffsets buf.length).map fun off => readWord buf off).filter heap.contains

/-- The ids an object refers to. -/
def references (heap : Heap) (obj : HeapObject) : List HeapId :=
  match obj.data with
  | .record data | .array _ _ data _ | .adt _ data =>
    match obj.trace with
    | some map => collectMappedIds data map heap
    | none => collectIds data heap
  | .list head tail => collectIds head heap ++ [tail]
  | .arraySlice parentId .. => [parentId]
  | .channel _ (some pending) => collectIds pending heap
  | _ => []

/-- Mark what the worklist reaches; an object is expanded once, when it is first marked. -/
def markLoop (heap : Heap) : Nat → List HeapId → List HeapId → List HeapId
  | 0, _, marked | _, [], marked => marked
  | fuel + 1, id :: worklist, marked =>
    if id = nil ∨ marked.contains id then markLoop heap fuel worklist marked
    else
      match heap.get id with
      | none => markLoop heap fuel worklist (id :: marked)
      | some obj => markLoop heap fuel (references heap obj ++ worklist) (id :: marked)

def markAll (heap : Heap) (marked worklist : List HeapId) : List HeapId :=
  let expansions := (heap.objects.entries.map fun e => (references heap e.2).length).sum
  markLoop heap (worklist.length + expansions + 1) worklist marked

def scanBuffer (heap : Heap) (marked : List HeapId) (buf : List Byte) : List HeapId :=
  markAll heap marked (collectIds buf heap)

def scanHeapRefs (heap : Heap) (marked : List HeapId) (refs : List (HeapId × Nat)) :
    List HeapId :=
  markAll heap marked (refs.map (·.1))

def scanThread (heap : Heap) (marked : List HeapId) (t : SuspendedThread) : List HeapId :=
  let buffers := t.frames.data :: t.mp :: t.callerMpStack.map (·.2)
  scanHeapRefs heap (buffers.foldl (scanBuffer heap) marked) t.heapRefs

def marks (vm : VmState) : List HeapId :=
  let buffers := vm.frames.data :: vm.mp ::
    (vm.callerMpStack.map (·.2) ++ vm.loadedModules.map (·.mp))
  let marked := scanHeapRefs vm.heap (buffers.foldl (scanBuffer vm.heap) []) vm.heapRefs
  vm.threadQueue.foldl (scanThread vm.heap) marked

def collect (vm : VmState) : Heap :=
  if vm.heap.objects.entries.isEmpty then vm.heap
  else vm.heap.sweep fun id => (marks vm).contains id

theorem plain_collect (vm : VmState) : Heap.Plain vm.heap (collect vm) := by
  unfold collect
  split
  · exact .refl _
  · exact Heap.plain_sweep _ _

end RiceVM.Gc
