import RiceVM.Ops.Strings
import RiceVM.BlockMoves

/-!
Variables that hold objects by value. The slots of a frame name objects that they may share. As
long as every reference is counted, storing in one slot and releasing what it held leaves what
the others hold as it is.
-/
namespace RiceVM
open Exec Memory Ops

namespace Heap

/-- The references of a pointer: none where it is nil. -/
def refTo (id : HeapId) : Multiset HeapId := if id = nil then 0 else {id}

/-- What was there is still there and says the same. -/
def Grows (h h' : Heap) : Prop :=
  ∀ i obj, h.get i = some obj → ∃ obj', h'.get i = some obj' ∧ obj'.data = obj.data

variable {h h' h'' : Heap} {id p : HeapId} {held : Multiset HeapId}

theorem get_nil (h : Heap) : h.get nil = none := by rw [get, if_pos rfl]

theorem Grows.trans (a : Grows h h') (b : Grows h' h'') : Grows h h'' := by
  intro i obj hobj
  obtain ⟨obj', hobj', hdata⟩ := a i obj hobj
  obtain ⟨obj'', hobj'', hdata'⟩ := b i obj' hobj'
  exact ⟨obj'', hobj'', hdata'.trans hdata⟩

theorem grows_addRef (h : Heap) (id : HeapId) : Grows h (h.addRef id) := by
  intro i obj hobj
  rw [get_addRef, hobj]
  split
  · exact ⟨_, rfl, rfl⟩
  · exact ⟨obj, rfl, rfl⟩

theorem grows_addRefs (h : Heap) (ids : List HeapId) : Grows h (ids.foldl addRef h) := by
  induction ids generalizing h with
  | nil => exact fun i obj hobj => ⟨obj, hobj, rfl⟩
  | cons id ids ih => exact (grows_addRef h id).trans (ih _)

theorem grows_alloc {typeId : BitVec 32} {data : HeapData} {trace : Option TraceMap}
    (ha : h.alloc typeId data trace = some (id, h')) : Grows h h' := by
  obtain ⟨rfl, -, hget⟩ := alloc_cases ha
  intro i obj hobj
  have hne : i ≠ h.nextId := by
    rintro rfl
    rw [get_nextId] at hobj
    cases hobj
  exact ⟨obj, by rw [hget, if_neg hne, hobj], rfl⟩

/-! ### Counts -/

theorem Covered.addRefs (hc : Covered h held) {ids : List HeapId} (hroom : h.RefsLeft ids) :
    Covered (ids.foldl Heap.addRef h) held := by
  intro i
  rw [owned_addRefs]
  refine Nat.le_trans (hc i) ?_
  by_cases hi : (h.get i).isSome
  · rw [refs_addRefs hroom hi]
    exact Nat.le_add_right _ _
  · rw [Option.not_isSome_iff_eq_none] at hi
    rw [refs, hi]
    exact Nat.zero_le _

theorem Covered.acquirePtr (hc : Covered h held) (hid : id = nil ∨ (h.get id).isSome)
    (htaken : h.incRef id = some h') : Covered h' (refTo id + held) := by
  by_cases hnil : id = nil
  · obtain ⟨-, rfl⟩ := incRef_eq_some.mp htaken
    rw [refTo, if_pos hnil, zero_add, addRef, if_pos hnil]
    exact hc
  · rw [refTo, if_neg hnil, Multiset.singleton_add]
    exact hc.acquire (hid.resolve_left hnil) htaken

theorem Covered.releasePtr (hc : Covered h (refTo id + held)) : Covered (h.decRef id) held := by
  by_cases hnil : id = nil
  · rw [refTo, if_pos hnil, zero_add] at hc
    rw [decRef, if_pos hnil]
    exact hc
  · rw [refTo, if_neg hnil, Multiset.singleton_add] at hc
    exact hc.release

/-- A new object takes the references of its data over, and is held once itself. -/
theorem Covered.allocPtr {typeId : BitVec 32} {data : HeapData} {trace : Option TraceMap}
    (hc : Covered h (↑data.childRefs + held)) (ha : h.alloc typeId data trace = some (id, h')) :
    Covered h' (refTo id + held) := by
  have hthere := (alloc_cases ha).2.2 id
  rw [(alloc_cases ha).1, if_pos rfl, ← (alloc_cases ha).1] at hthere
  have hnil : id ≠ nil := by
    rintro rfl
    rw [get_nil] at hthere
    cases hthere
  rw [refTo, if_neg hnil, Multiset.singleton_add]
  exact hc.alloc ha

theorem Covered.alive (hc : Covered h (refTo id + held)) : id = nil ∨ (h.get id).isSome := by
  by_cases hnil : id = nil
  · exact .inl hnil
  · refine .inr (hc.isSome (.inr ?_))
    rw [refTo, if_neg hnil, Multiset.singleton_add]
    exact Multiset.mem_cons_self _ _

end Heap

/-! ### Slots -/

/-- A word stored in the frame, with another heap. -/
def VmState.storeSlot (vm : VmState) (heap : Heap) (d : Nat) (id : HeapId) : VmState :=
  { vm with heap := heap, frames := { vm.frames with data := writeWord vm.frames.data d id } }

/-- The references of the pointers in some slots of a frame. -/
def pointers (data : List Byte) (slots : Multiset Nat) : Multiset HeapId :=
  slots.bind fun a => Heap.refTo (readWord data a)

variable {α : Type} {vm vm' : VmState} {slots : Finset Nat} {a b : Nat} {id : HeapId}

theorem readWordAt_frame (vm : VmState) (imm : Word) (a : Nat) :
    vm.readWordAt (.frame a) imm = readWord vm.frames.data a := rfl

theorem srcPtr_slot (hsrc : vm.src = .frame a) : srcPtr vm = .ok (readWord vm.frames.data a) vm := by
  change Res.ok (vm.readWordAt vm.src vm.immSrc) vm = _
  rw [hsrc]
  rfl

theorem dstPtr_slot (hdst : vm.dst = .frame a) : dstPtr vm = .ok (readWord vm.frames.data a) vm := by
  change Res.ok (vm.readWordAt vm.dst vm.immDst) vm = _
  rw [hdst]
  rfl

theorem setDstPtr_slot (hdst : vm.dst = .frame b) (heap : Heap) (id : HeapId) :
    setDstPtr id { vm with heap } = .ok () (vm.storeSlot heap b id) := by
  have hdst : ({ vm with heap } : VmState).dst = .frame b := hdst
  exact setDstPtr_frame hdst id

theorem pointers_of_mem (data : List Byte) (ha : a ∈ slots) :
    pointers data slots.val =
      Heap.refTo (readWord data a) + pointers data (slots.erase a).val := by
  rw [pointers, ← Finset.insert_erase ha, Finset.insert_val_of_notMem (Finset.notMem_erase a slots),
    Multiset.cons_bind, Finset.erase_insert (Finset.notMem_erase a slots)]
  rfl

/-- What an object says goes by what it and the objects it names say. -/
structure Readable (R : Heap → HeapId → α → Prop) : Prop where
  grows : ∀ {h h' : Heap} {id : HeapId} {x : α}, R h id x → h.Grows h' → R h' id x
  release : ∀ {h : Heap} {p id : HeapId} {held : Multiset HeapId} {x : α}, R h id x →
    (h.decRef p).Covered held → (id = nil ∨ ((h.decRef p).get id).isSome) → R (h.decRef p) id x

/-- Some slots of the frame stack, and the value that each holds. -/
structure SlotsHold (R : Heap → HeapId → α → Prop) (slots : Finset Nat) (vm : VmState)
    (values : Nat → α) : Prop where
  inside : ∀ a ∈ slots, a + 4 ≤ vm.frames.data.length
  apart : ∀ a ∈ slots, ∀ b ∈ slots, a ≠ b → a + 4 ≤ b ∨ b + 4 ≤ a
  reads : ∀ a ∈ slots, R vm.heap (readWord vm.frames.data a) (values a)
  counted : vm.heap.Covered (pointers vm.frames.data slots.val)

namespace SlotsHold

variable {R : Heap → HeapId → α → Prop} {values : Nat → α} {x : α}

theorem others (h : SlotsHold R slots vm values) (hb : b ∈ slots) (id : HeapId) (ha : a ∈ slots)
    (hne : a ≠ b) : readWord (writeWord vm.frames.data b id) a = readWord vm.frames.data a := by
  have hapart := h.apart a ha b hb hne
  exact readWord_writeWord_disjoint id (by omega)

/-- What a slot holds is there, or it is nil. -/
theorem alive (h : SlotsHold R slots vm values) (ha : a ∈ slots) :
    readWord vm.frames.data a = nil ∨ (vm.heap.get (readWord vm.frames.data a)).isSome := by
  have hcounted := h.counted
  rw [pointers_of_mem _ ha] at hcounted
  exact hcounted.alive

/-- The pointers after one of them is replaced. -/
theorem pointers_store (h : SlotsHold R slots vm values) (hb : b ∈ slots) (id : HeapId) :
    pointers (writeWord vm.frames.data b id) slots.val =
      Heap.refTo id + pointers vm.frames.data (slots.erase b).val := by
  rw [pointers_of_mem _ hb, readWord_writeWord_self id (h.inside b hb)]
  refine congrArg _ (Multiset.bind_congr fun a ha => ?_)
  have ha := Finset.mem_erase.mp ha
  rw [h.others hb id ha.2 ha.1]

/-- A slot takes a value and the others keep theirs, whatever became of the heap. -/
theorem replace (h : SlotsHold R slots vm values) (hb : b ∈ slots) {heap : Heap}
    (hid : R heap id x)
    (hothers : ∀ a ∈ slots, a ≠ b → R heap (readWord vm.frames.data a) (values a))
    (hcounted : heap.Covered (Heap.refTo id + pointers vm.frames.data (slots.erase b).val)) :
    SlotsHold R slots (vm.storeSlot heap b id) (Function.update values b x) := by
  refine ⟨?_, h.apart, fun a ha => ?_, ?_⟩
  · intro a ha
    rw [VmState.storeSlot, length_writeWord]
    exact h.inside a ha
  · change R heap (readWord (writeWord vm.frames.data b id) a) _
    by_cases hab : a = b
    · subst hab
      rw [readWord_writeWord_self id (h.inside a ha), Function.update_self]
      exact hid
    · rw [h.others hb id ha hab, Function.update_of_ne hab]
      exact hothers a ha hab
  · change heap.Covered (pointers (writeWord vm.frames.data b id) slots.val)
    rw [h.pointers_store hb]
    exact hcounted

/-- A slot takes a value that is already counted, and its old one is released. -/
theorem store (h : SlotsHold R slots vm values) (hR : Readable R) (hb : b ∈ slots) {heap : Heap}
    (hgrows : vm.heap.Grows heap) (hid : R heap id x)
    (hcounted : heap.Covered (Heap.refTo id + pointers vm.frames.data slots.val)) :
    SlotsHold R slots (vm.storeSlot (heap.decRef (readWord vm.frames.data b)) b id)
      (Function.update values b x) := by
  rw [pointers_of_mem vm.frames.data hb, add_left_comm] at hcounted
  have hcovered := hcounted.releasePtr
  refine h.replace hb (hR.release hid hcovered hcovered.alive) (fun a ha hab => ?_) hcovered
  refine hR.release (hR.grows (h.reads a ha) hgrows) hcovered ?_
  rw [pointers_of_mem _ (Finset.mem_erase.mpr ⟨hab, ha⟩), add_left_comm] at hcovered
  exact hcovered.alive

/-- A slot takes a value that is there. -/
theorem move (h : SlotsHold R slots vm values) (hR : Readable R) (hdst : vm.dst = .frame b)
    (hb : b ∈ slots) (hid : R vm.heap id x) (halive : id = nil ∨ (vm.heap.get id).isSome)
    (hrun : movePtrToDst id vm = .ok () vm') :
    SlotsHold R slots vm' (Function.update values b x) := by
  obtain ⟨u, hwrite, rfl⟩ := movePtrToDst_cases hrun
  cases hwrite.symm.trans (setDstPtr_slot hdst (vm.heap.addRef id) id)
  have hold : vm.readWordAt vm.dst vm.immDst = readWord vm.frames.data b := by
    rw [hdst]
    rfl
  rw [hold]
  have hgrows := Heap.grows_addRef vm.heap id
  exact h.store hR hb hgrows (hR.grows hid hgrows)
    (h.counted.acquirePtr halive (movePtrToDst_taken hrun))

theorem copy (h : SlotsHold R slots vm values) (hR : Readable R) (hsrc : vm.src = .frame a)
    (ha : a ∈ slots) (hdst : vm.dst = .frame b) (hb : b ∈ slots)
    (hrun : opMovp vm = .ok () vm') : SlotsHold R slots vm' (Function.update values b (values a)) := by
  unfold opMovp at hrun
  rw [bind_ok (srcPtr_slot hsrc)] at hrun
  exact h.move hR hdst hb (h.reads a ha) (h.alive ha) hrun

theorem clear (h : SlotsHold R slots vm values) (hR : Readable R) (hx : R vm.heap nil x)
    (hsrc : vm.readWordAt vm.src vm.immSrc = nil) (hdst : vm.dst = .frame b) (hb : b ∈ slots)
    (hrun : opMovp vm = .ok () vm') : SlotsHold R slots vm' (Function.update values b x) := by
  have hread : srcPtr vm = .ok nil vm := congrArg (Res.ok · vm) hsrc
  unfold opMovp at hrun
  rw [bind_ok hread] at hrun
  exact h.move hR hdst hb hx (.inl rfl) hrun

/-- Another state with the same heap and the same words in the slots. -/
theorem congr (h : SlotsHold R slots vm values) (hheap : vm'.heap = vm.heap)
    (hlength : vm'.frames.data.length = vm.frames.data.length)
    (hwords : ∀ a ∈ slots, readWord vm'.frames.data a = readWord vm.frames.data a) :
    SlotsHold R slots vm' values := by
  refine ⟨fun a ha => ?_, h.apart, fun a ha => ?_, ?_⟩
  · rw [hlength]
    exact h.inside a ha
  · rw [hheap, hwords a ha]
    exact h.reads a ha
  · have hsame := Multiset.bind_congr fun a ha =>
      congrArg Heap.refTo (hwords a (Finset.mem_val.mp ha))
    rw [hheap, pointers, hsame]
    exact h.counted

end SlotsHold

end RiceVM
