import RiceVM.Collect
import RiceVM.RefCounts
import RiceVM.Programs
import RiceVM.Turns

/-!
Pointers in channels. A send copies the bytes of a pointer into the slot of the channel and a
receive copies them out; neither takes a reference, so the object lives as long as the
references that were counted before are not given up.
-/
namespace RiceVM
open Exec Ops

namespace Heap

/-- What a release sees of an object: whether it frees it, and what that releases in turn. -/
def view (h : Heap) (id : HeapId) : Option (Bool × List HeapId) :=
  (h.get id).map fun obj =>
    (decide (obj.refCount.toNat ≤ 1 ∧ ¬ obj.data.isPermanent), obj.data.childRefs)

/-- Giving up a reference to an object gives up one to `id`: directly, or because the object
goes with it and owns what leads to `id`. -/
inductive GivesUp (h : Heap) (id : HeapId) : HeapId → Prop
  | self : GivesUp h id id
  | child {old c : HeapId} {children : List HeapId} : h.view old = some (true, children) →
      c ∈ children → GivesUp h id c → GivesUp h id old

/-- A release of `old` gives up the last reference counted for `id`. -/
def GivesUpLast (h : Heap) (old id : HeapId) : Prop :=
  GivesUp h id old ∧ ∃ children, h.view id = some (true, children)

theorem isSome_view (h : Heap) (id : HeapId) : (h.view id).isSome = (h.get id).isSome :=
  Option.isSome_map

theorem view_of_get {h : Heap} {id : HeapId} {obj : HeapObject} (hget : h.get id = some obj) :
    h.view id = some (decide (obj.refCount.toNat ≤ 1 ∧ ¬ obj.data.isPermanent), obj.data.childRefs) := by
  rw [view, hget]
  rfl

theorem view_remove (h : Heap) (id i : HeapId) :
    (h.remove id).view i = if i = id then none else h.view i := by
  rw [view, get_remove]
  split
  · rfl
  · rfl

/-- A way to `id` that does not lead through a removed object is still there. -/
theorem GivesUp.of_remove {h : Heap} {gone id old : HeapId} (hg : GivesUp (h.remove gone) id old) :
    GivesUp h id old := by
  induction hg with
  | self => exact .self
  | child hview hmem _ ih =>
      rw [view_remove] at hview
      split at hview
      · cases hview
      · exact .child hview hmem ih

/-- A way to `id` avoids a removed object, or the rest of it from there on does. -/
theorem GivesUp.remove {h : Heap} {id old : HeapId} (gone : HeapId) (hg : GivesUp h id old) :
    GivesUp (h.remove gone) id old ∨
      ∃ children, h.view gone = some (true, children) ∧
        ∃ c ∈ children, GivesUp (h.remove gone) id c := by
  induction hg with
  | self => exact .inl .self
  | @child old c children hview hmem _ ih =>
      rcases ih with hc | hrest
      · by_cases heq : old = gone
        · rw [heq] at hview
          exact .inr ⟨children, hview, c, hmem, hc⟩
        · refine .inl (.child ?_ hmem hc)
          rw [view_remove, if_neg heq, hview]
      · exact .inr hrest

/-- The last reference to an object that is freed was given up unless it was another's. -/
theorem givesUpLast_remove {h : Heap} {id old : HeapId} {children : List HeapId}
    (hview : h.view old = some (true, children)) (hne : old ≠ id) :
    GivesUpLast h old id ↔ ∃ c ∈ children, GivesUpLast (h.remove old) c id := by
  have hsame : (h.remove old).view id = h.view id := by
    rw [view_remove, if_neg hne.symm]
  simp only [GivesUpLast, hsame]
  constructor
  · rintro ⟨hg, hlast⟩
    rcases hg.remove old with hleft | ⟨children', hview', c, hmem, hc⟩
    · cases hleft with
      | self => exact absurd rfl hne
      | child hnone _ _ =>
          rw [view_remove, if_pos rfl] at hnone
          cases hnone
    · rw [hview] at hview'
      cases hview'
      exact ⟨c, hmem, hc, hlast⟩
  · rintro ⟨c, hmem, hc, hlast⟩
    exact ⟨.child hview hmem hc.of_remove, hlast⟩

/-- A release of an object with other references, or of none at all, stops there. -/
theorem not_givesUpLast {h : Heap} {id old : HeapId}
    (hview : ∀ children, h.view old ≠ some (true, children)) : ¬ GivesUpLast h old id := by
  rintro ⟨hg, children, hlast⟩
  cases hg with
  | self => exact hview _ hlast
  | child hfreed _ _ => exact hview _ hfreed

/-- The release loop on one pending reference frees `id` just when that is the last one. -/
theorem isSome_decRefLoop {h : Heap} {id old : HeapId} {fuel : Nat} (hold : old ≠ nil)
    (hid : (h.get id).isSome) (hfuel : h.objects.entries.length < fuel) :
    ((h.decRefLoop fuel [old]).get id).isSome ↔ ¬ GivesUpLast h old id := by
  induction fuel generalizing h old with
  | zero => exact absurd hfuel (Nat.not_lt_zero _)
  | succ fuel ih =>
      have hget : h.get old = h.objects.lookup old := if_neg hold
      simp only [decRefLoop]
      split
      · next hnone =>
          rw [decRefLoop_nil]
          refine iff_of_true hid (not_givesUpLast fun children hview => ?_)
          rw [view, hget, hnone] at hview
          cases hview
      · next obj hobj =>
          have hview := view_of_get (hget.trans hobj)
          split
          · next hfree =>
              rw [decide_eq_true hfree] at hview
              have hlength := length_remove hobj
              rw [List.append_nil]
              by_cases heq : old = id
              · refine iff_of_false ?_ (not_not.mpr ⟨heq ▸ .self, _, heq ▸ hview⟩)
                have hchildren := obj.data.length_childRefs_le
                obtain ⟨released, _, hlookup⟩ :=
                  (cascade_decRefLoop (h.remove old) fuel obj.data.childRefs (by omega)).released
                rw [get, hlookup, lookup_remove, if_pos heq.symm]
                split <;> exact Bool.false_ne_true
              · rw [givesUpLast_remove hview heq]
                have hid' : ((h.remove old).get id).isSome := by
                  rw [get_remove, if_neg (Ne.symm heq)]
                  exact hid
                match hchildren : obj.data.childRefs with
                | [] =>
                    rw [decRefLoop_nil]
                    exact iff_of_true hid' fun ⟨c, hmem, _⟩ => List.not_mem_nil hmem
                | [c] =>
                    have hc : c ≠ nil := (HeapData.mem_childRefs (hchildren ▸ List.mem_singleton_self c)).1
                    rw [ih hc hid' (by omega)]
                    simp only [List.mem_singleton, exists_eq_left]
                | _ :: _ :: _ =>
                    have hle := obj.data.length_childRefs_le
                    rw [hchildren] at hle
                    simp at hle
          · next hkeep =>
              rw [decide_eq_false hkeep] at hview
              rw [decRefLoop_nil]
              refine iff_of_true ?_ (not_givesUpLast fun children hlast => ?_)
              · rw [get_update]
                split
                · rw [Option.isSome_map]
                  exact hid
                · exact hid
              · rw [hview] at hlast
                cases hlast

/-- A release keeps `id` unless it gives up its last reference. -/
theorem isSome_decRef (h : Heap) (id old : HeapId) :
    ((h.decRef old).get id).isSome ↔ (h.get id).isSome ∧ ¬ GivesUpLast h old id := by
  by_cases hold : old = nil
  · rw [decRef, if_pos hold]
    refine (and_iff_left (not_givesUpLast fun children hview => ?_)).symm
    rw [view, get, if_pos hold] at hview
    cases hview
  · cases hid : h.get id with
    | none =>
        obtain ⟨released, _, hget⟩ := decRef_released (h := h) hold
        rw [hget, hid]
        exact iff_of_false Bool.false_ne_true fun hnone => Bool.false_ne_true hnone.1
    | some obj =>
        rw [decRef, if_neg hold]
        exact (isSome_decRefLoop hold (by rw [hid]; rfl) (Nat.lt_succ_self _)).trans
          (and_iff_right rfl).symm

theorem data_decRef {h : Heap} {id old : HeapId} {obj : HeapObject}
    (hget : (h.decRef old).get id = some obj) :
    ∃ obj₀, h.get id = some obj₀ ∧ obj.data = obj₀.data := by
  by_cases hold : old = nil
  · rw [decRef, if_pos hold] at hget
    exact ⟨obj, hget, rfl⟩
  · obtain ⟨released, _, hrelease⟩ := decRef_released (h := h) hold
    rw [hrelease] at hget
    obtain ⟨obj₀, hobj₀, hkept⟩ := Option.bind_eq_some_iff.mp hget
    refine ⟨obj₀, hobj₀, ?_⟩
    unfold HeapObject.release at hkept
    split at hkept
    · cases hkept
    · cases hkept
      rfl

/-- Objects keep their references: none goes, and none changes what its release does. -/
structure SameRefs (h h' : Heap) : Prop where
  view : ∀ i, h'.view i = h.view i
  refs : ∀ i, h'.refs i = h.refs i
  nextId : h'.nextId = h.nextId

theorem SameRefs.refl (h : Heap) : SameRefs h h := ⟨fun _ => rfl, fun _ => rfl, rfl⟩

theorem SameRefs.trans {h h' h'' : Heap} (a : SameRefs h h') (b : SameRefs h' h'') :
    SameRefs h h'' :=
  ⟨fun i => (b.view i).trans (a.view i), fun i => (b.refs i).trans (a.refs i),
    b.nextId.trans a.nextId⟩

theorem sameRefs_update {h : Heap} {id : HeapId} {f : HeapObject → HeapObject}
    (hf : ∀ obj, (f obj).refCount = obj.refCount ∧ (f obj).data.childRefs = obj.data.childRefs ∧
      (f obj).data.isPermanent = obj.data.isPermanent) : SameRefs h (h.update id f) := by
  refine ⟨fun i => ?_, fun i => ?_, nextId_update h id f⟩
  · rw [view, view, get_update]
    split
    · cases h.get i with
      | none => rfl
      | some obj =>
          obtain ⟨hcount, hchildren, hperm⟩ := hf obj
          simp only [Option.map_some, hcount, hchildren, hperm]
    · rfl
  · rw [refs, refs, get_update]
    split
    · cases h.get i with
      | none => rfl
      | some obj => exact congrArg BitVec.toNat (hf obj).1
    · rfl

theorem sameRefs_setBuffer {h : Heap} {id : HeapId} (data : List Byte) :
    SameRefs h (h.update id fun obj => { obj with data := obj.data.setBuffer data }) := by
  refine sameRefs_update fun obj => ⟨rfl, ?_⟩
  obtain ⟨_, _, _, d⟩ := obj
  cases d <;> exact ⟨rfl, rfl⟩

theorem sameRefs_setPending (h : Heap) (c : HeapId) (pending : Option (List Byte)) :
    SameRefs h (h.setPending c pending) := by
  refine sameRefs_update fun obj => ?_
  obtain ⟨_, _, _, d⟩ := obj
  cases d <;> exact ⟨rfl, rfl, rfl⟩

theorem sameRefs_heapWrite (h : Heap) (id : HeapId) (offset : Nat) (bytes : List Byte) :
    SameRefs h (h.heapWrite id offset bytes) := by
  unfold heapWrite
  generalize h.objects.entries.length + 1 = fuel
  induction fuel generalizing id offset with
  | zero => exact .refl h
  | succ fuel ih =>
      simp only [heapWriteLoop]
      split
      · exact .refl h
      · split
        · exact ih _ _
        iterate 3
          split
          · exact sameRefs_setBuffer _
          · exact .refl h
        · exact .refl h

theorem sameRefs_arrayWrite (h : Heap) (id : HeapId) (offset : Nat) (bytes : List Byte) :
    SameRefs h (h.arrayWrite id offset bytes) := by
  unfold arrayWrite
  generalize h.objects.entries.length + 1 = fuel
  induction fuel generalizing id offset with
  | zero => exact .refl h
  | succ fuel ih =>
      simp only [arrayWriteLoop]
      split
      · exact .refl h
      · split
        · exact ih _ _
        · exact sameRefs_setBuffer _
        · exact .refl h

/-- No object goes, no id is given out again and no count changes. -/
structure Stays (h h' : Heap) : Prop where
  isSome : ∀ i < h.nextId, (h'.get i).isSome = (h.get i).isSome
  refs : ∀ i < h.nextId, h'.refs i = h.refs i
  nextId : h.nextId ≤ h'.nextId

theorem SameRefs.stays {h h' : Heap} (a : SameRefs h h') : Stays h h' := by
  refine ⟨fun i _ => ?_, fun i _ => a.refs i, a.nextId ▸ BitVec.le_refl _⟩
  rw [← isSome_view, ← isSome_view, a.view]

theorem stays_alloc {h h' : Heap} {typeId : BitVec 32} {data : HeapData}
    {trace : Option TraceMap} {id : HeapId} (ha : h.alloc typeId data trace = some (id, h')) :
    Stays h h' := by
  obtain ⟨rfl, hlt, hget⟩ := alloc_cases ha
  have hsame : ∀ i < h.nextId, h'.get i = h.get i := fun i hi => by
    rw [hget, if_neg fun heq => BitVec.lt_irrefl _ (heq ▸ hi)]
  refine ⟨fun i hi => congrArg _ (hsame i hi), fun i hi => ?_, BitVec.le_of_lt hlt⟩
  rw [refs, refs, hsame i hi]

end Heap

open Heap

/-- The address lies in no object. -/
def AddrTarget.OffHeap (target : AddrTarget) : Prop := ∀ id offset, target ≠ .heapArray id offset

theorem heap_modifyBuffer (vm : VmState) (target : AddrTarget) (f : List Byte → Nat → List Byte) :
    (vm.modifyBuffer target f).heap = vm.heap := by
  cases target with
  | moduleMp moduleIdx offset =>
      simp only [VmState.modifyBuffer, VmState.modifyModuleMp]
      repeat' split
      all_goals rfl
  | _ => rfl

theorem sameRefs_writeAddrBytes {target : AddrTarget} {data : List Byte} {s t : VmState}
    (h : writeAddrBytes target data s = .ok () t) : SameRefs s.heap t.heap := by
  cases target with
  | immediate => cases h
  | heapArray id offset =>
      cases h
      refine (sameRefs_arrayWrite _ _ _ _).trans (sameRefs_update fun obj => ?_)
      split
      · next hdata =>
          rw [hdata]
          exact ⟨rfl, rfl, rfl⟩
      · exact ⟨rfl, rfl, rfl⟩
  | none | frame | mp | moduleMp =>
      cases h
      exact (heap_modifyBuffer s _ _).symm ▸ .refl _

/-- A pointer move takes a reference, stores the pointer and gives up the old reference. -/
theorem movePtrToDst_cases {newId : HeapId} {s t : VmState} (h : movePtrToDst newId s = .ok () t) :
    ∃ u, writeWordAt s.dst newId { s with heap := s.heap.addRef newId } = .ok () u ∧
      t = { u with heap := u.heap.decRef (s.readWordAt s.dst s.immDst) } := by
  simp only [movePtrToDst, setDstPtr, setDstWord, modifyHeap] at h
  obtain ⟨_, _, hold, h⟩ := bind_eq_ok.mp h
  cases hold
  obtain ⟨_, v, hinc, h⟩ := bind_eq_ok.mp h
  obtain ⟨heap, htaken, rfl⟩ := tryHeap_eq_ok hinc
  obtain ⟨-, rfl⟩ := Heap.incRef_eq_some.mp htaken
  obtain ⟨_, u, hstore, h⟩ := bind_eq_ok.mp h
  cases h
  obtain ⟨_, _, hget, hwrite⟩ := bind_eq_ok.mp hstore
  cases hget
  exact ⟨u, hwrite, rfl⟩

/-- A pointer that was moved had room for one more reference. -/
theorem movePtrToDst_taken {newId : HeapId} {s t : VmState} (h : movePtrToDst newId s = .ok () t) :
    s.heap.incRef newId = some (s.heap.addRef newId) := by
  obtain ⟨_, _, hold, h⟩ := bind_eq_ok.mp h
  cases hold
  obtain ⟨_, v, hinc, -⟩ := bind_eq_ok.mp h
  obtain ⟨heap, htaken, -⟩ := tryHeap_eq_ok hinc
  rw [htaken, (Heap.incRef_eq_some.mp htaken).2]

/-- Raising an exception allocates its text and touches no other object. -/
theorem raiseException_heap {msg : String} {s t : VmState} (h : raiseException msg s = .ok () t) :
    ∃ id, s.heap.alloc 0 (.str msg) none = some (id, t.heap) := by
  have hpop (frameBase fuel : Nat) (u : VmState) :
      wp (popTo frameBase fuel) (fun _ v => v.heap = u.heap) (fun _ _ => True) u := by
    induction fuel generalizing u with
    | zero => trivial
    | succ fuel ih =>
        simp only [popTo, wp_bind, wp_get]
        refine wp_ite (fun _ => ?_) fun _ => rfl
        rw [wp_bind]
        exact wp_ofExcept (fun p _ => ih _) fun _ _ => trivial
  have hraise : wp (raiseException msg) (fun _ v => ∃ id, s.heap.alloc 0 (.str msg) none = some (id, v.heap))
      (fun _ _ => True) s := by
    simp only [raiseException, RiceVM.alloc, allocTyped, raiseExceptionWithValue, wp_bind, wp_get]
    refine wp_unwrap fun p hp => ?_
    simp only [wp_set, wp_pure]
    split
    · rw [wp_bind]
      refine wp_mono (hpop _ _ _) (fun _ v hv => ⟨p.1, ?_⟩) fun _ _ h => h
      change s.heap.alloc 0 (.str msg) none = some (p.1, v.heap)
      rw [hv]
      exact hp
    · trivial
  exact wp_ok hraise h

/-- A send counts nothing: it leaves every object and every count as they are, and what it puts
into an empty slot is a copy of the bytes. -/
theorem opSend_heap {s t : VmState} (h : opSend s = .ok () t) :
    Stays s.heap t.heap ∧
      ∀ elemSize, channelRef s (s.readWordAt s.dst s.immDst) = .ok (elemSize, none) →
        t.heap.chan (s.readWordAt s.dst s.immDst) =
          some (elemSize, some (readAddrBytes s s.src s.immSrc elemSize)) := by
  unfold opSend at h
  obtain ⟨chanId, _, hchan, h⟩ := bind_eq_ok.mp h
  cases hchan
  obtain ⟨_, _, hget, h⟩ := bind_eq_ok.mp h
  cases hget
  cases hch : channelRef s (s.readWordAt s.dst s.immDst) with
  | error e =>
      rw [hch] at h
      obtain ⟨_, halloc⟩ := raiseException_heap h
      refine ⟨stays_alloc halloc, fun elemSize hempty => ?_⟩
      cases hempty
  | ok ch =>
      obtain ⟨elemSize, pending⟩ := ch
      rw [hch] at h
      cases pending with
      | none =>
          cases h
          refine ⟨(sameRefs_setPending _ _ _).stays, fun size hempty => ?_⟩
          cases hempty
          have hslot := (channelRef_ok hch).2
          have hput := chan_setPending s.heap (s.readWordAt s.dst s.immDst)
            (s.readWordAt s.dst s.immDst) (some (readAddrBytes s s.src s.immSrc elemSize))
          rw [if_pos rfl, hslot] at hput
          exact hput
      | some data =>
          cases h
          refine ⟨(SameRefs.refl _).stays, fun size hempty => ?_⟩
          cases hempty

/-- A receive counts nothing either. -/
theorem stays_opRecv {s t : VmState} (h : opRecv s = .ok () t) : Stays s.heap t.heap := by
  unfold opRecv at h
  obtain ⟨chanId, _, hchan, h⟩ := bind_eq_ok.mp h
  cases hchan
  obtain ⟨_, _, hget, h⟩ := bind_eq_ok.mp h
  cases hget
  cases hch : channelRef s (s.readWordAt s.src s.immSrc) with
  | error e =>
      rw [hch] at h
      obtain ⟨_, halloc⟩ := raiseException_heap h
      exact stays_alloc halloc
  | ok ch =>
      obtain ⟨elemSize, pending⟩ := ch
      rw [hch] at h
      cases pending with
      | none =>
          cases h
          exact (SameRefs.refl _).stays
      | some data =>
          obtain ⟨_, u, htake, hwrite⟩ := bind_eq_ok.mp h
          cases htake
          exact ((sameRefs_setPending _ _ _).trans (sameRefs_writeAddrBytes hwrite)).stays

/-- What is left of the object has its contents. -/
def Heap.SameContents (id : HeapId) (h h' : Heap) : Prop :=
  ∀ obj, h'.get id = some obj → ∃ obj₀, h.get id = some obj₀ ∧ obj.data = obj₀.data

theorem Heap.SameContents.refl (id : HeapId) (h : Heap) : SameContents id h h :=
  fun obj hobj => ⟨obj, hobj, rfl⟩

theorem Heap.SameContents.trans {id : HeapId} {h h' h'' : Heap} (a : SameContents id h h')
    (b : SameContents id h' h'') : SameContents id h h'' := by
  intro obj hobj
  obtain ⟨obj', hobj', hsame'⟩ := b obj hobj
  obtain ⟨obj₀, hobj₀, hsame⟩ := a obj' hobj'
  exact ⟨obj₀, hobj₀, hsame'.trans hsame⟩

theorem sameContents_update {h : Heap} {id i : HeapId} {f : HeapObject → HeapObject}
    (hf : i = id → ∀ obj, (f obj).data = obj.data) : SameContents id h (h.update i f) := by
  intro obj hobj
  rw [get_update] at hobj
  split at hobj
  · next heq =>
      obtain ⟨obj₀, hobj₀, rfl⟩ := Option.map_eq_some_iff.mp hobj
      exact ⟨obj₀, hobj₀, hf heq.symm obj₀⟩
  · exact ⟨obj, hobj, rfl⟩

namespace Heap.Act

/-- The act does not take the object away: a release does not give up the last reference counted
for it, and a collection marks it or does not free its kind. -/
def Spares (id : HeapId) : Act → Heap → Prop
  | .release old, h => ¬ GivesUpLast h old id
  | .sweep marked, h => ∀ obj, h.get id = some obj → marked id = true ∨ obj.data.isPermanent = true
  | .acquire _, _ | .new .., _ | .store .., _ => True

/-- The act stores into the object. -/
def Writes (id : HeapId) : Act → Prop
  | .store i _ => i = id
  | .acquire _ | .release _ | .new .. | .sweep _ => False

variable {a : Act} {h h' : Heap} {id : HeapId}

/-- One act: the object is there afterwards if it was before and was spared. -/
theorem step_isSome (hstep : a.Step h h') (hid : id < h.nextId) :
    h.nextId ≤ h'.nextId ∧ ((h'.get id).isSome ↔ (h.get id).isSome ∧ a.Spares id h) := by
  have hupdate (i : HeapId) (f : HeapObject → HeapObject) :
      ((h.update i f).get id).isSome = (h.get id).isSome := by
    rw [get_update]
    split
    · exact Option.isSome_map
    · rfl
  cases a with
  | acquire i =>
      have hstep : h' = h.addRef i := hstep
      rw [hstep, addRef]
      split
      · exact ⟨BitVec.le_refl _, (and_iff_left trivial).symm⟩
      · refine ⟨(nextId_update h i _) ▸ BitVec.le_refl _, ?_⟩
        rw [hupdate]
        exact (and_iff_left trivial).symm
  | release old =>
      have hstep : h' = h.decRef old := hstep
      rw [hstep]
      exact ⟨(plain_decRef h old).nextId, isSome_decRef _ _ _⟩
  | new typeId data trace =>
      obtain ⟨_, ha⟩ := hstep
      have hs := stays_alloc ha
      exact ⟨hs.nextId, by rw [hs.isSome id hid]; exact (and_iff_left trivial).symm⟩
  | store i f =>
      obtain ⟨_, rfl⟩ := hstep
      refine ⟨(nextId_update h i f) ▸ BitVec.le_refl _, ?_⟩
      rw [hupdate]
      exact (and_iff_left trivial).symm
  | sweep marked =>
      have hstep : h' = h.sweep marked := hstep
      rw [hstep]
      refine ⟨(plain_sweep h marked).nextId, ?_⟩
      simp only [Option.isSome_iff_exists, get_sweep_some, Bool.or_eq_true, Spares]
      constructor
      · rintro ⟨obj, hget, hkept⟩
        refine ⟨⟨obj, hget⟩, fun obj' hget' => ?_⟩
        rw [hget] at hget'
        cases hget'
        exact hkept
      · rintro ⟨⟨obj, hget⟩, hkept⟩
        exact ⟨obj, hget, hkept obj hget⟩

theorem step_contents (hstep : a.Step h h') (hid : id < h.nextId) (hwrites : ¬ a.Writes id) :
    SameContents id h h' := by
  cases a with
  | acquire i =>
      have hstep : h' = h.addRef i := hstep
      rw [hstep, addRef]
      split
      · exact .refl id h
      · exact sameContents_update fun _ _ => rfl
  | release old =>
      have hstep : h' = h.decRef old := hstep
      rw [hstep]
      exact fun obj hobj => data_decRef hobj
  | new typeId data trace =>
      obtain ⟨i, ha⟩ := hstep
      obtain ⟨rfl, _, hget⟩ := alloc_cases ha
      intro obj hobj
      rw [hget, if_neg fun heq => BitVec.lt_irrefl _ (heq ▸ hid)] at hobj
      exact ⟨obj, hobj, rfl⟩
  | store i f =>
      obtain ⟨_, rfl⟩ := hstep
      exact sameContents_update fun heq => absurd heq hwrites
  | sweep marked =>
      have hstep : h' = h.sweep marked := hstep
      intro obj hobj
      rw [hstep, get_sweep_some] at hobj
      exact ⟨obj, hobj.1, rfl⟩

end Heap.Act

theorem Heap.Run.isSome_iff {h h' : Heap} {acts : List (Heap × Act)} {id : HeapId}
    (hrun : Run h acts h') (hid : id < h.nextId) :
    (h'.get id).isSome ↔ (h.get id).isSome ∧ ∀ p ∈ acts, p.2.Spares id p.1 := by
  induction hrun with
  | nil h => simp only [List.not_mem_nil, false_implies, implies_true, and_true]
  | cons hstep _ ih =>
      obtain ⟨hnext, hiff⟩ := Act.step_isSome hstep hid
      rw [ih (Nat.lt_of_lt_of_le hid hnext), hiff, List.forall_mem_cons, and_assoc]

theorem Heap.Run.contents {h h' : Heap} {acts : List (Heap × Act)} {id : HeapId}
    (hrun : Run h acts h') (hid : id < h.nextId) (hwrites : ∀ p ∈ acts, ¬ p.2.Writes id) :
    SameContents id h h' := by
  induction hrun with
  | nil h => exact .refl id h
  | cons hstep _ ih =>
      obtain ⟨hfirst, hrest⟩ := List.forall_mem_cons.mp hwrites
      have hnext := (Act.step_isSome hstep hid).1
      exact (Act.step_contents hstep hid hfirst).trans (ih (Nat.lt_of_lt_of_le hid hnext) hrest)

/-! The heap of a running machine is changed by such acts only. -/

theorem ran_setPending (h : Heap) (c : HeapId) (pending : Option (List Byte)) :
    Heap.Ran h (h.setPending c pending) := by
  refine Heap.Act.Step.ran (show Heap.Act.Step (.store c _) h _ from ⟨fun obj => ?_, rfl⟩)
  split <;> rfl

theorem heapRules :
    Rules (fun s t => Heap.Ran s.heap t.heap) (fun s t _ => Heap.Ran s.heap t.heap) where
  trans _ _ _ := .trans
  work _ _ w := w.heap.ran
  call s _ w moduleIdx _ _ hu huw := (hu.heap.ran.trans huw).trans
    (work_leaveModule (VmState.saveCaller s moduleIdx) moduleIdx w).heap.ran
  fresh s typeId _ trace id heap ha :=
    Heap.Act.Step.ran (show Heap.Act.Step (.new typeId _ trace) s.heap heap from ⟨id, ha⟩)
  put _ _ _ _ _ := ran_setPending _ _ _
  take _ _ _ _ _ := ran_setPending _ _ _
  inject _ _ _ := ran_setPending _ _ _
  spawn _ _ _ _ _ _ hplain := hplain.ran
  nested _ _ := .refl _
  handOff _ _ _ _ _ _ _ _ _ h := h
  sliceDone _ := .refl _
  sliceEnd _ _ := .refl _
  sliceStep _ _ _ _ _ _ hstep hrest := hstep.trans hrest
  sliceFault _ _ _ _ hstep := hstep
  sliceBlock _ _ _ _ _ hbegun _ := hbegun.heap ▸ .refl _

theorem TurnResult.ran {q : Nat} {s t : VmState} {r : Option Nat}
    (h : TurnResult (fun s t => Heap.Ran s.heap t.heap) q s r t) : Heap.Ran s.heap t.heap := by
  have hresume : ∀ {v w : VmState}, Resumes v w → w.heap = v.heap := by
    intro v w hr
    cases hr with
    | load _ _ _ => rfl
  cases h with
  | finished entry _ _ => exact .refl _
  | exited entry _ hr => exact hresume hr ▸ .refl _
  | fell _ _ => exact .refl _
  | wentOn _ _ hw _ ht _ _ =>
      obtain ⟨u, hu, _, _, rfl⟩ := hw
      exact Heap.Ran.trans hu ht.heap.ran
  | rotated _ _ hw _ hv ht _ _ =>
      obtain ⟨u, hu, _, _, rfl⟩ := hw
      exact (Heap.Ran.trans hu (hresume hv ▸ .refl _)).trans ht.heap.ran
  | blocked _ _ hw hr =>
      obtain ⟨u, hbegun, _, _, rfl⟩ := hw
      rw [hresume hr, show (u.stopped.park _).heap = u.heap from rfl, hbegun.heap]
      exact .refl _

theorem ran_of_turns {s t : VmState × Nat} (hs : Reachable s)
    (h : Relation.ReflTransGen Turn s t) : Reachable t ∧ Heap.Ran s.1.heap t.1.heap := by
  induction h with
  | refl => exact ⟨hs, .refl _⟩
  | tail _ hturn ih =>
      obtain ⟨hreach, hran⟩ := ih
      obtain ⟨env, fuel, hrun⟩ := id hturn
      have hblocked := (heapRules.invariant (I := fun _ => True) (fun _ _ => trivial)
        (fun _ _ _ => trivial) hreach).1
      have hresult := wp_ok (heapRules.runIter_spec env fuel _ _) hrun hblocked
      exact ⟨.turn hreach hturn, hran.trans hresult.ran⟩

/-- A thread that sends a pointer twice and drops its own, and another that drops what it
receives first. -/
def sendTwice : Module :=
  .ofCode "m" [
    ⟨.newcp, .unused, .unused, .mp 0⟩,
    ⟨.frame, .imm 0, .unused, .fp 48⟩,
    ⟨.spawn, .fp 48, .unused, .imm 8⟩,
    ⟨.new, .imm 0, .unused, .fp 52⟩,
    ⟨.send, .fp 52, .unused, .mp 0⟩,
    ⟨.send, .fp 52, .unused, .mp 0⟩,
    ⟨.movp, .imm 0, .unused, .fp 52⟩,
    ⟨.exit, .unused, .unused, .unused⟩,
    ⟨.recv, .mp 0, .unused, .fp 40⟩,
    ⟨.movp, .imm 0, .unused, .fp 40⟩,
    ⟨.recv, .mp 0, .unused, .fp 44⟩,
    ⟨.exit, .unused, .unused, .unused⟩] 4

theorem turns_of_runTurns {env : Env} {fuel n : Nat} {s t : VmState × Nat}
    (h : runTurns env fuel n s = some t) : Relation.ReflTransGen Turn s t := by
  induction n generalizing s with
  | zero =>
      cases h
      exact .refl
  | succ n ih =>
      unfold runTurns at h
      split at h
      · next quantum vm hrun => exact .head ⟨env, fuel, hrun⟩ (ih h)
      · cases h

/-- A pointer is in the channel, and three turns later it was received and one of its two counted
references is given up. -/
theorem first_received : (sendTwice.after .bare 1 5).any (fun s =>
    decide (s.1.heap.chan 0x10000005 = some (4, some [6, 0, 0, 0x10])) &&
      (s.1.heap.get 0x10000006).isSome &&
      (runTurns .bare 1 3 s).any fun t =>
        decide (t.1.heap.chan 0x10000005 = some (4, none)) && (t.1.heap.get 0x10000006).isSome) =
    true := by decide +kernel

end RiceVM
