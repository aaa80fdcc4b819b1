import Mathlib.Algebra.Order.Group.Multiset
import Mathlib.Data.List.Flatten
import RiceVM.Heap

/-!
Reference counts against the references they count. `owned` collects what live lists
and slices name, `held` what is outstanding outside the heap; together they never
exceed the counts, so what a live object names is still there.
-/
namespace RiceVM

namespace Heap

/-- The references live objects own, one for each time an object names another. -/
def owned (h : Heap) : Multiset HeapId :=
  ↑(h.objects.entries.flatMap fun e => e.2.data.childRefs)

theorem entries_of_lookup {h : Heap} {id : HeapId} {obj : HeapObject}
    (hl : h.objects.lookup id = some obj) :
    h.objects.entries.Perm (⟨id, obj⟩ :: h.objects.entries.kerase id) := by
  have hmem : id ∈ h.objects := AList.lookup_isSome.mp (by rw [hl]; rfl)
  obtain ⟨obj', before, after, _, hentries, herase⟩ := List.exists_of_kerase hmem
  have hobj' : ⟨id, obj'⟩ ∈ h.objects.entries := by simp [hentries]
  have heq : obj' = obj := by
    have := AList.mem_lookup_iff.mpr hobj'
    rw [hl] at this
    exact (Option.some.inj this).symm
  rw [herase, hentries, heq]
  exact List.perm_middle

theorem owned_of_lookup {h : Heap} {id : HeapId} {obj : HeapObject}
    (hl : h.objects.lookup id = some obj) :
    h.owned = ↑obj.data.childRefs + (h.remove id).owned := by
  have hperm := (entries_of_lookup hl).flatMap_right fun e => e.2.data.childRefs
  rw [List.flatMap_cons] at hperm
  exact (Multiset.coe_eq_coe.mpr hperm).trans (Multiset.coe_add _ _).symm

theorem owned_update {h : Heap} {id : HeapId} {f : HeapObject → HeapObject}
    (hf : ∀ obj, h.objects.lookup id = some obj →
      (f obj).data.childRefs = obj.data.childRefs) : (h.update id f).owned = h.owned := by
  unfold update
  split
  · rfl
  · next obj hl =>
      rw [owned_of_lookup hl, ← hf obj hl]
      exact (Multiset.coe_add _ _).symm

theorem lookup_update (h : Heap) (id i : HeapId) (f : HeapObject → HeapObject) :
    (h.update id f).objects.lookup i =
      if i = id then (h.objects.lookup i).map f else h.objects.lookup i := by
  unfold update
  split
  · next hl =>
      split
      · next heq =>
          subst heq
          simp [hl]
      · rfl
  · next obj hl =>
      by_cases heq : i = id
      · subst heq
        simp [hl]
      · simp only [heq, if_false]
        exact AList.lookup_insert_ne heq

theorem lookup_remove (h : Heap) (id i : HeapId) :
    (h.remove id).objects.lookup i = if i = id then none else h.objects.lookup i := by
  by_cases heq : i = id
  · subst heq
    simp [remove]
  · simp only [heq, if_false]
    exact AList.lookup_erase_ne heq

theorem length_remove {h : Heap} {id : HeapId} {obj : HeapObject}
    (hl : h.objects.lookup id = some obj) :
    (h.remove id).objects.entries.length + 1 = h.objects.entries.length :=
  (entries_of_lookup hl).length_eq.symm

theorem length_update (h : Heap) (id : HeapId) (f : HeapObject → HeapObject) :
    (h.update id f).objects.entries.length = h.objects.entries.length := by
  unfold update
  split
  · rfl
  · next obj hl => exact (entries_of_lookup hl).length_eq.symm

end Heap

theorem HeapData.mem_childRefs {d : HeapData} {c : HeapId} (h : c ∈ d.childRefs) :
    c ≠ nil ∧ ((∃ head, d = .list head c) ∨
      ∃ byteStart elemType elemSize length, d = .arraySlice c byteStart elemType elemSize length) := by
  cases d with
  | list head tail =>
      simp only [childRefs] at h
      split at h
      · cases h
      · next hne =>
          obtain rfl := List.mem_singleton.mp h
          exact ⟨hne, .inl ⟨head, rfl⟩⟩
  | arraySlice parentId byteStart elemType elemSize length =>
      simp only [childRefs] at h
      split at h
      · cases h
      · next hne =>
          obtain rfl := List.mem_singleton.mp h
          exact ⟨hne, .inr ⟨_, _, _, _, rfl⟩⟩
  | record _ | str _ | array _ _ _ _ | moduleRef _ _ | mainModule _ | loadedModule _ _
  | channel _ _ | adt _ _ => cases h

theorem HeapData.childRefs_setBuffer (data : List Byte) (d : HeapData) :
    (d.setBuffer data).childRefs = d.childRefs := by
  cases d <;> rfl

theorem HeapData.length_childRefs_le (d : HeapData) : d.childRefs.length ≤ 1 := by
  cases d <;> simp only [childRefs] <;> (try split) <;> simp

/-- What is left of an object when `n` references to it are released. -/
def HeapObject.release (n : Nat) (obj : HeapObject) : Option HeapObject :=
  if 0 < n ∧ obj.refCount.toNat ≤ n ∧ ¬ obj.data.isPermanent then none else some (obj.drop n)

namespace HeapObject

@[simp] theorem release_zero (obj : HeapObject) : obj.release 0 = some obj := by
  simp [release]

theorem le_release (n : Nat) (obj : HeapObject) :
    obj.refCount.toNat ≤ (obj.release n).elim 0 (·.refCount.toNat) + n := by
  unfold release
  split
  · next h => simp only [Option.elim_none]; omega
  · simp only [Option.elim_some, refCount_drop]; omega

/-- One turn of the release loop frees the object. -/
theorem release_succ_of_free {obj : HeapObject}
    (h : obj.refCount.toNat ≤ 1 ∧ ¬ obj.data.isPermanent) (n : Nat) :
    obj.release (n + 1) = none := by
  refine if_pos ⟨by omega, by omega, h.2⟩

/-- One turn of the release loop takes one reference away. -/
theorem release_succ_of_keep {obj : HeapObject}
    (h : ¬ (obj.refCount.toNat ≤ 1 ∧ ¬ obj.data.isPermanent)) (n : Nat) :
    obj.release (n + 1) = (obj.drop 1).release n := by
  simp only [release, refCount_drop, data_drop, drop_drop, Nat.add_comm 1 n]
  refine if_congr ?_ rfl rfl
  constructor
  · rintro ⟨_, hle, hperm⟩
    exact ⟨by by_contra hn; exact h ⟨by omega, hperm⟩, by omega, hperm⟩
  · rintro ⟨hn, hle, hperm⟩
    exact ⟨by omega, by omega, hperm⟩

theorem release_of_isSome {obj : HeapObject} {n : Nat} (h : (obj.release n).isSome) :
    obj.release n = some (obj.drop n) := by
  unfold release at h ⊢
  split at h
  · cases h
  · next hnot => exact if_neg hnot

theorem release_release (obj : HeapObject) (n m : Nat) :
    (obj.release n).bind (·.release m) = obj.release (n + m) := by
  by_cases hfree : 0 < n ∧ obj.refCount.toNat ≤ n ∧ ¬ obj.data.isPermanent
  · rw [release, if_pos hfree, release, if_pos ⟨by omega, by omega, hfree.2.2⟩]
    rfl
  · rw [release, if_neg hfree]
    simp only [Option.bind_some, release, refCount_drop, data_drop, drop_drop]
    refine if_congr ?_ rfl rfl
    constructor
    · rintro ⟨hm, hle, hperm⟩
      exact ⟨by omega, by omega, hperm⟩
    · rintro ⟨_, hle, hperm⟩
      exact ⟨by by_contra hm; exact hfree ⟨by omega, by omega, hperm⟩, by omega, hperm⟩

end HeapObject

namespace Heap

/-- The release loop as the source has it, run until nothing is pending. -/
inductive Cascade : Heap → List HeapId → Heap → Prop
  | done {h : Heap} : Cascade h [] h
  | gone {h h' : Heap} {id : HeapId} {pending : List HeapId} :
      h.objects.lookup id = none → Cascade h pending h' → Cascade h (id :: pending) h'
  | free {h h' : Heap} {id : HeapId} {pending : List HeapId} {obj : HeapObject} :
      h.objects.lookup id = some obj → obj.refCount.toNat ≤ 1 ∧ ¬ obj.data.isPermanent →
      Cascade (h.remove id) (obj.data.childRefs ++ pending) h' → Cascade h (id :: pending) h'
  | drop {h h' : Heap} {id : HeapId} {pending : List HeapId} {obj : HeapObject} :
      h.objects.lookup id = some obj → ¬ (obj.refCount.toNat ≤ 1 ∧ ¬ obj.data.isPermanent) →
      Cascade (h.update id (·.drop 1)) pending h' →
      Cascade h (id :: pending) h'

/-- Freeing an object makes at most one more reference pending, so the loop ends after as
many turns as there are objects and pending references. -/
theorem cascade_decRefLoop (h : Heap) (fuel : Nat) (pending : List HeapId)
    (hfuel : h.objects.entries.length + pending.length ≤ fuel) :
    Cascade h pending (h.decRefLoop fuel pending) := by
  induction fuel generalizing h pending with
  | zero =>
      have : pending = [] := List.eq_nil_of_length_eq_zero (by omega)
      subst this
      exact .done
  | succ fuel ih =>
      cases pending with
      | nil => exact .done
      | cons id pending =>
          rw [List.length_cons] at hfuel
          unfold decRefLoop
          split
          · next hl => exact .gone hl (ih h pending (by omega))
          · next obj hl =>
              split
              · next hfree =>
                  refine .free hl hfree (ih _ _ ?_)
                  have hremove := length_remove hl
                  have hchild := obj.data.length_childRefs_le
                  rw [List.length_append]
                  omega
              · next hkeep =>
                  refine .drop hl hkeep (ih _ _ ?_)
                  rw [length_update]
                  omega

theorem cascade_decRef {h : Heap} {id : HeapId} (hid : id ≠ nil) :
    Cascade h [id] (h.decRef id) := by
  rw [decRef, if_neg hid]
  exact cascade_decRefLoop h _ _ (by simp)

/-- Every reference that was owned or pending is released by the cascade or still owned after
it, and each object has lost exactly the released ones. -/
theorem Cascade.released {h h' : Heap} {pending : List HeapId} (hc : Cascade h pending h') :
    ∃ released : Multiset HeapId, h.owned + ↑pending = h'.owned + released ∧
      ∀ i, h'.objects.lookup i = (h.objects.lookup i).bind (·.release (released.count i)) := by
  induction hc with
  | @done h =>
      refine ⟨0, rfl, fun i => ?_⟩
      cases h.objects.lookup i <;> simp
  | @gone h h' id pending hl _ ih =>
      obtain ⟨released, howned, hlookup⟩ := ih
      refine ⟨id ::ₘ released, ?_, fun i => ?_⟩
      · rw [Multiset.add_cons, ← howned, ← Multiset.cons_coe, Multiset.add_cons]
      · rw [hlookup]
        by_cases heq : i = id
        · rw [heq, hl]
          rfl
        · rw [Multiset.count_cons_of_ne heq]
  | @free h h' id pending obj hl hfree _ ih =>
      obtain ⟨released, howned, hlookup⟩ := ih
      refine ⟨id ::ₘ released, ?_, fun i => ?_⟩
      · rw [Multiset.add_cons, ← howned, ← Multiset.cons_coe, Multiset.add_cons,
          owned_of_lookup hl, ← Multiset.coe_add, add_assoc, add_left_comm]
      · rw [hlookup, lookup_remove]
        by_cases heq : i = id
        · rw [if_pos heq, heq, hl, Multiset.count_cons_self]
          exact (HeapObject.release_succ_of_free hfree _).symm
        · rw [if_neg heq, Multiset.count_cons_of_ne heq]
  | @drop h h' id pending obj hl hkeep _ ih =>
      obtain ⟨released, howned, hlookup⟩ := ih
      have hsame : (h.update id (·.drop 1)).owned = h.owned := owned_update fun _ _ => rfl
      rw [hsame] at howned
      refine ⟨id ::ₘ released, ?_, fun i => ?_⟩
      · rw [Multiset.add_cons, ← howned, ← Multiset.cons_coe, Multiset.add_cons]
      · rw [hlookup, lookup_update]
        by_cases heq : i = id
        · rw [if_pos heq, heq, hl, Multiset.count_cons_self]
          exact (HeapObject.release_succ_of_keep hkeep _).symm
        · rw [if_neg heq, Multiset.count_cons_of_ne heq]

/-- The heap after some operations, with the references outstanding outside of it. An object
that names another takes over an outstanding reference, or acquires one right after. -/
inductive Counted : Heap → Multiset HeapId → Prop
  | new : Counted Heap.new 0
  | alloc {h h' : Heap} {held : Multiset HeapId} {typeId : BitVec 32} {data : HeapData}
      {trace : Option TraceMap} {id : HeapId} : Counted h (↑data.childRefs + held) →
      h.alloc typeId data trace = some (id, h') → Counted h' (id ::ₘ held)
  | allocThenAcquire {h h' h'' : Heap} {held : Multiset HeapId} {typeId : BitVec 32}
      {data : HeapData} {trace : Option TraceMap} {id child : HeapId} : Counted h held →
      data.childRefs = [child] → (h.get child).isSome →
      h.alloc typeId data trace = some (id, h') → h'.incRef child = some h'' →
      Counted h'' (id ::ₘ held)
  | acquire {h h' : Heap} {held : Multiset HeapId} {id : HeapId} : Counted h held →
      (h.get id).isSome → h.incRef id = some h' → Counted h' (id ::ₘ held)
  | release {h : Heap} {held : Multiset HeapId} {id : HeapId} : Counted h (id ::ₘ held) →
      Counted (h.decRef id) held
  | write {h : Heap} {held : Multiset HeapId} {id : HeapId} {f : HeapObject → HeapObject} :
      Counted h held → (∀ obj, h.objects.lookup id = some obj → (f obj).refCount = obj.refCount ∧
        (f obj).data.childRefs = obj.data.childRefs) → Counted (h.update id f) held
  | sweep {h : Heap} {held : Multiset HeapId} {marked : HeapId → Bool} : Counted h held →
      (∀ id obj, h.objects.lookup id = some obj → marked id →
        ∀ c ∈ obj.data.childRefs, marked c) →
      Counted (h.sweep marked) (held.filter fun id => ((h.sweep marked).get id).isSome)

/-- No object has fewer references counted than there are. -/
def Covered (h : Heap) (held : Multiset HeapId) : Prop :=
  ∀ id, h.owned.count id + held.count id ≤ h.refs id

theorem Covered.isSome {h : Heap} {held : Multiset HeapId} (hc : Covered h held) {id : HeapId}
    (hid : id ∈ h.owned ∨ id ∈ held) : (h.get id).isSome := by
  have hle := hc id
  rw [← Multiset.count_pos, ← Multiset.count_pos] at hid
  unfold refs at hle
  cases hget : h.get id with
  | some obj => rfl
  | none =>
      rw [hget] at hle
      simp only [Option.elim_none] at hle
      omega

theorem lookup_of_get {h : Heap} {id : HeapId} {obj : HeapObject} (hg : h.get id = some obj) :
    h.objects.lookup id = some obj := by
  unfold get at hg
  split at hg
  · cases hg
  · exact hg

theorem mem_owned {h : Heap} {id c : HeapId} {obj : HeapObject} (hg : h.get id = some obj)
    (hc : c ∈ obj.data.childRefs) : c ∈ h.owned := by
  rw [owned_of_lookup (lookup_of_get hg)]
  exact Multiset.mem_add.mpr (.inl hc)

/-- What a live object names is live. -/
theorem Covered.child {h : Heap} {held : Multiset HeapId} (hc : Covered h held) {id c : HeapId}
    {obj : HeapObject} (hg : h.get id = some obj) (hmem : c ∈ obj.data.childRefs) :
    (h.get c).isSome :=
  hc.isSome (.inl (mem_owned hg hmem))

theorem owned_alloc {h h' : Heap} {typeId : BitVec 32} {data : HeapData}
    {trace : Option TraceMap} {id : HeapId} (ha : h.alloc typeId data trace = some (id, h')) :
    h'.owned = ↑data.childRefs + h.owned := by
  have hfresh : h.nextId ∉ h.objects := fun hmem =>
    absurd (h.below _ hmem) (BitVec.lt_irrefl _)
  unfold alloc at ha
  split at ha
  · cases ha
    simp only [owned, AList.entries_insert_of_notMem hfresh, List.flatMap_cons]
    exact (Multiset.coe_add _ _).symm
  · cases ha

theorem owned_addRef (h : Heap) (id : HeapId) : (h.addRef id).owned = h.owned := by
  unfold addRef
  split
  · rfl
  · exact owned_update fun _ _ => rfl

theorem refs_le (h : Heap) (id : HeapId) : h.refs id ≤ maxRefs := by
  rw [refs]
  cases h.get id with
  | none => exact Nat.zero_le _
  | some obj =>
      have := obj.refCount.isLt
      simp only [Option.elim_some, maxRefs]
      omega

theorem refs_addRef {h : Heap} {id : HeapId} (hid : (h.get id).isSome)
    (hroom : h.refs id < maxRefs) (i : HeapId) :
    (h.addRef id).refs i = h.refs i + if i = id then 1 else 0 := by
  have hne : id ≠ nil := by
    rintro rfl
    simp [get] at hid
  rw [addRef, if_neg hne, refs, get_update]
  split
  · next heq =>
      subst heq
      obtain ⟨obj, hobj⟩ := Option.isSome_iff_exists.mp hid
      rw [refs, hobj] at hroom
      simp only [Option.elim_some, maxRefs] at hroom
      simp only [refs, hobj, Option.map_some, Option.elim_some]
      exact HeapObject.refCount_take (by omega)
  · rfl

theorem refs_addRef_of_ne (h : Heap) {id i : HeapId} (hne : i ≠ id) :
    (h.addRef id).refs i = h.refs i := by
  rw [addRef]
  split
  · rfl
  · rw [refs, get_update, if_neg hne, refs]

theorem count_cons_eq (id i : HeapId) (held : Multiset HeapId) :
    (id ::ₘ held).count i = held.count i + if i = id then 1 else 0 := by
  split
  · next heq => rw [heq, Multiset.count_cons_self]
  · next heq => rw [Multiset.count_cons_of_ne heq, Nat.add_zero]

theorem Covered.acquire {h h' : Heap} {held : Multiset HeapId} (hc : Covered h held) {id : HeapId}
    (hid : (h.get id).isSome) (hinc : h.incRef id = some h') : Covered h' (id ::ₘ held) := by
  obtain ⟨hroom, rfl⟩ := incRef_eq_some.mp hinc
  intro i
  have hle := hc i
  rw [owned_addRef, refs_addRef hid hroom, count_cons_eq]
  omega

theorem Covered.alloc {h h' : Heap} {held : Multiset HeapId} {typeId : BitVec 32}
    {data : HeapData} {trace : Option TraceMap} {id : HeapId}
    (hc : Covered h (↑data.childRefs + held)) (ha : h.alloc typeId data trace = some (id, h')) :
    Covered h' (id ::ₘ held) := by
  intro i
  have hle := hc i
  rw [Multiset.count_add] at hle
  rw [owned_alloc ha, refs_alloc ha, count_cons_eq, Multiset.count_add]
  omega

/-- The order of taking the reference and allocating the object that owns it is immaterial. -/
theorem Covered.allocThenAcquire {h h' h'' : Heap} {held : Multiset HeapId} {typeId : BitVec 32}
    {data : HeapData} {trace : Option TraceMap} {id child : HeapId} (hc : Covered h held)
    (hdata : data.childRefs = [child]) (hchild : (h.get child).isSome)
    (ha : h.alloc typeId data trace = some (id, h')) (hinc : h'.incRef child = some h'') :
    Covered h'' (id ::ₘ held) := by
  obtain ⟨hroom, rfl⟩ := incRef_eq_some.mp hinc
  have hlive : (h'.get child).isSome := by
    rw [(alloc_cases ha).2.2]
    split
    · rfl
    · exact hchild
  intro i
  have hle := hc i
  have hdata' : (↑data.childRefs : Multiset HeapId) = child ::ₘ 0 := by rw [hdata]; rfl
  rw [owned_addRef, refs_addRef hlive hroom, owned_alloc ha, refs_alloc ha, count_cons_eq,
    Multiset.count_add, hdata', count_cons_eq, Multiset.count_zero]
  omega

theorem Covered.ne_nil {h : Heap} {held : Multiset HeapId} (hc : Covered h held) {id : HeapId}
    (hid : id ∈ held) : id ≠ nil := by
  rintro rfl
  have := hc.isSome (.inr hid)
  simp [get] at this

/-- A release in terms of the references it takes away, over the whole heap. -/
theorem decRef_released {h : Heap} {id : HeapId} (hid : id ≠ nil) :
    ∃ released : Multiset HeapId, h.owned + {id} = (h.decRef id).owned + released ∧
      ∀ i, (h.decRef id).get i = (h.get i).bind (·.release (released.count i)) := by
  obtain ⟨released, howned, hlookup⟩ := (cascade_decRef hid).released
  refine ⟨released, howned, fun i => ?_⟩
  by_cases hnil : i = nil
  · simp [get, hnil]
  · simp only [get, if_neg hnil, hlookup]

/-- Releases one after the other, in terms of all the references they take away. -/
theorem decRefs_released (h : Heap) {ids : List HeapId} (hids : nil ∉ ids) :
    ∃ released : Multiset HeapId, h.owned + ↑ids = (ids.foldl decRef h).owned + released ∧
      ∀ i, (ids.foldl decRef h).get i = (h.get i).bind (·.release (released.count i)) := by
  induction ids generalizing h with
  | nil =>
      refine ⟨0, rfl, fun i => ?_⟩
      simp only [List.foldl_nil, Multiset.count_zero, HeapObject.release_zero]
      cases h.get i <;> rfl
  | cons id ids ih =>
      rw [List.mem_cons, not_or] at hids
      obtain ⟨released, howned, hget⟩ := decRef_released (h := h) (Ne.symm hids.1)
      obtain ⟨released', howned', hget'⟩ := ih (h.decRef id) hids.2
      refine ⟨released + released', ?_, fun i => ?_⟩
      · calc h.owned + ↑(id :: ids) = h.owned + {id} + ↑ids := by
              rw [← Multiset.cons_coe, ← Multiset.singleton_add, add_assoc]
          _ = (h.decRef id).owned + ↑ids + released := by rw [howned, add_right_comm]
          _ = _ := by rw [howned', add_assoc, add_comm released' released, List.foldl_cons]
      · rw [List.foldl_cons, hget', hget, Option.bind_assoc]
        simp only [HeapObject.release_release, Multiset.count_add]

theorem owned_addRefs (h : Heap) (ids : List HeapId) : (ids.foldl addRef h).owned = h.owned := by
  induction ids generalizing h with
  | nil => rfl
  | cons id ids ih => rw [List.foldl_cons, ih, owned_addRef]

theorem get_addRefs (h : Heap) (ids : List HeapId) (i : HeapId) :
    (ids.foldl addRef h).get i =
      (h.get i).map (·.take (ids.count i)) := by
  induction ids generalizing h with
  | nil => simp
  | cons id ids ih =>
      rw [List.foldl_cons, ih, List.count_cons, addRef]
      split
      · next hnil =>
          by_cases heq : id = i
          · rw [← heq, hnil, get, if_pos rfl]
            rfl
          · rw [beq_false_of_ne heq]
            rfl
      · rw [get_update]
        by_cases heq : id = i
        · rw [if_pos heq.symm, heq, beq_self_eq_true, Option.map_map]
          congr 1
          funext obj
          simp only [Function.comp_apply, HeapObject.take_take, Nat.add_comm 1, if_true]
        · rw [if_neg (Ne.symm heq), beq_false_of_ne heq]
          rfl

/-- No count of these objects overflows when a reference is taken for each id. -/
def RefsLeft (h : Heap) (ids : List HeapId) : Prop :=
  ∀ i, (h.get i).isSome → h.refs i + ids.count i ≤ maxRefs

theorem isSome_addRef (h : Heap) (id i : HeapId) :
    ((h.addRef id).get i).isSome = (h.get i).isSome := by
  have := congrArg Option.isSome (get_addRefs h [id] i)
  rwa [Option.isSome_map] at this

theorem refsLeft_cons {h : Heap} {id : HeapId} {ids : List HeapId} :
    h.RefsLeft (id :: ids) ↔ h.refs id < maxRefs ∧ (h.addRef id).RefsLeft ids := by
  have hcount : ∀ i, (id :: ids).count i = ids.count i + if i = id then 1 else 0 := fun i => by
    simp only [List.count_cons, beq_iff_eq, @eq_comm _ id i]
  constructor
  · intro hroom
    have hid : h.refs id < maxRefs := by
      cases hget : h.get id with
      | none => simp [refs, hget, maxRefs]
      | some obj =>
          have := hroom id (by rw [hget]; rfl)
          rw [hcount, if_pos rfl] at this
          omega
    refine ⟨hid, fun i hi => ?_⟩
    rw [isSome_addRef] at hi
    have hle := hroom i hi
    rw [hcount] at hle
    by_cases heq : i = id
    · rw [refs_addRef (heq ▸ hi) hid]
      omega
    · rw [refs_addRef_of_ne h heq]
      omega
  · rintro ⟨hid, hroom⟩ i hi
    have hle := hroom i (by rwa [isSome_addRef])
    rw [hcount]
    by_cases heq : i = id
    · rw [refs_addRef (heq ▸ hi) hid] at hle
      omega
    · rw [refs_addRef_of_ne h heq] at hle
      rw [if_neg heq]
      omega

theorem RefsLeft.update {h : Heap} {ids : List HeapId} {id : HeapId} {f : HeapObject → HeapObject}
    (hf : ∀ obj, (f obj).refCount = obj.refCount) : (h.update id f).RefsLeft ids ↔ h.RefsLeft ids := by
  have hget : ∀ i, ((h.update id f).get i).isSome = (h.get i).isSome ∧
      (h.update id f).refs i = h.refs i := fun i => by
    rw [refs, refs, get_update]
    split
    · cases h.get i <;> simp [hf]
    · exact ⟨rfl, rfl⟩
  exact forall_congr' fun i => by rw [(hget i).1, (hget i).2]

theorem RefsLeft.refCount {h : Heap} {ids : List HeapId} (hroom : h.RefsLeft ids) {i : HeapId}
    {obj : HeapObject} (hobj : h.get i = some obj) :
    (obj.take (ids.count i)).refCount.toNat = obj.refCount.toNat + ids.count i := by
  have hle := hroom i (by rw [hobj]; rfl)
  rw [refs, hobj, Option.elim_some, maxRefs] at hle
  exact HeapObject.refCount_take (by omega)

theorem isSome_of_refs_pos {h : Heap} {i : HeapId} (hpos : 0 < h.refs i) : (h.get i).isSome := by
  unfold refs at hpos
  cases hget : h.get i with
  | none =>
      rw [hget] at hpos
      cases hpos
  | some obj => rfl

/-- Taking references succeeds where no count overflows. -/
theorem foldlM_incRef {h h' : Heap} {ids : List HeapId} :
    ids.foldlM incRef h = some h' ↔ h.RefsLeft ids ∧ h' = ids.foldl addRef h := by
  induction ids generalizing h with
  | nil =>
      have hle : h.RefsLeft [] := fun i _ => h.refs_le i
      simp [hle, eq_comm]
  | cons id ids ih =>
      simp only [List.foldlM_cons, Option.bind_eq_bind, Option.bind_eq_some_iff, incRef_eq_some,
        List.foldl_cons, refsLeft_cons, and_assoc, exists_and_left, exists_eq_left, ih]

theorem refs_addRefs {h : Heap} {ids : List HeapId} (hroom : h.RefsLeft ids) {i : HeapId}
    (hi : (h.get i).isSome) : (ids.foldl addRef h).refs i = h.refs i + ids.count i := by
  obtain ⟨obj, hobj⟩ := Option.isSome_iff_exists.mp hi
  rw [refs, refs, get_addRefs, hobj, Option.map_some, Option.elim_some, Option.elim_some]
  exact hroom.refCount hobj

theorem RefsLeft.tail {h : Heap} {id : HeapId} {ids : List HeapId} (hroom : h.RefsLeft (id :: ids)) :
    h.RefsLeft ids := by
  intro i hi
  have hle := hroom i hi
  rw [List.count_cons] at hle
  omega

/-- After all but the first reference were taken the first one can be. -/
theorem RefsLeft.head {h : Heap} {id : HeapId} {ids : List HeapId} (hroom : h.RefsLeft (id :: ids)) :
    (ids.foldl addRef h).refs id < maxRefs := by
  cases hid : h.get id with
  | none =>
      rw [refs, get_addRefs, hid]
      exact Nat.zero_lt_succ _
  | some obj =>
      have hthere : (h.get id).isSome := by rw [hid]; rfl
      have hle := hroom id hthere
      rw [List.count_cons_self] at hle
      rw [refs_addRefs hroom.tail hthere]
      omega

theorem RefsLeft.cons {h : Heap} {id : HeapId} {ids : List HeapId} (hroom : h.RefsLeft ids)
    (hid : (ids.foldl addRef h).refs id < maxRefs) : h.RefsLeft (id :: ids) := by
  intro i hi
  rw [List.count_cons]
  by_cases heq : id = i
  · subst heq
    rw [refs_addRefs hroom hi] at hid
    rw [beq_self_eq_true, if_pos rfl]
    omega
  · rw [beq_false_of_ne heq]
    exact hroom i hi

theorem count_released {h : Heap} {released : Multiset HeapId} {id : HeapId}
    (held : Multiset HeapId) (howned : h.owned + {id} = (h.decRef id).owned + released) (i : HeapId) :
    (h.decRef id).owned.count i + held.count i + released.count i =
      h.owned.count i + (id ::ₘ held).count i := by
  have hcount := congrArg (Multiset.count i) howned
  rw [Multiset.count_add, Multiset.count_add, ← Multiset.cons_zero, count_cons_eq,
    Multiset.count_zero] at hcount
  rw [count_cons_eq]
  omega

/-- What is released was outstanding or owned, so no count goes below the references left. -/
theorem Covered.release {h : Heap} {held : Multiset HeapId} {id : HeapId}
    (hc : Covered h (id ::ₘ held)) : Covered (h.decRef id) held := by
  obtain ⟨released, howned, hget⟩ := decRef_released (hc.ne_nil (Multiset.mem_cons_self _ _))
  intro i
  have hle := hc i
  have hcount := count_released held howned i
  rw [← hcount] at hle
  rw [refs, hget]
  unfold refs at hle
  cases hi : h.get i with
  | none =>
      rw [hi, Option.elim_none] at hle
      omega
  | some obj =>
      have hrelease := obj.le_release (released.count i)
      rw [hi, Option.elim_some] at hle
      rw [Option.bind_some]
      omega

theorem Covered.write {h : Heap} {held : Multiset HeapId} {id : HeapId}
    {f : HeapObject → HeapObject} (hc : Covered h held)
    (hf : ∀ obj, h.objects.lookup id = some obj → (f obj).refCount = obj.refCount ∧
      (f obj).data.childRefs = obj.data.childRefs) : Covered (h.update id f) held := by
  intro i
  have hle := hc i
  have hrefs : (h.update id f).refs i = h.refs i := by
    rw [refs, get_update]
    split
    · next heq =>
        subst heq
        cases hi : h.get i with
        | none => simp [refs, hi]
        | some obj => simp [refs, hi, (hf obj (lookup_of_get hi)).1]
    · rfl
  rwa [owned_update fun obj hl => (hf obj hl).2, hrefs]

theorem owned_sweep_le (h : Heap) (marked : HeapId → Bool) : (h.sweep marked).owned ≤ h.owned :=
  Multiset.coe_le.mpr (List.filter_sublist.flatMap _).subperm

/-- Only references owned by marked objects survive a sweep. -/
theorem marked_of_mem_owned_sweep {h : Heap} {marked : HeapId → Bool}
    (hclosed : ∀ id obj, h.objects.lookup id = some obj → marked id →
      ∀ c ∈ obj.data.childRefs, marked c)
    {c : HeapId} (hc : c ∈ (h.sweep marked).owned) : marked c := by
  obtain ⟨e, he, hchild⟩ := List.mem_flatMap.mp (Multiset.mem_coe.mp hc)
  obtain ⟨hentry, hkept⟩ := List.mem_filter.mp he
  rcases Bool.or_eq_true_iff.mp hkept with hmarked | hperm
  · exact hclosed e.1 e.2 (AList.mem_lookup_iff.mpr hentry) hmarked c hchild
  · obtain ⟨i, ⟨refCount, typeId, trace, data⟩⟩ := e
    cases data <;> simp [HeapData.childRefs, HeapData.isPermanent] at hchild hperm

theorem Covered.sweep {h : Heap} {held : Multiset HeapId} {marked : HeapId → Bool}
    (hc : Covered h held)
    (hclosed : ∀ id obj, h.objects.lookup id = some obj → marked id →
      ∀ c ∈ obj.data.childRefs, marked c) :
    Covered (h.sweep marked) (held.filter fun id => ((h.sweep marked).get id).isSome) := by
  intro i
  have hle := hc i
  have howned := Multiset.count_le_of_le i (owned_sweep_le h marked)
  have hheld := Multiset.count_le_of_le i
    (Multiset.filter_le (fun id => ((h.sweep marked).get id).isSome) held)
  cases hi : (h.sweep marked).get i with
  | some obj =>
      have hkept := (get_sweep_some.mp hi).1
      simp only [refs, hkept, Option.elim_some] at hle
      simp only [refs, hi, Option.elim_some]
      omega
  | none =>
      have hheld : (held.filter fun id => ((h.sweep marked).get id).isSome).count i = 0 := by
        refine Multiset.count_eq_zero.mpr fun hmem => ?_
        have := (Multiset.mem_filter.mp hmem).2
        simp [hi] at this
      have howned : (h.sweep marked).owned.count i = 0 := by
        refine Multiset.count_eq_zero.mpr fun hmem => ?_
        have hmarked := marked_of_mem_owned_sweep hclosed hmem
        obtain ⟨obj, hobj⟩ := Option.isSome_iff_exists.mp
          (hc.isSome (.inl (Multiset.mem_of_le (owned_sweep_le h marked) hmem)))
        have hkept : (h.sweep marked).get i = some obj :=
          get_sweep_some.mpr ⟨hobj, by rw [hmarked, Bool.true_or]⟩
        rw [hi] at hkept
        cases hkept
      omega

theorem Counted.covered {h : Heap} {held : Multiset HeapId} (hc : Counted h held) :
    Covered h held := by
  induction hc with
  | new => intro id; exact Nat.zero_le _
  | alloc _ ha ih => exact ih.alloc ha
  | allocThenAcquire _ hdata hchild ha hinc ih => exact ih.allocThenAcquire hdata hchild ha hinc
  | acquire _ hid hinc ih => exact ih.acquire hid hinc
  | release _ ih => exact ih.release
  | write _ hf ih => exact ih.write hf
  | sweep _ hclosed ih => exact ih.sweep hclosed

/-- However references are acquired and released, the counts cover the references there are,
what a live object names is live, and a release ends and takes away the references of its
cascade: it frees the objects that have no reference left and keeps all others. -/
theorem owned_references_live {h : Heap} {held : Multiset HeapId} (hc : Counted h held) :
    Covered h held ∧
    (∀ id obj, h.get id = some obj → ∀ c ∈ obj.data.childRefs, (h.get c).isSome) ∧
    ∀ id ∈ held, Cascade h [id] (h.decRef id) ∧
      ∃ released : Multiset HeapId, h.owned + {id} = (h.decRef id).owned + released ∧
        (∀ i, h.get i = none → (h.decRef id).get i = none) ∧
        ∀ i obj, h.get i = some obj → released.count i ≤ obj.refCount.toNat ∧
          (h.decRef id).get i =
            if i ∈ released ∧ obj.refCount.toNat = released.count i ∧ ¬ obj.data.isPermanent
            then none else some (obj.drop (released.count i)) := by
  have hcovered := hc.covered
  refine ⟨hcovered, fun id obj hg c hmem => hcovered.child hg hmem, fun id hid => ?_⟩
  have hne := hcovered.ne_nil hid
  obtain ⟨released, howned, hget⟩ := decRef_released hne
  refine ⟨cascade_decRef hne, released, howned, fun i hi => ?_, fun i obj hi => ?_⟩
  · rw [hget, hi]
    rfl
  · have hle : released.count i ≤ obj.refCount.toNat := by
      have hcover := hcovered i
      have hcount := count_released (held.erase id) howned i
      rw [Multiset.cons_erase hid] at hcount
      simp only [refs, hi, Option.elim_some] at hcover
      omega
    refine ⟨hle, ?_⟩
    rw [hget, hi, Option.bind_some, HeapObject.release]
    refine if_congr ?_ rfl rfl
    rw [Multiset.count_pos]
    refine and_congr_right fun _ => and_congr_left' ?_
    omega

/-- Releasing a list of two cells whose tail nothing else holds frees both. -/
theorem owned_references_live_list : ∃ h : Heap, Counted h {0x10000001} ∧
    (h.get 0x10000000).isSome ∧ Cascade h [0x10000001] (h.decRef 0x10000001) ∧
    (h.decRef 0x10000001).get 0x10000000 = none := by
  obtain ⟨h₁, h₂, ha₁, ha₂, hsome, hnone⟩ : ∃ h₁ h₂,
      Heap.new.alloc 0 (.list [0] nil) none = some (0x10000000, h₁) ∧
      h₁.alloc 0 (.list [0] 0x10000000) none = some (0x10000001, h₂) ∧
      (h₂.get 0x10000000).isSome ∧ (h₂.decRef 0x10000001).get 0x10000000 = none :=
    ⟨_, _, rfl, rfl, by decide +kernel, by decide +kernel⟩
  have hc₁ : Counted h₁ {0x10000000} := @Counted.alloc _ _ 0 _ _ _ _ .new ha₁
  have hc : Counted h₂ {0x10000001} := @Counted.alloc _ _ 0 _ _ _ _ hc₁ ha₂
  have hid : (0x10000001 : HeapId) ∈ ({0x10000001} : Multiset HeapId) :=
    Multiset.mem_singleton_self _
  exact ⟨h₂, hc, hsome, ((owned_references_live hc).2.2 _ hid).1, hnone⟩

end Heap
end RiceVM
