import RiceVM.Limbo.Fold
import RiceVM.Ops.Strings

/-!
Conversions between words, bigs and strings. A conversion to a string leaves a new object and
releases what the destination held.
-/
namespace RiceVM.Ops
open Exec Memory

def srcBig : VM Big := do
  let vm ← get
  return vm.readBigAt vm.src vm.immSrc

def setDstBig (val : Big) : VM Unit := do
  let vm ← get
  writeBigAt vm.dst val

def moveStringToDst (s : String) : VM Unit := do movePtrToDst (← alloc 0 (.str s))

def opCvtwl : VM Unit := do setDstBig ((← srcWord).signExtend 64)

def opCvtlw : VM Unit := do setDstWord ((← srcBig).setWidth 32)

def opCvtcw : VM Unit := do
  let strId ← srcPtr
  let vm ← get
  setDstWord (((vm.heap.getString strId).map strtolWord).getD 0)

def opCvtcl : VM Unit := do
  let strId ← srcPtr
  let vm ← get
  setDstBig (((vm.heap.getString strId).map fun s => BitVec.ofInt 64 (parseStrtol s)).getD 0)

def opCvtwc : VM Unit := do moveStringToDst (toString (← srcWord).toInt)

def opCvtlc : VM Unit := do moveStringToDst (toString (← srcBig).toInt)

end RiceVM.Ops

namespace RiceVM.Heap

/-- No object releases a reference to `n` when it is freed. -/
def NoParent (h : Heap) (n : HeapId) : Prop :=
  ∀ id obj, h.get id = some obj → n ∉ obj.data.childRefs

theorem NoParent.of_subset {h h' : Heap} {n : HeapId} (hn : h.NoParent n)
    (hsub : ∀ id obj, h'.get id = some obj → ∃ obj', h.get id = some obj' ∧ obj'.data = obj.data) :
    h'.NoParent n := by
  intro id obj hget
  obtain ⟨obj', hget', hdata⟩ := hsub id obj hget
  rw [← hdata]
  exact hn id obj' hget'

theorem NoParent.setCount {h : Heap} {n : HeapId} (hn : h.NoParent n) (id : HeapId)
    (f : HeapObject → BitVec 32) :
    (h.update id fun obj => { obj with refCount := f obj }).NoParent n := by
  refine hn.of_subset fun id' obj hget => ?_
  rw [get_update] at hget
  split at hget
  · obtain ⟨obj', hget', rfl⟩ := Option.map_eq_some_iff.mp hget
    exact ⟨obj', hget', rfl⟩
  · exact ⟨obj, hget, rfl⟩

theorem NoParent.remove {h : Heap} {n : HeapId} (hn : h.NoParent n) (id : HeapId) :
    (h.remove id).NoParent n := by
  refine hn.of_subset fun id' obj hget => ?_
  rw [get_remove] at hget
  split at hget
  · cases hget
  · exact ⟨obj, hget, rfl⟩

theorem nil_not_mem_childRefs (d : HeapData) : nil ∉ d.childRefs := by
  cases d with
  | list head tail =>
      rw [HeapData.childRefs]
      split
      · exact List.not_mem_nil
      · next hne => exact fun hmem => hne (List.mem_singleton.mp hmem).symm
  | arraySlice parentId =>
      rw [HeapData.childRefs]
      split
      · exact List.not_mem_nil
      · next hne => exact fun hmem => hne (List.mem_singleton.mp hmem).symm
  | _ => exact List.not_mem_nil

/-- An object with more references than are given up stays, with all that it holds. -/
theorem get_decRefLoop {h : Heap} {n : HeapId} {obj : HeapObject} (fuel : Nat)
    (pending : List HeapId) (hnil : nil ∉ pending) (hn : h.NoParent n) (hget : h.get n = some obj)
    (hcount : pending.count n < obj.refCount.toNat) :
    ∃ obj', (h.decRefLoop fuel pending).get n = some obj' ∧ obj'.data = obj.data := by
  induction fuel generalizing h obj pending with
  | zero => exact ⟨obj, hget, rfl⟩
  | succ fuel ih =>
      cases pending with
      | nil => exact ⟨obj, hget, rfl⟩
      | cons id pending =>
          obtain ⟨hid, hnil⟩ := not_or.mp (mt List.mem_cons.mpr hnil)
          have hid : id ≠ nil := Ne.symm hid
          rw [decRefLoop]
          cases hlookup : h.objects.lookup id with
          | none =>
              exact ih pending hnil hn hget (Nat.lt_of_le_of_lt List.count_le_count_cons hcount)
          | some freed =>
              dsimp only
              by_cases heq : id = n
              · subst heq
                have hsame : h.get id = some freed := by rw [get, if_neg hid, hlookup]
                cases hget.symm.trans hsame
                rw [List.count_cons_self] at hcount
                rw [if_neg (fun hfree => by omega)]
                have hleft : (h.update id (·.drop 1)).get id = some (obj.drop 1) := by
                  rw [get_update, if_pos rfl, hget]
                  rfl
                refine @ih _ (obj.drop 1) pending hnil (hn.setCount id _) hleft ?_
                rw [HeapObject.refCount_drop]
                omega
              · rw [List.count_cons_of_ne heq] at hcount
                by_cases hfree : freed.refCount.toNat ≤ 1 ∧ ¬ freed.data.isPermanent
                · rw [if_pos hfree]
                  have hchild : n ∉ freed.data.childRefs :=
                    hn id freed (by rw [get, if_neg hid, hlookup])
                  refine ih _ ?_ (hn.remove id) ?_ ?_
                  · intro hmem
                    rcases List.mem_append.mp hmem with hmem | hmem
                    · exact nil_not_mem_childRefs _ hmem
                    · exact hnil hmem
                  · rw [get_remove, if_neg (Ne.symm heq), hget]
                  · rwa [List.count_append, List.count_eq_zero.mpr hchild, Nat.zero_add]
                · rw [if_neg hfree]
                  refine ih pending hnil (hn.setCount id _) ?_ hcount
                  rw [get_update, if_neg (Ne.symm heq), hget]

theorem get_decRef {h : Heap} {n : HeapId} {obj : HeapObject} (id : HeapId) (hn : h.NoParent n)
    (hget : h.get n = some obj) (hcount : 1 < obj.refCount.toNat) :
    ∃ obj', (h.decRef id).get n = some obj' ∧ obj'.data = obj.data := by
  unfold decRef
  by_cases hnil : id = nil
  · rw [if_pos hnil]
    exact ⟨obj, hget, rfl⟩
  · rw [if_neg hnil]
    refine get_decRefLoop _ [id] (fun hmem => hnil (List.mem_singleton.mp hmem).symm) hn hget ?_
    exact Nat.lt_of_le_of_lt List.count_le_length hcount

theorem nextId_decRefLoop (h : Heap) (fuel : Nat) (pending : List HeapId) :
    (h.decRefLoop fuel pending).nextId = h.nextId := by
  induction fuel generalizing h pending with
  | zero => rfl
  | succ fuel ih =>
      cases pending with
      | nil => rfl
      | cons id pending =>
          rw [decRefLoop]
          split
          · exact ih h pending
          · split
            · exact ih _ _
            · exact (ih _ _).trans (nextId_update ..)

/-- What is left after a release was there before. -/
theorem subset_decRefLoop (h : Heap) (fuel : Nat) (pending : List HeapId) :
    ∀ id obj, (h.decRefLoop fuel pending).get id = some obj →
      ∃ obj', h.get id = some obj' ∧ obj'.data = obj.data := by
  induction fuel generalizing h pending with
  | zero => exact fun id obj hget => ⟨obj, hget, rfl⟩
  | succ fuel ih =>
      cases pending with
      | nil => exact fun id obj hget => ⟨obj, hget, rfl⟩
      | cons freed pending =>
          intro id obj hget
          rw [decRefLoop] at hget
          split at hget
          · exact ih h pending id obj hget
          · split at hget
            · obtain ⟨obj', hget', hdata⟩ := ih _ _ id obj hget
              rw [get_remove] at hget'
              split at hget'
              · cases hget'
              · exact ⟨obj', hget', hdata⟩
            · obtain ⟨obj', hget', hdata⟩ := ih _ _ id obj hget
              rw [get_update] at hget'
              split at hget'
              · obtain ⟨obj'', hget'', rfl⟩ := Option.map_eq_some_iff.mp hget'
                exact ⟨obj'', hget'', hdata⟩
              · exact ⟨obj', hget', hdata⟩

/-- The heap can hand out its next id, and no object gives up a reference to it. -/
structure Fresh (h : Heap) : Prop where
  room : h.nextId < h.nextId + 1
  noParent : h.NoParent h.nextId

theorem Fresh.decRef {h : Heap} (hf : h.Fresh) (id : HeapId) : (h.decRef id).Fresh := by
  unfold Heap.decRef
  split
  · exact hf
  · refine ⟨?_, ?_⟩
    · rw [nextId_decRefLoop]
      exact hf.room
    · rw [nextId_decRefLoop]
      exact hf.noParent.of_subset (subset_decRefLoop h _ _)

theorem NoParent.addRef {h : Heap} {n : HeapId} (hn : h.NoParent n) (id : HeapId) :
    (h.addRef id).NoParent n := by
  unfold Heap.addRef
  split
  · exact hn
  · exact hn.setCount id _

theorem Fresh.addRef {h : Heap} (hf : h.Fresh) (id : HeapId) : (h.addRef id).Fresh := by
  refine ⟨?_, ?_⟩
  · rw [nextId_addRef]
    exact hf.room
  · rw [nextId_addRef]
    exact hf.noParent.addRef id

/-- A new string outlives the release of what its slot held. -/
theorem text_new {h h' : Heap} {s : String} (hf : h.Fresh)
    (ha : h.alloc 0 (.str s) none = some (h.nextId, h')) (old : HeapId) :
    ((h'.addRef h.nextId).decRef old).text h.nextId = s := by
  obtain ⟨-, -, hget⟩ := alloc_cases ha
  have hnew : (h'.addRef h.nextId).get h.nextId = some ⟨2, 0, none, .str s⟩ := by
    rw [get_addRef, if_pos rfl, hget, if_pos rfl]
    rfl
  have hparent : (h'.addRef h.nextId).NoParent h.nextId := by
    refine NoParent.addRef (fun id obj hobj => ?_) _
    rw [hget] at hobj
    split at hobj
    · cases hobj
      exact List.not_mem_nil
    · exact hf.noParent id obj hobj
  obtain ⟨obj, hkept, hdata⟩ := get_decRef old hparent hnew (show 1 < (2#32).toNat by decide)
  exact text_of_get hkept hdata

/-- A string that is moved outlives the release of what its new slot held. -/
theorem text_moved {h : Heap} {id : HeapId} (hn : h.NoParent id)
    (hstr : id = nil ∨ ∃ obj s, h.get id = some obj ∧ obj.data = .str s ∧ 0 < obj.refCount.toNat)
    (hroom : h.refs id < maxRefs) (old : HeapId) :
    ((h.addRef id).decRef old).text id = h.text id := by
  rcases hstr with rfl | ⟨obj, s, hget, hs, hpos⟩
  · rw [text_nil, text_nil]
  · have hmore : (h.addRef id).get id = some (obj.take 1) := by
      rw [get_addRef, if_pos rfl, hget]
      rfl
    have hcount : 1 < (obj.take 1).refCount.toNat := by
      rw [refs, hget, Option.elim_some, maxRefs] at hroom
      rw [HeapObject.refCount_take (by omega)]
      omega
    obtain ⟨obj', hkept, hdata⟩ := get_decRef old (hn.addRef id) hmore hcount
    rw [text_of_get hkept (hdata.trans hs), text_of_get hget hs]

end RiceVM.Heap
