import RiceVM.Ops.Lists
import RiceVM.Variables

/-!
Lists as values. The cells of the lists in a frame are shared and counted, and a cell goes with
its last reference; to a program that only pushes, steps and copies, each of its variables holds
a list of its own.
-/
namespace RiceVM
open Exec Memory Ops

namespace Heap

/-- The elements of the list that starts with a cell. -/
inductive Listed (h : Heap) : HeapId → List (List Byte) → Prop
  | empty : Listed h nil []
  | cell {id tail : HeapId} {obj : HeapObject} {head : List Byte} {rest : List (List Byte)} :
      h.get id = some obj → obj.data = .list head tail → Listed h tail rest →
      Listed h id (head :: rest)

variable {h h' : Heap} {id p : HeapId} {held : Multiset HeapId} {l l' : List (List Byte)}

theorem childRefs_list (head : List Byte) (tail : HeapId) :
    (↑(HeapData.list head tail).childRefs : Multiset HeapId) = refTo tail := by
  by_cases hnil : tail = nil
  · rw [refTo, if_pos hnil, HeapData.childRefs, if_pos hnil]
    rfl
  · rw [refTo, if_neg hnil, HeapData.childRefs, if_neg hnil]
    rfl

theorem Listed.unique (a : Listed h id l) (b : Listed h id l') : l = l' := by
  induction a generalizing l' with
  | empty =>
      cases b with
      | empty => rfl
      | cell hget => rw [get_nil] at hget; cases hget
  | cell hget hdata _ ih =>
      cases b with
      | empty => rw [get_nil] at hget; cases hget
      | cell hget' hdata' hrest =>
          rw [hget] at hget'
          cases hget'
          rw [hdata] at hdata'
          cases hdata'
          rw [ih hrest]

theorem Listed.grows (hl : Listed h id l) (hg : Grows h h') : Listed h' id l := by
  induction hl with
  | empty => exact .empty
  | cell hget hdata _ ih =>
      obtain ⟨obj', hget', hsame⟩ := hg _ _ hget
      exact .cell hget' (hsame.trans hdata) ih

/-- A list whose first cell survives a release survives it as a whole. -/
theorem Listed.release (hl : Listed h id l) (hc : Covered (h.decRef p) held)
    (hid : id = nil ∨ ((h.decRef p).get id).isSome) : Listed (h.decRef p) id l := by
  induction hl with
  | empty => exact .empty
  | @cell id tail obj head rest hget hdata _ ih =>
      rcases hid with rfl | hid
      · rw [get_nil] at hget
        cases hget
      · obtain ⟨obj', hobj'⟩ := Option.isSome_iff_exists.mp hid
        obtain ⟨old, hold, hsame⟩ := data_decRef hobj'
        rw [hget] at hold
        cases hold
        have hdata' := hsame.trans hdata
        refine .cell hobj' hdata' (ih ?_)
        by_cases hnil : tail = nil
        · exact .inl hnil
        · refine .inr (hc.child hobj' ?_)
          rw [hdata', HeapData.childRefs, if_neg hnil]
          exact List.mem_singleton_self _

/-- The rest of a list starts with a live cell, or is empty. -/
theorem Listed.tail_alive {tail : HeapId} {obj : HeapObject} {head : List Byte}
    (hc : Covered h held) (hget : h.get id = some obj) (hdata : obj.data = .list head tail) :
    tail = nil ∨ (h.get tail).isSome := by
  by_cases hnil : tail = nil
  · exact .inl hnil
  · refine .inr (hc.child hget ?_)
    rw [hdata, HeapData.childRefs, if_neg hnil]
    exact List.mem_singleton_self _

/-- The cells of a list are distinct. -/
theorem Listed.cells (hl : Listed h id l) : ∃ ids : List HeapId, ids.length = l.length ∧ ids.Nodup ∧
    ∀ i ∈ ids, (h.get i).isSome ∧ ∃ l', Listed h i l' ∧ l'.length ≤ l.length := by
  induction hl with
  | empty => exact ⟨[], rfl, List.nodup_nil, by intro i hi; cases hi⟩
  | @cell id tail obj head rest hget hdata hrest ih =>
      obtain ⟨ids, hlength, hnodup, hcells⟩ := ih
      have hwhole := Listed.cell hget hdata hrest
      refine ⟨id :: ids, by rw [List.length_cons, List.length_cons, hlength],
        List.nodup_cons.mpr ⟨fun hmem => ?_, hnodup⟩, fun i hi => ?_⟩
      · obtain ⟨-, l', hl', hle⟩ := hcells id hmem
        rw [hl'.unique hwhole, List.length_cons] at hle
        omega
      · rcases List.mem_cons.mp hi with rfl | hmem
        · exact ⟨by rw [hget]; rfl, _, hwhole, Nat.le_refl _⟩
        · obtain ⟨hsome, l', hl', hle⟩ := hcells i hmem
          exact ⟨hsome, l', hl', by rw [List.length_cons]; omega⟩

theorem Listed.length_le (hl : Listed h id l) : l.length ≤ h.objects.entries.length := by
  obtain ⟨ids, hlength, hnodup, hcells⟩ := hl.cells
  have hsub : ids ⊆ h.objects.keys := by
    intro i hi
    obtain ⟨obj, hobj⟩ := Option.isSome_iff_exists.mp (hcells i hi).1
    exact AList.mem_keys.mp (AList.lookup_isSome.mp (by rw [lookup_of_get hobj]; rfl))
  have hle := (hnodup.subperm hsub).length_le
  rw [hlength] at hle
  simpa [AList.keys, List.keys] using hle

end Heap

/-! ### Instructions -/

/-- A new cell in front of a list, the second half of every instruction that makes one. -/
def pushCell (head : List Byte) (tailId : HeapId) : VM Unit := do
  tryHeap (·.incRef tailId)
  let listId ← alloc 0 (.list head tailId)
  let oldId ← dstPtr
  setDstPtr listId
  modifyHeap (·.decRef oldId)

theorem consBytes_eq (size : Nat) : consBytes size = (do
    let tailId ← dstPtr
    let vm ← get
    let head ← ofExcept (readConsHead vm size)
    pushCell head tailId) := rfl

theorem opConsp_eq : opConsp = (do
    let ptrId ← srcPtr
    let tailId ← dstPtr
    tryHeap (·.incRef ptrId)
    pushCell (writeWord (List.replicate 4 0) 0 ptrId) tailId) := rfl

/-- The forms of `cons`. -/
inductive ConsForm where
  | b | w | f | l | p | m | mp

def ConsForm.code : ConsForm → VM Unit
  | .b => opConsb
  | .w => opConsw
  | .f => opConsf
  | .l => opConsl
  | .p => opConsp
  | .m => opConsm
  | .mp => opConsmp

/-- The element that an instruction puts in front. -/
def ConsForm.head : ConsForm → VmState → Except ExecError (List Byte)
  | .b, vm => readConsHead vm 1
  | .w, vm => readConsHead vm 4
  | .f, vm | .l, vm => readConsHead vm 8
  | .p, vm => .ok (writeWord (List.replicate 4 0) 0 (vm.readWordAt vm.src vm.immSrc))
  | .m, vm => readConsHead vm (midIndex vm)
  | .mp, vm => readConsHead vm (typedSize vm)

variable {vm vm' : VmState} {d : Nat}

theorem pushCell_cases {head : List Byte} {tail : HeapId} (hdst : vm.dst = .frame d)
    (h : pushCell head tail vm = .ok () vm') : ∃ id heap,
    vm.heap.incRef tail = some (vm.heap.addRef tail) ∧ (vm.heap.addRef tail).alloc 0 (.list head tail) none = some (id, heap) ∧
      vm' = vm.storeSlot (heap.decRef (readWord vm.frames.data d)) d id := by
  unfold pushCell modifyHeap at h
  obtain ⟨_, v, hinc, h⟩ := bind_eq_ok.mp h
  obtain ⟨taken, htaken, rfl⟩ := tryHeap_eq_ok hinc
  obtain rfl := (Heap.incRef_eq_some.mp htaken).2
  obtain ⟨id, u, hid, h⟩ := bind_eq_ok.mp h
  obtain ⟨heap, halloc, rfl⟩ := alloc_eq_ok hid
  rw [bind_ok (dstPtr_apply _)] at h
  refine ⟨id, heap, htaken, halloc, ?_⟩
  have hold : VmState.readWordAt { vm with heap } vm.dst vm.immDst = readWord vm.frames.data d := by
    rw [hdst]
    rfl
  rw [bind_ok (setDstPtr_slot hdst heap id)] at h
  cases h
  rw [← hold]
  rfl

/-- A `cons` takes references for the pointers of its element and pushes a cell. -/
theorem ConsForm.code_cases {form : ConsForm} {head : List Byte} (hdst : vm.dst = .frame d)
    (hhead : form.head vm = .ok head) (h : form.code vm = .ok () vm') : ∃ ids : List HeapId,
    vm.heap.RefsLeft ids ∧ pushCell head (readWord vm.frames.data d)
      { vm with heap := ids.foldl Heap.addRef vm.heap } = .ok () vm' := by
  have hnone : vm.heap.RefsLeft [] := fun i _ => vm.heap.refs_le i
  have hcons {size : Nat} {head : List Byte} {u : VmState} (hframes : u.frames = vm.frames)
      (hdst : u.dst = .frame d) (hhead : readConsHead u size = .ok head)
      (h : consBytes size u = .ok () vm') :
      pushCell head (readWord vm.frames.data d) u = .ok () vm' := by
    rwa [consBytes_eq, bind_ok (dstPtr_apply _), bind_ok (get_apply _), hhead,
      bind_ok (ofExcept_ok _ _), hdst, readWordAt_frame, hframes] at h
  cases form with
  | b | w | f | l => exact ⟨[], hnone, hcons rfl hdst hhead h⟩
  | p =>
      change opConsp vm = _ at h
      have hsrc : srcPtr vm = .ok (vm.readWordAt vm.src vm.immSrc) vm := rfl
      rw [opConsp_eq, bind_ok hsrc, bind_ok (dstPtr_apply vm)] at h
      obtain ⟨_, u, hinc, h⟩ := bind_eq_ok.mp h
      obtain ⟨taken, htaken, rfl⟩ := tryHeap_eq_ok hinc
      obtain ⟨hroom, rfl⟩ := Heap.incRef_eq_some.mp htaken
      cases hhead
      have hold : vm.readWordAt vm.dst vm.immDst = readWord vm.frames.data d := by
        rw [hdst]
        rfl
      rw [hold] at h
      exact ⟨[vm.readWordAt vm.src vm.immSrc], Heap.refsLeft_cons.mpr ⟨hroom, fun i _ =>
        Heap.refs_le _ i⟩, h⟩
  | m =>
      change opConsm vm = _ at h
      unfold opConsm at h
      rw [bind_ok (midWord_apply vm)] at h
      split at h
      · cases h
      · split at h
        · cases h
        · exact ⟨[], hnone, hcons rfl hdst hhead h⟩
  | mp =>
      change opConsmp vm = _ at h
      unfold opConsmp at h
      rw [bind_ok (midWord_apply vm), bind_ok (get_apply vm), ← midIndex, ← typedSize] at h
      split at h
      · cases h
      · cases hmap : vm.traceMapForType (midIndex vm) with
        | none =>
            rw [hmap] at h
            exact ⟨[], hnone, hcons rfl hdst hhead h⟩
        | some ptrMap =>
            rw [hmap] at h
            dsimp only at h
            rw [show readConsHead vm (typedSize vm) = .ok head from hhead,
              bind_ok (ofExcept_ok _ _)] at h
            obtain ⟨_, u, hinc, h⟩ := bind_eq_ok.mp h
            obtain ⟨taken, htaken, rfl⟩ := tryHeap_eq_ok hinc
            rw [Heap.acquirePointers_eq fun _ => rfl] at htaken
            obtain ⟨hroom, rfl⟩ := Heap.foldlM_incRef.mp htaken
            exact ⟨_, hroom, hcons rfl hdst (readConsHead_addRefs hhead _) h⟩

/-! ### Variables -/

theorem readable_listed : Readable Heap.Listed where
  grows hl hg := hl.grows hg
  release hl hc hid := hl.release hc hid

/-- The variables in some slots of the frame stack and the list that each holds. -/
def HoldsLists (slots : Finset Nat) (vm : VmState) (lists : Nat → List (List Byte)) : Prop :=
  SlotsHold Heap.Listed slots vm lists

variable {slots : Finset Nat} {lists : Nat → List (List Byte)} {a b : Nat}

namespace HoldsLists

theorem cons (h : HoldsLists slots vm lists) {form : ConsForm} {head : List Byte}
    (hdst : vm.dst = .frame b) (hb : b ∈ slots) (hhead : form.head vm = .ok head)
    (hrun : form.code vm = .ok () vm') :
    HoldsLists slots vm' (Function.update lists b (head :: lists b)) := by
  obtain ⟨ids, hroom, hpush⟩ := form.code_cases hdst hhead hrun
  have hdst' : ({ vm with heap := ids.foldl Heap.addRef vm.heap } : VmState).dst = .frame b := hdst
  obtain ⟨id, heap, htaken, halloc, rfl⟩ := pushCell_cases hdst' hpush
  dsimp only at htaken halloc
  have halive := h.counted
  rw [pointers_of_mem _ hb] at halive
  have hgrows := (Heap.grows_addRefs vm.heap ids).trans
    (Heap.grows_addRef _ (readWord vm.frames.data b))
  have hacquired := (h.counted.addRefs hroom).acquirePtr (halive.addRefs hroom).alive htaken
  rw [← Heap.childRefs_list head] at hacquired
  obtain ⟨-, -, hget⟩ := Heap.alloc_cases halloc
  have hthere := hget id
  rw [if_pos rfl] at hthere
  have hwhole := hgrows.trans (Heap.grows_alloc halloc)
  exact h.store readable_listed hb hwhole (.cell hthere rfl ((h.reads b hb).grows hwhole))
    (hacquired.allocPtr halloc)

/-- The rest of a list is a list that is there. -/
theorem rest (h : HoldsLists slots vm lists) (hsrc : vm.src = .frame a) (ha : a ∈ slots) :
    ∃ id, opTail vm = movePtrToDst id vm ∧ vm.heap.Listed id (lists a).tail ∧
      (id = nil ∨ (vm.heap.get id).isSome) := by
  have hl := h.reads a ha
  have hcounted := h.counted
  unfold opTail
  rw [bind_ok (srcPtr_slot hsrc)]
  generalize readWord vm.frames.data a = p at hl
  generalize lists a = l at hl
  cases hl with
  | empty =>
      rw [if_pos rfl]
      exact ⟨nil, rfl, .empty, .inl rfl⟩
  | @cell _ tail obj head rest hget hdata hrest =>
      have hne : p ≠ nil := by
        rintro rfl
        rw [Heap.get_nil] at hget
        cases hget
      rw [if_neg hne, bind_ok (get_apply vm), hget, Option.map_some, hdata]
      exact ⟨tail, rfl, hrest, Heap.Listed.tail_alive hcounted hget hdata⟩

theorem tail (h : HoldsLists slots vm lists) (hsrc : vm.src = .frame a) (ha : a ∈ slots)
    (hdst : vm.dst = .frame b) (hb : b ∈ slots) (hrun : opTail vm = .ok () vm') :
    HoldsLists slots vm' (Function.update lists b (lists a).tail) := by
  obtain ⟨id, heq, hl, halive⟩ := h.rest hsrc ha
  exact h.move readable_listed hdst hb hl halive (heq ▸ hrun)

end HoldsLists

theorem lenlLoop_listed {heap : Heap} {id : HeapId} {l : List (List Byte)} (hl : heap.Listed id l)
    {fuel : Nat} (hfuel : l.length < fuel) (len : Word) (vm : VmState) :
    lenlLoop heap fuel id len vm = .ok (len + BitVec.ofNat 32 l.length) vm := by
  induction hl generalizing fuel len with
  | empty =>
      obtain ⟨fuel, rfl⟩ := Nat.exists_eq_add_one_of_ne_zero (Nat.ne_of_gt hfuel)
      rw [lenlLoop, if_pos rfl]
      exact congrArg (Res.ok · vm) (BitVec.add_zero len).symm
  | @cell id tail obj head rest hget hdata _ ih =>
      obtain ⟨fuel, rfl⟩ := Nat.exists_eq_add_one_of_ne_zero (Nat.ne_of_gt (Nat.zero_lt_of_lt hfuel))
      have hne : id ≠ nil := by
        rintro rfl
        rw [Heap.get_nil] at hget
        cases hget
      rw [lenlLoop, if_neg hne, hget, Option.map_some, hdata]
      dsimp only
      have hsum : len + 1 + BitVec.ofNat 32 rest.length = len + BitVec.ofNat 32 (rest.length + 1) := by
        rw [BitVec.ofNat_add, BitVec.add_assoc, BitVec.add_comm 1]
        rfl
      rw [ih (Nat.lt_of_succ_lt_succ hfuel), List.length_cons, hsum]

theorem headRead_listed {id : HeapId} {l : List (List Byte)} (hl : vm.heap.Listed id l) :
    headRead vm id = .ok (l.headD []) := by
  cases hl with
  | empty => rfl
  | cell hget hdata => exact headRead_list hget hdata

/-! ### Runs -/

/-- What an instruction does to the lists of a frame, by what it does to the machine. -/
inductive ListStep (slots : Finset Nat) :
    VmState × (Nat → List (List Byte)) → VmState × (Nat → List (List Byte)) → Prop
  /-- Operands are resolved, and other words of the frame change. -/
  | other {vm vm' : VmState} {lists : Nat → List (List Byte)} : vm'.heap = vm.heap →
      vm'.frames.data.length = vm.frames.data.length →
      (∀ a ∈ slots, readWord vm'.frames.data a = readWord vm.frames.data a) →
      ListStep slots (vm, lists) (vm', lists)
  | cons {vm vm' : VmState} {lists : Nat → List (List Byte)} {b : Nat} {form : ConsForm}
      {head : List Byte} : vm.dst = .frame b → b ∈ slots → form.head vm = .ok head →
      form.code vm = .ok () vm' →
      ListStep slots (vm, lists) (vm', Function.update lists b (head :: lists b))
  | tail {vm vm' : VmState} {lists : Nat → List (List Byte)} {a b : Nat} : vm.src = .frame a →
      a ∈ slots → vm.dst = .frame b → b ∈ slots → opTail vm = .ok () vm' →
      ListStep slots (vm, lists) (vm', Function.update lists b (lists a).tail)
  | copy {vm vm' : VmState} {lists : Nat → List (List Byte)} {a b : Nat} : vm.src = .frame a →
      a ∈ slots → vm.dst = .frame b → b ∈ slots → opMovp vm = .ok () vm' →
      ListStep slots (vm, lists) (vm', Function.update lists b (lists a))
  | clear {vm vm' : VmState} {lists : Nat → List (List Byte)} {b : Nat} :
      vm.readWordAt vm.src vm.immSrc = nil → vm.dst = .frame b → b ∈ slots →
      opMovp vm = .ok () vm' → ListStep slots (vm, lists) (vm', Function.update lists b [])

theorem HoldsLists.step {s t : VmState × (Nat → List (List Byte))} (h : HoldsLists slots s.1 s.2)
    (hstep : ListStep slots s t) : HoldsLists slots t.1 t.2 := by
  cases hstep with
  | other hheap hlength hwords => exact h.congr hheap hlength hwords
  | cons hdst hb hhead hrun => exact h.cons hdst hb hhead hrun
  | tail hsrc ha hdst hb hrun => exact h.tail hsrc ha hdst hb hrun
  | copy hsrc ha hdst hb hrun => exact SlotsHold.copy h readable_listed hsrc ha hdst hb hrun
  | clear hsrc hdst hb hrun => exact SlotsHold.clear h readable_listed .empty hsrc hdst hb hrun

/-- What the instructions for the first element of a list do where it is `head`. -/
structure HeadsRead (vm : VmState) (head : List Byte) : Prop where
  byte : opHeadb vm = setDstByte (head.headD 0) vm
  word : opHeadw vm = setDstWord (headValue readWord 4 head) vm
  real : opHeadf vm = setDstReal (headValue readBig 8 head) vm
  big : opHeadl vm = setDstBig (headValue readBig 8 head) vm
  ptr : opHeadp vm = movePtrToDst (if 4 ≤ head.length then readWord head 0 else nil) vm
  bytes : opHeadm vm = .ok () (vm.modifyBuffer vm.dst (writeFitting head))

theorem headsRead {head : List Byte}
    (hhead : headRead vm (vm.readWordAt vm.src vm.immSrc) = .ok head) : HeadsRead vm head := by
  have hrun {α : Type} (f : List Byte → VM α) : (do
      let listId ← srcPtr
      let vm ← get
      let head ← ofExcept (headRead vm listId)
      f head : VM α) vm = f head vm := by
    rw [bind_ok (show srcPtr vm = _ from srcWord_apply vm), bind_ok (get_apply vm), hhead,
      bind_ok (ofExcept_ok _ _)]
  exact ⟨hrun _, hrun _, hrun _, hrun _, hrun _, hrun _⟩

/-- Whatever lists are made of lists, each variable reads as the list that was last put into it:
its first element, its length and what is left of it, for which no step faults. No element is
released while a variable still reaches it, and no list changes with another that shares its
cells. The rest of a list can be had while the count of its first cell has room. -/
theorem lists_are_values {s t : VmState × (Nat → List (List Byte))}
    (hs : HoldsLists slots s.1 s.2) (hrun : Relation.ReflTransGen (ListStep slots) s t) :
    HoldsLists slots t.1 t.2 ∧ ∀ a ∈ slots, t.1.src = .frame a →
      headRead t.1 (t.1.readWordAt t.1.src t.1.immSrc) = .ok ((t.2 a).headD []) ∧
      HeadsRead t.1 ((t.2 a).headD []) ∧
      opLenl t.1 = setDstWord (BitVec.ofNat 32 (t.2 a).length) t.1 ∧
      ∀ b, t.1.dst = .frame b → ∃ id, t.1.heap.Listed id (t.2 a).tail ∧
        (t.1.heap.refs id < Heap.maxRefs → ∃ vm', opTail t.1 = .ok () vm') ∧
        (¬ t.1.heap.refs id < Heap.maxRefs → opTail t.1 = .panic) := by
  have ht : HoldsLists slots t.1 t.2 := by
    induction hrun with
    | refl => exact hs
    | tail _ hstep ih => exact ih.step hstep
  refine ⟨ht, fun a ha hsrc => ?_⟩
  have hread : t.1.readWordAt t.1.src t.1.immSrc = readWord t.1.frames.data a := by
    rw [hsrc]
    rfl
  have hl := ht.reads a ha
  have hhead : headRead t.1 (t.1.readWordAt t.1.src t.1.immSrc) = .ok ((t.2 a).headD []) := by
    rw [hread]
    exact headRead_listed hl
  refine ⟨hhead, headsRead hhead, ?_, fun b hdst => ?_⟩
  · unfold opLenl
    rw [bind_ok (srcPtr_slot hsrc), bind_ok (get_apply _),
      bind_ok (lenlLoop_listed hl (Nat.lt_succ_of_le hl.length_le) 0 _)]
    exact congrArg (setDstWord · t.1) (BitVec.zero_add _)
  · obtain ⟨id, heq, hrest, -⟩ := ht.rest hsrc ha
    refine ⟨id, hrest, fun hroom => ?_, fun hfull => ?_⟩
    · exact ⟨_, heq.trans (movePtrToDst_frame hdst hroom)⟩
    · rw [heq, movePtrToDst, bind_ok (dstPtr_apply _), bind_apply, tryHeap_panic (if_neg hfull)]

/-- A word pushed on an empty variable is a list of one element. -/
theorem lists_are_values_pushed : ∃ (s t : VmState × (Nat → List (List Byte))),
    HoldsLists {0, 4} s.1 s.2 ∧ s.2 0 = [] ∧ t.2 0 = [[7, 0, 0, 0]] ∧ opLenl t.1 = setDstWord 1 t.1 := by
  obtain ⟨vm, -⟩ : ∃ vm, VmState.withArgs [] true (.ofCode "main" [] 0) [] = some vm := ⟨_, rfl⟩
  let s : VmState := { vm with
    heap := .new, frames := { vm.frames with data := List.replicate 8 0 }
    src := .immediate, immSrc := 7, dst := .frame 0 }
  have hs : HoldsLists {0, 4} s fun _ => [] := by
    refine ⟨show ∀ a ∈ ({0, 4} : Finset Nat), a + 4 ≤ 8 by decide, by decide, fun a ha => ?_,
      fun id => ?_⟩
    · have hnil : readWord s.frames.data a = nil := by
        rcases Finset.mem_insert.mp ha with rfl | ha
        · rfl
        · cases Finset.mem_singleton.mp ha
          rfl
      rw [hnil]
      exact .empty
    · exact Nat.zero_le _
  have hbytes : writeWord (List.replicate 4 0) 0 7 = [7, 0, 0, 0] := by decide
  have hhead : readConsHead s 4 = .ok [7, 0, 0, 0] := congrArg Except.ok hbytes
  have hin : s.Holds s.dst 4 := ⟨by decide, _, _, rfl, show 0 + 4 ≤ 8 by decide⟩
  obtain ⟨u, hu, -⟩ := consBytes_inside hhead hin (.inl rfl)
    (show s.heap.refs nil < Heap.maxRefs from Nat.zero_lt_succ _)
    (show Heap.new.nextId < Heap.new.nextId + 1 by decide)
  have hcode : ConsForm.code .w s = .ok () u := hu
  have hpush : ListStep {0, 4} (s, fun _ => [])
      (u, Function.update (fun _ => []) 0 [[7, 0, 0, 0]]) :=
    .cons rfl (by decide) (show ConsForm.head .w s = _ from hhead) hcode
  have hother : ListStep {0, 4} (u, Function.update (fun _ => []) 0 [[7, 0, 0, 0]])
      ({ u with src := .frame 0 }, Function.update (fun _ => []) 0 [[7, 0, 0, 0]]) :=
    .other rfl rfl fun _ _ => rfl
  have hrun := (Relation.ReflTransGen.single hpush).tail hother
  obtain ⟨-, hreads⟩ := lists_are_values hs hrun
  exact ⟨(s, fun _ => []), (_, Function.update (fun _ => []) 0 [[7, 0, 0, 0]]), hs, rfl, rfl,
    (hreads 0 (by decide) rfl).2.2.1⟩

end RiceVM
