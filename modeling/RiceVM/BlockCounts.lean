import RiceVM.BlockMoves

/-!
The counts of a typed block move: what the block brings, what it overwrites, and what goes with
the objects freed by that.
-/
namespace RiceVM
open Exec Memory Buffer Ops

/-- The counts after references were acquired and others given up, whatever else was stored. A
freed object gives up the references it owns, and no count overflows. -/
structure CountsMoved (h h' : Heap) (acquired given : List HeapId) : Prop where
  room : h.RefsLeft acquired
  exact : ∃ released : Multiset HeapId, h.owned + ↑given = h'.owned + released ∧
    ∀ i, (h'.get i).map (·.refCount) = (((h.get i).map fun obj =>
      obj.take (acquired.count i)).bind (·.release (released.count i))).map (·.refCount)
  kept : (∀ i obj, h.get i = some obj → 0 < given.count i →
      given.count i < obj.refCount.toNat + acquired.count i) →
    ∀ i, (h'.get i).map (·.refCount.toNat) =
      (h.get i).map fun obj => obj.refCount.toNat + acquired.count i - given.count i

theorem Recounted.moved {h h₁ h' : Heap} {acquired given : List HeapId}
    (hroom : h.RefsLeft acquired) (hr : Recounted h h₁ acquired given)
    (hcounts : ∀ i, (h'.get i).map (·.refCount) = (h₁.get i).map (·.refCount))
    (howned : h'.owned = h₁.owned) : CountsMoved h h' acquired given := by
  refine ⟨hroom, ?_, ?_⟩
  · obtain ⟨released, hsum, hget⟩ := hr.exact
    refine ⟨released, howned ▸ hsum, fun i => ?_⟩
    rw [hcounts, hget]
  · intro hkeep i
    have hcount := congrArg (Option.map BitVec.toNat) (hcounts i)
    rw [Option.map_map, Option.map_map, hr.kept hkeep] at hcount
    refine hcount.trans ?_
    cases hold : h.get i with
    | none => rfl
    | some obj =>
        rw [Option.map_some, Option.map_some, Option.map_some, Function.comp_apply,
          HeapObject.refCount_drop, hroom.refCount hold]

section
variable {vm : VmState}

theorem opMovmp_counts (hdst : vm.Holds vm.dst (typedSize vm))
    (hroom : RefsRoom vm (readBlock vm vm.src (typedSize vm))) : ∃ vm',
    opMovmp vm = .ok () vm' ∧ CountsMoved vm.heap vm'.heap
      (blockRefs vm.heap (readBlock vm vm.src (typedSize vm)) (typedSlots vm))
      (blockRefs vm.heap (vm.bytesAt vm.dst (typedSize vm)) (typedSlots vm)) := by
  refine ⟨_, opMovmp_apply hdst.1 hroom, ?_⟩
  rw [← VmState.readBlock_eq hdst]
  split
  · next hzero =>
      have hempty : ∀ target, readBlock vm target (typedSize vm) = [] := fun target =>
        List.eq_nil_of_length_eq_zero ((vm.length_readBlock target _).trans hzero)
      have hnone : vm.heap.RefsLeft [] := fun i _ => vm.heap.refs_le i
      rw [hempty, hempty, blockRefs_nil]
      exact (recounted hnone fun _ hid => absurd hid List.not_mem_nil).moved hnone (fun _ => rfl) rfl
  · exact (recounted_blocks hroom _).moved hroom (refCount_writeBlock _ _ _)
      (owned_writeBlock _ _ _)

theorem consBytes_panic {size : Nat} {head : List Byte} (hhead : readConsHead vm size = .ok head)
    (hfull : ¬ vm.heap.refs (vm.readWordAt vm.dst vm.immDst) < Heap.maxRefs) :
    consBytes size vm = .panic := by
  unfold consBytes
  rw [bind_ok (dstPtr_apply vm), bind_ok (get_apply vm), hhead, bind_ok (ofExcept_ok _ _), bind_apply,
    tryHeap_panic (if_neg hfull)]

/-- A list is not made where a count has no room for it. -/
theorem opConsmp_panic {head : List Byte} (hsize : typedSize vm ≤ maxConsBytes)
    (hhead : readConsHead vm (typedSize vm) = .ok head)
    (hfull : ¬ ConsRoom vm (blockRefs vm.heap head (typedSlots vm))) : opConsmp vm = .panic := by
  unfold opConsmp
  rw [bind_ok (midWord_apply vm), bind_ok (get_apply vm), ← midIndex, ← typedSize,
    if_neg (Nat.not_lt.mpr hsize)]
  unfold typedSlots at hfull
  cases hmap : vm.traceMapForType (midIndex vm) with
  | none =>
      rw [hmap] at hfull
      refine consBytes_panic hhead fun hroom => hfull (Heap.refsLeft_cons.mpr ⟨hroom, ?_⟩)
      exact fun i _ => Heap.refs_le _ i
  | some ptrMap =>
      rw [hmap, Option.elim_some] at hfull
      dsimp only
      rw [hhead, bind_ok (ofExcept_ok _ _)]
      generalize hacquired : blockRefs vm.heap head (ptrMap.pointerOffsets (typedSize vm)) = acquired
        at hfull
      by_cases hleft : vm.heap.RefsLeft acquired
      · have hacquire := Heap.acquirePointers_of_room (hacquired.symm ▸ hleft)
        rw [hacquired] at hacquire
        rw [bind_ok (tryHeap_apply hacquire)]
        refine consBytes_panic (readConsHead_addRefs hhead acquired) fun hroom => hfull ?_
        dsimp only at hroom
        rw [readWordAt_addRefs] at hroom
        exact hleft.cons hroom
      · have hnone : acquirePointers head (ptrMap.pointerOffsets (typedSize vm)) vm.heap = none := by
          rw [Heap.acquirePointers_eq fun _ => rfl, hacquired]
          exact Option.eq_none_iff_forall_ne_some.mpr fun h hsome =>
            hleft (Heap.foldlM_incRef.mp hsome).1
        rw [bind_apply, tryHeap_panic hnone]

/-- A list that is not made leaves everything as it was. -/
theorem opConsmp_error (hdst : vm.Holds vm.dst 4) (htail : ConsTail vm) (hid : IdLeft vm)
    {e : ExecError} {vm' : VmState} (h : opConsmp vm = .error e vm') : vm' = vm := by
  by_cases hsize : typedSize vm ≤ maxConsBytes
  · cases hhead : readConsHead vm (typedSize vm) with
    | ok head =>
        by_cases hroom : ConsRoom vm (blockRefs vm.heap head (typedSlots vm))
        · obtain ⟨_, hrun, -⟩ := opConsmp_head hsize hhead hdst htail hroom hid
          rw [hrun] at h
          cases h
        · rw [opConsmp_panic hsize hhead hroom] at h
          cases h
    | error e' =>
        unfold opConsmp at h
        rw [bind_ok (midWord_apply vm), bind_ok (get_apply vm), ← midIndex, ← typedSize,
          if_neg (Nat.not_lt.mpr hsize)] at h
        cases hmap : vm.traceMapForType (midIndex vm) with
        | none =>
            rw [hmap] at h
            change consBytes (typedSize vm) vm = _ at h
            unfold consBytes at h
            rw [bind_ok (dstPtr_apply vm), bind_ok (get_apply vm), hhead] at h
            cases h
            rfl
        | some ptrMap =>
            rw [hmap] at h
            dsimp only at h
            rw [hhead] at h
            cases h
            rfl
  · unfold opConsmp at h
    rw [bind_ok (midWord_apply vm), bind_ok (get_apply vm), ← midIndex, ← typedSize,
      if_pos (Nat.not_le.mp hsize)] at h
    cases h
    rfl

/-- A head goes nowhere but to the frame stack and to modules' data, and is not counted. -/
theorem opHeadmp_elsewhere {head : List Byte}
    (hhead : headRead vm (vm.readWordAt vm.src vm.immSrc) = .ok head)
    (hdst : vm.dst = .immediate ∨ vm.dst = .none ∨ ¬ vm.dst.OffHeap) :
    opHeadmp vm = .ok () vm := by
  have hplace : readDstBlock (typedSize vm) vm = .ok none vm ∧
      vm.modifyBuffer vm.dst (writeFitting head) = vm := by
    unfold readDstBlock
    rw [bind_ok (get_apply vm)]
    rcases hdst with heq | heq | hheap
    · rw [heq]
      exact ⟨rfl, rfl⟩
    · rw [heq]
      exact ⟨rfl, rfl⟩
    · cases hloc : vm.dst with
      | heapArray id offset => exact ⟨rfl, rfl⟩
      | frame | mp | moduleMp | immediate | none =>
          rw [hloc] at hheap
          exact absurd (fun _ _ => nofun) hheap
  have hcopy : opHeadm vm = .ok () vm := by
    unfold opHeadm
    rw [bind_ok (show srcPtr vm = _ from srcWord_apply vm), bind_ok (get_apply vm), hhead,
      bind_ok (ofExcept_ok _ _), modify_apply, hplace.2]
  unfold opHeadmp
  rw [bind_ok (midWord_apply vm), bind_ok (get_apply vm), ← midIndex, ← typedSize]
  cases vm.traceMapForType (midIndex vm) with
  | none => exact hcopy
  | some ptrMap =>
      dsimp only
      rw [bind_ok hplace.1]
      exact hcopy

theorem opHeadmp_counts {head : List Byte}
    (hhead : headRead vm (vm.readWordAt vm.src vm.immSrc) = .ok head) (hoff : vm.dst.OffHeap)
    (hdst : vm.Holds vm.dst (typedSize vm)) (hlength : vm.Holds vm.dst head.length)
    (hroom : HeadRoom vm head)
    (hstill : headRead { vm with heap := headHeap vm head }
      ({ vm with heap := headHeap vm head }.readWordAt vm.src vm.immSrc) = .ok head) :
    ∃ vm', opHeadmp vm = .ok () vm' ∧ CountsMoved vm.heap vm'.heap
      (blockRefs vm.heap head (headSlots vm head))
      (blockRefs vm.heap (vm.bytesAt vm.dst (typedSize vm)) (headSlots vm head)) ∧
      vm.Written vm' vm.dst head := by
  obtain ⟨vm', hrun, hw⟩ := opHeadmp_inside hhead hoff hdst hlength hroom hstill
  refine ⟨vm', hrun, ?_, hw⟩
  rw [opHeadmp_apply hhead hoff hdst hroom] at hrun
  have hheap : vm'.heap = headHeap vm head := by
    unfold opHeadm at hrun
    rw [bind_ok (show srcPtr _ = _ from srcWord_apply _), bind_ok (get_apply _), hstill] at hrun
    cases hrun
    exact heap_modifyBuffer _ _ _
  rw [hheap]
  exact (recounted_blocks hroom _).moved hroom (fun _ => rfl) rfl

/-- Reading what a head overwrites changes nothing; it needs room for as many zeros. -/
theorem readDstBlock_cases (vm : VmState) (size : Nat) :
    readDstBlock size vm = .panic ∨ ∃ block, readDstBlock size vm = .ok block vm := by
  have hzeros : (do return some (← unwrap (zeroed size)) : VM (Option (List Byte))) vm = .panic ∨
      ∃ block, (do return some (← unwrap (zeroed size)) : VM (Option (List Byte))) vm =
        .ok block vm := by
    cases zeroed size with
    | none => exact .inl rfl
    | some zeros => exact .inr ⟨some zeros, rfl⟩
  have hfit : ∀ (buf : List Byte) off,
      (if off + size ≤ buf.length then return some (slice buf off size)
        else return some (← unwrap (zeroed size)) : VM (Option (List Byte))) vm = .panic ∨
      ∃ block, (if off + size ≤ buf.length then return some (slice buf off size)
        else return some (← unwrap (zeroed size)) : VM (Option (List Byte))) vm = .ok block vm := by
    intro buf off
    split
    · exact .inr ⟨_, rfl⟩
    · exact hzeros
  unfold readDstBlock
  rw [bind_ok (get_apply vm)]
  cases vm.dst with
  | frame off => exact hfit vm.frames.data off
  | mp off => exact hfit vm.mp off
  | moduleMp moduleIdx offset =>
      dsimp only
      cases vm.moduleMp moduleIdx with
      | none => exact hzeros
      | some mp => exact hfit mp offset
  | immediate | none | heapArray => exact .inr ⟨none, rfl⟩

/-- What is no list leaves everything as it was. -/
theorem opHeadmp_error {e e' : ExecError} {vm' : VmState}
    (hhead : headRead vm (vm.readWordAt vm.src vm.immSrc) = .error e)
    (h : opHeadmp vm = .error e' vm') : vm' = vm := by
  have hcopy : opHeadm vm = .error e vm := by
    unfold opHeadm
    rw [bind_ok (show srcPtr vm = _ from srcWord_apply vm), bind_ok (get_apply vm), hhead]
    rfl
  have hplace := readDstBlock_cases vm (typedSize vm)
  unfold opHeadmp at h
  rw [bind_ok (midWord_apply vm), bind_ok (get_apply vm), ← midIndex, ← typedSize] at h
  cases hmap : vm.traceMapForType (midIndex vm) with
  | none =>
      rw [hmap] at h
      change opHeadm vm = _ at h
      rw [hcopy] at h
      cases h
      rfl
  | some ptrMap =>
      rw [hmap] at h
      dsimp only at h
      rcases hplace with hpanic | ⟨block, hblock⟩
      · rw [bind_apply, hpanic] at h
        cases h
      · rw [bind_ok hblock] at h
        cases block with
        | none =>
            dsimp only at h
            rw [hcopy] at h
            cases h
            rfl
        | some overwritten =>
            dsimp only at h
            rw [bind_ok (show srcPtr vm = _ from srcWord_apply vm), hhead] at h
            cases h
            rfl

end

/-- Typed moves to a range inside its buffer, whatever the source and the type. An object's count
goes up by its occurrences at the pointers of the block that is stored and down by those that
are overwritten, and with an object that this frees go the references it owns. A new list is
one more object, and no other count changes but for the pointers of its head. Where nothing is
stored nothing is counted. Every count has to have room for what it goes up by. -/
theorem typed_moves_count (vm : VmState) :
    (vm.Holds vm.dst (typedSize vm) → RefsRoom vm (readBlock vm vm.src (typedSize vm)) →
      ∃ vm', opMovmp vm = .ok () vm' ∧
      CountsMoved vm.heap vm'.heap
        (blockRefs vm.heap (readBlock vm vm.src (typedSize vm)) (typedSlots vm))
        (blockRefs vm.heap (vm.bytesAt vm.dst (typedSize vm)) (typedSlots vm)) ∧
      (vm.StaysIn vm'.heap vm.dst →
        vm'.bytesAt vm.dst (typedSize vm) = readBlock vm vm.src (typedSize vm))) ∧
    (vm.Holds vm.dst 4 → ConsTail vm → IdLeft vm →
      (∀ head, typedSize vm ≤ maxConsBytes → readConsHead vm (typedSize vm) = .ok head →
        ConsRoom vm (blockRefs vm.heap head (typedSlots vm)) →
        ∃ vm', opConsmp vm = .ok () vm' ∧
          Consed vm vm' head (blockRefs vm.heap head (typedSlots vm))) ∧
      ∀ e vm', opConsmp vm = .error e vm' → vm' = vm) ∧
    (∀ head, headRead vm (vm.readWordAt vm.src vm.immSrc) = .ok head →
      (vm.dst.OffHeap → vm.Holds vm.dst (typedSize vm) → vm.Holds vm.dst head.length →
        HeadRoom vm head →
        headRead { vm with heap := headHeap vm head }
          ({ vm with heap := headHeap vm head }.readWordAt vm.src vm.immSrc) = .ok head →
        ∃ vm', opHeadmp vm = .ok () vm' ∧ CountsMoved vm.heap vm'.heap
          (blockRefs vm.heap head (headSlots vm head))
          (blockRefs vm.heap (vm.bytesAt vm.dst (typedSize vm)) (headSlots vm head)) ∧
          vm'.bytesAt vm.dst head.length = head) ∧
      (vm.dst = .immediate ∨ vm.dst = .none ∨ ¬ vm.dst.OffHeap → opHeadmp vm = .ok () vm)) ∧
    ∀ e, headRead vm (vm.readWordAt vm.src vm.immSrc) = .error e →
      ∀ e' vm', opHeadmp vm = .error e' vm' → vm' = vm := by
  refine ⟨fun hdst hroom => ?_, fun hdst htail hid => ⟨fun head hsize hhead hroom =>
      opConsmp_head hsize hhead hdst htail hroom hid, fun _ _ => opConsmp_error hdst htail hid⟩,
    fun head hhead => ⟨fun hoff hdst hlength hroom hstill => ?_, opHeadmp_elsewhere hhead⟩,
    fun e hhead _ _ => opHeadmp_error hhead⟩
  · obtain ⟨vm', hrun, hcounts⟩ := opMovmp_counts hdst hroom
    obtain ⟨vm'', hrun', hw⟩ := opMovmp_inside hdst hroom
    rw [hrun] at hrun'
    cases hrun'
    refine ⟨vm', hrun, hcounts, fun hstay => ?_⟩
    have hlength := vm.length_readBlock vm.src (typedSize vm)
    have hheld := VmState.bytesAt_written (hlength.symm ▸ hdst) (hw hstay) hstay
    rwa [hlength] at hheld
  · obtain ⟨vm', hrun, hcounts, hw⟩ := opHeadmp_counts hhead hoff hdst hlength hroom hstill
    exact ⟨vm', hrun, hcounts, VmState.bytesAt_written hlength hw fun id offset heq =>
      absurd heq (hoff id offset)⟩

/-- A pointer in a module's data moved over one that was nil. -/
theorem pointer_copy_counted : ∃ vm vm' : VmState, opMovmp vm = .ok () vm' ∧
    vm.mp = [0, 0, 0, 0x10, 0, 0, 0, 0] ∧ vm'.bytesAt (.mp 4) 4 = [0, 0, 0, 0x10] ∧
    CountsMoved vm.heap vm'.heap [0x10000000] [] := by
  obtain ⟨vm, -⟩ : ∃ vm, VmState.withArgs [] true (.ofCode "main" [] 0) [] = some vm := ⟨_, rfl⟩
  obtain ⟨h, halloc⟩ : ∃ h, Heap.new.alloc 0 (.record []) none = some (heapIdBase, h) := ⟨_, rfl⟩
  let s := movingPointer (.mp 0) (.mp 4)
    { vm with mp := [0, 0, 0, 0x10, 0, 0, 0, 0], heap := h, currentLoadedModule := none }
  have hsize : typedSize s = 4 := show (4 : Word).asUsize = 4 by decide
  have hmap : s.traceMapForType (midIndex s) = some (.new [0x80] (4 : Word).asUsize) := rfl
  have hslots : typedSlots s = [0] := by
    rw [typedSlots, hmap, hsize]
    decide
  have hin : s.Holds s.dst (typedSize s) := by
    rw [hsize]
    exact ⟨by decide, _, _, rfl, Nat.le_refl 8⟩
  have hroom : RefsRoom s (readBlock s s.src (typedSize s)) := by
    intro i _
    have hone : s.heap.refs i ≤ 1 := by
      have hnone : Heap.new.refs i = 0 := by
        rw [Heap.refs, Heap.get]
        split <;> rfl
      rw [show s.heap.refs i = _ from Heap.refs_alloc halloc i, hnone]
      split <;> decide
    have hblock : (blockRefs s.heap (readBlock s s.src (typedSize s)) (typedSlots s)).length ≤ 1 := by
      rw [hslots]
      exact List.length_filter_le _ _
    have hcount := Nat.le_trans (List.count_le_length (a := i)) hblock
    rw [Heap.maxRefs]
    omega
  obtain ⟨vm', hrun, hcounts, hheld⟩ := (typed_moves_count s).1 hin hroom
  have hstay : s.StaysIn vm'.heap s.dst := by
    intro _ _ heq
    cases heq
  replace hheld := hheld hstay
  rw [hsize] at hheld
  rw [hsize, hslots] at hcounts
  refine ⟨s, vm', hrun, rfl, hheld, ?_⟩
  cases halloc
  exact hcounts

/-- A list is freed and the list it ends in loses a reference that was not overwritten; a block
that does not fit is counted and not stored. -/
theorem counts_of_freed_and_unstored :
    (∃ vm vm' : VmState, opMovmp vm = .ok () vm' ∧
      blockRefs vm.heap (vm.bytesAt vm.src 4) [0] = [] ∧
      blockRefs vm.heap (vm.bytesAt vm.dst 4) [0] = [0x10000001] ∧
      vm.heap.refs 0x10000000 = 2 ∧ vm'.heap.refs 0x10000000 = 1) ∧
    ∃ vm vm' : VmState, opMovmp vm = .ok () vm' ∧ vm'.mp = vm.mp ∧
      vm.heap.refs 0x10000000 = 1 ∧ vm'.heap.refs 0x10000000 = 2 := by
  refine ⟨?_, ?_⟩
  · refine exists_run [⟨1, 0, none, .list [] 0x10000000⟩, ⟨2, 0, none, .list [] 0⟩]
      (fun vm => movingPointer (.mp 0) (.mp 4) { vm with mp := [0, 0, 0, 0, 1, 0, 0, 0x10] })
      opMovmp (fun vm vm' => _ ∧ _) ?_
    decide +kernel
  · refine exists_run [⟨1, 0, none, .record []⟩]
      (fun vm => movingPointer (.mp 0) (.mp 4) { vm with mp := [0, 0, 0, 0x10, 0, 0] })
      opMovmp (fun vm vm' => _ ∧ _) ?_
    decide +kernel

end RiceVM
