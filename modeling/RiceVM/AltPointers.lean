import RiceVM.Programs

/-!
What the pointers of an alt table denote. `send` and `recv` reach a value through the operand's
address; an alt reaches it through a pointer in its table.
-/
namespace RiceVM
open Exec Memory Buffer
namespace Ops

/-! ### The location of a pointer -/

/-- What a double-indirect operand denotes through a pointer in this memory. -/
def pointerTarget (base : TableBase) (heapRefs : List (HeapId × Nat)) (ptr : Word) : AddrTarget :=
  match base, derefTarget heapRefs ptr 0 with
  | .mp, .frame off => .mp off
  | _, target => target

/-- The pointer of an entry. -/
def altPointer (vm : VmState) (idx : Nat) : Word :=
  match altTableBase vm.src with
  | .ok (base, tableOffset) =>
    readWord (tableBuffer vm.frames vm.mp base) (tableOffset + 8 + idx * 8 + 4)
  | .error _ => 0

/-! ### Transfers as `send` and `recv` make them -/

def transferAt (target : AddrTarget) (entry : AltEntry) (elemSize : Nat)
    (pending : Option (List Byte)) : VM Unit := do
  let vm ← get
  if entry.isSend then
    modify (·.putChannel entry.channelId (readAddrBytes vm target vm.immSrc elemSize))
  else do
    let data := pending.getD (List.replicate elemSize 0)
    modify (·.takeChannel entry.channelId data)
    writeAddrBytes target data

variable {vm : VmState} {chanId : HeapId} {elemSize : Nat}

/-- The entry that an alt selects. -/
structure Selected (vm : VmState) (base : TableBase) (idx : Nat) (entry : AltEntry)
    (elemSize : Nat) (pending : Option (List Byte)) : Prop where
  table : ∃ table, parseAltTable vm.src vm.frames vm.mp = .ok table ∧ table.base = base ∧
    altFault table.entries = none ∧
    firstReady vm 0 table.entries = .ok (some (idx, entry, elemSize, pending))

/-- An alt transfers a value through such a pointer as `send` and `recv` do. -/
def TransfersThrough (base : TableBase) (isSend : Bool) (heapRefs : List (HeapId × Nat))
    (ptr : Word) : Prop :=
  ∀ (vm : VmState) (idx : Nat) (entry : AltEntry) (elemSize : Nat) (pending : Option (List Byte))
    (blocking : Bool), Selected vm base idx entry elemSize pending → entry.isSend = isSend →
    vm.heapRefs = heapRefs → altPointer vm idx = ptr →
    executeAlt blocking vm = (do
      transferAt (pointerTarget base heapRefs ptr) entry elemSize pending
      return AltOutcome.selected idx : VM AltOutcome) vm

/-! ### Pointers into the table's own memory -/

theorem firstReady_entry {vm : VmState} {entries : List AltEntry} {start idx : Nat}
    {entry : AltEntry} {elemSize : Nat} {pending : Option (List Byte)}
    (h : firstReady vm start entries = .ok (some (idx, entry, elemSize, pending))) :
    ∃ i, idx = start + i ∧ entries[i]? = some entry := by
  induction entries generalizing start with
  | nil => cases h
  | cons first rest ih =>
      simp only [firstReady, Bind.bind, Except.bind] at h
      split at h
      · cases h
      · split at h
        · cases h
          exact ⟨0, rfl, rfl⟩
        · obtain ⟨i, rfl, hentry⟩ := ih h
          exact ⟨i + 1, Nat.add_assoc _ _ _ |>.trans (by omega), hentry⟩

theorem dataOffset_altEntries {buf : List Byte} {tableOffset nsend count i : Nat}
    {entry : AltEntry} (h : (altEntries buf tableOffset nsend count)[i]? = some entry) :
    entry.dataOffset = (readWord buf (tableOffset + 8 + i * 8 + 4)).clampUsize := by
  rw [altEntries, List.getElem?_map] at h
  obtain ⟨k, hk, rfl⟩ := Option.map_eq_some_iff.mp h
  obtain ⟨_, rfl⟩ := List.getElem?_eq_some_iff.mp hk
  rw [List.getElem_range]

theorem Selected.dataOffset {base : TableBase} {idx : Nat} {entry : AltEntry}
    {pending : Option (List Byte)} (h : Selected vm base idx entry elemSize pending) :
    entry.dataOffset = (altPointer vm idx).clampUsize := by
  obtain ⟨table, hparse, rfl, -, hready⟩ := h.table
  obtain ⟨i, rfl, hentry⟩ := firstReady_entry hready
  simp only [parseAltTable, Bind.bind, Except.bind] at hparse
  cases hbase : altTableBase vm.src with
  | error e => rw [hbase] at hparse; cases hparse
  | ok place =>
      obtain ⟨base, tableOffset⟩ := place
      simp only [hbase, readAltTable] at hparse
      split at hparse
      · cases hparse
        rw [altPointer, hbase, Nat.zero_add]
        exact dataOffset_altEntries hentry
      · cases hparse

theorem pointerTarget_own (base : TableBase) (heapRefs : List (HeapId × Nat)) {ptr : Word}
    (hptr : ptr ≠ 0) (hlt : ptr.toNat < mpBase) :
    ptr.clampUsize = ptr.toNat ∧ pointerTarget base heapRefs ptr =
      match base with
      | .frame => .frame ptr.toNat
      | .mp => .mp ptr.toNat := by
  have hmsb : ptr.msb = false := by
    rw [BitVec.msb_eq_false_iff_two_mul_lt]
    rw [mpBase] at hlt
    omega
  have hheap : ¬ heapIdBase.toNat ≤ ptr.toNat := by
    rw [mpBase] at hlt
    simp only [heapIdBase]
    exact Nat.not_le.mpr (Nat.lt_trans hlt (by decide))
  have hlimit : ¬ mpLimit ≤ ptr.toNat := by
    rw [mpBase] at hlt
    exact Nat.not_le.mpr (Nat.lt_of_lt_of_le hlt (by decide))
  have hderef : derefTarget heapRefs ptr 0 = .frame ptr.toNat := by
    have hzero : ¬ ptr = 0#32 := hptr
    simp [derefTarget, decodeVirtualAddr, hzero, hmsb, hheap, hlimit, hlt, Nat.not_le.mpr hlt]
  refine ⟨by simp [Word.clampUsize, hmsb], ?_⟩
  cases base <;> simp [pointerTarget, hderef]

theorem executeAlt_selected {base : TableBase} {idx : Nat} {entry : AltEntry}
    {pending : Option (List Byte)} (h : Selected vm base idx entry elemSize pending)
    (blocking : Bool) :
    executeAlt blocking vm = (do
      transfer base entry elemSize pending
      return AltOutcome.selected idx : VM AltOutcome) vm := by
  obtain ⟨table, hparse, rfl, hfault, hready⟩ := h.table
  simp only [executeAlt, bind_apply, get_apply, hparse, ofExcept_ok, hfault, hready]

theorem transfersThrough_own {base : TableBase} {isSend : Bool} {heapRefs : List (HeapId × Nat)}
    {ptr : Word} (hptr : ptr ≠ 0) (hlt : ptr.toNat < mpBase) :
    TransfersThrough base isSend heapRefs ptr := by
  intro vm idx entry elemSize pending blocking hselected _ _ hpointer
  obtain ⟨hclamp, htarget⟩ := pointerTarget_own base heapRefs hptr hlt
  have hoffset : entry.dataOffset = ptr.toNat := by
    rw [hselected.dataOffset, hpointer, hclamp]
  have htransfer : transfer base entry elemSize pending =
      transferAt (pointerTarget base heapRefs ptr) entry elemSize pending := by
    rw [htarget]
    unfold transfer transferAt
    rw [hoffset]
    cases base <;> rfl
  rw [executeAlt_selected hselected, htransfer]

/-! ### Pointers to anywhere else -/

/-- A location outside the memories that a table can be in, or none at all. -/
def Elsewhere : AddrTarget → Prop
  | .none | .moduleMp _ _ | .heapArray _ _ => True
  | _ => False

theorem elsewhere_ite {c : Prop} [Decidable c] {t t' : AddrTarget} (h : Elsewhere t)
    (h' : Elsewhere t') : Elsewhere (if c then t else t') := by
  split
  · exact h
  · exact h'

theorem decodeVirtualAddr_elsewhere {ptr : Word} (h : ptr = 0 ∨ mpBase ≤ ptr.toNat) :
    Elsewhere (decodeVirtualAddr ptr 0) := by
  rcases h with rfl | hle
  · exact True.intro
  · simp only [decodeVirtualAddr, if_pos hle]
    refine elsewhere_ite True.intro (elsewhere_ite True.intro (elsewhere_ite True.intro
      (elsewhere_ite True.intro ?_)))
    generalize ptr.toNat - mpBase = rel
    exact elsewhere_ite True.intro True.intro

theorem pointerTarget_elsewhere {base : TableBase} {heapRefs : List (HeapId × Nat)} {ptr : Word}
    (h : ptr = 0 ∨ mpBase ≤ ptr.toNat) : Elsewhere (pointerTarget base heapRefs ptr) := by
  have hderef : Elsewhere (derefTarget heapRefs ptr 0) := by
    unfold derefTarget
    repeat' split
    all_goals first | exact trivial | exact decodeVirtualAddr_elsewhere h
  unfold pointerTarget
  split
  · next heq =>
      rw [heq] at hderef
      exact hderef.elim
  · exact hderef

theorem readWord_leBytes (pre post : List Byte) (w : Word) :
    readWord (pre ++ (leBytes 4 w.toNat ++ post)) pre.length = w := by
  have hright := readWord_append_right pre (leBytes 4 w.toNat ++ post) 0
  rw [Nat.add_zero] at hright
  rw [hright, readWord_append (by rw [length_leBytes]), readWord,
    if_pos (by rw [length_leBytes]), slice, List.drop_zero,
    List.take_of_length_le (by rw [length_leBytes]), leNat_leBytes]
  apply BitVec.eq_of_toNat_eq
  rw [BitVec.toNat_ofNat]
  have := w.isLt
  omega

/-- A table with one entry at offset 8, in memory that holds a 1 where the entry's pointer is an
offset. -/
def oneEntry (isSend : Bool) (ptr : Word) : List Byte :=
  [1, 0, 0, 0, 0, 0, 0, 0] ++ (leBytes 4 (if isSend then 1 else 0 : Word).toNat ++
    (leBytes 4 (if isSend then 0 else 1 : Word).toNat ++ (leBytes 4 heapIdBase.toNat ++
      (leBytes 4 ptr.toNat ++ List.replicate ptr.clampUsize 1))))

theorem length_oneEntry (isSend : Bool) (ptr : Word) :
    (oneEntry isSend ptr).length = 24 + ptr.clampUsize := by
  simp only [oneEntry, List.length_append, length_leBytes, List.length_replicate, List.length_cons,
    List.length_nil]
  omega

theorem readWords_oneEntry (isSend : Bool) (ptr : Word) :
    readWord (oneEntry isSend ptr) 8 = (if isSend then 1 else 0) ∧
    readWord (oneEntry isSend ptr) 12 = (if isSend then 0 else 1) ∧
    readWord (oneEntry isSend ptr) 16 = heapIdBase ∧ readWord (oneEntry isSend ptr) 20 = ptr := by
  refine ⟨readWord_leBytes _ _ _, ?_, ?_, ?_⟩
  · unfold oneEntry
    rw [← List.append_assoc]
    exact readWord_leBytes _ _ _
  · unfold oneEntry
    rw [← List.append_assoc, ← List.append_assoc]
    exact readWord_leBytes _ _ _
  · unfold oneEntry
    rw [← List.append_assoc, ← List.append_assoc, ← List.append_assoc]
    exact readWord_leBytes _ _ _

theorem getElem?_oneEntry (isSend : Bool) {ptr : Word} (h : ptr = 0 ∨ mpBase ≤ ptr.toNat) :
    (oneEntry isSend ptr)[ptr.clampUsize]? = some 1 := by
  have hcases : ptr.clampUsize = 0 ∨ 24 ≤ ptr.clampUsize := by
    unfold Word.clampUsize
    split
    · exact .inl rfl
    · rcases h with rfl | hle
      · exact .inl rfl
      · rw [mpBase] at hle
        exact .inr (by omega)
  rcases hcases with hzero | hle
  · rw [hzero]
    rfl
  · simp only [oneEntry, ← List.append_assoc]
    rw [List.getElem?_append_right (by simp; omega), List.getElem?_replicate_of_lt (by simp; omega)]

theorem selected_of_words {base : TableBase} {isSend : Bool} {ptr : Word}
    {pending : Option (List Byte)} (hbase : altTableBase vm.src = .ok (base, 8))
    (hwords : let buf := tableBuffer vm.frames vm.mp base
      readWord buf 8 = (if isSend then 1 else 0) ∧ readWord buf 12 = (if isSend then 0 else 1) ∧
        readWord buf 16 = heapIdBase ∧ readWord buf 20 = ptr)
    (hlen : 24 ≤ (tableBuffer vm.frames vm.mp base).length)
    (hchannel : channelRef vm heapIdBase = .ok (1, pending))
    (hready : slotReady isSend pending) :
    Selected vm base 0 ⟨heapIdBase, isSend, ptr.clampUsize⟩ 1 pending := by
  obtain ⟨hsends, hrecvs, hchan, hptr⟩ := hwords
  let table : AltTable := ⟨base, if isSend then 1 else 0, if isSend then 0 else 1,
    [⟨heapIdBase, isSend, ptr.clampUsize⟩]⟩
  have hread : readAltTable (tableBuffer vm.frames vm.mp base) base 8 = .ok table := by
    unfold readAltTable
    rw [hsends, hrecvs]
    cases isSend <;> simp [Word.clampUsize, altEntries, hchan, hptr, table, hlen]
  refine ⟨⟨table, ?_, rfl, ?_, ?_⟩⟩
  · simp only [parseAltTable, hbase, Bind.bind, Except.bind]
    exact hread
  · cases isSend <;> simp [altFault, table, nil, heapIdBase]
  · have hentries : table.entries = [⟨heapIdBase, isSend, ptr.clampUsize⟩] := rfl
    rw [hentries]
    simp only [firstReady, hchannel, Bind.bind, Except.bind, if_pos hready]
    rfl

/-- A machine with that table in its frames and in its data, and with no other module's. -/
def pointed (vm : VmState) (heap : Heap) (base : TableBase) (isSend : Bool)
    (heapRefs : List (HeapId × Nat)) (ptr : Word) (current : Nat) : VmState :=
  { vm with
    frames := ⟨oneEntry isSend ptr, 0, (oneEntry isSend ptr).length⟩
    mp := oneEntry isSend ptr
    src := match base with
      | .frame => .frame 8
      | .mp => .mp 8
    heap := heap
    heapRefs := heapRefs
    currentLoadedModule := some current
    callerMpStack := []
    loadedModules := [] }

section

variable {heap : Heap} {base : TableBase} {isSend : Bool} {heapRefs : List (HeapId × Nat)}
  {ptr : Word} {current : Nat} {pending : Option (List Byte)}

theorem altPointer_pointed :
    altPointer (pointed vm heap base isSend heapRefs ptr current) 0 = ptr := by
  have hwords := readWords_oneEntry isSend ptr
  cases base <;> exact hwords.2.2.2

theorem selected_pointed (hchannel : channelRef (pointed vm heap base isSend heapRefs ptr current)
      heapIdBase = .ok (1, pending)) (hready : slotReady isSend pending) :
    Selected (pointed vm heap base isSend heapRefs ptr current) base 0
      ⟨heapIdBase, isSend, ptr.clampUsize⟩ 1 pending := by
  have hbuffer : tableBuffer (pointed vm heap base isSend heapRefs ptr current).frames
      (pointed vm heap base isSend heapRefs ptr current).mp base = oneEntry isSend ptr := by
    cases base <;> rfl
  have hbase : altTableBase (pointed vm heap base isSend heapRefs ptr current).src =
      .ok (base, 8) := by cases base <;> rfl
  refine selected_of_words hbase ?_ ?_ hchannel hready
  · rw [hbuffer]
    exact readWords_oneEntry isSend ptr
  · rw [hbuffer, length_oneEntry]
    omega

theorem padded_one {buf : List Byte} {off : Nat} {b : Byte} (h : buf[off]? = some b) :
    padded 0 buf off 1 = [b] := by
  obtain ⟨hlt, hget⟩ := List.getElem?_eq_some_iff.mp h
  have hdrop : buf.drop off = b :: buf.drop (off + 1) := by
    rw [List.drop_eq_getElem_cons hlt, hget]
  simp [padded, slice, hdrop]

/-- Nothing of the other modules and of the heap is there to be read. -/
theorem readAddrBytes_pointed {target : AddrTarget} {imm : Word} (h : Elsewhere target)
    (hheap : ∀ id obj, heap.get id = some obj → obj.data.channel?.isSome)
    (hcurrent : ∀ off, target ≠ .moduleMp (current + 1) off) :
    readAddrBytes (pointed vm heap base isSend heapRefs ptr current) target imm 1 = [0] := by
  cases target with
  | frame | mp | immediate => exact h.elim
  | none => rfl
  | heapArray id offset =>
      have hslice : (heap.heapSlice id offset 1).getD [0] = [0] := by
        unfold Heap.heapSlice Heap.heapSliceLoop
        cases hget : heap.get id with
        | none => rfl
        | some obj =>
            have hchannel := hheap id obj hget
            obtain ⟨_, _, _, data⟩ := obj
            cases data <;> first | rfl | cases hchannel
      exact hslice
  | moduleMp idx offset =>
      have hne : idx ≠ current + 1 := fun heq => hcurrent offset (by rw [heq])
      have hnone : (pointed vm heap base isSend heapRefs ptr current).moduleMp idx = none := by
        simp [VmState.moduleMp, pointed, VmState.currentModuleVirtIdx, hne, VmState.parkedSlot,
          rposition]
      simp [readAddrBytes, VmState.buffer?, hnone]

/-- What is received goes nowhere in the memories that a table can be in. -/
theorem writeAddrBytes_pointed {target : AddrTarget} (data : List Byte) (h : Elsewhere target)
    (hcurrent : ∀ off, target ≠ .moduleMp (current + 1) off) {s : VmState}
    (hs : s.currentLoadedModule = some current) :
    ∃ s', writeAddrBytes target data s = .ok () s' ∧ s'.frames = s.frames ∧ s'.mp = s.mp := by
  cases target with
  | heapArray id offset => exact ⟨_, rfl, rfl, rfl⟩
  | frame | mp | immediate => exact h.elim
  | none => exact ⟨_, rfl, rfl, rfl⟩
  | moduleMp idx offset =>
      have hne : idx ≠ s.currentModuleVirtIdx := by
        rw [VmState.currentModuleVirtIdx, hs]
        exact fun heq => hcurrent offset (by rw [heq])
      refine ⟨_, rfl, ?_⟩
      simp only [VmState.modifyBuffer, VmState.modifyModuleMp, if_neg hne]
      split
      · exact ⟨rfl, rfl⟩
      · split <;> exact ⟨rfl, rfl⟩

theorem exists_pointed (base : TableBase) (isSend : Bool) (heapRefs : List (HeapId × Nat))
    (ptr : Word) (current : Nat) : ∃ vm heap, Selected
      (pointed vm heap base isSend heapRefs ptr current) base 0
        ⟨heapIdBase, isSend, ptr.clampUsize⟩ 1 (if isSend then none else some [2]) ∧
      ∀ id obj, heap.get id = some obj → obj.data.channel?.isSome := by
  obtain ⟨vm, -⟩ : ∃ vm, VmState.withArgs [] true (.ofCode "main" [] 0) [] = some vm := ⟨_, rfl⟩
  obtain ⟨heap, halloc⟩ : ∃ heap, Heap.new.alloc 0
      (.channel 1 (if isSend then none else some [2])) none = some (heapIdBase, heap) := ⟨_, rfl⟩
  have hget := (Heap.alloc_cases halloc).2.2
  refine ⟨vm, heap, selected_pointed ?_ ?_, fun id obj hobj => ?_⟩
  · have hnil : heapIdBase ≠ nil := by decide
    simp only [channelRef, if_neg hnil, pointed, hget, if_true]
    rfl
  · cases isSend <;> rfl
  · rw [hget] at hobj
    split at hobj
    · cases hobj
      rfl
    · have hnone : Heap.new.get id = none := by
        unfold Heap.get
        split <;> rfl
      rw [hnone] at hobj
      cases hobj

end

/-- A pointer to anywhere else is taken for an offset into the table's own memory. -/
theorem not_transfersThrough {base : TableBase} {isSend : Bool} {heapRefs : List (HeapId × Nat)}
    {ptr : Word} (hptr : ptr = 0 ∨ mpBase ≤ ptr.toNat) :
    ¬ TransfersThrough base isSend heapRefs ptr := by
  intro h
  have helse : Elsewhere (pointerTarget base heapRefs ptr) := pointerTarget_elsewhere hptr
  obtain ⟨current, hcurrent⟩ : ∃ current, ∀ off,
      pointerTarget base heapRefs ptr ≠ .moduleMp (current + 1) off := by
    cases htarget : pointerTarget base heapRefs ptr with
    | moduleMp idx offset =>
        refine ⟨idx, fun off heq => ?_⟩
        simp at heq
    | _ => exact ⟨0, fun _ heq => nomatch heq⟩
  obtain ⟨vm, heap, hselected, hheap⟩ := exists_pointed base isSend heapRefs ptr current
  have hone := getElem?_oneEntry isSend hptr
  have hbuffer : tableBuffer (pointed vm heap base isSend heapRefs ptr current).frames
      (pointed vm heap base isSend heapRefs ptr current).mp base = oneEntry isSend ptr := by
    cases base <;> rfl
  have hsame := h _ 0 _ 1 _ false hselected rfl rfl altPointer_pointed
  rw [executeAlt_selected hselected] at hsame
  cases isSend with
  | true =>
      let s := pointed vm heap base true heapRefs ptr current
      have hread : readAddrBytes s (pointerTarget base heapRefs ptr) s.immSrc 1 = [0] :=
        readAddrBytes_pointed helse hheap hcurrent
      simp only [bind_apply, transfer, transferAt, get_apply, hbuffer, padded_one hone] at hsame
      injection hsame with _ hstate
      have hhistory := congrArg VmState.history hstate
      injection hhistory with hevent
      injection hevent with _ hvalue
      exact absurd (hvalue.trans hread) (by decide)
  | false =>
      obtain ⟨s', hwrite, hframes, hmp⟩ := writeAddrBytes_pointed [2] helse hcurrent
        (s := (pointed vm heap base false heapRefs ptr current).takeChannel heapIdBase [2]) rfl
      simp only [bind_apply, transfer, transferAt, get_apply, modify_apply, Bool.false_eq_true,
        if_false, Option.getD_some, hwrite] at hsame
      have hat (buf : List Byte) (hbuf : oneEntry false ptr = buf) :
          overlay (oneEntry false ptr) ptr.clampUsize [2] ≠ buf := by
        intro heq
        have hlen := length_oneEntry false ptr
        have hget := congrArg (·[ptr.clampUsize]?) (heq.trans hbuf.symm)
        simp only [hone, overlay] at hget
        have hfits : ptr.clampUsize + [(2 : Byte)].length ≤ (oneEntry false ptr).length := by
          rw [hlen, List.length_singleton]
          omega
        rw [hlen, List.take_of_length_le (by simp), getElem?_splice hfits, if_pos (by simp)] at hget
        simp at hget
      cases base with
      | frame =>
          injection hsame with _ hstate
          have hdata := congrArg (fun s => s.frames.data) hstate
          rw [hframes] at hdata
          exact hat _ rfl hdata
      | mp =>
          injection hsame with _ hstate
          have hdata := congrArg VmState.mp hstate
          rw [hmp] at hdata
          exact hat _ rfl hdata

/-- The pointers through which an alt transfers as `send` and `recv` do are those into the
memory of its table. -/
theorem transfersThrough_iff (base : TableBase) (isSend : Bool) (heapRefs : List (HeapId × Nat))
    (ptr : Word) :
    TransfersThrough base isSend heapRefs ptr ↔ ptr ≠ 0 ∧ ptr.toNat < mpBase := by
  refine ⟨fun h => ?_, fun ⟨hptr, hlt⟩ => transfersThrough_own hptr hlt⟩
  by_contra hnot
  refine not_transfersThrough ?_ h
  by_cases hptr : ptr = 0
  · exact .inl hptr
  · exact .inr (Nat.not_lt.mp fun hlt => hnot ⟨hptr, hlt⟩)

/-- A frame with a table of one send entry, with a pointer to the main module's data. -/
def dataTable : List Byte :=
  [0, 0, 0, 0, 0, 0, 0, 0, 1, 0, 0, 0, 0, 0, 0, 0, 0, 0, 0, 0x10, 0, 0, 0x80, 0]

theorem readWords_dataTable :
    readWord dataTable 8 = 1 ∧ readWord dataTable 12 = 0 ∧ readWord dataTable 16 = heapIdBase ∧
      readWord dataTable 20 = BitVec.ofNat 32 mpBase := by decide

/-- A channel gets a 0 and not the 7 that is there. -/
theorem data_pointer_missed : ¬ TransfersThrough .frame true [] (BitVec.ofNat 32 mpBase) := by
  intro h
  let ptr : Word := BitVec.ofNat 32 mpBase
  obtain ⟨vm, -⟩ : ∃ vm, VmState.withArgs [] true (.ofCode "main" [] 0) [] = some vm := ⟨_, rfl⟩
  obtain ⟨heap, halloc⟩ : ∃ heap, Heap.new.alloc 0 (.channel 1 none) none =
      some (heapIdBase, heap) := ⟨_, rfl⟩
  have hget := (Heap.alloc_cases halloc).2.2
  let s : VmState := { vm with
    frames := ⟨dataTable, 0, 24⟩, mp := [7], src := .frame 8, heap := heap, heapRefs := []
    currentLoadedModule := none }
  have hchannel : channelRef s heapIdBase = .ok (1, none) := by
    have hnil : heapIdBase ≠ nil := by decide
    simp only [channelRef, if_neg hnil, s, hget, if_true]
    rfl
  have hselected : Selected s .frame 0 ⟨heapIdBase, true, ptr.clampUsize⟩ 1 none :=
    selected_of_words rfl readWords_dataTable (Nat.le_refl 24) hchannel rfl
  have hsame := h s 0 _ 1 none false hselected rfl rfl readWords_dataTable.2.2.2
  rw [executeAlt_selected hselected] at hsame
  have hsent : padded 0 dataTable ptr.clampUsize 1 = [0] := by decide
  have hread : readAddrBytes s (pointerTarget .frame [] ptr) s.immSrc 1 = [7] := by
    have htarget : pointerTarget .frame [] ptr = .moduleMp 0 0 := by decide
    rw [htarget]
    rfl
  simp only [bind_apply, transfer, transferAt, get_apply] at hsame
  injection hsame with _ hstate
  have hhistory := congrArg VmState.history hstate
  injection hhistory with hevent
  injection hevent with _ hvalue
  exact absurd (hsent.symm.trans (hvalue.trans hread)) (by decide)

end Ops
end RiceVM
