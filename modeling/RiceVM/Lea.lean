import RiceVM.Ops.Pointer
import RiceVM.Programs

/-!
Addresses that `lea` takes and what an operand finds behind them. A location of the frame stack,
of a module's data or of the heap keeps a window of the address space to itself; a displacement
that leaves the window finds nothing.
-/
namespace RiceVM
open Exec Memory Ops

namespace AddrTarget

/-- A location with bytes of its own. -/
def IsLocation : AddrTarget → Prop
  | .immediate | .none => False
  | _ => True

/-- The location `r` bytes further on, where the window has it. -/
def plus (r : Nat) : AddrTarget → AddrTarget
  | .frame off => if off + r < mpBase then .frame (off + r) else .none
  | .moduleMp moduleIdx offset =>
    if offset + r < mpStride then .moduleMp moduleIdx (offset + r) else .none
  | .heapArray id offset => .heapArray id (offset + r)
  | target => target

/-- A frame location as an operand finds it behind a pointer in module data. -/
def inData : AddrTarget → AddrTarget
  | .frame off => .mp off
  | target => target

end AddrTarget

/-- A location as every module names it: data of the running module under its index. -/
def VmState.located (vm : VmState) : AddrTarget → AddrTarget
  | .mp off => .moduleMp vm.currentModuleVirtIdx off
  | target => target

theorem buffer?_located (vm : VmState) (target : AddrTarget) :
    vm.buffer? (vm.located target) = vm.buffer? target := by
  cases target with
  | mp off =>
      change (vm.moduleMp vm.currentModuleVirtIdx).map (·, off) = some (vm.mp, off)
      rw [VmState.moduleMp, if_pos rfl]
      rfl
  | frame | moduleMp | immediate | none | heapArray => rfl

/-! What the frame window holds. -/

theorem decodeVirtualAddr_frame {addr : Word} {r off : Nat}
    (h : decodeVirtualAddr addr r = .frame off) : 0 < off ∧ off < mpBase := by
  by_cases hzero : addr = 0
  · rw [hzero] at h
    cases h
  have hpos : 0 < addr.toNat := by
    rcases Nat.eq_zero_or_pos addr.toNat with heq | hpos
    · exact absurd (BitVec.eq_of_toNat_eq heq) hzero
    · exact hpos
  unfold decodeVirtualAddr at h
  rw [if_neg hzero] at h
  dsimp only at h
  split at h
  · cases h
  split at h
  · cases h
  split at h
  · cases h
  split at h
  · split at h <;> cases h
  split at h
  · next hlt =>
      cases h
      exact ⟨by omega, hlt⟩
  · cases h

theorem derefTarget_frame {refs : List (HeapId × Nat)} {addr : Word} {r off : Nat}
    (h : derefTarget refs addr r = .frame off) : 0 < off ∧ off < mpBase := by
  unfold derefTarget at h
  split at h
  · cases h
  split at h
  · split at h
    · cases h
    · exact decodeVirtualAddr_frame h
  · exact decodeVirtualAddr_frame h

/-- What an `Except` computation did before it returned. -/
theorem exists_of_bind_ok {ε α β : Type} {x : Except ε α} {f : α → Except ε β} {b : β}
    (h : x >>= f = .ok b) : ∃ a, x = .ok a ∧ f a = .ok b := by
  cases x with
  | error e => cases h
  | ok a => exact ⟨a, rfl, h⟩

theorem frameAddr_window {fpBase addr : Nat} {reg : Word} (hbase : 0 < fpBase)
    (h : frameAddr fpBase reg = .ok addr) : 0 < addr ∧ addr < mpBase := by
  unfold frameAddr at h
  obtain ⟨o, -, h⟩ := exists_of_bind_ok h
  split at h
  · next hlt =>
      cases h
      exact ⟨by omega, hlt⟩
  · cases h

/-- An operand names a place of the frame stack that is not its first and lies in the window. -/
theorem resolveOperand_frame {op : Operand} {fpBase off : Nat} {stackData mpData : List Byte}
    {refs : List (HeapId × Nat)} (hbase : 0 < fpBase)
    (h : resolveOperand op fpBase stackData mpData refs = .ok (.frame off)) :
    0 < off ∧ off < mpBase := by
  unfold resolveOperand at h
  cases hmode : op.mode with
  | offsetIndirectFp =>
      rw [hmode] at h
      obtain ⟨addr, haddr, h⟩ := exists_of_bind_ok h
      cases h
      exact frameAddr_window hbase haddr
  | offsetDoubleIndirectFp =>
      rw [hmode] at h
      obtain ⟨addr, -, h⟩ := exists_of_bind_ok h
      obtain ⟨r, -, h⟩ := exists_of_bind_ok h
      exact derefTarget_frame (Except.ok.inj h)
  | offsetDoubleIndirectMp =>
      rw [hmode] at h
      obtain ⟨addr, -, h⟩ := exists_of_bind_ok h
      obtain ⟨r, -, h⟩ := exists_of_bind_ok h
      generalize derefTarget refs (readWord mpData addr) r = target at h
      cases target <;> cases h
  | offsetIndirectMp =>
      rw [hmode] at h
      obtain ⟨addr, -, h⟩ := exists_of_bind_ok h
      cases h
  | immediate | none | reserved1 | reserved2 =>
      rw [hmode] at h
      cases h

/-! Each window is decoded as it was encoded. -/

theorem decodeVirtualAddr_ofUsize {n r : Nat} (hpos : 0 < n) (hlt : n < mpLimit) :
    decodeVirtualAddr (.ofUsize n) r =
      if mpBase ≤ n then
        if (n - mpBase) % mpStride + r < mpStride then
          .moduleMp ((n - mpBase) / mpStride) ((n - mpBase) % mpStride + r)
        else .none
      else if n + r < mpBase then .frame (n + r) else .none := by
  have hlimit : n < 2 ^ 31 := Nat.lt_trans hlt (by decide)
  have hnat : (Word.ofUsize n).toNat = n := Word.toNat_ofUsize (by omega)
  have hne : Word.ofUsize n ≠ 0 := by
    intro heq
    rw [heq] at hnat
    have : n = 0 := hnat.symm
    omega
  have hheap : ¬ heapIdBase.toNat ≤ n := Nat.not_le.mpr (Nat.lt_trans hlt (by decide))
  unfold decodeVirtualAddr
  rw [if_neg hne, Word.msb_ofUsize hlimit, if_neg (by decide)]
  dsimp only
  rw [hnat, if_neg hheap, if_neg (Nat.not_le.mpr hlt)]

theorem derefTarget_ofUsize {n r : Nat} (refs : List (HeapId × Nat)) (hlt : n < mpLimit) :
    derefTarget refs (.ofUsize n) r = decodeVirtualAddr (.ofUsize n) r := by
  unfold derefTarget
  rw [Word.msb_ofUsize (Nat.lt_trans hlt (by decide)), if_neg (by decide : ¬ false = true)]
  split
  · next hzero =>
      rw [hzero]
      rfl
  · rfl

theorem derefTarget_frameAddr {off r : Nat} (refs : List (HeapId × Nat)) (hpos : 0 < off)
    (hlt : off < mpBase) :
    derefTarget refs (.ofUsize off) r = (AddrTarget.frame off).plus r := by
  have hlimit : off < mpLimit := Nat.lt_trans hlt (by decide)
  rw [derefTarget_ofUsize refs hlimit, decodeVirtualAddr_ofUsize hpos hlimit,
    if_neg (Nat.not_le.mpr hlt)]
  rfl

theorem derefTarget_encodeMpAddr {moduleIdx offset r : Nat} {addr : Word}
    (refs : List (HeapId × Nat)) (h : encodeMpAddr moduleIdx offset = .ok addr) :
    derefTarget refs addr r = (AddrTarget.moduleMp moduleIdx offset).plus r := by
  unfold encodeMpAddr at h
  split at h
  · cases h
  split at h
  · cases h
  next hmodule hoffset =>
    cases h
    rw [Nat.not_le] at hmodule hoffset
    have hrel : mpBase + moduleIdx * mpStride + offset - mpBase =
        moduleIdx * mpStride + offset := by omega
    have hlimit : mpBase + moduleIdx * mpStride + offset < mpLimit := by
      have hle : (moduleIdx + 1) * mpStride ≤ maxModules * mpStride :=
        Nat.mul_le_mul_right _ hmodule
      rw [Nat.add_one_mul] at hle
      unfold mpLimit
      omega
    have hpos : 0 < mpBase + moduleIdx * mpStride + offset := by
      have : 0 < mpBase := by decide
      omega
    rw [derefTarget_ofUsize refs hlimit, decodeVirtualAddr_ofUsize hpos hlimit,
      if_pos (by omega), hrel, Nat.mul_add_mod_self_right, Nat.mod_eq_of_lt hoffset,
      Nat.mul_comm, Nat.mul_add_div (by decide), Nat.div_eq_of_lt hoffset, Nat.add_zero]
    rfl

theorem heapRef_ofUsize {n : Nat} (h : n < 2 ^ 31) :
    (heapRefFlag ||| Word.ofUsize n).msb = true ∧ heapRefIdx (heapRefFlag ||| .ofUsize n) = n := by
  have hflag : heapRefFlag &&& 0x7fffffff = 0#32 := by decide
  have hmask : Word.ofUsize n &&& 0x7fffffff = .ofUsize n := by
    apply BitVec.eq_of_toNat_eq
    rw [BitVec.toNat_and, Word.toNat_ofUsize (by omega)]
    exact (Nat.and_two_pow_sub_one_eq_mod n 31).trans (Nat.mod_eq_of_lt h)
  constructor
  · rw [BitVec.msb_or]
    exact Bool.true_or _
  · rw [heapRefIdx, BitVec.and_or_distrib_right, hflag, hmask, BitVec.zero_or,
      Word.toNat_ofUsize (by omega)]

theorem derefTarget_heapRef {refs more : List (HeapId × Nat)} {id : HeapId} {offset r : Nat}
    (h : refs.length < 2 ^ 31) :
    derefTarget (refs ++ [(id, offset)] ++ more) (heapRefFlag ||| .ofUsize refs.length) r =
      (AddrTarget.heapArray id offset).plus r := by
  obtain ⟨hmsb, hidx⟩ := heapRef_ofUsize h
  have hne : heapRefFlag ||| Word.ofUsize refs.length ≠ 0 := by
    intro heq
    rw [heq] at hmsb
    cases hmsb
  have hentry : (refs ++ [(id, offset)] ++ more)[refs.length]? = some (id, offset) := by
    rw [List.append_assoc, List.getElem?_append_right (Nat.le_refl _), Nat.sub_self]
    rfl
  unfold derefTarget
  rw [if_neg hne, if_pos hmsb, hidx, hentry]
  rfl

/-- What `lea` stores names the location it was taken of, in every later table of references. -/
theorem derefTarget_leaAddr {vm vm' : VmState} {addr : Word} {r : Nat}
    {more : List (HeapId × Nat)}
    (hframe : ∀ off, vm.src = .frame off → 0 < off ∧ off < mpBase)
    (hrefs : vm.heapRefs.length < 2 ^ 31) (hlocation : vm.src.IsLocation)
    (h : leaAddr vm = .ok addr vm') :
    derefTarget (vm'.heapRefs ++ more) addr r = (vm.located vm.src).plus r := by
  unfold leaAddr at h
  rw [bind_ok (get_apply vm)] at h
  cases hsrc : vm.src with
  | frame off =>
      rw [hsrc] at h
      cases h
      exact derefTarget_frameAddr _ (hframe off hsrc).1 (hframe off hsrc).2
  | mp off =>
      rw [hsrc] at h
      cases hencode : encodeMpAddr vm.currentModuleVirtIdx off with
      | error e => simp [hencode] at h
      | ok w =>
          simp only [hencode, ofExcept_ok] at h
          cases h
          exact derefTarget_encodeMpAddr _ hencode
  | moduleMp moduleIdx offset =>
      rw [hsrc] at h
      cases hencode : encodeMpAddr moduleIdx offset with
      | error e => simp [hencode] at h
      | ok w =>
          simp only [hencode, ofExcept_ok] at h
          cases h
          exact derefTarget_encodeMpAddr _ hencode
  | heapArray id offset =>
      rw [hsrc] at h
      cases h
      exact derefTarget_heapRef hrefs
  | immediate | none =>
      rw [hsrc] at hlocation
      exact hlocation.elim

theorem resolveOperand_doubleFp {reg1 reg2 : Word} {fpBase base : Nat}
    {stackData mpData : List Byte} {refs : List (HeapId × Nat)}
    (hbase : frameAddr fpBase reg1 = .ok base) (hreg : reg2.msb = false) :
    resolveOperand ⟨.offsetDoubleIndirectFp, reg1, reg2⟩ fpBase stackData mpData refs =
      .ok (derefTarget refs (readWord stackData base) reg2.toNat) := by
  unfold resolveOperand
  simp only [hbase, offsetOperand, Word.toUsize?, hreg]
  rfl

theorem resolveOperand_doubleMp {reg1 reg2 : Word} {fpBase base : Nat}
    {stackData mpData : List Byte} {refs : List (HeapId × Nat)}
    (hbase : offsetOperand reg1 "mp" = .ok base) (hreg : reg2.msb = false) :
    resolveOperand ⟨.offsetDoubleIndirectMp, reg1, reg2⟩ fpBase stackData mpData refs =
      .ok (derefTarget refs (readWord mpData base) reg2.toNat).inData := by
  have hoffset : offsetOperand reg2 "indirect" = .ok reg2.toNat := by
    simp only [offsetOperand, Word.toUsize?, hreg]
    rfl
  unfold resolveOperand
  simp only [hbase, hoffset]
  change (match derefTarget refs (readWord mpData base) reg2.toNat with
    | .frame off => .ok (.mp off)
    | decoded => .ok decoded : Except ExecError AddrTarget) = _
  cases derefTarget refs (readWord mpData base) reg2.toNat <;> rfl

/-- The address of an operand's location is stored by `lea`, and in every later state a
double-indirect operand through it, with a displacement that is not negative, finds the location
that far on or nothing. A frame slot is found through a pointer that is held in a frame; one
that is held in module data is an offset into that data. -/
theorem lea_decodes {vm vm' : VmState} {op : Operand} {addr : Word}
    (hsrc : resolveOperand op vm.frames.currentDataOffset vm.frames.data vm.mp vm.heapRefs =
      .ok vm.src)
    (hlocation : vm.src.IsLocation) (hrefs : vm.heapRefs.length < 2 ^ 31)
    (h : leaAddr vm = .ok addr vm') :
    opLea vm = setDstWord addr vm' ∧ vm.buffer? (vm.located vm.src) = vm.buffer? vm.src ∧
    ∀ (more : List (HeapId × Nat)) (fpBase base : Nat) (stackData mpData : List Byte)
      (reg1 reg2 : Word), reg2.msb = false →
      (frameAddr fpBase reg1 = .ok base → readWord stackData base = addr →
        resolveOperand ⟨.offsetDoubleIndirectFp, reg1, reg2⟩ fpBase stackData mpData
          (vm'.heapRefs ++ more) = .ok ((vm.located vm.src).plus reg2.toNat)) ∧
      (offsetOperand reg1 "mp" = .ok base → readWord mpData base = addr →
        resolveOperand ⟨.offsetDoubleIndirectMp, reg1, reg2⟩ fpBase stackData mpData
          (vm'.heapRefs ++ more) = .ok ((vm.located vm.src).plus reg2.toNat).inData) := by
  have hframe : ∀ off, vm.src = .frame off → 0 < off ∧ off < mpBase := by
    intro off hoff
    rw [hoff] at hsrc
    exact resolveOperand_frame (Nat.succ_pos _) hsrc
  refine ⟨bind_ok h, buffer?_located vm vm.src, ?_⟩
  intro more fpBase base stackData mpData reg1 reg2 hreg
  have hderef : derefTarget (vm'.heapRefs ++ more) addr reg2.toNat = _ :=
    derefTarget_leaAddr hframe hrefs hlocation h
  constructor
  · intro hbase hheld
    rw [resolveOperand_doubleFp hbase hreg, hheld, hderef]
  · intro hbase hheld
    rw [resolveOperand_doubleMp hbase hreg, hheld, hderef]

/-- A machine at the start of a program, about to take the address of a slot of its frame. -/
theorem exists_taking_slot : ∃ vm : VmState, vm.src = .frame 64 ∧ vm.frames.currentDataOffset = 16 ∧
    vm.heapRefs = [] ∧ leaAddr vm = .ok 64 vm := by
  obtain ⟨vm, -⟩ : ∃ vm, VmState.withArgs [] true (.ofCode "main" [] 0) [] = some vm := ⟨_, rfl⟩
  exact ⟨{ vm with src := .frame 64, frames := .new, heapRefs := [] }, rfl, rfl, rfl, rfl⟩

theorem slot_decodes : ∃ vm : VmState, vm.src = .frame 64 ∧ opLea vm = setDstWord 64 vm ∧
    ∀ stackData, readWord stackData 16 = 64 →
      resolveOperand ⟨.offsetDoubleIndirectFp, 0, 8⟩ 16 stackData [] vm.heapRefs =
        .ok (.frame 72) := by
  obtain ⟨vm, hsrc, hbase, hrefs, hlea⟩ := exists_taking_slot
  have hresolve : resolveOperand ⟨.offsetIndirectFp, 48, 0⟩ vm.frames.currentDataOffset
      vm.frames.data vm.mp vm.heapRefs = .ok vm.src := by
    rw [hbase, hsrc]
    rfl
  obtain ⟨hop, -, hdecodes⟩ := lea_decodes hresolve (by rw [hsrc]; trivial)
    (by rw [hrefs]; decide) hlea
  refine ⟨vm, hsrc, hop, fun stackData hheld => ?_⟩
  have hfound := (hdecodes [] 16 16 stackData [] 0 8 rfl).1 rfl hheld
  rw [List.append_nil, hsrc] at hfound
  exact hfound

/-- The address of a frame slot that is kept in module data is taken for an offset there. -/
theorem slot_kept_in_data : ∃ vm : VmState, vm.src = .frame 64 ∧ opLea vm = setDstWord 64 vm ∧
    resolveOperand ⟨.offsetDoubleIndirectMp, 0, 0⟩ 16 [] [64, 0, 0, 0] vm.heapRefs =
      .ok (.mp 64) := by
  obtain ⟨vm, hsrc, -, hrefs, hlea⟩ := exists_taking_slot
  exact ⟨vm, hsrc, bind_ok hlea, by rw [hrefs]; rfl⟩

end RiceVM
