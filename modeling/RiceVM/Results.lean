import RiceVM.Programs

/-!
Results of built-ins. A built-in writes its result into its own frame and, if it is more than a
word, through the return pointer; the call instruction copies a word through the return pointer.
-/
namespace RiceVM
open Exec Memory Buffer

/-! ### Words in buffers -/

namespace Memory

variable {buf : List Byte} {off off' : Nat}

theorem getElem?_writeWord (buf : List Byte) (off : Nat) (w : Word) (i : Nat) :
    (writeWord buf off w)[i]? =
      if off + 4 ≤ buf.length ∧ off ≤ i ∧ i < off + 4 then (leBytes 4 w.toNat)[i - off]?
      else buf[i]? := by
  unfold writeWord
  by_cases hlen : off + 4 ≤ buf.length
  · rw [if_pos hlen, getElem?_splice (by rwa [length_leBytes]), length_leBytes]
    simp only [hlen, true_and]
  · rw [if_neg hlen, if_neg (fun h => hlen h.1)]

theorem writeWord_comm (h : off + 4 ≤ off' ∨ off' + 4 ≤ off) (v w : Word) :
    writeWord (writeWord buf off v) off' w = writeWord (writeWord buf off' w) off v := by
  apply List.ext_getElem?
  intro i
  simp only [getElem?_writeWord, length_writeWord]
  by_cases hi : off ≤ i ∧ i < off + 4
  · have hi' : ¬ (off' ≤ i ∧ i < off' + 4) := by omega
    simp only [hi', and_false, if_false]
  · simp only [hi, and_false, if_false]

theorem leBytes_leNat (bytes : List Byte) : leBytes bytes.length (leNat bytes) = bytes := by
  induction bytes with
  | nil => rfl
  | cons b bytes ih =>
      have hdiv : (b.toNat + 256 * leNat bytes) / 256 = leNat bytes := by
        have := b.isLt
        omega
      simp only [List.length_cons, leBytes, leNat, hdiv, ih]
      congr 1
      apply BitVec.eq_of_toNat_eq
      rw [BitVec.toNat_ofNat]
      have := b.isLt
      omega

theorem leNat_lt (bytes : List Byte) : leNat bytes < 256 ^ bytes.length := by
  induction bytes with
  | nil => exact Nat.one_pos
  | cons b bytes ih =>
      have := b.isLt
      rw [leNat, List.length_cons, Nat.pow_succ]
      omega

/-- Writing back what is there changes nothing. -/
theorem writeWord_readWord (buf : List Byte) (off : Nat) :
    writeWord buf off (readWord buf off) = buf := by
  unfold writeWord readWord
  split
  · next hlen =>
      have hslice : (slice buf off 4).length = 4 := by rw [length_slice]; omega
      have hlt := leNat_lt (slice buf off 4)
      rw [hslice] at hlt
      have hbytes : leBytes 4 (leNat (slice buf off 4)) = slice buf off 4 := by
        have hself := leBytes_leNat (slice buf off 4)
        rwa [hslice] at hself
      have hval : (BitVec.ofNat 32 (leNat (slice buf off 4))).toNat = leNat (slice buf off 4) := by
        rw [BitVec.toNat_ofNat]
        omega
      rw [hval, hbytes]
      simp only [splice, slice, List.append_assoc]
      rw [List.length_take, List.length_drop, Nat.min_eq_left (by omega), ← List.drop_drop,
        List.take_append_drop, List.take_append_drop]
  · rfl

/-- The low and the high word of a big. -/
def lowWord (b : Big) : Word := b.setWidth 32
def highWord (b : Big) : Word := (b >>> 32).setWidth 32

theorem leBytes_add (m n v : Nat) : leBytes (m + n) v = leBytes m v ++ leBytes n (v / 256 ^ m) := by
  induction m generalizing v with
  | zero => simp [leBytes]
  | succ m ih =>
      rw [Nat.succ_add, leBytes, ih, leBytes, List.cons_append, Nat.div_div_eq_div_mul,
        ← Nat.pow_succ']

theorem leBytes_mod (n v : Nat) : leBytes n (v % 256 ^ n) = leBytes n v := by
  have h := leBytes_leNat (leBytes n v)
  rwa [length_leBytes, leNat_leBytes] at h

theorem writeBig_eq (h : off + 8 ≤ buf.length) (b : Big) :
    writeBig buf off b = writeWord (writeWord buf off (lowWord b)) (off + 4) (highWord b) := by
  have hlow : leBytes 4 (lowWord b).toNat = leBytes 4 b.toNat := by
    rw [lowWord, BitVec.toNat_setWidth]
    exact leBytes_mod 4 b.toNat
  have hhigh : leBytes 4 (highWord b).toNat = leBytes 4 (b.toNat / 256 ^ 4) := by
    rw [highWord, BitVec.toNat_setWidth, BitVec.toNat_ushiftRight, Nat.shiftRight_eq_div_pow]
    exact leBytes_mod 4 _
  apply List.ext_getElem?
  intro i
  rw [writeBig, if_pos h, leBytes_add 4 4, getElem?_splice (by simpa using h)]
  simp only [getElem?_writeWord, length_writeWord, hlow, hhigh]
  by_cases hi : off ≤ i ∧ i < off + 8
  · by_cases hi' : i < off + 4
    · rw [if_pos (by simpa using hi), if_neg (by omega), if_pos (by omega),
        List.getElem?_append_left (by rw [length_leBytes]; omega)]
    · rw [if_pos (by simpa using hi), if_pos (by omega),
        List.getElem?_append_right (by rw [length_leBytes]; omega), length_leBytes]
      congr 1
  · rw [if_neg (by simpa using hi), if_neg (by omega), if_neg (by omega)]

theorem readWord_writeBig_disjoint (b : Big) (h : off' + 4 ≤ off ∨ off + 8 ≤ off') :
    readWord (writeBig buf off b) off' = readWord buf off' := by
  unfold writeBig
  split
  · next hi =>
      have hl : off + (leBytes 8 b.toNat).length ≤ buf.length := by rwa [length_leBytes]
      rw [readWord, readWord, length_splice hl,
        slice_splice_disjoint hl (by rwa [length_leBytes])]
  · rfl

theorem readWord_writeBig_self (h : off + 8 ≤ buf.length) (b : Big) :
    readWord (writeBig buf off b) off = lowWord b := by
  rw [writeBig_eq h, readWord_writeWord_disjoint _ (by omega),
    readWord_writeWord_self _ (by omega)]

end Memory

/-! ### Data of a module -/

theorem rposition_modify {α : Type} {p : α → Bool} {f : α → α} (hf : ∀ x, p (f x) = p x)
    (xs : List α) (i : Nat) : rposition p (xs.modify i f) = rposition p xs := by
  induction xs generalizing i with
  | nil => simp
  | cons x xs ih =>
      cases i with
      | zero => simp [rposition, hf]
      | succ i => simp [rposition, ih]

namespace VmState

variable (vm : VmState) (moduleIdx : Nat) (f g : List Byte → List Byte)

theorem currentModuleVirtIdx_modifyModuleMp :
    (vm.modifyModuleMp moduleIdx f).currentModuleVirtIdx = vm.currentModuleVirtIdx := by
  unfold modifyModuleMp
  repeat' split
  all_goals rfl

/-- A write to parked data moves no data. -/
theorem parkedSlot_modify (slot : Nat) :
    rposition (·.1 = moduleIdx) (vm.callerMpStack.modify slot fun e => (e.1, f e.2)) =
      vm.parkedSlot moduleIdx :=
  rposition_modify (f := fun e => (e.1, f e.2)) (fun _ => rfl) _ _

theorem moduleMp_modifyModuleMp :
    (vm.modifyModuleMp moduleIdx f).moduleMp moduleIdx = (vm.moduleMp moduleIdx).map f := by
  rw [moduleMp, currentModuleVirtIdx_modifyModuleMp, moduleMp]
  by_cases hcurrent : moduleIdx = vm.currentModuleVirtIdx
  · simp only [modifyModuleMp, if_pos hcurrent, Option.map_some]
  · simp only [if_neg hcurrent, modifyModuleMp]
    cases hslot : vm.parkedSlot moduleIdx with
    | some slot =>
        have hsame := (parkedSlot_modify vm moduleIdx f slot).trans hslot
        simp only [parkedSlot, hsame, List.getElem?_modify, if_true]
        cases vm.callerMpStack[slot]? <;> rfl
    | none =>
        by_cases hzero : moduleIdx = 0
        · simp only [if_pos hzero, hslot, Option.map_none]
        · have hsame : rposition (·.1 = moduleIdx) vm.callerMpStack = none := hslot
          simp only [if_neg hzero, parkedSlot, hsame, List.getElem?_modify, if_true]
          cases vm.loadedModules[moduleIdx - 1]? <;> rfl

theorem modifyModuleMp_modifyModuleMp :
    (vm.modifyModuleMp moduleIdx f).modifyModuleMp moduleIdx g =
      vm.modifyModuleMp moduleIdx fun mp => g (f mp) := by
  rw [modifyModuleMp, currentModuleVirtIdx_modifyModuleMp, modifyModuleMp]
  by_cases hcurrent : moduleIdx = vm.currentModuleVirtIdx
  · simp only [modifyModuleMp, if_pos hcurrent]
  · simp only [if_neg hcurrent, modifyModuleMp]
    cases hslot : vm.parkedSlot moduleIdx with
    | some slot =>
        have hsame := (parkedSlot_modify vm moduleIdx f slot).trans hslot
        simp only [parkedSlot, hsame, List.modify_modify_eq]
        rfl
    | none =>
        by_cases hzero : moduleIdx = 0
        · simp only [if_pos hzero, hslot]
        · have hsame : rposition (·.1 = moduleIdx) vm.callerMpStack = none := hslot
          simp only [if_neg hzero, parkedSlot, hsame, List.modify_modify_eq]
          rfl

variable {vm moduleIdx f g}

/-- Only the data that is there matters. -/
theorem modifyModuleMp_congr (h : ∀ mp, vm.moduleMp moduleIdx = some mp → f mp = g mp) :
    vm.modifyModuleMp moduleIdx f = vm.modifyModuleMp moduleIdx g := by
  unfold modifyModuleMp
  by_cases hcurrent : moduleIdx = vm.currentModuleVirtIdx
  · simp only [if_pos hcurrent]
    rw [h vm.mp (by rw [moduleMp, if_pos hcurrent])]
  · simp only [if_neg hcurrent]
    cases hslot : vm.parkedSlot moduleIdx with
    | some slot =>
        have hmp : vm.moduleMp moduleIdx = (vm.callerMpStack[slot]?).map (·.2) := by
          simp only [moduleMp, if_neg hcurrent, hslot]
        simp only
        congr 1
        apply List.ext_getElem?
        intro i
        rw [List.getElem?_modify, List.getElem?_modify]
        by_cases hi : slot = i
        · subst hi
          cases hget : vm.callerMpStack[slot]? with
          | none => rfl
          | some e =>
              rw [hget] at hmp
              simp only [if_true, Option.map_some, Option.map_eq_map]
              rw [h e.2 hmp]
        · simp [hi]
    | none =>
        simp only
        split
        · rfl
        · next hzero =>
            have hmp : vm.moduleMp moduleIdx = (vm.loadedModules[moduleIdx - 1]?).map (·.mp) := by
              simp only [moduleMp, if_neg hcurrent, hslot, if_neg hzero]
            congr 1
            apply List.ext_getElem?
            intro i
            rw [List.getElem?_modify, List.getElem?_modify]
            by_cases hi : moduleIdx - 1 = i
            · subst hi
              cases hget : vm.loadedModules[moduleIdx - 1]? with
              | none => rfl
              | some lm =>
                  rw [hget] at hmp
                  simp only [if_true, Option.map_some, Option.map_eq_map]
                  rw [h lm.mp hmp]
            · simp [hi]

end VmState

namespace Ops

/-! ### What a built-in writes -/

/-- What a built-in returns, by the way in which it writes it. -/
inductive Result where
  /-- A word, or the words that `getwindow` and `rect` write in their frame only. -/
  | framed (first : Word) (rest : List Word)
  /-- The words that `write_ret_word` writes. -/
  | through (first : Word) (rest : List Word)
  /-- The position that `seek` returns. -/
  | seek (b : Big)
  /-- A big or a real of the math module. -/
  | wide (b : Big)
  /-- The two parts of a real. -/
  | modf (whole frac : Big)

inductive Shape where
  | framed (rest : Nat)
  | through (rest : Nat)
  | seek | wide | modf
  deriving DecidableEq

def Shape.size : Shape → Nat
  | .framed rest | .through rest => rest + 1
  | .seek | .wide => 2
  | .modf => 4

namespace Result

def shape : Result → Shape
  | .framed _ rest => .framed rest.length
  | .through _ rest => .through rest.length
  | .seek _ => .seek
  | .wide _ => .wide
  | .modf _ _ => .modf

def words : Result → List Word
  | .framed first rest | .through first rest => first :: rest
  | .seek b | .wide b => [lowWord b, highWord b]
  | .modf whole frac => [lowWord whole, highWord whole, lowWord frac, highWord frac]

theorem length_words (r : Result) : r.words.length = r.shape.size := by
  cases r <;> rfl

def first : Result → Word
  | .framed first _ | .through first _ => first
  | .seek b | .wide b | .modf b _ => lowWord b

end Result

def setFrames (f : List Byte → List Byte) : VM Unit :=
  modify fun vm => { vm with frames := { vm.frames with data := f vm.frames.data } }

/-- The words one after the other from `off` on. -/
def writeWords (buf : List Byte) : Nat → List Word → List Byte
  | _, [] => buf
  | off, w :: words => writeWords (writeWord buf off w) (off + 4) words

/-- Write a word of the result through the return pointer. -/
def writeThrough (retPtr : Word) (fieldOffset : Nat) (val : Word) : VM Unit :=
  if retPtr ≠ 0 then
    match decodeVirtualAddr retPtr 0 with
    | .frame off => setFrames (writeWord · (off + fieldOffset) val)
    | .mp off => modify fun vm =>
      if off + fieldOffset + 4 ≤ vm.mp.length then
        { vm with mp := writeWord vm.mp (off + fieldOffset) val }
      else vm
    | _ => pure ()
  else pure ()

def writeRetWord (frameBase fieldOffset : Nat) (val : Word) : VM Unit := do
  let vm ← get
  writeThrough (readWord vm.frames.data (frameBase + 16)) fieldOffset val
  if fieldOffset = 0 then setFrames (writeWord · frameBase val) else pure ()

def writeRetWords (frameBase : Nat) : Nat → List Word → VM Unit
  | _, [] => pure ()
  | fieldOffset, w :: words => do
    writeRetWord frameBase fieldOffset w
    writeRetWords frameBase (fieldOffset + 4) words

def writeSeekResult (frameBase : Nat) (result : Big) : VM Unit := do
  setFrames (writeBig · frameBase result)
  let vm ← get
  let retPtr := readWord vm.frames.data (frameBase + 16)
  if (0 : Word).slt retPtr ∧ retPtr.toNat + 8 ≤ vm.frames.data.length then
    setFrames (writeBig · retPtr.toNat result)
  else pure ()

/-- Write a big or a real through the return pointer. -/
def writeWideThrough (retPtr : Word) (val : Big) : VM Unit :=
  if retPtr ≠ 0 then
    match decodeVirtualAddr retPtr 0 with
    | .frame off => do
      let vm ← get
      if off + 8 ≤ vm.frames.data.length then setFrames (writeBig · off val) else pure ()
    | .moduleMp moduleIdx offset =>
      modify fun vm => vm.modifyModuleMp moduleIdx (writeBig · offset val)
    | _ => pure ()
  else pure ()

/-- `write_real_return` and `write_big_return`. -/
def writeWideReturn (base : Nat) (val : Big) : VM Unit := do
  setFrames (writeBig · base val)
  let vm ← get
  writeWideThrough (readWord vm.frames.data (base + 16)) val

def writeResult (base : Nat) : Result → VM Unit
  | .framed first rest => setFrames (writeWords · base (first :: rest))
  | .through first rest => writeRetWords base 0 (first :: rest)
  | .seek b => writeSeekResult base b
  | .wide b => writeWideReturn base b
  | .modf whole frac => do
    writeWideReturn base whole
    setFrames (writeBig · (base + 8) frac)

/-- What the built-in and the call instruction do with a result. -/
def returnResult (r : Result) : VM Unit := do
  let vm ← get
  writeResult vm.frames.currentDataOffset r
  copyResult

/-! ### What the caller's location is to hold -/

/-- The location `n` bytes further on. -/
def plus (n : Nat) : AddrTarget → AddrTarget
  | .frame off => .frame (off + n)
  | .mp off => .mp (off + n)
  | .moduleMp moduleIdx offset => .moduleMp moduleIdx (offset + n)
  | .heapArray id offset => .heapArray id (offset + n)
  | target => target

def storeWords (target : AddrTarget) : Nat → List Word → VM Unit
  | _, [] => pure ()
  | off, w :: words => do
    writeWordAt (plus off target) w
    storeWords target (off + 4) words

/-- The copy in the built-in's own frame, which is given up afterwards. -/
def ownFrame (base : Nat) (r : Result) (data : List Byte) : List Byte :=
  match r with
  | .framed first rest => writeWords data base (first :: rest)
  | .through first _ => writeWord data base first
  | .seek b | .wide b => writeBig data base b
  | .modf whole frac => writeBig (writeBig data base whole) (base + 8) frac

/-- The word at offset 16 of the built-in's frame. -/
def retPtr (vm : VmState) : Word :=
  readWord vm.frames.data (vm.frames.currentDataOffset + 16)

/-- Where the caller wants the result. -/
def returnTarget (vm : VmState) : AddrTarget := decodeReturnTarget vm (retPtr vm)

/-- Every word of the result is stored at the caller's location, and nothing else is. -/
def StoredWhole (vm : VmState) (r : Result) : Prop :=
  returnResult r vm = (do
    setFrames (ownFrame vm.frames.currentDataOffset r)
    storeWords (returnTarget vm) 0 r.words : VM Unit) vm

/-- The location has room for `n` words: what is stored there can be read. -/
def Room (vm : VmState) (target : AddrTarget) (n : Nat) : Prop :=
  ∀ words s, words.length = n → storeWords target 0 words vm = .ok () s →
    ∀ k w, words[k]? = some w → s.readWordAt (plus (4 * k) target) 0 = w

/-! ### Frames and the other memories -/

def withData (vm : VmState) (data : List Byte) : VmState :=
  { vm with frames := { vm.frames with data := data } }

/-- A built-in runs in its frame, and the caller has room for `n` words outside it. -/
structure Called (vm : VmState) (n : Nat) : Prop where
  frame : vm.frames.currentDataOffset + 20 ≤ vm.frames.data.length
  stack : vm.frames.data.length ≤ mpBase
  few : n ≤ 4
  room : ∀ data, data.length = vm.frames.data.length →
    Room (withData vm data) (returnTarget vm) n
  outside : ∀ off, returnTarget vm = .frame off →
    off + 4 * n ≤ vm.frames.currentDataOffset ∨ vm.frames.currentDataOffset + 20 ≤ off

section

variable {vm : VmState} {data : List Byte}

@[simp] theorem withData_withData (vm : VmState) (data data' : List Byte) :
    withData (withData vm data) data' = withData vm data' := rfl

/-- A location in the data of a module or in the heap. -/
def OffFrame : AddrTarget → Prop
  | .moduleMp _ _ | .heapArray _ _ => True
  | _ => False

theorem modifyModuleMp_withData (moduleIdx : Nat) (f : List Byte → List Byte) :
    (withData vm data).modifyModuleMp moduleIdx f =
      withData (vm.modifyModuleMp moduleIdx f) data := by
  have hcurrent : (withData vm data).currentModuleVirtIdx = vm.currentModuleVirtIdx := rfl
  have hslot : (withData vm data).parkedSlot moduleIdx = vm.parkedSlot moduleIdx := rfl
  rw [VmState.modifyModuleMp, hcurrent, hslot, VmState.modifyModuleMp]
  repeat' split
  all_goals rfl

theorem writeWordAt_moduleMp (moduleIdx offset : Nat) (w : Word) :
    writeWordAt (.moduleMp moduleIdx offset) w vm =
      .ok () (vm.modifyModuleMp moduleIdx (writeWord · offset w)) := rfl

/-- Off the frames, a store and what is read after it have nothing to do with them. -/
theorem writeWordAt_offFrame {target : AddrTarget} (h : OffFrame target) (w : Word)
    (vm : VmState) : ∃ vm', ∀ data, writeWordAt target w (withData vm data) =
      .ok () (withData vm' data) := by
  cases target with
  | frame | mp | immediate | none => exact h.elim
  | moduleMp moduleIdx offset =>
      refine ⟨vm.modifyModuleMp moduleIdx (writeWord · offset w), fun data => ?_⟩
      rw [writeWordAt_moduleMp, modifyModuleMp_withData]
  | heapArray id offset =>
      exact ⟨{ vm with heap := vm.heap.heapWrite id offset (writeWord (List.replicate 4 0) 0 w) },
        fun data => rfl⟩

theorem readWordAt_offFrame {target : AddrTarget} (h : OffFrame target) (vm : VmState)
    (data : List Byte) : (withData vm data).readWordAt target 0 = vm.readWordAt target 0 := by
  cases target with
  | frame | mp | immediate | none => exact h.elim
  | moduleMp | heapArray => rfl

theorem offFrame_plus {target : AddrTarget} (h : OffFrame target) (n : Nat) :
    OffFrame (plus n target) := by
  cases target with
  | frame | mp | immediate | none => exact h.elim
  | moduleMp | heapArray => exact True.intro

/-! ### Return pointers -/

/-- What the call instruction and the built-ins take a return pointer for. -/
inductive Decoded (p : Word) : AddrTarget → AddrTarget → Prop
  | none : Decoded p .none .none
  | frame (hzero : p ≠ 0) (hmsb : p.msb = false) (hlt : p.toNat < mpBase) :
      Decoded p (.frame p.toNat) (.frame p.toNat)
  | moduleMp (moduleIdx offset : Nat) (hzero : p ≠ 0) (hle : mpBase ≤ p.toNat) :
      Decoded p (.moduleMp moduleIdx offset) (.moduleMp moduleIdx offset)
  | heapId (id : HeapId) (offset : Nat) (hzero : p ≠ 0) (hle : mpBase ≤ p.toNat) :
      Decoded p (.heapArray id offset) (.heapArray id offset)
  | heapRef (id : HeapId) (offset : Nat) (hzero : p ≠ 0) (hmsb : p.msb) :
      Decoded p (.heapArray id offset) .none

theorem decoded_ite {p : Word} {c : Prop} [Decidable c] {t t' : AddrTarget}
    (h : c → Decoded p t t) (h' : ¬ c → Decoded p t' t') :
    Decoded p (if c then t else t') (if c then t else t') :=
  iteInduction (motive := fun t => Decoded p t t) h h'

theorem decoded_virtualAddr (p : Word) :
    Decoded p (decodeVirtualAddr p 0) (decodeVirtualAddr p 0) := by
  unfold decodeVirtualAddr
  generalize p.toNat - mpBase = rel
  refine decoded_ite (fun _ => .none) fun hzero => ?_
  refine decoded_ite (fun _ => .none) fun hmsb => ?_
  refine decoded_ite (fun hheap => .heapId p 0 hzero (Nat.le_trans (by decide) hheap)) fun _ => ?_
  refine decoded_ite (fun _ => .none) fun _ => ?_
  refine decoded_ite (fun hbase => ?_) fun hbase => ?_
  · exact decoded_ite (fun _ => .moduleMp _ _ hzero hbase) fun _ => .none
  · exact decoded_ite (fun _ => .frame hzero (by simpa using hmsb) (Nat.not_le.mp hbase))
      fun _ => .none

theorem decoded_returnTarget (vm : VmState) :
    Decoded (retPtr vm) (returnTarget vm) (decodeVirtualAddr (retPtr vm) 0) := by
  unfold returnTarget decodeReturnTarget
  by_cases hzero : retPtr vm = 0
  · rw [hzero]
    exact .none
  · rw [if_neg hzero]
    by_cases hmsb : (retPtr vm).msb
    · have hnone : decodeVirtualAddr (retPtr vm) 0 = .none := by
        rw [decodeVirtualAddr, if_neg hzero, if_pos hmsb]
      rw [if_pos hmsb, hnone]
      split
      · exact .heapRef _ _ hzero hmsb
      · exact .none
    · rw [if_neg hmsb]
      exact decoded_virtualAddr (retPtr vm)

theorem returnTarget_withData
    (hret : readWord data (vm.frames.currentDataOffset + 16) = retPtr vm) :
    returnTarget (withData vm data) = returnTarget vm := by
  have hptr : retPtr (withData vm data) = retPtr vm := hret
  rw [returnTarget, hptr]
  rfl

theorem copyResult_apply (vm : VmState) :
    copyResult vm = writeWordAt (returnTarget vm)
      (readWord vm.frames.data vm.frames.currentDataOffset) vm := by
  have hrun : copyResult vm =
      (if retPtr vm = 0 then pure () else writeWordAt (returnTarget vm)
        (readWord vm.frames.data vm.frames.currentDataOffset) : VM Unit) vm := rfl
  rw [hrun]
  by_cases hzero : retPtr vm = 0
  · rw [if_pos hzero, returnTarget, decodeReturnTarget, if_pos hzero]
    rfl
  · rw [if_neg hzero]

/-! ### The built-in's own frame -/

theorem length_writeWords (buf : List Byte) (off : Nat) (words : List Word) :
    (writeWords buf off words).length = buf.length := by
  induction words generalizing buf off with
  | nil => rfl
  | cons w words ih => rw [writeWords, ih, length_writeWord]

theorem readWord_writeWords {buf : List Byte} {off n : Nat} {words : List Word}
    (h : n + 4 ≤ off ∨ off + 4 * words.length ≤ n) :
    readWord (writeWords buf off words) n = readWord buf n := by
  induction words generalizing buf off with
  | nil => rfl
  | cons w words ih =>
      rw [List.length_cons] at h
      rw [writeWords, ih (by omega), readWord_writeWord_disjoint w (by omega)]

/-- The words that a built-in leaves in its frame. -/
def Result.ownWords : Result → List Word
  | .through first _ => [first]
  | r => r.words

theorem Result.ownWords_eq (r : Result) :
    ∃ rest, r.ownWords = r.first :: rest ∧ rest.length < r.shape.size := by
  cases r with
  | framed first rest => exact ⟨rest, rfl, Nat.lt_succ_self _⟩
  | through first rest => exact ⟨[], rfl, Nat.succ_pos _⟩
  | seek b | wide b => exact ⟨[highWord b], rfl, Nat.one_lt_two⟩
  | modf whole frac =>
      exact ⟨[highWord whole, lowWord frac, highWord frac], rfl, Nat.lt_succ_self 3⟩

theorem ownFrame_eq {base : Nat} (h : base + 16 ≤ data.length) (r : Result) :
    ownFrame base r data = writeWords data base r.ownWords := by
  cases r with
  | framed | through => rfl
  | seek b | wide b => exact writeBig_eq (by omega) b
  | modf whole frac =>
      rw [ownFrame, writeBig_eq (by rw [length_writeBig]; omega), writeBig_eq (by omega)]
      rfl

theorem length_ownFrame (base : Nat) (r : Result) (data : List Byte) :
    (ownFrame base r data).length = data.length := by
  cases r with
  | framed | through => simp only [ownFrame, length_writeWords, length_writeWord]
  | seek | wide | modf => simp only [ownFrame, length_writeBig]

variable {r : Result}

theorem readWord_ownFrame (hc : Called vm r.shape.size) :
    readWord (ownFrame vm.frames.currentDataOffset r vm.frames.data)
      vm.frames.currentDataOffset = r.first := by
  have hframe := hc.frame
  obtain ⟨rest, hwords, -⟩ := r.ownWords_eq
  rw [ownFrame_eq (by omega), hwords, writeWords, readWord_writeWords (by omega),
    readWord_writeWord_self _ (by omega)]

theorem retPtr_ownFrame (hc : Called vm r.shape.size) :
    readWord (ownFrame vm.frames.currentDataOffset r vm.frames.data)
      (vm.frames.currentDataOffset + 16) = retPtr vm := by
  have hframe := hc.frame
  have hfew := hc.few
  obtain ⟨rest, hwords, hlen⟩ := r.ownWords_eq
  rw [ownFrame_eq (by omega), hwords, readWord_writeWords, retPtr]
  rw [List.length_cons]
  omega

theorem returnResult_eq {vm' : VmState} {w : Word}
    (hwrite : writeResult vm.frames.currentDataOffset r vm = .ok () vm')
    (htarget : returnTarget vm' = returnTarget vm)
    (hword : readWord vm'.frames.data vm'.frames.currentDataOffset = w) :
    returnResult r vm = writeWordAt (returnTarget vm) w vm' := by
  have hrun : returnResult r vm =
      (do writeResult vm.frames.currentDataOffset r; copyResult : VM Unit) vm := rfl
  rw [hrun, Exec.bind_ok hwrite, copyResult_apply, htarget, hword]

/-- A built-in that writes in its frame only leaves the caller with the first word. -/
theorem returnResult_own (hc : Called vm r.shape.size)
    (hwrite : writeResult vm.frames.currentDataOffset r vm =
      .ok () (withData vm (ownFrame vm.frames.currentDataOffset r vm.frames.data))) :
    returnResult r vm = writeWordAt (returnTarget vm) r.first
      (withData vm (ownFrame vm.frames.currentDataOffset r vm.frames.data)) :=
  returnResult_eq hwrite (returnTarget_withData (retPtr_ownFrame hc)) (readWord_ownFrame hc)

/-! ### Off the frames -/

theorem writeThrough_offFrame (h : OffFrame (returnTarget vm)) (fieldOffset : Nat) (w : Word) :
    writeThrough (retPtr vm) fieldOffset w = pure () := by
  have hdec := decoded_returnTarget vm
  unfold writeThrough
  generalize returnTarget vm = target at h hdec
  generalize decodeVirtualAddr (retPtr vm) 0 = found at hdec
  cases hdec with
  | none | frame => exact h.elim
  | moduleMp | heapId | heapRef => exact ite_self _

/-- `write_ret_word` reaches the frames only. -/
theorem writeRetWords_offFrame (h : OffFrame (returnTarget vm)) {off : Nat} (hoff : 0 < off)
    (words : List Word) :
    writeRetWords vm.frames.currentDataOffset off words vm = .ok () vm := by
  induction words generalizing off with
  | nil => rfl
  | cons w words ih =>
      have hword : writeRetWord vm.frames.currentDataOffset off w vm = .ok () vm := by
        have hrun : writeRetWord vm.frames.currentDataOffset off w vm =
          (do writeThrough (retPtr vm) off w
              if off = 0 then setFrames (writeWord · vm.frames.currentDataOffset w)
              else pure () : VM Unit) vm := rfl
        rw [hrun, writeThrough_offFrame h, if_neg (by omega)]
        rfl
      rw [writeRetWords, Exec.bind_ok hword]
      exact ih (by omega)

theorem zero_slt {p : Word} (hzero : p ≠ 0) : (0 : Word).slt p = !p.msb := by
  cases hmsb : p.msb with
  | true =>
      have hneg : p.toInt < 0 := by simpa [BitVec.msb_eq_toInt] using hmsb
      simp only [BitVec.slt]
      simpa using Int.le_of_lt hneg
  | false =>
      have hpos : p.toInt = p.toNat := BitVec.toInt_eq_toNat_of_msb hmsb
      have hne : p.toNat ≠ 0 := fun h => hzero (BitVec.eq_of_toNat_eq h)
      simp only [BitVec.slt]
      simpa using by omega

theorem retPtr_writeBig (b : Big) :
    readWord (writeBig vm.frames.data vm.frames.currentDataOffset b)
      (vm.frames.currentDataOffset + 16) = retPtr vm :=
  readWord_writeBig_disjoint b (.inr (by omega))

/-! ### Room -/

theorem storeWords_frame (off n : Nat) (words : List Word) :
    storeWords (.frame off) n words vm =
      .ok () (withData vm (writeWords vm.frames.data (off + n) words)) := by
  induction words generalizing vm n with
  | nil => rfl
  | cons w words ih =>
      have hword : writeWordAt (plus n (.frame off)) w vm =
          .ok () (withData vm (writeWord vm.frames.data (off + n) w)) := rfl
      rw [storeWords, Exec.bind_ok hword, ih]
      rfl

theorem storeWords_none (n : Nat) (words : List Word) :
    storeWords .none n words vm = .ok () vm := by
  induction words generalizing n with
  | nil => rfl
  | cons w words ih =>
      have hword : writeWordAt (plus n .none) w vm = .ok () vm := rfl
      rw [storeWords, Exec.bind_ok hword, ih]

theorem room_frame {off n : Nat} (hn : 0 < n) (h : Room vm (.frame off) n) :
    off + 4 * n ≤ vm.frames.data.length := by
  have hread := h (List.replicate n 1) _ List.length_replicate (storeWords_frame off 0 _) (n - 1) 1
    (List.getElem?_replicate_of_lt (by omega))
  by_contra hlen
  have hzero : readWord (writeWords vm.frames.data (off + 0) (List.replicate n 1))
      (off + 4 * (n - 1)) = 0 := by
    rw [readWord, if_neg (by rw [length_writeWords]; omega)]
  exact absurd (hzero.symm.trans hread) (by decide)

theorem room_none {n : Nat} (hn : 0 < n) : ¬ Room vm .none n := by
  intro h
  have hread : (0 : Word) = 1 := h (List.replicate n 1) vm List.length_replicate
    (storeWords_none 0 _) 0 1 (List.getElem?_replicate_of_lt hn)
  exact absurd hread (by decide)

theorem readWordAt_moduleMp (moduleIdx offset : Nat) :
    vm.readWordAt (.moduleMp moduleIdx offset) 0 =
      ((vm.moduleMp moduleIdx).map (readWord · offset)).getD 0 := by
  show (((vm.moduleMp moduleIdx).map (·, offset)).map fun b => readWord b.1 b.2).getD 0 = _
  rw [Option.map_map]
  rfl

theorem room_moduleMp {moduleIdx offset : Nat} (h : Room vm (.moduleMp moduleIdx offset) 2) :
    ∃ mp, vm.moduleMp moduleIdx = some mp ∧ offset + 8 ≤ mp.length := by
  have hread : ((vm.modifyModuleMp moduleIdx (writeWord · offset 1)).modifyModuleMp moduleIdx
      (writeWord · (offset + 4) 1)).readWordAt (.moduleMp moduleIdx (offset + 4)) 0 = 1 :=
    h [1, 1] _ rfl rfl 1 1 rfl
  rw [readWordAt_moduleMp, VmState.moduleMp_modifyModuleMp,
    VmState.moduleMp_modifyModuleMp] at hread
  cases hdata : vm.moduleMp moduleIdx with
  | none =>
      rw [hdata] at hread
      have hzero : (0 : Word) = 1 := hread
      exact absurd hzero (by decide)
  | some mp =>
      refine ⟨mp, rfl, ?_⟩
      by_contra hlen
      rw [hdata] at hread
      have hzero :
          readWord (writeWord (writeWord mp offset 1) (offset + 4) 1) (offset + 4) = 0 := by
        rw [readWord, if_neg (by rw [length_writeWord, length_writeWord]; omega)]
      exact absurd (hzero.symm.trans hread) (by decide)

/-! ### Bigs and reals -/

/-- `seek` takes a pointer for an offset in the frames. -/
theorem writeSeekResult_apply (hc : Called vm 2) (b : Big) :
    writeResult vm.frames.currentDataOffset (.seek b) vm =
      .ok () (withData vm (match returnTarget vm with
        | .frame off => writeBig (writeBig vm.frames.data vm.frames.currentDataOffset b) off b
        | _ => writeBig vm.frames.data vm.frames.currentDataOffset b)) := by
  have hframe := hc.frame
  have hstack := hc.stack
  have hrun : writeResult vm.frames.currentDataOffset (.seek b) vm =
      (if (0 : Word).slt (readWord (writeBig vm.frames.data vm.frames.currentDataOffset b)
            (vm.frames.currentDataOffset + 16)) ∧
          (readWord (writeBig vm.frames.data vm.frames.currentDataOffset b)
            (vm.frames.currentDataOffset + 16)).toNat + 8 ≤
            (writeBig vm.frames.data vm.frames.currentDataOffset b).length then
        setFrames (writeBig · (readWord (writeBig vm.frames.data vm.frames.currentDataOffset b)
            (vm.frames.currentDataOffset + 16)).toNat b)
      else pure () : VM Unit)
        (withData vm (writeBig vm.frames.data vm.frames.currentDataOffset b)) := rfl
  rw [hrun, retPtr_writeBig, length_writeBig]
  have hroom := hc.room vm.frames.data rfl
  have hdec := decoded_returnTarget vm
  generalize returnTarget vm = target at hroom hdec
  generalize decodeVirtualAddr (retPtr vm) 0 = found at hdec
  cases hdec with
  | none => exact absurd hroom (room_none Nat.two_pos)
  | frame hzero hmsb hlt =>
      have hlen : (retPtr vm).toNat + 4 * 2 ≤ vm.frames.data.length := room_frame Nat.two_pos hroom
      rw [if_pos ⟨by rw [zero_slt hzero, hmsb]; rfl, hlen⟩]
      rfl
  | moduleMp _ _ hzero hle | heapId _ _ hzero hle =>
      rw [if_neg (fun h => by have := h.2; omega)]
      rfl
  | heapRef _ _ hzero hmsb =>
      rw [if_neg (fun h => by have := h.1; rw [zero_slt hzero, hmsb] at this; cases this)]
      rfl

theorem writeWideReturn_apply {n : Nat} (hc : Called vm n) (hn : 2 ≤ n) (b : Big) :
    writeWideReturn vm.frames.currentDataOffset b vm =
      .ok () (match returnTarget vm with
        | .frame off => withData vm
          (writeBig (writeBig vm.frames.data vm.frames.currentDataOffset b) off b)
        | .moduleMp moduleIdx offset => withData (vm.modifyModuleMp moduleIdx (writeBig · offset b))
          (writeBig vm.frames.data vm.frames.currentDataOffset b)
        | _ => withData vm (writeBig vm.frames.data vm.frames.currentDataOffset b)) := by
  have hrun : writeWideReturn vm.frames.currentDataOffset b vm =
      writeWideThrough (readWord (writeBig vm.frames.data vm.frames.currentDataOffset b)
        (vm.frames.currentDataOffset + 16)) b
        (withData vm (writeBig vm.frames.data vm.frames.currentDataOffset b)) := rfl
  rw [hrun, retPtr_writeBig]
  unfold writeWideThrough
  have hroom := hc.room vm.frames.data rfl
  have hdec := decoded_returnTarget vm
  generalize returnTarget vm = target at hroom hdec
  generalize decodeVirtualAddr (retPtr vm) 0 = found at hdec
  cases hdec with
  | none => exact absurd hroom (room_none (by omega))
  | frame hzero hmsb hlt =>
      have hlen : (retPtr vm).toNat + 4 * n ≤ vm.frames.data.length := room_frame (by omega) hroom
      have hfits : (retPtr vm).toNat + 8 ≤
          (writeBig vm.frames.data vm.frames.currentDataOffset b).length := by
        rw [length_writeBig]
        omega
      rw [if_pos hzero]
      exact congrArg (fun m : VM Unit => m _) (if_pos hfits)
  | moduleMp moduleIdx offset hzero hle =>
      rw [if_pos hzero]
      exact congrArg (Res.ok ()) (modifyModuleMp_withData moduleIdx _)
  | heapId _ _ hzero hle | heapRef _ _ hzero hmsb =>
      rw [if_pos hzero]
      rfl

/-! ### Results that are stored whole -/

theorem plus_zero (target : AddrTarget) : plus 0 target = target := by
  cases target <;> rfl

theorem storeWords_one (target : AddrTarget) (w : Word) :
    storeWords target 0 [w] vm = writeWordAt target w vm := by
  have hrun : storeWords target 0 [w] vm =
      (do writeWordAt (plus 0 target) w; pure () : VM Unit) vm := rfl
  rw [hrun, plus_zero, Exec.bind_apply]
  cases writeWordAt target w vm <;> rfl

theorem storedWhole_iff : StoredWhole vm r ↔ returnResult r vm =
    storeWords (returnTarget vm) 0 r.words
      (withData vm (ownFrame vm.frames.currentDataOffset r vm.frames.data)) := Iff.rfl

theorem writeThrough_frame {off : Nat} (h : returnTarget vm = .frame off) (fieldOffset : Nat)
    (w : Word) :
    writeThrough (retPtr vm) fieldOffset w = setFrames (writeWord · (off + fieldOffset) w) := by
  have hdec := decoded_returnTarget vm
  unfold writeThrough
  rw [h] at hdec
  generalize decodeVirtualAddr (retPtr vm) 0 = found at hdec
  cases hdec with
  | frame hzero hmsb hlt => exact if_pos hzero

theorem writeRetWords_frame {off n : Nat} {words : List Word} (h : returnTarget vm = .frame off)
    (hn : 0 < n) (hout : off + n + 4 * words.length ≤ vm.frames.currentDataOffset + 16 ∨
      vm.frames.currentDataOffset + 20 ≤ off + n) :
    writeRetWords vm.frames.currentDataOffset n words vm =
      .ok () (withData vm (writeWords vm.frames.data (off + n) words)) := by
  induction words generalizing vm n with
  | nil => rfl
  | cons w words ih =>
      rw [List.length_cons] at hout
      have hword : writeRetWord vm.frames.currentDataOffset n w vm =
          .ok () (withData vm (writeWord vm.frames.data (off + n) w)) := by
        have hrun : writeRetWord vm.frames.currentDataOffset n w vm =
          (do writeThrough (retPtr vm) n w
              if n = 0 then setFrames (writeWord · vm.frames.currentDataOffset w)
              else pure () : VM Unit) vm := rfl
        rw [hrun, writeThrough_frame h, if_neg (by omega)]
        rfl
      have hret : readWord (writeWord vm.frames.data (off + n) w)
          (vm.frames.currentDataOffset + 16) = retPtr vm := by
        rw [readWord_writeWord_disjoint w (by omega), retPtr]
      have hout' : off + (n + 4) + 4 * words.length ≤ vm.frames.currentDataOffset + 16 ∨
          vm.frames.currentDataOffset + 20 ≤ off + (n + 4) := by omega
      rw [writeRetWords, Exec.bind_ok hword]
      exact ih ((returnTarget_withData hret).trans h) (Nat.succ_pos _) hout'

/-- A word that is there already is not changed by writing it. -/
theorem writeWord_self {buf : List Byte} {off : Nat} {w : Word}
    (h : off + 4 ≤ buf.length → readWord buf off = w) : writeWord buf off w = buf := by
  by_cases hlen : off + 4 ≤ buf.length
  · rw [← h hlen, writeWord_readWord]
  · rw [writeWord, if_neg hlen]

/-- The first word goes into the built-in's frame as well. -/
theorem writeRetWord_first {off : Nat} (h : returnTarget vm = .frame off) (w : Word) :
    writeRetWord vm.frames.currentDataOffset 0 w vm =
      .ok () (withData vm
        (writeWord (writeWord vm.frames.data off w) vm.frames.currentDataOffset w)) := by
  have hrun : writeRetWord vm.frames.currentDataOffset 0 w vm =
    (do writeThrough (retPtr vm) 0 w
        setFrames (writeWord · vm.frames.currentDataOffset w) : VM Unit) vm := rfl
  rw [hrun, writeThrough_frame h]
  rfl

theorem storedWhole_through {off : Nat} {w : Word} {rest : List Word}
    (hc : Called vm (rest.length + 1)) (h : returnTarget vm = .frame off) :
    StoredWhole vm (.through w rest) := by
  have hframe := hc.frame
  have hout := hc.outside off h
  have hret : readWord (writeWord (writeWord vm.frames.data off w) vm.frames.currentDataOffset w)
      (vm.frames.currentDataOffset + 16) = retPtr vm := by
    rw [readWord_writeWord_disjoint w (by omega), readWord_writeWord_disjoint w (by omega), retPtr]
  have hret' : readWord (writeWords (writeWord (writeWord vm.frames.data off w)
      vm.frames.currentDataOffset w) (off + 4) rest) (vm.frames.currentDataOffset + 16) =
        retPtr vm := by
    rw [readWord_writeWords (by omega), hret]
  have hout' : off + (0 + 4) + 4 * rest.length ≤ vm.frames.currentDataOffset + 16 ∨
      vm.frames.currentDataOffset + 20 ≤ off + (0 + 4) := by omega
  have hrest := writeRetWords_frame ((returnTarget_withData hret).trans h) (Nat.succ_pos 3) hout'
  have hwrite : writeResult vm.frames.currentDataOffset (.through w rest) vm = .ok ()
      (withData vm (writeWords (writeWord (writeWord vm.frames.data off w)
        vm.frames.currentDataOffset w) (off + 4) rest)) := by
    have hrun : writeResult vm.frames.currentDataOffset (.through w rest) vm =
      (do writeRetWord vm.frames.currentDataOffset 0 w
          writeRetWords vm.frames.currentDataOffset 4 rest : VM Unit) vm := rfl
    rw [hrun, Exec.bind_ok (writeRetWord_first h w)]
    exact hrest
  have hown : readWord (writeWords (writeWord (writeWord vm.frames.data off w)
      vm.frames.currentDataOffset w) (off + 4) rest) vm.frames.currentDataOffset = w := by
    rw [readWord_writeWords (by omega), readWord_writeWord_self w (by rw [length_writeWord]; omega)]
  -- the copy of the call instruction writes the word that is there
  have hcopy : writeWord (writeWords (writeWord (writeWord vm.frames.data off w)
      vm.frames.currentDataOffset w) (off + 4) rest) off w =
        writeWords (writeWord (writeWord vm.frames.data off w)
          vm.frames.currentDataOffset w) (off + 4) rest := by
    refine writeWord_self fun hlen => ?_
    rw [length_writeWords, length_writeWord, length_writeWord] at hlen
    rw [readWord_writeWords (by omega), readWord_writeWord_disjoint w (by omega),
      readWord_writeWord_self w hlen]
  rw [storedWhole_iff, returnResult_eq hwrite (returnTarget_withData hret') hown, h,
    storeWords_frame]
  refine congrArg (fun data => Res.ok () (withData vm data)) (hcopy.trans ?_)
  rw [writeWord_comm (by omega)]
  rfl

/-- A big that went to the frames is there whole. -/
theorem storedWhole_big {off : Nat} {b : Big} (hc : Called vm 2) (h : returnTarget vm = .frame off)
    (hwords : r.words = [lowWord b, highWord b])
    (hown : ownFrame vm.frames.currentDataOffset r vm.frames.data =
      writeBig vm.frames.data vm.frames.currentDataOffset b)
    (hwrite : writeResult vm.frames.currentDataOffset r vm = .ok () (withData vm
      (writeBig (writeBig vm.frames.data vm.frames.currentDataOffset b) off b))) :
    StoredWhole vm r := by
  have hframe := hc.frame
  have hout := hc.outside off h
  have hroom := hc.room vm.frames.data rfl
  rw [h] at hroom
  have hfits : off + 4 * 2 ≤ vm.frames.data.length := room_frame Nat.two_pos hroom
  have hbig : writeBig (writeBig vm.frames.data vm.frames.currentDataOffset b) off b =
      writeWord (writeWord (writeBig vm.frames.data vm.frames.currentDataOffset b) off (lowWord b))
        (off + 4) (highWord b) := writeBig_eq (by rw [length_writeBig]; omega) b
  have hret : readWord (writeBig (writeBig vm.frames.data vm.frames.currentDataOffset b) off b)
      (vm.frames.currentDataOffset + 16) = retPtr vm := by
    rw [readWord_writeBig_disjoint _ (by omega), retPtr_writeBig]
  have hlow : readWord (writeBig (writeBig vm.frames.data vm.frames.currentDataOffset b) off b)
      vm.frames.currentDataOffset = lowWord b := by
    rw [readWord_writeBig_disjoint _ (by omega), readWord_writeBig_self (by omega)]
  have hcopy : writeWord (writeBig (writeBig vm.frames.data vm.frames.currentDataOffset b) off b)
      off (lowWord b) =
        writeBig (writeBig vm.frames.data vm.frames.currentDataOffset b) off b :=
    writeWord_self fun _ => readWord_writeBig_self (by rw [length_writeBig]; omega) b
  rw [storedWhole_iff, returnResult_eq hwrite (returnTarget_withData hret) hlow, h, hown, hwords,
    storeWords_frame]
  exact congrArg (fun data => Res.ok () (withData vm data)) (hcopy.trans hbig)

theorem returnTarget_modifyModuleMp (moduleIdx : Nat) (f : List Byte → List Byte) :
    returnTarget (vm.modifyModuleMp moduleIdx f) = returnTarget vm := by
  unfold VmState.modifyModuleMp
  repeat' split
  all_goals rfl

theorem frames_modifyModuleMp (moduleIdx : Nat) (f : List Byte → List Byte) :
    (vm.modifyModuleMp moduleIdx f).frames = vm.frames := by
  unfold VmState.modifyModuleMp
  repeat' split
  all_goals rfl

theorem storedWhole_wide_moduleMp {moduleIdx offset : Nat} {b : Big} (hc : Called vm 2)
    (h : returnTarget vm = .moduleMp moduleIdx offset) : StoredWhole vm (.wide b) := by
  have hroom := hc.room vm.frames.data rfl
  rw [h] at hroom
  obtain ⟨mp, hmp, hfits⟩ : ∃ mp, vm.moduleMp moduleIdx = some mp ∧ offset + 8 ≤ mp.length :=
    room_moduleMp hroom
  have hwrite : writeResult vm.frames.currentDataOffset (.wide b) vm =
      .ok () (withData (vm.modifyModuleMp moduleIdx (writeBig · offset b))
        (writeBig vm.frames.data vm.frames.currentDataOffset b)) := by
    have hwide := writeWideReturn_apply hc (Nat.le_refl 2) b
    rw [h] at hwide
    exact hwide
  have htarget : returnTarget (withData (vm.modifyModuleMp moduleIdx (writeBig · offset b))
      (writeBig vm.frames.data vm.frames.currentDataOffset b)) = returnTarget vm := by
    rw [← modifyModuleMp_withData, returnTarget_modifyModuleMp,
      returnTarget_withData (retPtr_writeBig b)]
  have hlow : readWord (writeBig vm.frames.data vm.frames.currentDataOffset b)
      (vm.modifyModuleMp moduleIdx (writeBig · offset b)).frames.currentDataOffset = lowWord b := by
    rw [frames_modifyModuleMp]
    exact readWord_ownFrame (r := .wide b) hc
  -- the low word is written again over itself
  have hsame : (vm.modifyModuleMp moduleIdx (writeBig · offset b)).modifyModuleMp moduleIdx
      (writeWord · offset (lowWord b)) =
        (vm.modifyModuleMp moduleIdx (writeWord · offset (lowWord b))).modifyModuleMp moduleIdx
          (writeWord · (offset + 4) (highWord b)) := by
    rw [VmState.modifyModuleMp_modifyModuleMp, VmState.modifyModuleMp_modifyModuleMp]
    refine VmState.modifyModuleMp_congr fun data hdata => ?_
    rw [hmp] at hdata
    cases hdata
    rw [writeWord_self fun _ => readWord_writeBig_self hfits b, writeBig_eq hfits]
  have hstore : storeWords (.moduleMp moduleIdx offset) 0 (Result.wide b).words
      (withData vm (writeBig vm.frames.data vm.frames.currentDataOffset b)) =
        .ok () (((withData vm
          (writeBig vm.frames.data vm.frames.currentDataOffset b)).modifyModuleMp moduleIdx
            (writeWord · offset (lowWord b))).modifyModuleMp moduleIdx
              (writeWord · (offset + 4) (highWord b))) := rfl
  rw [storedWhole_iff, returnResult_eq hwrite htarget hlow, h, ownFrame, hstore,
    modifyModuleMp_withData, modifyModuleMp_withData, ← hsame, writeWordAt_moduleMp,
    modifyModuleMp_withData]

/-- What goes through a return pointer off the frames goes as the call instruction has it. -/
theorem writeResult_through {w : Word} {rest : List Word} (hc : Called vm (rest.length + 1))
    (h : OffFrame (returnTarget vm)) :
    writeResult vm.frames.currentDataOffset (.through w rest) vm =
      .ok () (withData vm (writeWord vm.frames.data vm.frames.currentDataOffset w)) := by
  have hword : writeRetWord vm.frames.currentDataOffset 0 w vm =
      .ok () (withData vm (writeWord vm.frames.data vm.frames.currentDataOffset w)) := by
    have hrun : writeRetWord vm.frames.currentDataOffset 0 w vm =
      (do writeThrough (retPtr vm) 0 w
          setFrames (writeWord · vm.frames.currentDataOffset w) : VM Unit) vm := rfl
    rw [hrun, writeThrough_offFrame h]
    rfl
  have htarget : returnTarget
      (withData vm (writeWord vm.frames.data vm.frames.currentDataOffset w)) = returnTarget vm :=
    returnTarget_withData (retPtr_ownFrame (r := .through w rest) hc)
  have hrun : writeResult vm.frames.currentDataOffset (.through w rest) vm =
    (do writeRetWord vm.frames.currentDataOffset 0 w
        writeRetWords vm.frames.currentDataOffset 4 rest : VM Unit) vm := rfl
  rw [hrun, Exec.bind_ok hword]
  exact writeRetWords_offFrame (htarget ▸ h) (Nat.succ_pos 3) rest

/-- The location of a return pointer. -/
theorem returnTarget_cases {n : Nat} (hn : 0 < n) (hc : Called vm n) :
    (∃ off, returnTarget vm = .frame off) ∨ OffFrame (returnTarget vm) := by
  have hroom := hc.room vm.frames.data rfl
  have hdec := decoded_returnTarget vm
  generalize returnTarget vm = target at hroom hdec ⊢
  generalize decodeVirtualAddr (retPtr vm) 0 = found at hdec
  cases hdec with
  | none => exact absurd hroom (room_none hn)
  | frame => exact .inl ⟨_, rfl⟩
  | moduleMp | heapId | heapRef => exact .inr True.intro

/-- The call instruction itself stores a result of one word. -/
theorem storedWhole_one (hc : Called vm r.shape.size) (hsize : r.shape.size = 1) :
    StoredWhole vm r := by
  have hown (hwords : r.words = [r.first])
      (hwrite : writeResult vm.frames.currentDataOffset r vm = .ok ()
        (withData vm (ownFrame vm.frames.currentDataOffset r vm.frames.data))) :
      StoredWhole vm r := by
    rw [storedWhole_iff, returnResult_own hc hwrite, hwords, storeWords_one]
  cases r with
  | framed w rest =>
      have hrest : rest = [] := List.length_eq_zero_iff.mp (Nat.succ.inj hsize)
      subst hrest
      exact hown rfl rfl
  | through w rest =>
      have hrest : rest = [] := List.length_eq_zero_iff.mp (Nat.succ.inj hsize)
      subst hrest
      rcases returnTarget_cases Nat.one_pos hc with ⟨off, htarget⟩ | hoff
      · exact storedWhole_through hc htarget
      · exact hown rfl (writeResult_through hc hoff)
  | seek | wide | modf => cases hsize

/-! ### Results that are not -/

theorem toNat_append_zero (w : Word) : (w ++ (0 : Word) : Big).toNat = w.toNat * 2 ^ 32 :=
  (BitVec.toNat_append w (0 : Word)).trans (by simp [Nat.shiftLeft_eq])

theorem lowWord_append (w : Word) : lowWord (w ++ (0 : Word)) = 0 := by
  apply BitVec.eq_of_toNat_eq
  rw [lowWord, BitVec.toNat_setWidth, toNat_append_zero, Nat.mul_mod_left]
  rfl

theorem highWord_append (w : Word) : highWord (w ++ (0 : Word)) = w := by
  apply BitVec.eq_of_toNat_eq
  rw [highWord, BitVec.toNat_setWidth, BitVec.toNat_ushiftRight, toNat_append_zero,
    Nat.shiftRight_eq_div_pow, Nat.mul_div_cancel _ (by decide), Nat.mod_eq_of_lt w.isLt]

/-- A result with `w` as a word that is not its first. -/
def sample : Shape → Word → Result
  | .framed rest, w => .framed 0 (w :: List.replicate (rest - 1) 0)
  | .through rest, w => .through 0 (w :: List.replicate (rest - 1) 0)
  | .seek, w => .seek (w ++ (0 : Word))
  | .wide, w => .wide (w ++ (0 : Word))
  | .modf, w => .modf 0 (w ++ (0 : Word))

def Shape.sampled : Shape → Nat
  | .modf => 3
  | _ => 1

variable {shape : Shape}

theorem sample_spec (hsize : shape.size ≠ 1) (w : Word) :
    (sample shape w).shape = shape ∧ (sample shape w).words[shape.sampled]? = some w ∧
      (sample shape w).first = 0 := by
  cases shape with
  | framed rest | through rest =>
      have hrest : rest ≠ 0 := fun h => hsize (by rw [h]; rfl)
      refine ⟨?_, rfl, rfl⟩
      simp only [sample, Result.shape, List.length_cons, List.length_replicate]
      rw [Nat.sub_add_cancel (Nat.pos_of_ne_zero hrest)]
  | seek | wide =>
      exact ⟨rfl, congrArg some (highWord_append w), lowWord_append w⟩
  | modf => exact ⟨rfl, congrArg some (highWord_append w), rfl⟩

/-- A word that the run does not depend on is lost. -/
theorem not_storedWhole (hc : Called vm shape.size) (hsize : shape.size ≠ 1) {c : Word}
    (hrun : ∀ w, ∃ s, returnResult (sample shape w) vm = .ok () s ∧
      s.readWordAt (plus (4 * shape.sampled) (returnTarget vm)) 0 = c) :
    ¬ ∀ r : Result, r.shape = shape → StoredWhole vm r := by
  intro hall
  obtain ⟨hshape, hword, -⟩ := sample_spec hsize (c + 1)
  obtain ⟨s, hs, hread⟩ := hrun (c + 1)
  have hstored := storedWhole_iff.mp (hall _ hshape)
  have hlen : (sample shape (c + 1)).words.length = shape.size := by
    rw [Result.length_words, hshape]
  have hval := hc.room _ (length_ownFrame _ _ _) _ s hlen (hstored.symm.trans hs) _ _ hword
  rw [hread] at hval
  exact absurd hval (by simp)

theorem not_storedWhole_offFrame (vm' : VmState) (hc : Called vm shape.size)
    (hsize : shape.size ≠ 1) (hoff : OffFrame (returnTarget vm))
    (hwrite : ∀ w, writeResult vm.frames.currentDataOffset (sample shape w) vm = .ok ()
      (withData vm' (ownFrame vm.frames.currentDataOffset (sample shape w) vm.frames.data)))
    (htarget : ∀ data, returnTarget (withData vm' data) = returnTarget (withData vm data))
    (hframes : vm'.frames.currentDataOffset = vm.frames.currentDataOffset) :
    ¬ ∀ r : Result, r.shape = shape → StoredWhole vm r := by
  obtain ⟨after, hafter⟩ := writeWordAt_offFrame hoff 0 vm'
  refine not_storedWhole hc hsize
    (c := after.readWordAt (plus (4 * shape.sampled) (returnTarget vm)) 0) fun w => ?_
  obtain ⟨hshape, -, hfirst⟩ := sample_spec hsize w
  rw [← hshape] at hc
  have hword : readWord (ownFrame vm.frames.currentDataOffset (sample shape w) vm.frames.data)
      vm'.frames.currentDataOffset = 0 := by
    rw [hframes, readWord_ownFrame hc, hfirst]
  refine ⟨_, (returnResult_eq (hwrite w) ?_ hword).trans (hafter _),
    readWordAt_offFrame (offFrame_plus hoff _) after _⟩
  rw [htarget, returnTarget_withData (retPtr_ownFrame hc)]

theorem writeWideReturn_heap {id : HeapId} {offset n : Nat} (hc : Called vm n) (hn : 2 ≤ n)
    (h : returnTarget vm = .heapArray id offset) (b : Big) :
    writeWideReturn vm.frames.currentDataOffset b vm =
      .ok () (withData vm (writeBig vm.frames.data vm.frames.currentDataOffset b)) := by
  have hwide := writeWideReturn_apply hc hn b
  rw [h] at hwide
  exact hwide

theorem readWordAt_frame (off n : Nat) :
    (withData vm data).readWordAt (plus n (.frame off)) 0 = readWord data (off + n) := rfl

/-- Nothing but the call instruction writes these words outside the built-in's frame. -/
theorem not_storedWhole_framed {off rest : Nat} (hc : Called vm (rest + 1)) (hrest : rest ≠ 0)
    (h : returnTarget vm = .frame off) :
    ¬ ∀ r : Result, r.shape = .framed rest → StoredWhole vm r := by
  have hsize : (Shape.framed rest).size ≠ 1 := fun heq => hrest (Nat.succ.inj heq)
  have hframe := hc.frame
  have hout := hc.outside off h
  have hfew := hc.few
  refine not_storedWhole hc hsize (c := readWord vm.frames.data (off + 4 * 1)) fun w => ?_
  obtain ⟨hshape, -, hfirst⟩ := sample_spec hsize w
  have hown : Called vm (sample (.framed rest) w).shape.size := by rwa [hshape]
  have hwords : (sample (.framed rest) w).ownWords.length = rest + 1 :=
    (sample (.framed rest) w).length_words.trans (congrArg Shape.size hshape)
  have hrun : returnResult (sample (.framed rest) w) vm = .ok () (withData vm (writeWord
      (ownFrame vm.frames.currentDataOffset (sample (.framed rest) w) vm.frames.data) off 0)) := by
    rw [returnResult_own hown rfl, h, hfirst]
    rfl
  refine ⟨_, hrun, ?_⟩
  rw [h, readWordAt_frame]
  have hdisjoint : off + 4 * 1 + 4 ≤ vm.frames.currentDataOffset ∨ vm.frames.currentDataOffset +
      4 * (sample (.framed rest) w).ownWords.length ≤ off + 4 * 1 := by
    rw [hwords]
    omega
  exact (readWord_writeWord_disjoint 0 (.inr (Nat.le_refl _))).trans
    ((congrArg (readWord · _) (ownFrame_eq (by omega) _)).trans (readWord_writeWords hdisjoint))

/-- Only the first part goes through the return pointer. -/
theorem not_storedWhole_modf {off : Nat} (hc : Called vm 4) (h : returnTarget vm = .frame off) :
    ¬ ∀ r : Result, r.shape = .modf → StoredWhole vm r := by
  have hframe := hc.frame
  have hout := hc.outside off h
  have hroom := hc.room vm.frames.data rfl
  rw [h] at hroom
  have hfits : off + 4 * 4 ≤ vm.frames.data.length := room_frame (Nat.succ_pos 3) hroom
  refine not_storedWhole hc (by decide) (c := readWord vm.frames.data (off + 4 * 3)) fun w => ?_
  have hwhole := writeWideReturn_apply hc (by decide) 0
  rw [h] at hwhole
  have hwrite : writeResult vm.frames.currentDataOffset (.modf 0 (w ++ (0 : Word))) vm =
      .ok () (withData vm (writeBig (writeBig
        (writeBig vm.frames.data vm.frames.currentDataOffset 0) off 0)
          (vm.frames.currentDataOffset + 8) (w ++ (0 : Word)))) := by
    have hrun : writeResult vm.frames.currentDataOffset (.modf 0 (w ++ (0 : Word))) vm =
      (do writeWideReturn vm.frames.currentDataOffset 0
          setFrames (writeBig · (vm.frames.currentDataOffset + 8) (w ++ (0 : Word))) :
            VM Unit) vm := rfl
    rw [hrun, Exec.bind_ok hwhole]
    rfl
  have hret : readWord (writeBig (writeBig
      (writeBig vm.frames.data vm.frames.currentDataOffset 0) off 0)
        (vm.frames.currentDataOffset + 8) (w ++ (0 : Word))) (vm.frames.currentDataOffset + 16) =
          retPtr vm := by
    rw [readWord_writeBig_disjoint _ (by omega), readWord_writeBig_disjoint _ (by omega),
      retPtr_writeBig]
  have hlow : readWord (writeBig (writeBig
      (writeBig vm.frames.data vm.frames.currentDataOffset 0) off 0)
        (vm.frames.currentDataOffset + 8) (w ++ (0 : Word))) vm.frames.currentDataOffset = 0 := by
    rw [readWord_writeBig_disjoint _ (by omega), readWord_writeBig_disjoint _ (by omega),
      readWord_writeBig_self (by omega)]
    rfl
  have hrun := returnResult_eq hwrite (returnTarget_withData hret) hlow
  rw [h] at hrun
  refine ⟨_, hrun, ?_⟩
  rw [h]
  calc readWord (writeWord _ off 0) (off + 4 * 3)
      = readWord (writeBig _ (vm.frames.currentDataOffset + 8) _) (off + 4 * 3) :=
        readWord_writeWord_disjoint _ (by omega)
    _ = readWord vm.frames.data (off + 4 * 3) := by
        rw [readWord_writeBig_disjoint _ (by omega), readWord_writeBig_disjoint _ (by omega),
          readWord_writeBig_disjoint _ (by omega)]

theorem not_storedWhole_modf_moduleMp {moduleIdx offset : Nat} (hc : Called vm 4)
    (h : returnTarget vm = .moduleMp moduleIdx offset) :
    ¬ ∀ r : Result, r.shape = .modf → StoredWhole vm r := by
  have hwhole := writeWideReturn_apply hc (by decide) 0
  rw [h] at hwhole
  refine not_storedWhole_offFrame (vm.modifyModuleMp moduleIdx (writeBig · offset 0)) hc
    (by decide) (by rw [h]; exact True.intro) (fun w => ?_) (fun data => ?_) ?_
  · have hrun : writeResult vm.frames.currentDataOffset (.modf 0 (w ++ (0 : Word))) vm =
        (do writeWideReturn vm.frames.currentDataOffset 0
            setFrames (writeBig · (vm.frames.currentDataOffset + 8) (w ++ (0 : Word))) :
              VM Unit) vm := rfl
    exact hrun.trans (Exec.bind_ok hwhole)
  · rw [← modifyModuleMp_withData, returnTarget_modifyModuleMp]
  · rw [frames_modifyModuleMp]

/-- Where the built-ins and the call instruction between them store every word. -/
def Handled : AddrTarget → Shape → Prop
  | _, .framed 0 | _, .through 0 => True
  | .frame _, .through _ | .frame _, .seek | .frame _, .wide => True
  | .moduleMp _ _, .wide => True
  | _, _ => False

theorem handled_of_size {target : AddrTarget} (h : shape.size = 1) : Handled target shape := by
  cases shape with
  | framed rest | through rest =>
      obtain rfl : rest = 0 := Nat.succ.inj h
      cases target <;> exact True.intro
  | seek | wide | modf => cases h

theorem storedWhole_handled (hc : Called vm r.shape.size) (hsize : r.shape.size ≠ 1)
    (h : Handled (returnTarget vm) r.shape) : StoredWhole vm r := by
  rcases returnTarget_cases (by cases r <;> exact Nat.succ_pos _) hc with ⟨off, htarget⟩ | hoff
  · rw [htarget] at h
    cases r with
    | framed w rest =>
        cases rest with
        | nil => exact absurd rfl hsize
        | cons => exact h.elim
    | through w rest => exact storedWhole_through hc htarget
    | seek b =>
        have hwrite := writeSeekResult_apply hc b
        rw [htarget] at hwrite
        exact storedWhole_big hc htarget rfl rfl hwrite
    | wide b =>
        have hwrite := writeWideReturn_apply hc (Nat.le_refl 2) b
        rw [htarget] at hwrite
        exact storedWhole_big hc htarget rfl rfl hwrite
    | modf => exact h.elim
  · cases htarget : returnTarget vm with
    | frame | mp | immediate | none => rw [htarget] at hoff; exact hoff.elim
    | moduleMp moduleIdx offset =>
        rw [htarget] at h
        cases r with
        | framed w rest | through w rest =>
            cases rest with
            | nil => exact absurd rfl hsize
            | cons => exact h.elim
        | wide b => exact storedWhole_wide_moduleMp hc htarget
        | seek | modf => exact h.elim
    | heapArray id offset =>
        rw [htarget] at h
        cases r with
        | framed w rest | through w rest =>
            cases rest with
            | nil => exact absurd rfl hsize
            | cons => exact h.elim
        | seek | wide | modf => exact h.elim

/-- Off the frames, what the built-in writes in its frame is all it writes. -/
theorem not_storedWhole_own (hc : Called vm shape.size) (hsize : shape.size ≠ 1)
    (hoff : OffFrame (returnTarget vm))
    (hwrite : ∀ w, writeResult vm.frames.currentDataOffset (sample shape w) vm = .ok ()
      (withData vm (ownFrame vm.frames.currentDataOffset (sample shape w) vm.frames.data))) :
    ¬ ∀ r : Result, r.shape = shape → StoredWhole vm r :=
  not_storedWhole_offFrame vm hc hsize hoff hwrite (fun _ => rfl) rfl

theorem writeResult_offFrame (hc : Called vm r.shape.size) (hoff : OffFrame (returnTarget vm))
    (h : (∃ id offset, returnTarget vm = .heapArray id offset) ∨
      r.shape ≠ .wide ∧ r.shape ≠ .modf) :
    writeResult vm.frames.currentDataOffset r vm = .ok ()
      (withData vm (ownFrame vm.frames.currentDataOffset r vm.frames.data)) := by
  cases r with
  | framed w rest => rfl
  | through w rest => exact writeResult_through hc hoff
  | seek b =>
      have hwrite := writeSeekResult_apply hc b
      cases htarget : returnTarget vm with
      | frame | mp | immediate | none => rw [htarget] at hoff; exact hoff.elim
      | moduleMp | heapArray => rw [htarget] at hwrite; exact hwrite
  | wide b =>
      obtain ⟨id, offset, htarget⟩ := h.resolve_right fun hne => hne.1 rfl
      exact writeWideReturn_heap hc (Nat.le_refl 2) htarget b
  | modf whole frac =>
      obtain ⟨id, offset, htarget⟩ := h.resolve_right fun hne => hne.2 rfl
      have hrun : writeResult vm.frames.currentDataOffset (.modf whole frac) vm =
        (do writeWideReturn vm.frames.currentDataOffset whole
            setFrames (writeBig · (vm.frames.currentDataOffset + 8) frac) : VM Unit) vm := rfl
      exact hrun.trans (Exec.bind_ok (writeWideReturn_heap hc (show 2 ≤ 4 by decide) htarget whole))

theorem handled_of_storedWhole (hc : Called vm shape.size) (hsize : shape.size ≠ 1)
    (h : ∀ r : Result, r.shape = shape → StoredWhole vm r) : Handled (returnTarget vm) shape := by
  by_contra hnot
  refine absurd h ?_
  have hsample (w : Word) : Called vm (sample shape w).shape.size := by
    rwa [(sample_spec hsize w).1]
  rcases returnTarget_cases (by cases shape <;> exact Nat.succ_pos _) hc with ⟨off, htarget⟩ | hoff
  · rw [htarget] at hnot
    cases shape with
    | framed rest =>
        exact not_storedWhole_framed hc (fun hrest => hsize (by rw [hrest]; rfl)) htarget
    | modf => exact not_storedWhole_modf hc htarget
    | seek | wide => exact absurd True.intro hnot
    | through rest => cases rest <;> exact absurd True.intro hnot
  · have hown (hshape : (∃ id offset, returnTarget vm = .heapArray id offset) ∨
        shape ≠ .wide ∧ shape ≠ .modf) : ¬ ∀ r : Result, r.shape = shape → StoredWhole vm r :=
      not_storedWhole_own hc hsize hoff fun w => writeResult_offFrame (hsample w) hoff
        (by rwa [(sample_spec hsize w).1])
    cases htarget : returnTarget vm with
    | frame | mp | immediate | none => rw [htarget] at hoff; exact hoff.elim
    | heapArray id offset => exact hown (.inl ⟨id, offset, htarget⟩)
    | moduleMp moduleIdx offset =>
        rw [htarget] at hnot
        cases shape with
        | framed | through | seek => exact hown (.inr ⟨nofun, nofun⟩)
        | wide => exact absurd True.intro hnot
        | modf => exact not_storedWhole_modf_moduleMp hc htarget

end

/-- The results of a shape are stored whole exactly where the two ways of writing them agree. -/
theorem storedWhole_iff_handled (vm : VmState) (shape : Shape) (hc : Called vm shape.size) :
    (∀ r : Result, r.shape = shape → StoredWhole vm r) ↔ Handled (returnTarget vm) shape := by
  by_cases hsize : shape.size = 1
  · refine ⟨fun _ => handled_of_size hsize, fun _ r hr => ?_⟩
    subst hr
    exact storedWhole_one hc hsize
  · refine ⟨handled_of_storedWhole hc hsize, fun h r hr => ?_⟩
    subst hr
    exact storedWhole_handled hc hsize h

/-- The frame of a built-in that is to return to the start of the main module's data. -/
def dataCaller : FrameStack :=
  ⟨List.replicate (frameHeaderSize + 16) 0 ++ [0, 0, 0x80, 0], 0, frameHeaderSize + 20⟩

def calledFromData (vm : VmState) : VmState :=
  { vm with frames := dataCaller, mp := List.replicate 8 0, currentLoadedModule := none }

theorem dataCaller_spec :
    readWord dataCaller.data (dataCaller.currentDataOffset + 16) = BitVec.ofNat 32 mpBase ∧
      dataCaller.currentDataOffset + 20 ≤ dataCaller.data.length ∧
        dataCaller.data.length ≤ mpBase := by decide

theorem returnTarget_calledFromData (vm : VmState) :
    returnTarget (calledFromData vm) = .moduleMp 0 0 := by
  have hptr : retPtr (calledFromData vm) = BitVec.ofNat 32 mpBase := dataCaller_spec.1
  rw [returnTarget, hptr, decodeReturnTarget, if_neg (by decide), if_neg (by decide)]
  decide

theorem called_calledFromData (vm : VmState) : Called (calledFromData vm) 2 where
  frame := dataCaller_spec.2.1
  stack := dataCaller_spec.2.2
  few := by decide
  room := by
    intro data _ words s hlen hs k w hword
    rw [returnTarget_calledFromData] at hs ⊢
    obtain ⟨first, second, rfl⟩ := List.length_eq_two.mp hlen
    have hstore : storeWords (.moduleMp 0 0) 0 [first, second] (withData (calledFromData vm) data) =
        .ok () (((withData (calledFromData vm) data).modifyModuleMp 0
          (writeWord · 0 first)).modifyModuleMp 0 (writeWord · 4 second)) := rfl
    rw [hstore] at hs
    cases hs
    have hmp : (withData (calledFromData vm) data).moduleMp 0 = some (List.replicate 8 0) := rfl
    show VmState.readWordAt _ (.moduleMp 0 (0 + 4 * k)) 0 = w
    rw [readWordAt_moduleMp, VmState.moduleMp_modifyModuleMp, VmState.moduleMp_modifyModuleMp, hmp]
    show readWord (writeWord (writeWord (List.replicate 8 0) 0 first) 4 second) (0 + 4 * k) = w
    match k with
    | 0 =>
        cases hword
        rw [readWord_writeWord_disjoint _ (by omega), readWord_writeWord_self _ (by decide)]
    | 1 =>
        cases hword
        exact readWord_writeWord_self _ (by simp)
    | k + 2 => cases hword
  outside := by
    intro off h
    rw [returnTarget_calledFromData] at h
    cases h

/-- A real gets there and a position that `seek` returns does not. -/
theorem wide_stored_seek_lost : ∃ vm, Called vm 2 ∧
    (∀ r : Result, r.shape = .wide → StoredWhole vm r) ∧
      ¬ ∀ r : Result, r.shape = .seek → StoredWhole vm r := by
  obtain ⟨vm, -⟩ : ∃ vm, VmState.withArgs [] true (.ofCode "main" [] 0) [] = some vm := ⟨_, rfl⟩
  have htarget := returnTarget_calledFromData vm
  have hc := called_calledFromData vm
  refine ⟨calledFromData vm, hc, ?_, ?_⟩
  · refine (storedWhole_iff_handled _ .wide hc).mpr ?_
    rw [htarget]
    exact True.intro
  · intro h
    have hhandled := (storedWhole_iff_handled _ .seek hc).mp h
    rw [htarget] at hhandled
    exact hhandled

/-- Half of a position is lost on its way to a module's data. -/
theorem seek_to_data_lost :
    ¬ ∀ (vm : VmState) (r : Result), Called vm r.shape.size → StoredWhole vm r := by
  intro h
  obtain ⟨vm, -⟩ : ∃ vm, VmState.withArgs [] true (.ofCode "main" [] 0) [] = some vm := ⟨_, rfl⟩
  have hc := called_calledFromData vm
  have hhandled : Handled (returnTarget (calledFromData vm)) .seek :=
    handled_of_storedWhole hc (by decide) fun r hr => h _ r (by rw [hr]; exact hc)
  rw [returnTarget_calledFromData] at hhandled
  exact hhandled

end Ops

end RiceVM
