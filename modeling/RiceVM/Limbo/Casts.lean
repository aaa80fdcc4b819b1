import Mathlib
import RiceVM.Ops.Convert
import RiceVM.Results

/-!
Casts between `byte`, `int`, `big` and `string`. The operand is evaluated into the destination or
a temporary and converted from there; which conversion it is, if any, goes by what the compiler
takes the operand to be.
-/
namespace RiceVM

/-! ### Bytes of words and bigs -/

namespace Memory
open Buffer

variable {buf : List Byte} {off : Nat}

theorem getElem?_writeByte (buf : List Byte) (off : Nat) (b : Byte) {i : Nat} (hi : i ≠ off) :
    (writeByte buf off b)[i]? = buf[i]? := by
  rw [writeByte, List.getElem?_set_ne (Ne.symm hi)]

theorem getElem?_writeWord_of_ne (buf : List Byte) (off : Nat) (w : Word) {i : Nat}
    (hi : i < off ∨ off + 4 ≤ i) : (writeWord buf off w)[i]? = buf[i]? := by
  rw [getElem?_writeWord, if_neg (by omega)]

theorem getElem?_writeBig_of_ne (h : off + 8 ≤ buf.length) (v : Big) {i : Nat}
    (hi : i < off ∨ off + 8 ≤ i) : (writeBig buf off v)[i]? = buf[i]? := by
  rw [writeBig_eq h, getElem?_writeWord_of_ne _ _ _ (by omega),
    getElem?_writeWord_of_ne _ _ _ (by omega)]

theorem readBig_writeBig_self (h : off + 8 ≤ buf.length) (v : Big) :
    readBig (writeBig buf off v) off = v := by
  have hl : off + (leBytes 8 v.toNat).length ≤ buf.length := by rwa [length_leBytes]
  have hs := slice_splice_self hl
  rw [length_leBytes] at hs
  rw [readBig, length_writeBig, if_pos h, writeBig, if_pos h, hs, leNat_leBytes]
  apply BitVec.eq_of_toNat_eq
  rw [BitVec.toNat_ofNat]
  have := v.isLt
  omega

/-- A byte replaces the low byte of a word. -/
theorem toNat_readWord_writeByte (h : off + 4 ≤ buf.length) (b : Byte) :
    (readWord (writeByte buf off b) off).toNat =
      b.toNat + 256 * ((readWord buf off).toNat / 256) := by
  obtain ⟨c, rest, hdrop⟩ : ∃ c rest, buf.drop off = c :: rest := by
    cases hdrop : buf.drop off with
    | nil =>
        have hlen := congrArg List.length hdrop
        rw [List.length_drop, List.length_nil] at hlen
        omega
    | cons c rest => exact ⟨c, rest, rfl⟩
  have hnew : slice (writeByte buf off b) off 4 = b :: rest.take 3 := by
    rw [slice, writeByte, List.drop_set, if_neg (Nat.lt_irrefl off), hdrop, Nat.sub_self]
    rfl
  have hold : slice buf off 4 = c :: rest.take 3 := by
    rw [slice, hdrop]
    rfl
  have hlen : (rest.take 3).length ≤ 3 := List.length_take_le 3 rest
  have hlt := leNat_lt (rest.take 3)
  have hpow : 256 ^ (rest.take 3).length ≤ 256 ^ 3 := Nat.pow_le_pow_right (by decide) hlen
  have hb := b.isLt
  have hc := c.isLt
  rw [readWord, readWord, length_writeByte, if_pos h, if_pos h, hnew, hold, leNat, leNat,
    BitVec.toNat_ofNat, BitVec.toNat_ofNat]
  have hthree : 256 ^ 3 = 16777216 := rfl
  omega

theorem readWord_congr {buf' : List Byte} (hlen : buf'.length = buf.length)
    (h : ∀ i, off ≤ i → i < off + 4 → buf'[i]? = buf[i]?) :
    readWord buf' off = readWord buf off := by
  have hslice : slice buf' off 4 = slice buf off 4 := by
    apply List.ext_getElem?
    intro i
    simp only [slice, List.getElem?_take, List.getElem?_drop]
    split
    · exact h (off + i) (by omega) (by omega)
    · rfl
  rw [readWord, readWord, hlen, hslice]

end Memory

namespace Limbo.Casts
open Exec Memory Ops Heap

/-! ### The generator -/

/-- Code that evaluates the operand into a slot of the frame, and conversions between slots. -/
inductive Step where
  | eval (dst : Nat)
  | cvt (op : Opcode) (src dst : Nat)
  deriving DecidableEq, Repr

/-- The code of `ty inner`; `next` is the first free offset of the frame. -/
def genCast (s : Scope) (ty : Ty) (inner : Expr) (dst next : Nat) : List Step :=
  match ty with
  | .array (.basic .byte) => [.eval dst, .cvt .cvtca dst dst]
  | .basic .int =>
    match inferNumKind s inner with
    | .word => .eval dst :: if inferExprType s inner = .ptr then [.cvt .cvtcw dst dst] else []
    | .big => [.eval next, .cvt .cvtlw next dst]
    | .real => [.eval next, .cvt .cvtfw next dst]
  | .basic .big =>
    match inferNumKind s inner with
    | .word => [.eval next, .cvt .cvtwl next dst]
    | .big => [.eval dst]
    | .real => [.eval next, .cvt .cvtfl next dst]
  | .basic .real =>
    match inferNumKind s inner with
    | .word => [.eval next, .cvt .cvtwf next dst]
    | .big => [.eval next, .cvt .cvtlf next dst]
    | .real => [.eval dst]
  | .basic .string =>
    if inferExprType s inner = .array then [.eval dst, .cvt .cvtac dst dst]
    else match inferNumKind s inner with
      | .big => [.eval next, .cvt .cvtlc next dst]
      | .real => [.eval next, .cvt .cvtfc next dst]
      | .word => [.eval dst, .cvt .cvtwc dst dst]
  | _ => [.eval dst]

/-! ### Operands -/

/-- The value of an operand and how its code leaves it in a slot. -/
inductive Operand where
  /-- An element of an array of bytes, moved as a byte. -/
  | element (b : Byte)
  /-- A byte in a word; its upper bytes may be anything. -/
  | byte (w : Word)
  | int (w : Word)
  | big (v : Big)
  /-- A string, moved with its reference or as a word. -/
  | string (id : HeapId) (counted : Bool)

namespace Operand

def kind : Operand → NumKind
  | .big _ => .big
  | _ => .word

def value (heap : Heap) : Operand → Val
  | .element b => .word (b.setWidth 32)
  | .byte w => .word (w &&& 255)
  | .int w => .word w
  | .big v => .big v
  | .string id _ => .str (heap.text id)

/-- The end of the operand's code: the value is moved into the destination. -/
def move : Operand → VM Unit
  | .element b => do
    let vm ← get
    writeByteAt vm.dst b
  | .byte w | .int w => setDstWord w
  | .big v => setDstBig v
  | .string id counted => if counted then movePtrToDst id else setDstWord id

end Operand

/-- The compiler may take a big for a word, as it does for a field of a tuple, and a number for a
pointer, as it does for the head of a list. -/
structure Taken (s : Scope) (inner : Expr) (x : Operand) : Prop where
  kind : inferNumKind s inner = .word ∨ x.kind = .big ∧ inferNumKind s inner = .big
  storage : inferExprType s inner ≠ .array
  element : ∀ b, x = .element b → inferExprType s inner = .word

/-! ### Running the code -/

def convert : Opcode → VM Unit
  | .cvtwl => opCvtwl
  | .cvtlw => opCvtlw
  | .cvtcw => opCvtcw
  | .cvtwc => opCvtwc
  | .cvtlc => opCvtlc
  | _ => pure ()

def slot (vm : VmState) (off : Nat) : Nat := vm.frames.currentDataOffset + off

/-- The operands of an instruction on two slots of the frame. -/
def withSlots (src dst : Nat) : VM Unit :=
  modify fun vm => { vm with src := .frame (slot vm src), dst := .frame (slot vm dst) }

def exec (x : Operand) : Step → VM Unit
  | .eval dst => do
    withSlots dst dst
    x.move
  | .cvt op src dst => do
    withSlots src dst
    convert op

def run (x : Operand) : List Step → VM Unit
  | [] => pure ()
  | step :: steps => do
    exec x step
    run x steps

/-! ### What a cast is to do -/

/-- The bytes a value of the type has in a frame; a `byte` has a word. -/
def width : BasicType → Nat
  | .big | .real => 8
  | _ => 4

/-- A slot holds a value. -/
def Holds (vm : VmState) (off : Nat) : Val → Prop
  | .word w => readWord vm.frames.data off = w
  | .big v => readBig vm.frames.data off = v
  | .str s => vm.heap.text (readWord vm.frames.data off) = s

/-- The destination holds the value of the cast, and no other byte of the frames has changed below
the temporaries. -/
structure Converted (vm vm' : VmState) (target : BasicType) (x : Operand) (dst next : Nat) :
    Prop where
  value : ∃ v, denoteCast target (x.value vm.heap) = some v ∧ Holds vm' (slot vm dst) v
  others : ∀ off, off < slot vm dst ∨ slot vm dst + width target ≤ off →
    off < slot vm next ∨ slot vm next + 8 ≤ off → vm'.frames.data[off]? = vm.frames.data[off]?

/-- The cast leaves its value and nothing else. -/
def Converts (vm : VmState) (target : BasicType) (x : Operand) (dst next : Nat)
    (code : List Step) : Prop :=
  ∃ vm', run x code vm = .ok () vm' ∧ Converted vm vm' target x dst next

/-- The destination is a slot of the frame below the temporaries, and the operand a value. -/
structure Ready (vm : VmState) (target : BasicType) (x : Operand) (dst next : Nat) : Prop where
  fits : slot vm next + 8 ≤ vm.frames.data.length
  room : dst + width target ≤ next
  aligned : dst + 4 = next ∨ dst + 8 ≤ next
  string : ∀ id counted, x = .string id counted → id = nil ∨
    ∃ obj s, vm.heap.get id = some obj ∧ obj.data = .str s ∧ 0 < obj.refCount.toNat
  /-- A string that is moved gets one more reference. -/
  counted : ∀ id, x = .string id true → vm.heap.refs id < maxRefs
  /-- Lists end in lists and slices are of arrays. -/
  children : ∀ id obj, vm.heap.get id = some obj → ∀ c ∈ obj.data.childRefs,
    c < vm.heap.nextId ∧ vm.heap.getString c = none
  ids : vm.heap.nextId < vm.heap.nextId + 1

/-- A big that is moved into a slot of four bytes changes nothing that is in use. -/
def NoSpill (vm : VmState) (dst next : Nat) (x : Operand) : Prop :=
  ∀ v, x = .big v → dst + 4 = next ∨ readWord vm.frames.data (slot vm dst + 4) = highWord v

/-- The casts that the code computes, for an operand taken to be of kind `k` and class `t`. -/
def Clean (vm : VmState) (target : BasicType) (k : NumKind) (t : ValType) (dst next : Nat)
    (x : Operand) : Prop :=
  match x with
  | .element _ =>
    readWord vm.frames.data (slot vm (if target = .big then next else dst)) >>> 8 = 0
  | .byte w =>
    if target = .int ∧ t = .ptr then strtolWord (vm.heap.text w) = w &&& 255 else w &&& 255 = w
  | .int w =>
    match target with
    | .byte => w &&& 255 = w
    | .int => t = .ptr → strtolWord (vm.heap.text w) = w
    | _ => True
  | .big v =>
    match target, k with
    | .byte, _ => lowWord v &&& 255 = lowWord v ∧ NoSpill vm dst next x
    | .int, .word =>
      (t = .ptr → strtolWord (vm.heap.text (lowWord v)) = lowWord v) ∧ NoSpill vm dst next x
    | .big, .word => (lowWord v).signExtend 64 = v
    | .string, .word => (lowWord v).signExtend 64 = v ∧ NoSpill vm dst next x
    | _, _ => True
  | .string id _ =>
    match target with
    | .byte => id = strtolWord (vm.heap.text id) &&& 255
    | .int => t = .ptr ∨ id = strtolWord (vm.heap.text id)
    | .big => id.signExtend 64 = BitVec.ofInt 64 (parseStrtol (vm.heap.text id))
    | _ => vm.heap.text id = toString id.toInt

/-! ### Running one step -/

/-- The frames hold other bytes and the heap is another; where the frame is has not changed. -/
structure After (vm vm' : VmState) (data : List Byte) (heap : Heap) : Prop where
  data : vm'.frames.data = data
  base : vm'.frames.currentDataOffset = vm.frames.currentDataOffset
  heap : vm'.heap = heap

/-- The bytes of the frames after the operand is moved to `off`. -/
def Operand.stored (data : List Byte) (off : Nat) : Operand → List Byte
  | .element b => writeByte data off b
  | .byte w | .int w => writeWord data off w
  | .big v => writeBig data off v
  | .string id _ => writeWord data off id

/-- The heap after the operand is moved to a slot that held `old`. -/
def Operand.movedHeap (heap : Heap) (old : HeapId) : Operand → Heap
  | .string id true => (heap.addRef id).decRef old
  | _ => heap

variable {vm : VmState} {x : Operand}

theorem exec_eval (hroom : ∀ id, x = .string id true → vm.heap.refs id < maxRefs) (dst : Nat) :
    ∃ vm', exec x (.eval dst) vm = .ok () vm' ∧
      After vm vm' (x.stored vm.frames.data (slot vm dst))
        (x.movedHeap vm.heap (readWord vm.frames.data (slot vm dst))) := by
  cases x with
  | string id counted =>
      cases counted with
      | false => exact ⟨_, rfl, rfl, rfl, rfl⟩
      | true =>
          let u : VmState := { vm with src := .frame (slot vm dst), dst := .frame (slot vm dst) }
          have hmove := movePtrToDst_frame (show u.dst = .frame (slot vm dst) from rfl)
            (hroom id rfl)
          exact ⟨_, hmove, rfl, rfl, rfl⟩
  | _ => exact ⟨_, rfl, rfl, rfl, rfl⟩

theorem exec_cvtwl (x : Operand) (vm : VmState) (src dst : Nat) :
    ∃ vm', exec x (.cvt .cvtwl src dst) vm = .ok () vm' ∧
      After vm vm' (writeBig vm.frames.data (slot vm dst)
        ((readWord vm.frames.data (slot vm src)).signExtend 64)) vm.heap :=
  ⟨_, rfl, rfl, rfl, rfl⟩

theorem exec_cvtlw (x : Operand) (vm : VmState) (src dst : Nat) :
    ∃ vm', exec x (.cvt .cvtlw src dst) vm = .ok () vm' ∧
      After vm vm' (writeWord vm.frames.data (slot vm dst)
        ((readBig vm.frames.data (slot vm src)).setWidth 32)) vm.heap :=
  ⟨_, rfl, rfl, rfl, rfl⟩

theorem strtolWord_text (heap : Heap) (id : HeapId) :
    ((heap.getString id).map strtolWord).getD 0 = strtolWord (heap.text id) := by
  unfold Heap.text
  cases heap.getString id with
  | none => rfl
  | some s => rfl

theorem exec_cvtcw (x : Operand) (vm : VmState) (src dst : Nat) :
    ∃ vm', exec x (.cvt .cvtcw src dst) vm = .ok () vm' ∧
      After vm vm' (writeWord vm.frames.data (slot vm dst)
        (strtolWord (vm.heap.text (readWord vm.frames.data (slot vm src))))) vm.heap := by
  rw [← strtolWord_text]
  exact ⟨_, rfl, rfl, rfl, rfl⟩

/-- A conversion to a string leaves a new one. -/
theorem moveStringToDst_slot {off : Nat} (hf : vm.heap.Fresh) (hdst : vm.dst = .frame off)
    (s : String) : ∃ vm' heap, moveStringToDst s vm = .ok () vm' ∧
      After vm vm' (writeWord vm.frames.data off vm.heap.nextId) heap ∧
      heap.text vm.heap.nextId = s := by
  obtain ⟨heap, halloc⟩ := exists_alloc hf.room 0 (.str s)
  have hrun : moveStringToDst s vm =
      movePtrToDst vm.heap.nextId { vm with heap := heap } := by
    simp only [moveStringToDst, alloc, allocTyped, bind_apply, get_apply, halloc, unwrap_some,
      set_apply, pure_apply]
  let u : VmState := { vm with heap := heap }
  have hroom : u.heap.refs vm.heap.nextId < maxRefs := by
    rw [refs_of_alloc halloc]
    decide
  have hmove := movePtrToDst_frame (show u.dst = .frame off from hdst) hroom
  exact ⟨_, _, hrun.trans hmove, ⟨rfl, rfl, rfl⟩, text_new hf halloc _⟩

/-! ### Whole casts -/

/-- The code of a cast to a number or a string. -/
def codeOf (target : BasicType) (k : NumKind) (t : ValType) (dst next : Nat) : List Step :=
  match target, k with
  | .int, .big => [.eval next, .cvt .cvtlw next dst]
  | .int, _ => .eval dst :: if t = .ptr then [.cvt .cvtcw dst dst] else []
  | .big, .big => [.eval dst]
  | .big, _ => [.eval next, .cvt .cvtwl next dst]
  | .string, .big => [.eval next, .cvt .cvtlc next dst]
  | .string, _ => [.eval dst, .cvt .cvtwc dst dst]
  | _, _ => [.eval dst]

theorem genCast_eq {s : Scope} {inner : Expr} {target : BasicType} (h : Taken s inner x)
    (htarget : target ≠ .real) (dst next : Nat) :
    genCast s (.basic target) inner dst next =
      codeOf target (inferNumKind s inner) (inferExprType s inner) dst next := by
  have hstorage := h.storage
  cases target with
  | real => exact absurd rfl htarget
  | byte => rfl
  | int =>
      rw [genCast]
      rcases h.kind with hkind | ⟨-, hkind⟩ <;> rw [hkind] <;> rfl
  | big =>
      rw [genCast]
      rcases h.kind with hkind | ⟨-, hkind⟩ <;> rw [hkind] <;> rfl
  | string =>
      rw [genCast, if_neg hstorage]
      rcases h.kind with hkind | ⟨-, hkind⟩ <;> rw [hkind] <;> rfl

/-- The word that is read where the operand was moved to. -/
def Operand.word (old : Word) : Operand → Word
  | .element b => BitVec.ofNat 32 (b.toNat + 256 * (old.toNat / 256))
  | .byte w | .int w => w
  | .big v => lowWord v
  | .string id _ => id

def Operand.size : Operand → Nat
  | .big _ => 8
  | _ => 4

theorem length_stored (x : Operand) (data : List Byte) (off : Nat) :
    (x.stored data off).length = data.length := by
  cases x <;> simp [Operand.stored]

theorem readWord_stored {data : List Byte} {off : Nat} (hfits : off + x.size ≤ data.length) :
    readWord (x.stored data off) off = x.word (readWord data off) := by
  cases x with
  | element b =>
      apply BitVec.eq_of_toNat_eq
      rw [Operand.stored, toNat_readWord_writeByte hfits, Operand.word, BitVec.toNat_ofNat]
      have := (readWord data off).isLt
      have := b.isLt
      omega
  | byte w => exact readWord_writeWord_self _ hfits
  | int w => exact readWord_writeWord_self _ hfits
  | big v => exact readWord_writeBig_self hfits v
  | string id counted => exact readWord_writeWord_self _ hfits

theorem getElem?_stored {data : List Byte} {off : Nat} (hfits : off + x.size ≤ data.length)
    {i : Nat} (hi : i < off ∨ off + x.size ≤ i) : (x.stored data off)[i]? = data[i]? := by
  cases x with
  | element b => exact getElem?_writeByte _ _ _ (by simp only [Operand.size] at hi; omega)
  | big v => exact getElem?_writeBig_of_ne hfits v hi
  | _ => exact getElem?_writeWord_of_ne _ _ _ hi

theorem run_one {step : Step} {vm' : VmState} (h : exec x step vm = .ok () vm') :
    run x [step] vm = .ok () vm' := by
  rw [run, bind_ok h]
  rfl

theorem run_two {first second : Step} {vm₁ vm₂ : VmState} (h₁ : exec x first vm = .ok () vm₁)
    (h₂ : exec x second vm₁ = .ok () vm₂) : run x [first, second] vm = .ok () vm₂ := by
  rw [run, bind_ok h₁]
  exact run_one h₂

/-- The upper bytes of the old word stay with an element that is moved as a byte. -/
theorem word_element_iff (b : Byte) (old : Word) :
    (Operand.element b).word old = b.setWidth 32 ↔ old >>> 8 = 0 := by
  have hold := old.isLt
  have hb := b.isLt
  rw [Operand.word, BitVec.toNat_eq, BitVec.toNat_eq, BitVec.toNat_ofNat, BitVec.toNat_setWidth,
    BitVec.toNat_ushiftRight, Nat.shiftRight_eq_div_pow]
  have hzero : (0 : Word).toNat = 0 := rfl
  omega

theorem setWidth_and_255 (b : Byte) : b.setWidth 32 &&& 255 = (b.setWidth 32 : Word) := by
  apply BitVec.eq_of_toNat_eq
  have hb := b.isLt
  have hmask : (255 : Word).toNat = 2 ^ 8 - 1 := rfl
  rw [BitVec.toNat_and, hmask, Nat.and_two_pow_sub_one_eq_mod, BitVec.toNat_setWidth]
  omega

theorem signExtend_inj {v w : Word} : v.signExtend 64 = w.signExtend 64 ↔ v = w := by
  refine ⟨fun h => ?_, fun h => by rw [h]⟩
  have hint := congrArg BitVec.toInt h
  rw [BitVec.toInt_signExtend_of_le (by decide), BitVec.toInt_signExtend_of_le (by decide)] at hint
  exact BitVec.eq_of_toInt_eq hint

theorem toString_toInt_inj {v w : Word} : toString v.toInt = toString w.toInt ↔ v = w :=
  ⟨fun h => BitVec.eq_of_toInt_eq (Int.repr_injective h), fun h => by rw [h]⟩

theorem toString_lowWord {v : Big} :
    toString (lowWord v).toInt = toString v.toInt ↔ (lowWord v).signExtend 64 = v := by
  constructor
  · intro h
    apply BitVec.eq_of_toInt_eq
    rw [BitVec.toInt_signExtend_of_le (by decide)]
    exact Int.repr_injective h
  · intro h
    rw [← BitVec.toInt_signExtend_of_le (show 32 ≤ 64 by decide), h]

section
variable {target : BasicType} {dst next : Nat}

/-- The bytes that a cast has to leave alone are the same. -/
def Untouched (vm : VmState) (target : BasicType) (dst next : Nat) (data : List Byte) : Prop :=
  ∀ off, off < slot vm dst ∨ slot vm dst + width target ≤ off →
    off < slot vm next ∨ slot vm next + 8 ≤ off → data[off]? = vm.frames.data[off]?

theorem converted_iff {code : List Step} {vm' : VmState} {v : Val}
    (hrun : run x code vm = .ok () vm')
    (hvalue : denoteCast target (x.value vm.heap) = some v) :
    Converts vm target x dst next code ↔
      Holds vm' (slot vm dst) v ∧ Untouched vm target dst next vm'.frames.data := by
  constructor
  · rintro ⟨w, hw, hconv⟩
    cases hrun.symm.trans hw
    obtain ⟨v', hv', hholds⟩ := hconv.value
    cases hvalue.symm.trans hv'
    exact ⟨hholds, hconv.others⟩
  · exact fun h => ⟨vm', hrun, ⟨v, hvalue, h.1⟩, h.2⟩

theorem slot_after {vm' : VmState} {data : List Byte} {heap : Heap}
    (hafter : After vm vm' data heap) (off : Nat) : slot vm' off = slot vm off := by
  rw [slot, hafter.base, slot]

namespace Ready

theorem word (h : Ready vm target x dst next) : slot vm dst + 4 ≤ vm.frames.data.length := by
  have hfits := h.fits
  have haligned := h.aligned
  simp only [slot] at *
  omega

theorem eight (h : Ready vm target x dst next) : slot vm dst + 8 ≤ vm.frames.data.length := by
  have hfits := h.fits
  have haligned := h.aligned
  simp only [slot] at *
  omega

theorem size (h : Ready vm target x dst next) :
    slot vm dst + x.size ≤ vm.frames.data.length := by
  cases x with
  | big v => exact h.eight
  | _ => exact h.word

theorem noParent {id : HeapId} {counted : Bool}
    (h : Ready vm target (.string id counted) dst next) : vm.heap.NoParent id := by
  intro id' obj hget hmem
  obtain ⟨-, hnone⟩ := h.children id' obj hget id hmem
  rcases h.string id counted rfl with rfl | ⟨obj', s, hget', hs, -⟩
  · exact nil_not_mem_childRefs _ hmem
  · obtain ⟨_, _, _, data⟩ := obj'
    cases hs
    rw [getString, hget'] at hnone
    cases hnone

theorem fresh (h : Ready vm target x dst next) : vm.heap.Fresh where
  room := h.ids
  noParent id obj hget hmem := BitVec.lt_irrefl _ (h.children id obj hget _ hmem).1

theorem fresh_moved (h : Ready vm target x dst next) (old : HeapId) :
    (x.movedHeap vm.heap old).Fresh := by
  cases x with
  | string id counted =>
      cases counted with
      | false => exact h.fresh
      | true => exact (h.fresh.addRef id).decRef old
  | _ => exact h.fresh

/-- Where the operand was moved to, its text is what it was. -/
theorem text_moved (h : Ready vm target x dst next) (old : HeapId) :
    (x.movedHeap vm.heap old).text (x.word old) = vm.heap.text (x.word old) := by
  cases x with
  | string id counted =>
      cases counted with
      | false => rfl
      | true => exact Heap.text_moved h.noParent (h.string id true rfl) (h.counted id rfl) _
  | _ => rfl

end Ready

/-- Moved into four bytes, only a big reaches the bytes after them. -/
theorem untouched_stored_iff (h : Ready vm target x dst next) (hwidth : width target = 4) :
    Untouched vm target dst next (x.stored vm.frames.data (slot vm dst)) ↔
      NoSpill vm dst next x := by
  have hfits := h.size
  have haligned := h.aligned
  unfold Untouched
  rw [hwidth]
  cases x with
  | big v =>
      have hdata : (Operand.big v).stored vm.frames.data (slot vm dst) =
          writeWord (writeWord vm.frames.data (slot vm dst) (lowWord v)) (slot vm dst + 4)
            (highWord v) := writeBig_eq hfits v
      rw [hdata]
      constructor
      · rintro hsame v' ⟨⟩
        by_cases hlast : dst + 4 = next
        · exact .inl hlast
        · have hlen : (writeWord (writeWord vm.frames.data (slot vm dst) (lowWord v))
              (slot vm dst + 4) (highWord v)).length = vm.frames.data.length := by
            rw [length_writeWord, length_writeWord]
          have hhigh := readWord_congr hlen fun i hlo hhi => hsame i (.inr hlo)
            (.inl (by simp only [slot] at *; omega))
          rw [readWord_writeWord_self _ (by rw [length_writeWord]; exact hfits)] at hhigh
          exact .inr hhigh.symm
      · intro hspill off hoff hfree
        rcases hspill v rfl with hlast | hsame
        · rw [getElem?_writeWord_of_ne _ _ _ (by simp only [slot] at *; omega),
            getElem?_writeWord_of_ne _ _ _ hoff]
        · rw [writeWord_comm (.inl (Nat.le_refl _)), ← hsame, writeWord_readWord,
            getElem?_writeWord_of_ne _ _ _ hoff]
  | _ => exact iff_of_true (fun off hoff _ => getElem?_stored hfits hoff) nofun

/-- A word written over the destination touches nothing else. -/
theorem untouched_writeWord_iff (hwidth : width target = 4) (data : List Byte) (w : Word) :
    Untouched vm target dst next (writeWord data (slot vm dst) w) ↔
      Untouched vm target dst next data := by
  unfold Untouched
  rw [hwidth]
  constructor
  · intro h off hoff hfree
    rw [← h off hoff hfree, getElem?_writeWord_of_ne _ _ _ hoff]
  · intro h off hoff hfree
    rw [getElem?_writeWord_of_ne _ _ _ hoff, h off hoff hfree]

/-- The operand is moved to the destination and is not converted. -/
theorem moved_iff {v : Word} (h : Ready vm target x dst next)
    (hvalue : denoteCast target (x.value vm.heap) = some (.word v)) (hwidth : width target = 4) :
    Converts vm target x dst next [.eval dst] ↔
      x.word (readWord vm.frames.data (slot vm dst)) = v ∧ NoSpill vm dst next x := by
  obtain ⟨vm', hexec, hafter⟩ := exec_eval h.counted dst
  rw [converted_iff (run_one hexec) hvalue, hafter.data, untouched_stored_iff h hwidth, Holds,
    hafter.data, readWord_stored h.size]

/-- What was moved to the destination is parsed there. -/
theorem parsed_iff {v : Word} (h : Ready vm .int x dst next)
    (hvalue : denoteCast .int (x.value vm.heap) = some (.word v)) :
    Converts vm .int x dst next [.eval dst, .cvt .cvtcw dst dst] ↔
      strtolWord (vm.heap.text (x.word (readWord vm.frames.data (slot vm dst)))) = v ∧
        NoSpill vm dst next x := by
  obtain ⟨vm₁, heval, hafter₁⟩ := exec_eval h.counted dst
  obtain ⟨vm₂, hcvt, hafter₂⟩ := exec_cvtcw x vm₁ dst dst
  rw [slot_after hafter₁, hafter₁.data, hafter₁.heap, readWord_stored h.size,
    h.text_moved] at hafter₂
  rw [converted_iff (run_two heval hcvt) hvalue, hafter₂.data, untouched_writeWord_iff rfl,
    untouched_stored_iff h rfl, Holds, hafter₂.data, readWord_writeWord_self]
  rw [length_stored]
  exact h.word

/-- What was moved to the destination is printed, and the string replaces it. -/
theorem printed_iff {t : String} (h : Ready vm .string x dst next)
    (hvalue : denoteCast .string (x.value vm.heap) = some (.str t)) :
    Converts vm .string x dst next [.eval dst, .cvt .cvtwc dst dst] ↔
      toString (x.word (readWord vm.frames.data (slot vm dst))).toInt = t ∧
        NoSpill vm dst next x := by
  obtain ⟨vm₁, heval, hafter₁⟩ := exec_eval h.counted dst
  let u : VmState := { vm₁ with src := .frame (slot vm₁ dst), dst := .frame (slot vm₁ dst) }
  have hdata₁ : u.frames.data = x.stored vm.frames.data (slot vm dst) := hafter₁.data
  have hfresh : u.heap.Fresh := by
    rw [show u.heap = _ from hafter₁.heap]
    exact h.fresh_moved _
  let printed := toString (x.word (readWord vm.frames.data (slot vm dst))).toInt
  obtain ⟨vm₂, heap, hmove, hafter₂, htext⟩ := moveStringToDst_slot hfresh
    (show u.dst = .frame (slot vm₁ dst) from rfl) printed
  have hread : readWord u.frames.data (slot vm₁ dst) =
      x.word (readWord vm.frames.data (slot vm dst)) := by
    rw [slot_after hafter₁, hdata₁, readWord_stored h.size]
  have hcvt : exec x (.cvt .cvtwc dst dst) vm₁ = .ok () vm₂ := by
    rw [← hmove]
    simp only [printed, ← hread]
    rfl
  have hdata₂ := hafter₂.data
  rw [slot_after hafter₁, hdata₁] at hdata₂
  have hword : readWord vm₂.frames.data (slot vm dst) = u.heap.nextId := by
    rw [hdata₂, readWord_writeWord_self]
    rw [length_stored]
    exact h.word
  rw [converted_iff (run_two heval hcvt) hvalue, Holds, hword, hafter₂.heap, htext, hdata₂,
    untouched_writeWord_iff rfl, untouched_stored_iff h rfl]

/-- A word is extended from a temporary. -/
theorem extended_iff {v : Big} (h : Ready vm .big x dst next)
    (hvalue : denoteCast .big (x.value vm.heap) = some (.big v)) :
    Converts vm .big x dst next [.eval next, .cvt .cvtwl next dst] ↔
      (x.word (readWord vm.frames.data (slot vm next))).signExtend 64 = v := by
  obtain ⟨vm₁, heval, hafter₁⟩ := exec_eval h.counted next
  obtain ⟨vm₂, hcvt, hafter₂⟩ := exec_cvtwl x vm₁ next dst
  have hnext : slot vm next + x.size ≤ vm.frames.data.length := by
    have hfits := h.fits
    cases x <;> simp only [Operand.size] <;> omega
  have hdata := hafter₂.data
  rw [slot_after hafter₁, slot_after hafter₁, hafter₁.data, readWord_stored hnext] at hdata
  have hlen : slot vm dst + 8 ≤ (x.stored vm.frames.data (slot vm next)).length := by
    rw [length_stored]
    exact h.eight
  rw [converted_iff (run_two heval hcvt) hvalue, Holds, hdata, readBig_writeBig_self hlen]
  refine and_iff_left fun off hoff hfree => ?_
  rw [getElem?_writeBig_of_ne hlen _ hoff, getElem?_stored hnext]
  cases x <;> simp only [Operand.size] <;> omega

/-! A big is converted from a temporary of its own width. -/

theorem big_to_int {v : Big} (h : Ready vm .int (.big v) dst next) :
    Converts vm .int (.big v) dst next [.eval next, .cvt .cvtlw next dst] := by
  obtain ⟨vm₁, heval, hafter₁⟩ := exec_eval h.counted next
  obtain ⟨vm₂, hcvt, hafter₂⟩ := exec_cvtlw (.big v) vm₁ next dst
  have hdata : vm₂.frames.data =
      writeWord (writeBig vm.frames.data (slot vm next) v) (slot vm dst) (v.setWidth 32) := by
    rw [hafter₂.data, slot_after hafter₁, slot_after hafter₁, hafter₁.data]
    exact congrArg _ (congrArg _ (readBig_writeBig_self h.fits v))
  refine (converted_iff (run_two heval hcvt) rfl).mpr ⟨?_, fun off hoff hfree => ?_⟩
  · rw [Holds, hdata, readWord_writeWord_self]
    rw [length_writeBig]
    exact h.word
  · rw [hdata, getElem?_writeWord_of_ne _ _ _ hoff, getElem?_writeBig_of_ne h.fits v hfree]

theorem big_to_big {v : Big} (h : Ready vm .big (.big v) dst next) :
    Converts vm .big (.big v) dst next [.eval dst] := by
  obtain ⟨vm', hexec, hafter⟩ := exec_eval h.counted dst
  refine (converted_iff (run_one hexec) rfl).mpr ⟨?_, fun off hoff _ => ?_⟩
  · rw [Holds, hafter.data]
    exact readBig_writeBig_self h.eight v
  · rw [hafter.data]
    exact getElem?_writeBig_of_ne h.eight v hoff

theorem big_to_string {v : Big} (h : Ready vm .string (.big v) dst next) :
    Converts vm .string (.big v) dst next [.eval next, .cvt .cvtlc next dst] := by
  obtain ⟨vm₁, heval, hafter₁⟩ := exec_eval h.counted next
  let u : VmState := { vm₁ with src := .frame (slot vm₁ next), dst := .frame (slot vm₁ dst) }
  have hdata₁ : u.frames.data = writeBig vm.frames.data (slot vm next) v := hafter₁.data
  have hfresh : u.heap.Fresh := by
    rw [show u.heap = vm.heap from hafter₁.heap]
    exact h.fresh
  obtain ⟨vm₂, heap, hmove, hafter₂, htext⟩ := moveStringToDst_slot hfresh
    (show u.dst = .frame (slot vm₁ dst) from rfl) (toString v.toInt)
  have hread : readBig u.frames.data (slot vm₁ next) = v := by
    rw [slot_after hafter₁, hdata₁]
    exact readBig_writeBig_self h.fits v
  have hcvt : exec (.big v) (.cvt .cvtlc next dst) vm₁ = .ok () vm₂ := by
    rw [← hmove, ← hread]
    rfl
  have hdata₂ := hafter₂.data
  rw [slot_after hafter₁, hdata₁] at hdata₂
  refine (converted_iff (run_two heval hcvt) rfl).mpr ⟨?_, fun off hoff hfree => ?_⟩
  · rw [Holds, hdata₂, readWord_writeWord_self _ (by rw [length_writeBig]; exact h.word),
      hafter₂.heap]
    exact htext
  · rw [hdata₂, getElem?_writeWord_of_ne _ _ _ hoff, getElem?_writeBig_of_ne h.fits v hfree]

/-! ### Casts to each type -/

variable {k : NumKind} {t : ValType}

theorem byte_converts_iff (h : Ready vm .byte x dst next) :
    Converts vm .byte x dst next (codeOf .byte k t dst next) ↔ Clean vm .byte k t dst next x := by
  cases x with
  | element b =>
      have hmask : (b.setWidth 32 : Word) &&& 255 = b.setWidth 32 := setWidth_and_255 b
      have hvalue : denoteCast .byte ((Operand.element b).value vm.heap) =
          some (.word (b.setWidth 32)) := congrArg (fun w => some (Val.word w)) hmask
      exact (moved_iff h hvalue rfl).trans ((and_iff_left nofun).trans (word_element_iff b _))
  | byte w =>
      have hvalue : denoteCast .byte ((Operand.byte w).value vm.heap) =
          some (.word (w &&& 255)) := by
        have hmask : w &&& 255 &&& 255 = w &&& 255 := by rw [BitVec.and_assoc, BitVec.and_self]
        exact congrArg (fun w => some (Val.word w)) hmask
      exact (moved_iff h hvalue rfl).trans ((and_iff_left nofun).trans eq_comm)
  | int w => exact (moved_iff h rfl rfl).trans ((and_iff_left nofun).trans eq_comm)
  | big v =>
      exact (moved_iff h (v := lowWord v &&& 255) rfl rfl).trans (and_congr_left' eq_comm)
  | string id counted => exact (moved_iff h rfl rfl).trans (and_iff_left nofun)

theorem int_converts_iff (h : Ready vm .int x dst next)
    (hkind : k = .word ∨ x.kind = .big ∧ k = .big) (helement : ∀ b, x = .element b → t = .word) :
    Converts vm .int x dst next (codeOf .int k t dst next) ↔ Clean vm .int k t dst next x := by
  rcases hkind with rfl | ⟨hbig, rfl⟩
  · by_cases ht : t = .ptr
    · subst ht
      cases x with
      | element b => exact nomatch helement b rfl
      | byte w => exact (parsed_iff h rfl).trans (and_iff_left nofun)
      | int w =>
          refine (parsed_iff h rfl).trans ((and_iff_left nofun).trans ?_)
          exact ⟨fun hw _ => hw, fun hw => hw rfl⟩
      | big v =>
          refine (parsed_iff h (v := lowWord v) rfl).trans (and_congr_left' ?_)
          exact ⟨fun hw _ => hw, fun hw => hw rfl⟩
      | string id counted =>
          refine (parsed_iff h rfl).trans ((and_iff_left nofun).trans ?_)
          exact iff_of_true rfl (.inl rfl)
    · have hcode : codeOf .int .word t dst next = [.eval dst] :=
        congrArg (List.cons (Step.eval dst)) (if_neg ht)
      rw [hcode]
      cases x with
      | element b =>
          exact (moved_iff h rfl rfl).trans ((and_iff_left nofun).trans (word_element_iff b _))
      | byte w =>
          refine (moved_iff h rfl rfl).trans ((and_iff_left nofun).trans ?_)
          rw [Clean, if_neg fun hc => ht hc.2]
          exact eq_comm
      | int w =>
          refine (moved_iff h rfl rfl).trans ((and_iff_left nofun).trans ?_)
          exact iff_of_true rfl fun hc => absurd hc ht
      | big v =>
          refine (moved_iff h (v := lowWord v) rfl rfl).trans (and_congr_left' ?_)
          exact iff_of_true rfl fun hc => absurd hc ht
      | string id counted =>
          exact (moved_iff h rfl rfl).trans ((and_iff_left nofun).trans (or_iff_right ht).symm)
  · cases x with
    | big v => exact iff_of_true (big_to_int h) trivial
    | _ => cases hbig

theorem big_converts_iff (h : Ready vm .big x dst next)
    (hkind : k = .word ∨ x.kind = .big ∧ k = .big) :
    Converts vm .big x dst next (codeOf .big k t dst next) ↔ Clean vm .big k t dst next x := by
  rcases hkind with rfl | ⟨hbig, rfl⟩
  · cases x with
    | element b => exact (extended_iff h rfl).trans (signExtend_inj.trans (word_element_iff b _))
    | byte w =>
        refine (extended_iff h rfl).trans (signExtend_inj.trans ?_)
        rw [Clean, if_neg fun hc => nomatch hc.1]
        exact eq_comm
    | int w => exact iff_of_true ((extended_iff h rfl).mpr rfl) trivial
    | big v => exact extended_iff h rfl
    | string id counted => exact extended_iff h rfl
  · cases x with
    | big v => exact iff_of_true (big_to_big h) trivial
    | _ => cases hbig

theorem string_converts_iff (h : Ready vm .string x dst next)
    (hkind : k = .word ∨ x.kind = .big ∧ k = .big) :
    Converts vm .string x dst next (codeOf .string k t dst next) ↔
      Clean vm .string k t dst next x := by
  rcases hkind with rfl | ⟨hbig, rfl⟩
  · cases x with
    | element b =>
        exact (printed_iff h rfl).trans ((and_iff_left nofun).trans
          (toString_toInt_inj.trans (word_element_iff b _)))
    | byte w =>
        refine (printed_iff h rfl).trans ((and_iff_left nofun).trans (toString_toInt_inj.trans ?_))
        rw [Clean, if_neg fun hc => nomatch hc.1]
        exact eq_comm
    | int w => exact iff_of_true ((printed_iff h rfl).mpr ⟨rfl, nofun⟩) trivial
    | big v => exact (printed_iff h rfl).trans (and_congr_left' toString_lowWord)
    | string id counted =>
        exact (printed_iff h rfl).trans ((and_iff_left nofun).trans eq_comm)
  · cases x with
    | big v => exact iff_of_true (big_to_string h) trivial
    | _ => cases hbig

/-- The code of a cast leaves what the cast is to give exactly where no byte is left or has to be
cut off, no string has to be parsed or copied and nothing else is, and a big is known as one. -/
theorem cast_converts_iff (s : Scope) (inner : Expr) (x : Operand) (hx : Taken s inner x)
    (target : BasicType) (htarget : target ≠ .real) (vm : VmState) (dst next : Nat)
    (h : Ready vm target x dst next) :
    Converts vm target x dst next (genCast s (.basic target) inner dst next) ↔
      Clean vm target (inferNumKind s inner) (inferExprType s inner) dst next x := by
  rw [genCast_eq hx htarget]
  cases target with
  | real => exact absurd rfl htarget
  | byte => exact byte_converts_iff h
  | int => exact int_converts_iff h hx.kind hx.element
  | big => exact big_converts_iff h hx.kind
  | string => exact string_converts_iff h hx.kind

end

/-! ### A frame of zeros -/

def zeroState (vm : VmState) : VmState :=
  { vm with frames := ⟨List.replicate 32 0, 0, 32⟩, heap := Heap.new }

theorem ready_zeroState (vm : VmState) (w : Word) :
    Ready (zeroState vm) .byte (.int w) 0 4 where
  fits := show 0 + frameHeaderSize + 4 + 8 ≤ (List.replicate 32 (0 : Byte)).length by decide
  room := by decide
  aligned := .inl rfl
  string _ _ h := nomatch h
  counted _ h := nomatch h
  children id obj hget := by
    rw [show (zeroState vm).heap.get id = none by rw [Heap.get]; split <;> rfl] at hget
    cases hget
  ids := show heapIdBase < heapIdBase + 1 by decide

theorem taken_intLit (v : Big) (hv : isWide v = false) (w : Word) :
    Taken {} (.intLit v) (.int w) where
  kind := .inl (if_neg (Bool.not_eq_true _ ▸ hv))
  storage := nofun
  element := nofun

/-- A number that fits in a byte is the byte. -/
theorem small_int_converted : ∃ vm vm',
    run (.int 200) (genCast {} (.basic .byte) (.intLit 200) 0 4) vm = .ok () vm' ∧
      Converted vm vm' .byte (.int 200) 0 4 := by
  obtain ⟨vm, -⟩ : ∃ vm, VmState.withArgs [] true (.ofCode "main" [] 0) [] = some vm := ⟨_, rfl⟩
  have htaken : Taken {} (.intLit 200) (.int 200) := taken_intLit 200 (by decide) 200
  obtain ⟨vm', h⟩ := (cast_converts_iff {} (.intLit 200) (.int 200) htaken .byte nofun
    (zeroState vm) 0 4 (ready_zeroState vm 200)).mpr
    (show (200 : Word) &&& 255 = 200 by decide)
  exact ⟨_, vm', h⟩

/-- `byte 300` is not cut off to 44. -/
theorem large_int_not_truncated : Taken {} (.intLit 300) (.int 300) ∧
    ∃ vm, Ready vm .byte (.int 300) 0 4 ∧
      denoteCast .byte ((Operand.int 300).value vm.heap) = some (.word 44) ∧
      ∃ vm', run (.int 300) (genCast {} (.basic .byte) (.intLit 300) 0 4) vm = .ok () vm' ∧
        readWord vm'.frames.data (slot vm 0) = 300 ∧ ¬ Converted vm vm' .byte (.int 300) 0 4 := by
  obtain ⟨vm, -⟩ : ∃ vm, VmState.withArgs [] true (.ofCode "main" [] 0) [] = some vm := ⟨_, rfl⟩
  have hready := ready_zeroState vm 300
  obtain ⟨vm', hexec, hafter⟩ := exec_eval hready.counted 0
  have hword : readWord vm'.frames.data (slot (zeroState vm) 0) = 300 := by
    rw [hafter.data]
    exact readWord_stored hready.size
  refine ⟨taken_intLit 300 (by decide) 300, _, hready,
    show denoteCast .byte (.word 300) = some (.word 44) by decide, vm', run_one hexec, hword,
    fun hconv => ?_⟩
  obtain ⟨v, hv, hholds⟩ := hconv.value
  cases hv
  exact absurd (hword.symm.trans hholds) (by decide)

end Limbo.Casts
end RiceVM
