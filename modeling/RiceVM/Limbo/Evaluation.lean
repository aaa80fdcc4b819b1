import RiceVM.Limbo.Numbers

/-!
What it means that code, wherever it stands, leaves the value of an expression in its destination
and changes nothing else below the temporaries. Variables, constants and conversions do.
-/
namespace RiceVM.Limbo.Numbers
open Exec Memory Ops Assembly
open Casts (slot)

variable {code : List Instruction} {vm vm' vm'' : VmState}

/-! ### Slots -/

theorem readBig_congr {buf buf' : List Byte} {off : Nat} (hlen : buf'.length = buf.length)
    (h : ∀ i, off ≤ i → i < off + 8 → buf'[i]? = buf[i]?) : readBig buf' off = readBig buf off := by
  have hslice : Buffer.slice buf' off 8 = Buffer.slice buf off 8 := by
    apply List.ext_getElem?
    intro i
    simp only [Buffer.slice, List.getElem?_take, List.getElem?_drop]
    split
    · exact h (off + i) (by omega) (by omega)
    · rfl
  rw [readBig, readBig, hlen, hslice]

/-- A slot holds a number. -/
def InSlot (data : List Byte) (off : Nat) : Val → Prop
  | .word w => readWord data off = w
  | .big b => readBig data off = b
  | .str _ => False

/-- Of the frame below `next`, only the destination may have changed. -/
structure Kept (vm vm' : VmState) (pc dst width next : Nat) : Prop where
  went : Went vm vm' vm'.frames.data pc
  length : vm'.frames.data.length = vm.frames.data.length
  bytes : ∀ i, i < slot vm next → i < slot vm dst ∨ slot vm dst + width ≤ i →
    vm'.frames.data[i]? = vm.frames.data[i]?

namespace Kept

variable {pc pc' dst width next off : Nat}

theorem frames (h : Kept vm vm' pc dst width next) :
    vm'.frames = { vm.frames with data := vm'.frames.data } := congrArg VmState.frames h.went

theorem pc_eq (h : Kept vm vm' pc dst width next) : vm'.pc = pc := congrArg VmState.pc h.went

theorem mp_eq (h : Kept vm vm' pc dst width next) : vm'.mp = vm.mp := by
  have hwent := h.went
  rw [Went] at hwent
  rw [hwent]
  rfl

theorem base (h : Kept vm vm' pc dst width next) :
    vm'.frames.currentDataOffset = vm.frames.currentDataOffset := by
  rw [h.frames]
  rfl

theorem slot_eq (h : Kept vm vm' pc dst width next) (off : Nat) : slot vm' off = slot vm off := by
  rw [slot, slot, h.base]

theorem trans (h : Kept vm vm' pc dst width next) (h' : Kept vm' vm'' pc' dst width next) :
    Kept vm vm'' pc' dst width next := by
  refine ⟨?_, h'.length.trans h.length, fun i hnext hdst => ?_⟩
  · have hlast := h'.went
    rw [h.went] at hlast
    exact hlast
  · rw [h'.bytes i (by rwa [h.slot_eq]) (by rwa [h.slot_eq]), h.bytes i hnext hdst]

/-- The destination is a part of another, or it lies above `next`. -/
theorem widen {dst' width' next' : Nat} (h : Kept vm vm' pc dst' width' next')
    (hnext : next ≤ next') (hdst : next ≤ dst' ∨ dst ≤ dst' ∧ dst' + width' ≤ dst + width) :
    Kept vm vm' pc dst width next := by
  refine ⟨h.went, h.length, fun i hi hout => h.bytes i ?_ ?_⟩
  · unfold Casts.slot at hi ⊢
    omega
  · unfold Casts.slot at hi hout ⊢
    omega

theorem readWord_eq (h : Kept vm vm' pc dst width next) (hnext : off + 4 ≤ next)
    (hdst : off + 4 ≤ dst ∨ dst + width ≤ off) :
    readWord vm'.frames.data (slot vm off) = readWord vm.frames.data (slot vm off) := by
  refine readWord_congr h.length fun i hlo hhi => h.bytes i ?_ ?_
  · unfold Casts.slot at hhi ⊢
    omega
  · unfold Casts.slot at hlo hhi ⊢
    omega

theorem readBig_eq (h : Kept vm vm' pc dst width next) (hnext : off + 8 ≤ next)
    (hdst : off + 8 ≤ dst ∨ dst + width ≤ off) :
    readBig vm'.frames.data (slot vm off) = readBig vm.frames.data (slot vm off) := by
  refine readBig_congr h.length fun i hlo hhi => h.bytes i ?_ ?_
  · unfold Casts.slot at hhi ⊢
    omega
  · unfold Casts.slot at hlo hhi ⊢
    omega

theorem inSlot (h : Kept vm vm' pc dst width next) {v : Val} (hnext : off + v.kind.byteSize ≤ next)
    (hdst : off + v.kind.byteSize ≤ dst ∨ dst + width ≤ off)
    (hv : InSlot vm.frames.data (slot vm off) v) : InSlot vm'.frames.data (slot vm off) v := by
  cases v with
  | word w => exact (h.readWord_eq hnext hdst).trans hv
  | big b => exact (h.readBig_eq hnext hdst).trans hv
  | str _ => exact hv

end Kept

section Writes

variable {pc d next : Nat}

theorem Went.still (h : Went vm vm' vm.frames.data pc) (dst width next : Nat) :
    Kept vm vm' pc dst width next := by
  have hdata : vm'.frames.data = vm.frames.data := congrArg (·.frames.data) h
  exact ⟨by rw [hdata]; exact h, by rw [hdata], fun i _ _ => by rw [hdata]⟩

theorem Went.word {w : Word} (h : Went vm vm' (writeWord vm.frames.data (slot vm d) w) pc)
    (hfits : slot vm d + 4 ≤ vm.frames.data.length) (next : Nat) :
    InSlot vm'.frames.data (slot vm d) (.word w) ∧ Kept vm vm' pc d 4 next := by
  have hdata : vm'.frames.data = writeWord vm.frames.data (slot vm d) w :=
    congrArg (·.frames.data) h
  refine ⟨?_, ⟨by rw [hdata]; exact h, by rw [hdata, length_writeWord], fun i _ hout => ?_⟩⟩
  · rw [hdata]
    exact readWord_writeWord_self w hfits
  · rw [hdata, getElem?_writeWord_of_ne _ _ _ hout]

theorem Went.big {b : Big} (h : Went vm vm' (writeBig vm.frames.data (slot vm d) b) pc)
    (hfits : slot vm d + 8 ≤ vm.frames.data.length) (next : Nat) :
    InSlot vm'.frames.data (slot vm d) (.big b) ∧ Kept vm vm' pc d 8 next := by
  have hdata : vm'.frames.data = writeBig vm.frames.data (slot vm d) b :=
    congrArg (·.frames.data) h
  refine ⟨?_, ⟨by rw [hdata]; exact h, by rw [hdata, length_writeBig], fun i _ hout => ?_⟩⟩
  · rw [hdata]
    exact readBig_writeBig_self hfits b
  · rw [hdata, getElem?_writeBig_of_ne hfits b hout]

end Writes

/-! ### What the code leaves -/

/-- The value of an expression, with the variables as the machine has them. -/
def Num.value (vm : VmState) : Num → Option Val
  | .word a => some (.word (a.wordIn vm))
  | .big a => some (.big (a.bigIn vm))
  | .unary op e => (e.value vm).bind (denoteUnary op)
  | .binary l op r => (l.value vm).bind fun x => (r.value vm).bind (denoteBinary op x)

/-- A place below the temporaries, in the frame, or one elsewhere. -/
def Arg.Below (next width : Nat) : Arg → Prop
  | slot off => off + width ≤ next
  | data off => off < 2 ^ 31
  | imm _ => True
  | unused => False

/-- The operators are the integer ones, without `**`, `&&` and `||`; `!` is of a word, for of a big
the code tests only half, and no word is shifted by a big, for the result is taken to be as wide as
the count. -/
def Num.Supported : Num → Prop
  | .word _ | .big _ => True
  | .unary op e => op ≠ .ref ∧ (op = .not → e.kind = .word) ∧ e.Supported
  | .binary l op r =>
    (op ≠ .power ∧ op ≠ .logAnd ∧ op ≠ .logOr ∧ (IsShift op → l.kind.max r.kind = l.kind)) ∧
      l.Supported ∧ r.Supported

/-- The variables are below the temporaries. -/
def Num.Placed (next : Nat) : Num → Prop
  | .word a => a.Below next 4
  | .big a => a.Below next 8
  | .unary _ e => e.Placed next
  | .binary l _ r => l.Placed next ∧ r.Placed next

/-- The frame has the slots below `free`. -/
structure Room (vm : VmState) (free : Nat) : Prop where
  fits : slot vm free ≤ vm.frames.data.length
  limit : vm.frames.data.length ≤ mpBase

/-- A number at another width. -/
def widthTo (target : NumKind) (v : Val) : Val :=
  match target, v with
  | .big, .word w => .big (w.signExtend 64)
  | .word, .big b => .word (b.setWidth 32)
  | _, v => v

theorem widthTo_self {v : Val} {k : NumKind} (h : v.kind = k) : widthTo k v = v := by
  subst h
  cases v <;> rfl

/-- The code up to `pc` leaves the value in its destination, at the width `target`. -/
def Leaves (code : List Instruction) (vm : VmState) (value : Option Val) (kind target : NumKind)
    (pc dst next : Nat) : Prop :=
  Comes code vm value fun v vm' =>
    v.kind = kind ∧ InSlot vm'.frames.data (slot vm dst) (widthTo target v) ∧
      Kept vm vm' pc dst target.byteSize next

/-- The generator makes code that leaves the value, which is of one width, at another. -/
def Computes (gen : Generator) (kind target : NumKind) (value : VmState → Option Val)
    (Placed : Nat → Prop) : Prop :=
  ∀ dst next pc, Placed next → dst + target.byteSize ≤ next →
    ∃ block free, gen dst next pc = some (block, free) ∧ next ≤ free ∧
      ∀ code vm, code.length < 2 ^ 31 → At code pc block → vm.pc = pc → Room vm free →
        Leaves code vm (value vm) kind target (pc + block.length) dst next

section Rooms

variable {free pc dst width next d : Nat}

theorem Room.mono {m : Nat} (h : Room vm free) (hle : m ≤ free) : Room vm m := by
  refine ⟨Nat.le_trans ?_ h.fits, h.limit⟩
  unfold Casts.slot
  omega

theorem Room.kept (h : Room vm free) (hk : Kept vm vm' pc dst width next) : Room vm' free := by
  refine ⟨?_, ?_⟩
  · rw [hk.slot_eq, hk.length]
    exact h.fits
  · rw [hk.length]
    exact h.limit

theorem Room.holds {size : Nat} (h : Room vm free) (hd : d + size ≤ free) :
    slot vm d + size ≤ vm.frames.data.length := by
  refine Nat.le_trans ?_ h.fits
  unfold Casts.slot
  omega

theorem Room.lt (h : Room vm free) (hd : d + 4 ≤ free) : slot vm d < mpBase := by
  have := h.holds hd
  have := h.limit
  omega

theorem Arg.Below.reachable {a : Arg} (ha : a.Below next width) (hw : 4 ≤ width)
    (h : Room vm free) (hle : next ≤ free) : a.Reachable vm.frames.currentDataOffset := by
  cases a with
  | slot off => exact h.lt (Nat.le_trans (Nat.add_le_add_left hw off) (Nat.le_trans ha hle))
  | data off => exact ha
  | imm _ => trivial
  | unused => exact ha.elim

theorem Arg.Below.mono {a : Arg} {m : Nat} (ha : a.Below next width) (hle : next ≤ m) :
    a.Below m width := by
  cases a with
  | slot off => exact Nat.le_trans ha hle
  | _ => exact ha

theorem Num.Placed.mono {e : Num} {m : Nat} (h : e.Placed next) (hle : next ≤ m) : e.Placed m := by
  induction e with
  | word a => exact Arg.Below.mono h hle
  | big a => exact Arg.Below.mono h hle
  | unary op e ih => exact ih h
  | binary l op r ihl ihr => exact ⟨ihl h.1, ihr h.2⟩

end Rooms

section Values

variable {pc dst next : Nat}

theorem Arg.wordIn_kept {a : Arg} (ha : a.Below next 4) (h : Kept vm vm' pc dst 0 next)
    (hdst : next ≤ dst) : a.wordIn vm' = a.wordIn vm := by
  cases a with
  | slot off =>
      have hread := h.readWord_eq ha (.inl (Nat.le_trans ha hdst))
      rw [← h.slot_eq] at hread
      exact hread.trans (by rw [h.slot_eq]; rfl)
  | data off =>
      exact congrArg (readWord · off) h.mp_eq
  | imm v => rfl
  | unused => rfl

theorem Arg.bigIn_kept {a : Arg} (ha : a.Below next 8) (h : Kept vm vm' pc dst 0 next)
    (hdst : next ≤ dst) : a.bigIn vm' = a.bigIn vm := by
  cases a with
  | slot off =>
      have hread := h.readBig_eq ha (.inl (Nat.le_trans ha hdst))
      rw [← h.slot_eq] at hread
      exact hread.trans (by rw [h.slot_eq]; rfl)
  | data off =>
      exact congrArg (readBig · off) h.mp_eq
  | imm v => rfl
  | unused => rfl

/-- Evaluating something else into temporaries does not change the variables. -/
theorem Num.value_kept {e : Num} (h : e.Placed next) (hk : Kept vm vm' pc dst 0 next)
    (hdst : next ≤ dst) : e.value vm' = e.value vm := by
  induction e with
  | word a => exact congrArg (fun w => some (Val.word w)) (Arg.wordIn_kept h hk hdst)
  | big a => exact congrArg (fun b => some (Val.big b)) (Arg.bigIn_kept h hk hdst)
  | unary op e ih => rw [value, value, ih h]
  | binary l op r ihl ihr => rw [value, value, ihl h.1, ihr h.2]

end Values

/-! ### Leaves and conversions -/

theorem Kept.refl (vm : VmState) (dst width next : Nat) : Kept vm vm vm.pc dst width next :=
  ⟨rfl, rfl, fun _ _ _ => rfl⟩

theorem computes_word (a : Arg) :
    Computes (Num.word a).gen .word .word (Num.value · (.word a)) (Num.word a).Placed := by
  intro dst next pc hplaced hdst
  refine ⟨_, next, rfl, Nat.le_refl next, fun code vm _ hat hpc hroom => ?_⟩
  subst hpc
  split at hat
  · rename_i ha
    rw [if_pos ha]
    subst ha
    exact .done ⟨rfl, rfl, Kept.refl vm dst 4 next⟩
  · rename_i ha
    rw [if_neg ha]
    obtain ⟨vm', hstep, hwent⟩ :=
      step_movw (hplaced.reachable (Nat.le_refl 4) hroom (Nat.le_refl next)) (hroom.lt hdst)
    exact .step hat.head hstep (.done ⟨rfl, hwent.word (hroom.holds hdst) next⟩)

theorem computes_big (a : Arg) :
    Computes (Num.big a).gen .big .big (Num.value · (.big a)) (Num.big a).Placed := by
  intro dst next pc hplaced hdst
  refine ⟨_, next, rfl, Nat.le_refl next, fun code vm _ hat hpc hroom => ?_⟩
  subst hpc
  have hd : dst + 8 ≤ next := hdst
  split at hat
  · rename_i ha
    rw [if_pos ha]
    subst ha
    exact .done ⟨rfl, rfl, Kept.refl vm dst 8 next⟩
  · rename_i ha
    rw [if_neg ha]
    obtain ⟨vm', hstep, hwent⟩ :=
      step_movl (d := dst) (hplaced.reachable (by decide) hroom (Nat.le_refl next))
        (hroom.lt (by omega))
    exact .step hat.head hstep (.done ⟨rfl, hwent.big (hroom.holds hd) next⟩)

section Behind

variable {gen gen' : Generator} {inner kind target : NumKind} {value : VmState → Option Val}
  {Placed : Nat → Prop}

/-- Instructions behind those of an operand, which was left in the destination or in a temporary. -/
theorem computes_behind {f : Val → Option Val} (temp : Nat → Nat → Nat) (size extra : Nat)
    (tail : Nat → Nat → Nat → Nat → List Instruction) (h : Computes gen inner inner value Placed)
    (hmono : ∀ {m n}, m ≤ n → Placed m → Placed n)
    (hgen : ∀ dst next pc, gen' dst next pc = (gen (temp dst next) (next + size) pc).map fun p =>
      (p.1 ++ tail dst next p.2 (pc + p.1.length), p.2 + extra))
    (htemp : ∀ dst next, dst + target.byteSize ≤ next →
      temp dst next + inner.byteSize ≤ next + size ∧
        (temp dst next = dst ∧ inner = target ∨ next ≤ temp dst next))
    (hrun : ∀ {code vm v dst next free pc}, code.length < 2 ^ 31 →
      At code pc (tail dst next free pc) → vm.pc = pc → Room vm (free + extra) →
      next + size ≤ free → dst + target.byteSize ≤ next → v.kind = inner →
      InSlot vm.frames.data (slot vm (temp dst next)) v →
      Leaves code vm (f v) kind target (pc + (tail dst next free pc).length) dst next) :
    Computes gen' kind target (fun vm => (value vm).bind f) Placed := by
  intro dst next pc hplaced hdst
  obtain ⟨hfits, hplace⟩ := htemp dst next hdst
  obtain ⟨block, free, hblock, hle, hoperand⟩ :=
    h (temp dst next) (next + size) pc (hmono (Nat.le_add_right next size) hplaced) hfits
  refine ⟨block ++ tail dst next free (pc + block.length), free + extra, ?_, by omega,
    fun code vm hcode hat hpc hroom => ?_⟩
  · rw [hgen, hblock]
    rfl
  · refine (hoperand code vm hcode hat.left hpc (hroom.mono (by omega))).bind fun v u hpost => ?_
    obtain ⟨hkind, hslot, hkept⟩ := hpost
    rw [widthTo_self hkind, ← hkept.slot_eq] at hslot
    have hbelow : Kept vm u (pc + block.length) dst target.byteSize next := by
      refine hkept.widen (Nat.le_add_right next size) ?_
      rcases hplace with ⟨hsame, rfl⟩ | htemporary
      · exact .inr ⟨Nat.le_of_eq hsame.symm, by rw [hsame]⟩
      · exact .inl htemporary
    refine (hrun hcode hat.right hkept.pc_eq (hroom.kept hkept) hle hdst hkind hslot).mono
      fun v' u' hpost => ?_
    obtain ⟨hkind', hslot', hkept'⟩ := hpost
    rw [hkept.slot_eq] at hslot'
    rw [List.length_append, ← Nat.add_assoc]
    exact ⟨hkind', hslot', hbelow.trans hkept'⟩

/-- A word that was left in a temporary is widened to the destination. -/
theorem computes_widened (h : Computes gen .word .word value Placed)
    (hmono : ∀ {m n}, m ≤ n → Placed m → Placed n) :
    Computes (genToKind .word .big gen) .word .big (fun vm => (value vm).bind some) Placed := by
  refine computes_behind (fun _ next => next) 4 0
    (fun dst next _ _ => [instr .cvtwl (.slot next) .unused (.slot dst)]) h hmono ?_ ?_ ?_
  · intro dst next pc
    rw [genToKind]
    cases gen next (next + 4) pc <;> rfl
  · exact fun dst next _ => ⟨Nat.le_refl _, .inr (Nat.le_refl next)⟩
  · intro code vm v dst next free pc _ hat hpc hroom hfree hdst hkind hslot
    have hd : dst + 8 ≤ next := hdst
    cases v with
    | big b => cases hkind
    | str t => exact hslot.elim
    | word w =>
        subst hpc
        obtain ⟨u, hstep, hwent⟩ :=
          step_cvtwl (hroom.lt (d := next) (by omega)) (hroom.lt (d := dst) (by omega))
        have hread : readWord vm.frames.data (slot vm next) = w := hslot
        rw [hread] at hwent
        exact .step hat.head hstep (.done ⟨rfl, hwent.big (hroom.holds (by omega)) next⟩)

theorem computes_narrowed (h : Computes gen .big .big value Placed)
    (hmono : ∀ {m n}, m ≤ n → Placed m → Placed n) :
    Computes (genToKind .big .word gen) .big .word (fun vm => (value vm).bind some) Placed := by
  refine computes_behind (fun _ next => next) 8 0
    (fun dst next _ _ => [instr .cvtlw (.slot next) .unused (.slot dst)]) h hmono ?_ ?_ ?_
  · intro dst next pc
    rw [genToKind]
    cases gen next (next + 8) pc <;> rfl
  · exact fun dst next _ => ⟨Nat.le_refl _, .inr (Nat.le_refl next)⟩
  · intro code vm v dst next free pc _ hat hpc hroom hfree hdst hkind hslot
    have hd : dst + 4 ≤ next := hdst
    cases v with
    | word w => cases hkind
    | str t => exact hslot.elim
    | big b =>
        subst hpc
        obtain ⟨u, hstep, hwent⟩ :=
          step_cvtlw (hroom.lt (d := next) (by omega)) (hroom.lt (d := dst) (by omega))
        have hread : readBig vm.frames.data (slot vm next) = b := hslot
        rw [hread] at hwent
        exact .step hat.head hstep (.done ⟨rfl, hwent.word (hroom.holds (by omega)) next⟩)

theorem computes_toKind (hinner : inner ≠ .real) (htarget : target ≠ .real)
    (h : Computes gen inner inner value Placed) (hmono : ∀ {m n}, m ≤ n → Placed m → Placed n) :
    Computes (genToKind inner target gen) inner target value Placed := by
  have hvalue : (fun vm => (value vm).bind some) = value := funext fun vm => Option.bind_fun_some _
  cases inner with
  | real => exact absurd rfl hinner
  | word =>
      cases target with
      | real => exact absurd rfl htarget
      | word => exact h
      | big => exact hvalue ▸ computes_widened h hmono
  | big =>
      cases target with
      | real => exact absurd rfl htarget
      | big => exact h
      | word => exact hvalue ▸ computes_narrowed h hmono

end Behind

end RiceVM.Limbo.Numbers
