import RiceVM.Limbo.Evaluation

/-!
The instructions of the operators leave what the operators mean, and so does, by induction, the
code of a whole expression.
-/
namespace RiceVM.Limbo.Numbers
open Exec Memory Ops Assembly
open Casts (slot)

variable {code : List Instruction} {vm vm' : VmState}

/-! ### Operators -/

/-- A truth value in the destination: a branch on it, over `Movw $0`. -/
theorem leaves_flag {b : Bool} {i : Instruction} {pc dst next free : Nat}
    (hat : At code pc [instr .movw (.imm 1) .unused (.slot dst), i,
      instr .movw (.imm 0) .unused (.slot dst)])
    (hpc : vm.pc = pc) (hroom : Room vm free) (hdst : dst + 4 ≤ next) (hnext : next ≤ free)
    (hbranch : ∀ u, Kept vm u (pc + 1) dst 4 free →
      ∃ u', step i u = .ok () u' ∧
        Went u u' u.frames.data (if b then pc + 3 else u.pc + 1)) :
    ∃ vm', Steps code vm vm' ∧ readWord vm'.frames.data (slot vm dst) = flag b ∧
      Kept vm vm' (pc + 3) dst 4 next := by
  subst hpc
  obtain ⟨u, hone, hwent⟩ := step_movw (a := .imm 1) trivial (hroom.lt (d := dst) (by omega))
  obtain ⟨hin, hkept⟩ := hwent.word (hroom.holds (by omega)) free
  obtain ⟨u', hstep, hwent'⟩ := hbranch u hkept
  have hkept' := hkept.trans (hwent'.still dst 4 free)
  have hi := hat.tail.head
  rw [← hkept.pc_eq] at hi
  cases b with
  | true =>
      have hdata : u'.frames.data = u.frames.data := congrArg (·.frames.data) hwent'
      refine ⟨u', .step hat.head hone (.step hi hstep (.refl u')), ?_, ?_⟩
      · rw [hdata]
        exact hin
      · exact hkept'.widen hnext (.inr ⟨Nat.le_refl _, Nat.le_refl _⟩)
  | false =>
      have hroom' := hroom.kept hkept'
      obtain ⟨w, hzero, hwent''⟩ :=
        step_movw (a := .imm 0) trivial (hroom'.lt (d := dst) (by omega))
      obtain ⟨hin', hlast⟩ := hwent''.word (hroom'.holds (by omega)) free
      have hpc : u'.pc = vm.pc + 2 := by
        rw [hkept'.pc_eq]
        exact congrArg (· + 1) hkept.pc_eq
      have hi' := hat.tail.tail.head
      rw [show vm.pc + 1 + 1 = u'.pc from hpc.symm] at hi'
      rw [hkept'.slot_eq] at hin'
      rw [hpc] at hlast
      refine ⟨w, .step hat.head hone (.step hi hstep (.step hi' hzero (.refl w))), hin', ?_⟩
      exact (hkept'.trans hlast).widen hnext (.inr ⟨Nat.le_refl _, Nat.le_refl _⟩)

theorem test_word {op : BinOp} {branch : Opcode} (h : compareOpcode op .word = some branch) :
    ∃ test, operation branch = wordBranch test ∧ ∀ a b, compare op a b = some (test a b) := by
  cases op <;> cases h
  case neq =>
    refine ⟨_, rfl, fun a b => ?_⟩
    simp only [compare, bne, ne_eq, decide_not]
    rfl
  all_goals exact ⟨_, rfl, fun _ _ => rfl⟩

theorem test_big {op : BinOp} {branch : Opcode} (h : compareOpcode op .big = some branch) :
    ∃ test, operation branch = bigBranch test ∧ ∀ a b, compare op a b = some (test a b) := by
  cases op <;> cases h
  case neq =>
    refine ⟨_, rfl, fun a b => ?_⟩
    simp only [compare, bne, ne_eq, decide_not]
    rfl
  all_goals exact ⟨_, rfl, fun _ _ => rfl⟩

/-- An operator on operands that have the widths it takes them at. -/
def operate (op : BinOp) (x y : Val) : Option Val :=
  match x, y with
  | .word a, .word b =>
    match compare op a b with
    | some t => some (.word (flag t))
    | none => ((shift op a b).or (arith op a b)).map .word
  | .big a, .word b => (shift op a b).map .big
  | .big a, .big b =>
    match compare op a b with
    | some t => some (.word (flag t))
    | none => (arith op a b).map .big
  | _, _ => none

theorem denoteBinary_eq {op : BinOp} {x y : Val} (hx : ∀ t, x ≠ .str t) (hy : ∀ t, y ≠ .str t) :
    denoteBinary op x y = operate op (widthTo (operandKinds op x.kind y.kind).1 x)
      (widthTo (operandKinds op x.kind y.kind).2 y) := by
  cases x with
  | str t => exact absurd rfl (hx t)
  | word a | big a =>
      cases y with
      | str t => exact absurd rfl (hy t)
      | word b | big b =>
          cases op <;> simp [denoteBinary, operate, widthTo, operandKinds, Val.kind, NumKind.max,
            numeric, compare, arith, shift]

section Operators

variable {op : BinOp} {pc dst r next free : Nat} {tail : List Instruction} {a b : Val}

theorem genOperator_exists (hpower : op ≠ .power) (hand : op ≠ .logAnd) (hor : op ≠ .logOr)
    {kind : NumKind} (hkind : kind ≠ .real) (dst l r pc : Nat) :
    ∃ tail, genOperator op kind dst l r pc = some tail := by
  cases kind with
  | real => exact absurd rfl hkind
  | word => cases op <;> first | contradiction | exact ⟨_, rfl⟩
  | big => cases op <;> first | contradiction | exact ⟨_, rfl⟩

/-- Two slots of temporaries hold the operands. -/
structure Operands (vm : VmState) (l r : Nat) (a b : Val) (free : Nat) : Prop where
  left : InSlot vm.frames.data (slot vm l) a
  right : InSlot vm.frames.data (slot vm r) b
  order : l + a.kind.byteSize ≤ r
  fits : r + b.kind.byteSize ≤ free

theorem Operands.word_lt {x y : Word} (h : Operands vm next r (.word x) (.word y) free)
    (hroom : Room vm free) : slot vm next < mpBase ∧ slot vm r < mpBase := by
  have horder : next + 4 ≤ r := h.order
  have hfits : r + 4 ≤ free := h.fits
  exact ⟨hroom.lt (by omega), hroom.lt (by omega)⟩

theorem Operands.big_lt {x y : Big} (h : Operands vm next r (.big x) (.big y) free)
    (hroom : Room vm free) : slot vm next < mpBase ∧ slot vm r < mpBase := by
  have horder : next + 8 ≤ r := h.order
  have hfits : r + 8 ≤ free := h.fits
  exact ⟨hroom.lt (by omega), hroom.lt (by omega)⟩

/-- The operands are still there when the destination is written. -/
theorem Operands.kept (h : Operands vm next r a b free) (hu : Kept vm vm' pc dst 4 free)
    (hdst : dst + 4 ≤ next) : Operands vm' next r a b free := by
  have horder := h.order
  have hfits := h.fits
  refine ⟨?_, ?_, horder, hfits⟩
  · rw [hu.slot_eq]
    exact hu.inSlot (by omega) (.inr hdst) h.left
  · rw [hu.slot_eq]
    exact hu.inSlot hfits (.inr (by omega)) h.right

theorem target_lt {n : Nat} {block : List Instruction} (hcode : code.length < 2 ^ 31)
    (hat : At code pc block) (hn : n ≤ block.length) : pc + n < 2 ^ 31 := by
  obtain ⟨pre, post, rfl, rfl⟩ := hat
  simp only [List.length_append] at hcode
  omega

theorem leaves_compare_word {x y : Word} {branch : Opcode}
    (h : compareOpcode op .word = some branch) (hcode : code.length < 2 ^ 31)
    (hat : At code pc [instr .movw (.imm 1) .unused (.slot dst),
      instr branch (.slot next) (.slot r) (.imm (.ofUsize (pc + 3))),
      instr .movw (.imm 0) .unused (.slot dst)])
    (hpc : vm.pc = pc) (hroom : Room vm free) (hdst : dst + 4 ≤ next)
    (hops : Operands vm next r (.word x) (.word y) free) :
    Leaves code vm (operate op (.word x) (.word y)) .word .word (pc + 3) dst next := by
  have horder : next + 4 ≤ r := hops.order
  have hfits : r + 4 ≤ free := hops.fits
  obtain ⟨test, hop, htest⟩ := test_word h
  have htarget := target_lt hcode hat (Nat.le_refl 3)
  obtain ⟨vm', hsteps, hflag, hkept⟩ := leaves_flag (b := test x y) hat hpc hroom hdst
    (by omega) fun u hu => by
      obtain ⟨hl, hr⟩ := (hops.kept hu hdst).word_lt (hroom.kept hu)
      have hkept := hops.kept hu hdst
      have hstep := step_wordBranch hop hl (a := .slot r) hr htarget
      have hleft : readWord u.frames.data (slot u next) = x := hkept.left
      have hright : Arg.wordIn u (.slot r) = y := hkept.right
      rwa [hleft, hright] at hstep
  rw [operate, htest]
  exact ⟨vm', hsteps, rfl, hflag, hkept⟩

theorem leaves_compare_big {x y : Big} {branch : Opcode}
    (h : compareOpcode op .big = some branch) (hcode : code.length < 2 ^ 31)
    (hat : At code pc [instr .movw (.imm 1) .unused (.slot dst),
      instr branch (.slot next) (.slot r) (.imm (.ofUsize (pc + 3))),
      instr .movw (.imm 0) .unused (.slot dst)])
    (hpc : vm.pc = pc) (hroom : Room vm free) (hdst : dst + 4 ≤ next)
    (hops : Operands vm next r (.big x) (.big y) free) :
    Leaves code vm (operate op (.big x) (.big y)) .word .word (pc + 3) dst next := by
  have horder : next + 8 ≤ r := hops.order
  have hfits : r + 8 ≤ free := hops.fits
  obtain ⟨test, hop, htest⟩ := test_big h
  have htarget := target_lt hcode hat (Nat.le_refl 3)
  obtain ⟨vm', hsteps, hflag, hkept⟩ := leaves_flag (b := test x y) hat hpc hroom hdst
    (by omega) fun u hu => by
      obtain ⟨hl, hr⟩ := (hops.kept hu hdst).big_lt (hroom.kept hu)
      have hkept := hops.kept hu hdst
      have hstep := step_bigBranch hop hl hr htarget
      have hleft : readBig u.frames.data (slot u next) = x := hkept.left
      have hright : readBig u.frames.data (slot u r) = y := hkept.right
      rwa [hleft, hright] at hstep
  rw [operate, htest]
  exact ⟨vm', hsteps, rfl, hflag, hkept⟩

theorem operate_words (h : compareOpcode op .word = none) (x y : Word) :
    operate op (.word x) (.word y) = ((shift op x y).or (arith op x y)).map .word := by
  cases op <;> first | rfl | cases h

theorem operate_bigs (h : compareOpcode op .big = none) (x y : Big) :
    operate op (.big x) (.big y) = (arith op x y).map .big := by
  cases op <;> first | rfl | cases h

/-- The operator's instructions, on two words. -/
theorem leaves_words {x y : Word} (hgen : genOperator op .word dst next r pc = some tail)
    (hcode : code.length < 2 ^ 31) (hat : At code pc tail) (hpc : vm.pc = pc)
    (hroom : Room vm free) (hdst : dst + 4 ≤ next)
    (hops : Operands vm next r (.word x) (.word y) free) :
    Leaves code vm (operate op (.word x) (.word y)) .word .word (pc + tail.length) dst next := by
  obtain ⟨hl, hr⟩ := hops.word_lt hroom
  have horder : next + 4 ≤ r := hops.order
  have hfits : r + 4 ≤ free := hops.fits
  cases hcompare : compareOpcode op .word with
  | some branch =>
      rw [genOperator, hcompare] at hgen
      cases hgen
      exact leaves_compare_word hcompare hcode hat hpc hroom hdst hops
  | none =>
      rw [genOperator, hcompare] at hgen
      obtain ⟨opcode, hop, rfl⟩ := Option.map_eq_some_iff.mp hgen
      subst hpc
      have hcomes := comes_onWords (onWords_of_arithOpcode hop) hat.head hl hr
        (hroom.lt (d := dst) (by omega))
      have hleft : readWord vm.frames.data (slot vm next) = x := hops.left
      have hright : readWord vm.frames.data (slot vm r) = y := hops.right
      rw [hleft, hright] at hcomes
      rw [operate_words hcompare]
      exact hcomes.map fun v u hwent => ⟨rfl, hwent.word (hroom.holds (by omega)) next⟩

/-- On two bigs. -/
theorem leaves_bigs {x y : Big} (hgen : genOperator op .big dst next r pc = some tail)
    (hleft : op ≠ .lshift) (hright : op ≠ .rshift)
    (hcode : code.length < 2 ^ 31) (hat : At code pc tail) (hpc : vm.pc = pc)
    (hroom : Room vm free) (hdst : dst + (binaryKind op .big .big).byteSize ≤ next)
    (hops : Operands vm next r (.big x) (.big y) free) :
    Leaves code vm (operate op (.big x) (.big y)) (binaryKind op .big .big)
      (binaryKind op .big .big) (pc + tail.length) dst next := by
  obtain ⟨hl, hr⟩ := hops.big_lt hroom
  have horder : next + 8 ≤ r := hops.order
  have hfits : r + 8 ≤ free := hops.fits
  cases hcompare : compareOpcode op .big with
  | some branch =>
      have hkind : binaryKind op .big .big = .word := by
        cases op <;> first | rfl | cases hcompare
      rw [hkind] at hdst ⊢
      rw [genOperator, hcompare] at hgen
      cases hgen
      exact leaves_compare_big hcompare hcode hat hpc hroom hdst hops
  | none =>
      rw [genOperator, hcompare] at hgen
      obtain ⟨opcode, hop, rfl⟩ := Option.map_eq_some_iff.mp hgen
      have hkind : binaryKind op .big .big = .big := by
        cases op <;> first | rfl | cases hop
      rw [hkind] at hdst ⊢
      have hwide : dst + 8 ≤ next := hdst
      subst hpc
      have hcomes := comes_onBigs (onBigs_of_arithOpcode hop hleft hright) hat.head hl hr
        (hroom.lt (d := dst) (by omega))
      have hx : readBig vm.frames.data (slot vm next) = x := hops.left
      have hy : readBig vm.frames.data (slot vm r) = y := hops.right
      rw [hx, hy] at hcomes
      rw [operate_bigs hcompare]
      exact hcomes.map fun v u hwent => ⟨rfl, hwent.big (hroom.holds (by omega)) next⟩

/-- A shift of a big. -/
theorem leaves_bigShift {x : Big} {y : Word}
    (hgen : genOperator op .big dst next r pc = some tail) (hshift : IsShift op)
    (hat : At code pc tail) (hpc : vm.pc = pc) (hroom : Room vm free) (hdst : dst + 8 ≤ next)
    (hops : Operands vm next r (.big x) (.word y) free) :
    Leaves code vm (operate op (.big x) (.word y)) .big .big (pc + tail.length) dst next := by
  have horder : next + 8 ≤ r := hops.order
  have hfits : r + 4 ≤ free := hops.fits
  have hcompare : compareOpcode op .big = none := by rcases hshift with rfl | rfl <;> rfl
  rw [genOperator, hcompare] at hgen
  obtain ⟨opcode, hop, rfl⟩ := Option.map_eq_some_iff.mp hgen
  subst hpc
  have hcomes := comes_bigShift hop hshift hat.head (hroom.lt (d := next) (by omega))
    (hroom.lt (d := r) (by omega)) (hroom.lt (d := dst) (by omega))
  have hx : readBig vm.frames.data (slot vm next) = x := hops.left
  have hy : readWord vm.frames.data (slot vm r) = y := hops.right
  rw [hx, hy] at hcomes
  exact hcomes.map fun v u hwent => ⟨rfl, hwent.big (hroom.holds (by omega)) next⟩

end Operators

/-! ### Whole expressions -/

theorem NumKind.max_ne_real {a b : NumKind} (ha : a ≠ .real) (hb : b ≠ .real) :
    a.max b ≠ .real := by
  cases a <;> cases b <;> first | contradiction | decide

theorem binaryKind_ne_real {op : BinOp} {lk rk : NumKind} (hl : lk ≠ .real) (hr : rk ≠ .real) :
    binaryKind op lk rk ≠ .real := by
  have hmax := NumKind.max_ne_real hl hr
  have hword : NumKind.word ≠ .real := by decide
  cases op <;> first | exact hl | exact hmax | exact hword

theorem Num.kind_ne_real (e : Num) : e.kind ≠ .real := by
  induction e with
  | word a =>
      have hword : NumKind.word ≠ .real := by decide
      exact hword
  | big a =>
      have hbig : NumKind.big ≠ .real := by decide
      exact hbig
  | unary op e ih => exact ih
  | binary l op r ihl ihr => exact binaryKind_ne_real ihl ihr

theorem kind_widthTo {v : Val} {target : NumKind} (htarget : target ≠ .real)
    {data : List Byte} {off : Nat} (h : InSlot data off (widthTo target v)) :
    (widthTo target v).kind = target := by
  cases target with
  | real => exact absurd rfl htarget
  | word => cases v <;> rfl
  | big =>
      cases v with
      | str t => exact h.elim
      | word w => rfl
      | big b => rfl

theorem not_str {v : Val} {target : NumKind} {data : List Byte} {off : Nat}
    (h : InSlot data off (widthTo target v)) (t : String) : v ≠ .str t := by
  rintro rfl
  cases target <;> exact h

/-- The instructions of an operator, on operands of the widths it takes them at. -/
theorem leaves_operator {op : BinOp} {lk rk : NumKind} {x y : Val} {code tail : List Instruction}
    {vm : VmState} {pc dst r next free : Nat} (hpower : op ≠ .power) (hand : op ≠ .logAnd)
    (hor : op ≠ .logOr) (hcount : IsShift op → lk.max rk = lk) (hlk : lk ≠ .real) (hrk : rk ≠ .real)
    (hgen : genOperator op (operandKinds op lk rk).1 dst next r pc = some tail)
    (hx : x.kind = (operandKinds op lk rk).1) (hy : y.kind = (operandKinds op lk rk).2)
    (hcode : code.length < 2 ^ 31) (hat : At code pc tail) (hpc : vm.pc = pc)
    (hroom : Room vm free) (hdst : dst + (binaryKind op lk rk).byteSize ≤ next)
    (hops : Operands vm next r x y free) :
    Leaves code vm (operate op x y) (binaryKind op lk rk) (binaryKind op lk rk)
      (pc + tail.length) dst next := by
  by_cases hshift : IsShift op
  · have hkinds : operandKinds op lk rk = (lk, .word) ∧ binaryKind op lk rk = lk := by
      have hwidth := hcount hshift
      rcases hshift with rfl | rfl <;> exact ⟨rfl, hwidth⟩
    rw [hkinds.1] at hgen hx hy
    rw [hkinds.2] at hdst ⊢
    cases y with
    | str t => exact hops.right.elim
    | big b => cases hy
    | word b =>
        cases x with
        | str t => exact hops.left.elim
        | word a =>
            cases hx
            exact leaves_words hgen hcode hat hpc hroom hdst hops
        | big a =>
            cases hx
            exact leaves_bigShift hgen hshift hat hpc hroom hdst hops
  · obtain ⟨hleft, hright⟩ := not_or.mp hshift
    have hkinds : operandKinds op lk rk = (lk.max rk, lk.max rk) := by
      cases op <;> first | rfl | contradiction
    have hresult : binaryKind op lk rk = binaryKind op (lk.max rk) (lk.max rk) := by
      cases op <;> cases lk <;> cases rk <;> rfl
    rw [hkinds] at hgen hx hy
    rw [hresult] at hdst ⊢
    cases x with
    | str t => exact hops.left.elim
    | word a =>
        have hword : lk.max rk = .word := hx.symm
        cases y with
        | str t => exact hops.right.elim
        | big b =>
            have hne : NumKind.big ≠ .word := by decide
            exact absurd (hy.trans hword) hne
        | word b =>
            have hkind : binaryKind op .word .word = .word := by cases op <;> rfl
            rw [hword] at hgen
            rw [hword, hkind] at hdst ⊢
            exact leaves_words hgen hcode hat hpc hroom hdst hops
    | big a =>
        have hbig : lk.max rk = .big := hx.symm
        cases y with
        | str t => exact hops.right.elim
        | word b =>
            have hne : NumKind.word ≠ .big := by decide
            exact absurd (hy.trans hbig) hne
        | big b =>
            rw [hbig] at hgen
            rw [hbig] at hdst ⊢
            exact leaves_bigs hgen hleft hright hcode hat hpc hroom hdst hops

theorem operandKinds_ne_real {op : BinOp} {lk rk : NumKind} (hl : lk ≠ .real) (hr : rk ≠ .real) :
    (operandKinds op lk rk).1 ≠ .real ∧ (operandKinds op lk rk).2 ≠ .real := by
  have hmax := NumKind.max_ne_real hl hr
  have hword : NumKind.word ≠ .real := by decide
  cases op <;> first | exact ⟨hl, hword⟩ | exact ⟨hmax, hmax⟩

theorem computes_binary {l r : Num} {op : BinOp}
    (hop : op ≠ .power ∧ op ≠ .logAnd ∧ op ≠ .logOr ∧ (IsShift op → l.kind.max r.kind = l.kind))
    (hl : Computes l.gen l.kind l.kind l.value l.Placed)
    (hr : Computes r.gen r.kind r.kind r.value r.Placed) :
    Computes (Num.binary l op r).gen (Num.binary l op r).kind (Num.binary l op r).kind
      (Num.value · (.binary l op r)) (Num.binary l op r).Placed := by
  intro dst next pc hplaced hdst
  obtain ⟨hpower, hand, hor, hcount⟩ := hop
  obtain ⟨hpl, hpr⟩ := hplaced
  obtain ⟨kl, kr, hkinds⟩ : ∃ kl kr, operandKinds op l.kind r.kind = (kl, kr) := ⟨_, _, rfl⟩
  obtain ⟨hkl, hkr⟩ : kl ≠ .real ∧ kr ≠ .real := by
    have hreal : (operandKinds op l.kind r.kind).1 ≠ .real ∧ _ :=
      operandKinds_ne_real l.kind_ne_real r.kind_ne_real
    rwa [hkinds] at hreal
  have hL := computes_toKind l.kind_ne_real hkl hl fun hle hp => hp.mono hle
  have hR := computes_toKind r.kind_ne_real hkr hr fun hle hp => hp.mono hle
  obtain ⟨codeL, freeL, hgenL, hleL, hrunL⟩ :=
    hL next (next + kl.byteSize + kr.byteSize) pc (hpl.mono (by omega)) (by omega)
  obtain ⟨codeR, freeR, hgenR, hleR, hrunR⟩ :=
    hR (next + kl.byteSize) freeL (pc + codeL.length) (hpr.mono (by omega)) (by omega)
  obtain ⟨tail, hgenT⟩ := genOperator_exists hpower hand hor hkl dst next
    (next + kl.byteSize) (pc + codeL.length + codeR.length)
  have hgen : (Num.binary l op r).gen dst next pc = some (codeL ++ (codeR ++ tail), freeR) := by
    rw [Num.gen, genBinary, hkinds]
    simp only [hgenL, hgenR, hgenT, Option.bind_eq_bind, Option.bind_some]
  refine ⟨_, freeR, hgen, by omega, fun code vm hcode hat hpc hroom => ?_⟩
  refine (hrunL code vm hcode hat.left hpc (hroom.mono hleR)).bind fun x u hpost => ?_
  obtain ⟨hkx, hsx, hku⟩ := hpost
  have hstill : Kept vm u (pc + codeL.length) next 0 next :=
    hku.widen (by omega) (.inl (Nat.le_refl next))
  rw [← Num.value_kept hpr hstill (Nat.le_refl next)]
  refine (hrunR code u hcode hat.right.left hku.pc_eq (hroom.kept hku)).bind fun y w hpost => ?_
  obtain ⟨hky, hsy, hkw⟩ := hpost
  have hx := kind_widthTo hkl hsx
  have hy := kind_widthTo hkr hsy
  rw [← hku.slot_eq] at hsx
  have hleft : InSlot w.frames.data (slot u next) (widthTo kl x) :=
    hkw.inSlot (by rw [hx]; omega) (.inl (by rw [hx])) hsx
  have hops : Operands w next (next + kl.byteSize) (widthTo kl x) (widthTo kr y) freeR := by
    refine ⟨?_, ?_, by rw [hx], by rw [hy]; omega⟩
    · rw [hkw.slot_eq]
      exact hleft
    · rw [hkw.slot_eq]
      exact hsy
  rw [denoteBinary_eq (not_str hsx) (not_str hsy), hkx, hky, hkinds]
  have hlast := leaves_operator hpower hand hor hcount l.kind_ne_real r.kind_ne_real
    (hkinds ▸ hgenT) (hkinds ▸ hx) (hkinds ▸ hy) hcode hat.right.right
    (hkw.pc_eq.trans rfl) ((hroom.kept hku).kept hkw) hdst hops
  refine hlast.mono fun v u' hpost => ?_
  obtain ⟨hkind, hslot, hkept⟩ := hpost
  have htemps : Kept vm w (pc + codeL.length + codeR.length) dst
      (binaryKind op l.kind r.kind).byteSize next :=
    (hku.widen (by omega) (.inl (Nat.le_refl next))).trans (hkw.widen (by omega) (.inl (by omega)))
  have hlen : pc + (codeL ++ (codeR ++ tail)).length =
      pc + codeL.length + codeR.length + tail.length := by
    simp only [List.length_append, Nat.add_assoc]
  rw [htemps.slot_eq] at hslot
  rw [hlen]
  exact ⟨hkind, hslot, htemps.trans hkept⟩

section Unary

variable {pc dst z t n next free : Nat}

/-- An immediate is widened through a temporary. -/
theorem steps_widen {k : Word} {rest : List Instruction}
    (hat : At code pc (instr .movw (.imm k) .unused (.slot z) ::
      instr .cvtwl (.slot z) .unused (.slot t) :: rest))
    (hpc : vm.pc = pc) (hroom : Room vm free) (hz : z + 4 ≤ free) (ht : t + 8 ≤ free)
    (hn : n ≤ z) :
    ∃ vm', Steps code vm vm' ∧ readBig vm'.frames.data (slot vm t) = k.signExtend 64 ∧
      Kept vm vm' (pc + 2) t 8 n := by
  subst hpc
  obtain ⟨u, hmov, hwent⟩ := step_movw (a := .imm k) trivial (hroom.lt hz)
  obtain ⟨hin, hkept⟩ := hwent.word (hroom.holds hz) n
  have hroom' := hroom.kept hkept
  obtain ⟨vm', hcvt, hwent'⟩ := step_cvtwl (hroom'.lt hz) (hroom'.lt (d := t) (by omega))
  have hread : readWord u.frames.data (slot u z) = k := by
    rw [hkept.slot_eq]
    exact hin
  rw [hread] at hwent'
  obtain ⟨hin', hkept'⟩ := hwent'.big (hroom'.holds ht) n
  have hi := hat.tail.head
  rw [← hkept.pc_eq] at hi
  rw [hkept.slot_eq] at hin'
  rw [hkept.pc_eq] at hkept'
  refine ⟨vm', .step hat.head hmov (.step hi hcvt (.refl vm')), hin', ?_⟩
  exact (hkept.widen (Nat.le_refl n) (.inl hn)).trans hkept'

theorem leaves_neg_word {w : Word}
    (hat : At code pc [instr .movw (.imm 0) .unused (.slot (next + 4)),
      instr .subw (.slot next) (.slot (next + 4)) (.slot dst)])
    (hpc : vm.pc = pc) (hroom : Room vm free) (hfree : next + 8 ≤ free) (hdst : dst + 4 ≤ next)
    (hw : readWord vm.frames.data (slot vm next) = w) :
    Leaves code vm (some (.word (-w))) .word .word (pc + 2) dst next := by
  subst hpc
  obtain ⟨u, hmov, hwent⟩ :=
    step_movw (a := .imm 0) trivial (hroom.lt (d := next + 4) (by omega))
  obtain ⟨hin, hkept⟩ := hwent.word (hroom.holds (by omega)) (next + 4)
  have hroom' := hroom.kept hkept
  obtain ⟨vm', hsub, hwent'⟩ := step_subw (l := next + 4) (r := next) (d := dst)
    (hroom'.lt (by omega)) (hroom'.lt (by omega)) (hroom'.lt (by omega))
  have hzero : readWord u.frames.data (slot u (next + 4)) = 0 := by
    rw [hkept.slot_eq]
    exact hin
  have hread : readWord u.frames.data (slot u next) = w := by
    rw [hkept.slot_eq, hkept.readWord_eq (Nat.le_refl _) (.inl (Nat.le_refl _))]
    exact hw
  have hneg : (0 : Word) - w = -w := BitVec.zero_sub w
  rw [hzero, hread, hneg] at hwent'
  obtain ⟨hin', hkept'⟩ := hwent'.word (hroom'.holds (by omega)) next
  have hi := hat.tail.head
  rw [← hkept.pc_eq] at hi
  rw [hkept.slot_eq] at hin'
  rw [hkept.pc_eq] at hkept'
  refine .step hat.head hmov (.step hi hsub (.done ⟨rfl, hin', ?_⟩))
  exact (hkept.widen (by omega) (.inl (by omega))).trans hkept'

theorem leaves_neg_big {b : Big}
    (hat : At code pc [instr .movw (.imm 0) .unused (.slot free),
      instr .cvtwl (.slot free) .unused (.slot (next + 8)),
      instr .subl (.slot next) (.slot (next + 8)) (.slot dst)])
    (hpc : vm.pc = pc) (hroom : Room vm (free + 4)) (hfree : next + 16 ≤ free)
    (hdst : dst + 8 ≤ next) (hb : readBig vm.frames.data (slot vm next) = b) :
    Leaves code vm (some (.big (-b))) .big .big (pc + 3) dst next := by
  obtain ⟨u, hwiden, hzero, hkept⟩ :=
    steps_widen (n := free) hat hpc hroom (by omega) (by omega) (by omega)
  have hroom' := hroom.kept hkept
  obtain ⟨vm', hsub, hwent'⟩ := step_subl (l := next + 8) (r := next) (d := dst)
    (hroom'.lt (by omega)) (hroom'.lt (by omega)) (hroom'.lt (by omega))
  rw [← hkept.slot_eq] at hzero
  have hread : readBig u.frames.data (slot u next) = b := by
    rw [hkept.slot_eq, hkept.readBig_eq (by omega) (.inl (Nat.le_refl _))]
    exact hb
  have hnull : (0 : Word).signExtend 64 = (0 : Big) := by decide
  have hneg : (0 : Big) - b = -b := BitVec.zero_sub b
  rw [hzero, hread, hnull, hneg] at hwent'
  obtain ⟨hin', hkept'⟩ := hwent'.big (hroom'.holds (by omega)) next
  have hi := hat.tail.tail.head
  rw [show pc + 1 + 1 = u.pc from hkept.pc_eq.symm] at hi
  rw [hkept.slot_eq] at hin'
  rw [hkept.pc_eq] at hkept'
  refine .after hwiden (.step hi hsub (.done ⟨rfl, hin', ?_⟩))
  exact (hkept.widen (by omega) (.inl (by omega))).trans hkept'

theorem leaves_bitNot_word {w : Word}
    (hat : At code pc [instr .movw (.imm (-1)) .unused (.slot free),
      instr .xorw (.slot free) .unused (.slot dst)])
    (hpc : vm.pc = pc) (hroom : Room vm (free + 4)) (hfree : next ≤ free) (hdst : dst + 4 ≤ next)
    (hw : readWord vm.frames.data (slot vm dst) = w) :
    Leaves code vm (some (.word (~~~w))) .word .word (pc + 2) dst next := by
  subst hpc
  obtain ⟨u, hmov, hwent⟩ := step_movw (a := .imm (-1)) trivial (hroom.lt (Nat.le_refl _))
  obtain ⟨hin, hkept⟩ := hwent.word (hroom.holds (Nat.le_refl _)) free
  have hroom' := hroom.kept hkept
  obtain ⟨vm', hxor, hwent'⟩ :=
    step_xorw (r := free) (d := dst) (hroom'.lt (by omega)) (hroom'.lt (by omega))
  have hones : readWord u.frames.data (slot u free) = -1 := by
    rw [hkept.slot_eq]
    exact hin
  have hread : readWord u.frames.data (slot u dst) = w := by
    rw [hkept.slot_eq, hkept.readWord_eq (by omega) (.inl (by omega))]
    exact hw
  have hall : (-1 : Word) = BitVec.allOnes 32 := by decide
  rw [hones, hread, hall, BitVec.allOnes_xor] at hwent'
  obtain ⟨hin', hkept'⟩ := hwent'.word (hroom'.holds (by omega)) next
  have hi := hat.tail.head
  rw [← hkept.pc_eq] at hi
  rw [hkept.slot_eq] at hin'
  rw [hkept.pc_eq] at hkept'
  refine .step hat.head hmov (.step hi hxor (.done ⟨rfl, hin', ?_⟩))
  exact (hkept.widen hfree (.inl hfree)).trans hkept'

theorem leaves_bitNot_big {b : Big}
    (hat : At code pc [instr .movw (.imm (-1)) .unused (.slot free),
      instr .cvtwl (.slot free) .unused (.slot (free + 4)),
      instr .xorl (.slot (free + 4)) .unused (.slot dst)])
    (hpc : vm.pc = pc) (hroom : Room vm (free + 12)) (hfree : next ≤ free) (hdst : dst + 8 ≤ next)
    (hb : readBig vm.frames.data (slot vm dst) = b) :
    Leaves code vm (some (.big (~~~b))) .big .big (pc + 3) dst next := by
  obtain ⟨u, hwiden, hones, hkept⟩ :=
    steps_widen (n := free) hat hpc hroom (by omega) (by omega) (by omega)
  have hroom' := hroom.kept hkept
  obtain ⟨vm', hxor, hwent'⟩ := step_xorl (r := free + 4) (d := dst)
    (hroom'.lt (by omega)) (hroom'.lt (by omega))
  rw [← hkept.slot_eq] at hones
  have hread : readBig u.frames.data (slot u dst) = b := by
    rw [hkept.slot_eq, hkept.readBig_eq (by omega) (.inl (by omega))]
    exact hb
  have hall : (-1 : Word).signExtend 64 = BitVec.allOnes 64 := by decide
  rw [hones, hread, hall, BitVec.allOnes_xor] at hwent'
  obtain ⟨hin', hkept'⟩ := hwent'.big (hroom'.holds (by omega)) next
  have hi := hat.tail.tail.head
  rw [show pc + 1 + 1 = u.pc from hkept.pc_eq.symm] at hi
  rw [hkept.slot_eq] at hin'
  rw [hkept.pc_eq] at hkept'
  refine .after hwiden (.step hi hxor (.done ⟨rfl, hin', ?_⟩))
  exact (hkept.widen hfree (.inl (by omega))).trans hkept'

theorem leaves_not {w : Word} (hcode : code.length < 2 ^ 31)
    (hat : At code pc [instr .beqw (.slot dst) (.imm 0) (.imm (.ofUsize (pc + 3))),
      instr .movw (.imm 0) .unused (.slot dst),
      instr .jmp .unused .unused (.imm (.ofUsize (pc + 4))),
      instr .movw (.imm 1) .unused (.slot dst)])
    (hpc : vm.pc = pc) (hroom : Room vm free) (hfree : next ≤ free) (hdst : dst + 4 ≤ next)
    (hw : readWord vm.frames.data (slot vm dst) = w) :
    Leaves code vm (some (.word (flag (w = 0)))) .word .word (pc + 4) dst next := by
  subst hpc
  have hd : dst + 4 ≤ free := by omega
  have hop : operation .beqw = wordBranch (· == ·) := rfl
  obtain ⟨u, hbranch, hwent⟩ := step_wordBranch hop (a := .imm 0) (hroom.lt hd) trivial
    (target_lt hcode hat (Nat.le_succ 3))
  rw [hw] at hwent
  have hdata : u.frames.data = vm.frames.data := congrArg (·.frames.data) hwent
  have hkept := hwent.still dst 4 next
  have hroom' := hroom.kept hkept
  by_cases hzero : w = 0
  · subst hzero
    obtain ⟨vm', hmov, hwent'⟩ := step_movw (a := .imm 1) trivial (hroom'.lt hd)
    obtain ⟨hin, hkept'⟩ := hwent'.word (hroom'.holds hd) next
    have hi := hat.tail.tail.tail.head
    rw [show vm.pc + 1 + 1 + 1 = u.pc from hkept.pc_eq.symm] at hi
    rw [hkept.slot_eq] at hin
    rw [hkept.pc_eq] at hkept'
    exact .step hat.head hbranch (.step hi hmov (.done ⟨rfl, hin, hkept.trans hkept'⟩))
  · have htest : (w == 0) = false := beq_eq_false_iff_ne.mpr hzero
    have hpc : u.pc = vm.pc + 1 := by
      rw [hkept.pc_eq]
      exact if_neg (by rw [show Arg.wordIn vm (.imm 0) = 0 from rfl, htest]; decide)
    obtain ⟨u', hmov, hwent'⟩ := step_movw (a := .imm 0) trivial (hroom'.lt hd)
    obtain ⟨hin, hkept'⟩ := hwent'.word (hroom'.holds hd) next
    obtain ⟨vm', hjmp, hlast⟩ := step_jmp u' (target_lt hcode hat (Nat.le_refl 4))
    have hlast' := hlast.still dst 4 next
    have hdata' : vm'.frames.data = u'.frames.data := congrArg (·.frames.data) hlast
    have hi := hat.tail.head
    rw [← hpc] at hi
    have hi' := hat.tail.tail.head
    rw [← hpc, ← hkept'.pc_eq] at hi'
    rw [hkept.slot_eq, ← hdata'] at hin
    have hflag : flag (w = 0) = (0 : Word) := by rw [decide_eq_false hzero]; rfl
    rw [hflag]
    refine .step hat.head hbranch (.step hi hmov (.step hi' hjmp (.done ⟨rfl, hin, ?_⟩)))
    exact (hkept.trans hkept').trans hlast'

end Unary

section Unary

variable {gen : Generator} {value : VmState → Option Val} {Placed : Nat → Prop}

theorem computes_neg_word (h : Computes gen .word .word value Placed)
    (hmono : ∀ {m n}, m ≤ n → Placed m → Placed n) :
    Computes (genUnary .neg .word gen) .word .word
      (fun vm => (value vm).bind (denoteUnary .neg)) Placed := by
  refine computes_behind (fun _ next => next) 8 0
    (fun dst next _ _ => [instr .movw (.imm 0) .unused (.slot (next + 4)),
      instr .subw (.slot next) (.slot (next + 4)) (.slot dst)]) h hmono ?_ ?_ ?_
  · intro dst next pc
    rw [genUnary]
    cases gen next (next + 8) pc <;> rfl
  · exact fun dst next _ => ⟨Nat.add_le_add_left (by decide) next, .inr (Nat.le_refl next)⟩
  · intro code vm v dst next free pc _ hat hpc hroom hfree hdst hkind hslot
    cases v with
    | big b => cases hkind
    | str t => exact hslot.elim
    | word w => exact leaves_neg_word hat hpc hroom hfree hdst hslot

theorem computes_neg_big (h : Computes gen .big .big value Placed)
    (hmono : ∀ {m n}, m ≤ n → Placed m → Placed n) :
    Computes (genUnary .neg .big gen) .big .big
      (fun vm => (value vm).bind (denoteUnary .neg)) Placed := by
  refine computes_behind (fun _ next => next) 16 4
    (fun dst next free _ => [instr .movw (.imm 0) .unused (.slot free),
      instr .cvtwl (.slot free) .unused (.slot (next + 8)),
      instr .subl (.slot next) (.slot (next + 8)) (.slot dst)]) h hmono ?_ ?_ ?_
  · intro dst next pc
    rw [genUnary]
    cases gen next (next + 16) pc <;> rfl
  · exact fun dst next _ => ⟨Nat.add_le_add_left (by decide) next, .inr (Nat.le_refl next)⟩
  · intro code vm v dst next free pc _ hat hpc hroom hfree hdst hkind hslot
    cases v with
    | word w => cases hkind
    | str t => exact hslot.elim
    | big b => exact leaves_neg_big hat hpc hroom hfree hdst hslot

theorem computes_bitNot_word (h : Computes gen .word .word value Placed)
    (hmono : ∀ {m n}, m ≤ n → Placed m → Placed n) :
    Computes (genUnary .bitNot .word gen) .word .word
      (fun vm => (value vm).bind (denoteUnary .bitNot)) Placed := by
  refine computes_behind (fun dst _ => dst) 0 4
    (fun dst _ free _ => [instr .movw (.imm (-1)) .unused (.slot free),
      instr .xorw (.slot free) .unused (.slot dst)]) h hmono ?_
    (fun _ _ hdst => ⟨hdst, .inl ⟨rfl, rfl⟩⟩) ?_
  · intro dst next pc
    rw [genUnary, Nat.add_zero]
    cases gen dst next pc <;> rfl
  · intro code vm v dst next free pc _ hat hpc hroom hfree hdst hkind hslot
    cases v with
    | big b => cases hkind
    | str t => exact hslot.elim
    | word w => exact leaves_bitNot_word hat hpc hroom hfree hdst hslot

theorem computes_bitNot_big (h : Computes gen .big .big value Placed)
    (hmono : ∀ {m n}, m ≤ n → Placed m → Placed n) :
    Computes (genUnary .bitNot .big gen) .big .big
      (fun vm => (value vm).bind (denoteUnary .bitNot)) Placed := by
  refine computes_behind (fun dst _ => dst) 0 12
    (fun dst _ free _ => [instr .movw (.imm (-1)) .unused (.slot free),
      instr .cvtwl (.slot free) .unused (.slot (free + 4)),
      instr .xorl (.slot (free + 4)) .unused (.slot dst)]) h hmono ?_
    (fun _ _ hdst => ⟨hdst, .inl ⟨rfl, rfl⟩⟩) ?_
  · intro dst next pc
    rw [genUnary, Nat.add_zero]
    cases gen dst next pc <;> rfl
  · intro code vm v dst next free pc _ hat hpc hroom hfree hdst hkind hslot
    cases v with
    | word w => cases hkind
    | str t => exact hslot.elim
    | big b => exact leaves_bitNot_big hat hpc hroom hfree hdst hslot

theorem computes_not (h : Computes gen .word .word value Placed)
    (hmono : ∀ {m n}, m ≤ n → Placed m → Placed n) :
    Computes (genUnary .not .word gen) .word .word
      (fun vm => (value vm).bind (denoteUnary .not)) Placed := by
  refine computes_behind (fun dst _ => dst) 0 0
    (fun dst _ _ skip => [instr .beqw (.slot dst) (.imm 0) (.imm (.ofUsize (skip + 3))),
      instr .movw (.imm 0) .unused (.slot dst),
      instr .jmp .unused .unused (.imm (.ofUsize (skip + 4))),
      instr .movw (.imm 1) .unused (.slot dst)]) h hmono ?_
    (fun _ _ hdst => ⟨hdst, .inl ⟨rfl, rfl⟩⟩) ?_
  · intro dst next pc
    rw [genUnary, Nat.add_zero]
    cases gen dst next pc <;> rfl
  · intro code vm v dst next free pc hcode hat hpc hroom hfree hdst hkind hslot
    cases v with
    | big b => cases hkind
    | str t => exact hslot.elim
    | word w => exact leaves_not hcode hat hpc hroom hfree hdst hslot

end Unary

/-- An operator on words and bigs, except that `!` is of words. -/
theorem computes_unary {op : UnaryOp} {gen : Generator} {kind : NumKind}
    {value : VmState → Option Val} {Placed : Nat → Prop} (href : op ≠ .ref)
    (hnot : op = .not → kind = .word) (hkind : kind ≠ .real)
    (h : Computes gen kind kind value Placed) (hmono : ∀ {m n}, m ≤ n → Placed m → Placed n) :
    Computes (genUnary op kind gen) kind kind (fun vm => (value vm).bind (denoteUnary op))
      Placed := by
  cases op with
  | ref => exact absurd rfl href
  | not =>
      cases hnot rfl
      exact computes_not h hmono
  | neg =>
      cases kind with
      | real => exact absurd rfl hkind
      | word => exact computes_neg_word h hmono
      | big => exact computes_neg_big h hmono
  | bitNot =>
      cases kind with
      | real => exact absurd rfl hkind
      | word => exact computes_bitNot_word h hmono
      | big => exact computes_bitNot_big h hmono

theorem Num.computes {e : Num} (h : e.Supported) :
    Computes e.gen e.kind e.kind e.value e.Placed := by
  induction e with
  | word a => exact computes_word a
  | big a => exact computes_big a
  | binary l op r ihl ihr => exact computes_binary h.1 (ihl h.2.1) (ihr h.2.2)
  | unary op e ih =>
      obtain ⟨href, hnot, he⟩ := h
      exact computes_unary href hnot e.kind_ne_real (ih he) fun hle hp => hp.mono hle

/-- The code of an expression, wherever it stands, comes to the expression's value in its
destination with nothing else below the temporaries changed, or stops where there is a division by
zero. -/
theorem expression_runs {e : Num} {dst next : Nat} (pc : Nat) (hops : e.Supported)
    (hplaced : e.Placed next) (hdst : dst + e.kind.byteSize ≤ next) :
    ∃ block free, e.gen dst next pc = some (block, free) ∧ next ≤ free ∧
      ∀ code vm, code.length < 2 ^ 31 → At code pc block → vm.pc = pc → Room vm free →
        Comes code vm (e.value vm) fun v vm' =>
          v.kind = e.kind ∧ InSlot vm'.frames.data (slot vm dst) v ∧
            Kept vm vm' (pc + block.length) dst e.kind.byteSize next := by
  obtain ⟨block, free, hgen, hle, hrun⟩ := Num.computes hops dst next pc hplaced hdst
  refine ⟨block, free, hgen, hle, fun code vm hcode hat hpc hroom => ?_⟩
  refine (hrun code vm hcode hat hpc hroom).mono fun v vm' hpost => ?_
  obtain ⟨hkind, hslot, hkept⟩ := hpost
  rw [widthTo_self hkind] at hslot
  exact ⟨hkind, hslot, hkept⟩

/-- A big that is zero, and a word that is widened to be added to it. -/
theorem expression_runs_sum : ∃ code free vm vm',
    (Num.binary (.big (.slot 8)) .add (.word (.imm 7))).gen 0 16 0 = some (code, free) ∧
      Steps code vm vm' ∧ readBig vm'.frames.data (slot vm 0) = 7 := by
  obtain ⟨vm₀, -⟩ : ∃ vm, VmState.withArgs [] true (.ofCode "main" [] 0) [] = some vm := ⟨_, rfl⟩
  let vm : VmState := { vm₀ with frames := ⟨List.replicate 64 0, 0, 64⟩, pc := 0 }
  have hops : (Num.binary (.big (.slot 8)) .add (.word (.imm 7))).Supported :=
    ⟨⟨by decide, by decide, by decide, fun _ => rfl⟩, trivial, trivial⟩
  have hplaced : (Num.binary (.big (.slot 8)) .add (.word (.imm 7))).Placed 16 :=
    ⟨show 8 + 8 ≤ 16 by decide, trivial⟩
  obtain ⟨block, free, hgen, -, hrun⟩ :=
    expression_runs 0 hops hplaced (show 0 + 8 ≤ 16 by decide)
  have hcode : (Num.binary (.big (.slot 8)) .add (.word (.imm 7))).gen 0 16 0 = some
      ([instr .movl (.slot 8) .unused (.slot 16), instr .movw (.imm 7) .unused (.slot 32),
        instr .cvtwl (.slot 32) .unused (.slot 24),
        instr .addl (.slot 24) (.slot 16) (.slot 0)], 36) := rfl
  obtain ⟨rfl, rfl⟩ := Prod.mk.inj (Option.some.inj (hcode.symm.trans hgen))
  have hroom : Room vm 36 := by
    refine ⟨?_, ?_⟩
    · show 0 + frameHeaderSize + 36 ≤ (List.replicate 64 (0 : Byte)).length
      decide
    · show (List.replicate 64 (0 : Byte)).length ≤ mpBase
      decide
  have hcomes := hrun _ vm (by decide) (At.self _) rfl hroom
  have hvalue : (Num.binary (.big (.slot 8)) .add (.word (.imm 7))).value vm =
      some (.big 7) := rfl
  rw [hvalue] at hcomes
  obtain ⟨vm', hsteps, -, hslot, -⟩ := hcomes
  exact ⟨_, _, vm, vm', hgen, hsteps, hslot⟩

end RiceVM.Limbo.Numbers
