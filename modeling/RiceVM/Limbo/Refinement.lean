import RiceVM.Limbo.Operators
import RiceVM.Limbo.Folding

/-!
The value that the code of a constant expression is said to leave, operand by operand, is the one
that the machine comes to when it runs the instructions.
-/
namespace RiceVM.Limbo.Numbers
open Assembly Memory
open Casts (slot)

variable {s : Scope} {vm : VmState} {e : Expr} {n : Num} {x y w : Val}

/-- A constant expression of integers, with its constants where the machine has them. -/
inductive Placement (s : Scope) (vm : VmState) : Expr → Num → Prop
  | intLit {v : Big} {a : Arg} (hv : isWide v = false) (ha : a.wordIn vm = v.setWidth 32) :
    Placement s vm (.intLit v) (.word a)
  | wideLit {v : Big} {a : Arg} (hv : isWide v = true) (ha : a.bigIn vm = v) :
    Placement s vm (.intLit v) (.big a)
  | charLit {v : Word} {a : Arg} (ha : a.wordIn vm = v) : Placement s vm (.charLit v) (.word a)
  | ident {name : String} {v : Big} {n : Num} (hvar : s.lookupVar name = none)
    (hconst : s.consts name = some (.int v)) (hn : Placement s vm (.intLit v) n) :
    Placement s vm (.ident name) n
  | unary {op : UnaryOp} {e : Expr} {n : Num} (hn : Placement s vm e n) :
    Placement s vm (.unary op e) (.unary op n)
  | binary {l r : Expr} {op : BinOp} {m n : Num} (hm : Placement s vm l m)
    (hn : Placement s vm r n) : Placement s vm (.binary l op r) (.binary m op n)

section Generated

attribute [local simp] leaves genCode Limbo.genUnary genConst inferNumKind Code.eval arith

theorem leaves_intLit {v : Big} (hv : isWide v = false) :
    leaves s (.intLit v) = some (.word (v.setWidth 32)) := by simp [hv]

theorem leaves_wideLit {v : Big} (hv : isWide v = true) :
    leaves s (.intLit v) = some (.big v) := by simp [hv]

theorem leaves_charLit (v : Word) : leaves s (.charLit v) = some (.word v) := by simp

theorem leaves_ident {name : String} {v : Big} (hvar : s.lookupVar name = none)
    (hconst : s.consts name = some (.int v)) : leaves s (.ident name) = leaves s (.intLit v) := by
  simp [hvar, hconst, ConstVal.numKind]

/-- An operator on a number, but for `!` of a big. -/
theorem leaves_unary {op : UnaryOp} (h : leaves s e = some x) (hstr : ∀ t, x ≠ .str t)
    (hnot : op = .not → x.kind = .word) (hw : denoteUnary op x = some w) :
    leaves s (.unary op e) = some w := by
  cases x with
  | str t => exact absurd rfl (hstr t)
  | word v =>
      obtain ⟨hk, c, z, hc, hz, hv⟩ := leaves_word h
      cases op with
      | ref => cases hw
      | neg =>
          cases hw
          simp [hk, hc, hz, hv]
      | bitNot =>
          cases hw
          have hxor : v ^^^ BitVec.allOnes 32 = ~~~v := BitVec.xor_allOnes
          simpa [hk, hc, hz, hv] using hxor
      | not =>
          cases hw
          cases z with
          | str t => cases hv
          | word z =>
              cases hv
              simp [hk, hc, hz]
          | big z =>
              cases hv
              simp [hk, hc, hz, setWidth_flag]
  | big v =>
      obtain ⟨hk, c, hc, hz⟩ := leaves_big h
      cases op with
      | ref => cases hw
      | not => cases hnot rfl
      | neg =>
          cases hw
          simp [hk, hc, hz]
      | bitNot =>
          cases hw
          have hxor : v ^^^ BitVec.allOnes 64 = ~~~v := BitVec.xor_allOnes
          simpa [hk, hc, hz] using hxor

end Generated

/-- An operator on two numbers, but for a word that is shifted by a big. -/
theorem leaves_binary {l r : Expr} {op : BinOp} (hl : leaves s l = some x)
    (hr : leaves s r = some y) (hptr : inferExprType s l ≠ .ptr) (hx : ∀ t, x ≠ .str t)
    (hy : ∀ t, y ≠ .str t) (hcount : IsShift op → x.kind.max y.kind = x.kind)
    (hw : denoteBinary op x y = some w) : leaves s (.binary l op r) = some w := by
  by_cases hshift : IsShift op
  · cases x with
    | str t => exact absurd rfl (hx t)
    | word a =>
        cases y with
        | str t => exact absurd rfl (hy t)
        | big b => cases hcount hshift
        | word b =>
            refine (leaves_shift_word hl hr hshift).trans ?_
            rcases hshift with rfl | rfl <;> exact hw
    | big a =>
        obtain ⟨count, hword⟩ : ∃ count, y.word? = some count := by
          cases y with
          | str t => exact absurd rfl (hy t)
          | word b => exact ⟨b, rfl⟩
          | big b => exact ⟨b.setWidth 32, rfl⟩
        refine (leaves_shift_big hl hr hword hshift).trans ?_
        rcases hshift with rfl | rfl <;>
        · rw [denoteBinary, hword] at hw
          exact hw
  · obtain ⟨hlshift, hrshift⟩ := not_or.mp hshift
    cases x with
    | str t => exact absurd rfl (hx t)
    | word a =>
        cases y with
        | str t => exact absurd rfl (hy t)
        | word b =>
            have hnumeric : denoteBinary op (.word a) (.word b) = numeric .word op a b := by
              cases op <;> first | rfl | contradiction
            exact Limbo.leaves_words hl hr hptr (hnumeric.symm.trans hw)
        | big b =>
            have hnumeric : denoteBinary op (.word a) (.big b) =
                numeric .big op (a.signExtend 64) b := by
              cases op <;> first | rfl | contradiction
            exact leaves_wide hl hr rfl rfl rfl hptr (hnumeric.symm.trans hw)
    | big a =>
        cases y with
        | str t => exact absurd rfl (hy t)
        | word b =>
            have hnumeric : denoteBinary op (.big a) (.word b) =
                numeric .big op a (b.signExtend 64) := by
              cases op <;> first | rfl | contradiction
            exact leaves_wide hl hr rfl rfl rfl hptr (hnumeric.symm.trans hw)
        | big b =>
            have hnumeric : denoteBinary op (.big a) (.big b) = numeric .big op a b := by
              cases op <;> first | rfl | contradiction
            exact leaves_wide hl hr rfl rfl rfl hptr (hnumeric.symm.trans hw)

theorem number_of_unary {op : UnaryOp} (hw : denoteUnary op x = some w) (t : String) :
    w ≠ .str t := by
  rintro rfl
  cases op <;> cases x <;> cases hw

theorem number_of_operate {op : BinOp} (hw : operate op x y = some w) (t : String) :
    w ≠ .str t := by
  rintro rfl
  cases x <;> cases y <;> cases op <;> simp [operate, compare, shift, arith] at hw

/-- The value of a numeric expression is a number. -/
theorem Num.value_ne_str (hw : n.value vm = some w) (t : String) : w ≠ .str t := by
  induction n generalizing w t with
  | word a =>
      cases hw
      exact Val.noConfusion
  | big a =>
      cases hw
      exact Val.noConfusion
  | unary op e ih =>
      obtain ⟨x, -, hx⟩ := Option.bind_eq_some_iff.mp hw
      exact number_of_unary hx t
  | binary l op r ihl ihr =>
      obtain ⟨x, hx, hrest⟩ := Option.bind_eq_some_iff.mp hw
      obtain ⟨y, hy, hop⟩ := Option.bind_eq_some_iff.mp hrest
      rw [denoteBinary_eq (ihl hx) (ihr hy)] at hop
      exact number_of_operate hop t

namespace Placement

theorem inferExprType_eq (h : Placement s vm e n) : inferExprType s e = .word := by
  induction h with
  | intLit hv ha => rfl
  | wideLit hv ha => rfl
  | charLit ha => rfl
  | ident hvar hconst hn ih =>
      rw [inferExprType, hvar, hconst]
      rfl
  | unary hn ih => rfl
  | @binary l r op m n hm hn ihm ihn =>
      cases op with
      | add => rw [inferExprType_add, ihm, if_neg (by decide)]
      | _ => rfl

theorem inferNumKind_eq (h : Placement s vm e n) : inferNumKind s e = n.kind := by
  induction h with
  | intLit hv ha => exact if_neg (by rw [hv]; decide)
  | wideLit hv ha => exact if_pos hv
  | charLit ha => rfl
  | ident hvar hconst hn ih =>
      rw [inferNumKind, hvar, hconst]
      exact ih
  | unary hn ih => exact ih
  | @binary l r op m n hm hn ihm ihn =>
      cases op <;> simp [inferNumKind, Num.kind, binaryKind, ihm, ihn]

/-- What an expression means is its value, wherever its constants are. -/
theorem value_eq (h : Placement s vm e n) : n.value vm = denote s e := by
  induction h with
  | intLit hv ha => rw [Num.value, ha, denote, denoteConst, hv]; rfl
  | wideLit hv ha => rw [Num.value, ha, denote, denoteConst, hv]; rfl
  | charLit ha => exact congrArg (fun v => some (Val.word v)) ha
  | ident hvar hconst hn ih =>
      rw [ih, denote, denote, hconst]
      rfl
  | unary hn ih =>
      rw [Num.value, ih, denote]
      rfl
  | binary hm hn ihm ihn =>
      rw [Num.value, ihm, ihn, denote]
      rfl

/-- The value of the instructions is that of the code. -/
theorem leaves_eq (h : Placement s vm e n) (hp : n.Supported)
    (hw : n.value vm = some w) : leaves s e = some w := by
  induction h generalizing w with
  | intLit hv ha =>
      rw [leaves_intLit hv, ← ha]
      exact hw
  | wideLit hv ha =>
      rw [leaves_wideLit hv, ← ha]
      exact hw
  | charLit ha =>
      rw [leaves_charLit, ← ha]
      exact hw
  | ident hvar hconst hn ih =>
      rw [leaves_ident hvar hconst]
      exact ih hp hw
  | unary hn ih =>
      obtain ⟨href, hnot, hp⟩ := hp
      obtain ⟨x, hx, hop⟩ := Option.bind_eq_some_iff.mp hw
      have hleaves := ih hp hx
      refine leaves_unary hleaves (Num.value_ne_str hx) (fun hop => ?_) hop
      rw [← inferNumKind_of_leaves hleaves, hn.inferNumKind_eq]
      exact hnot hop
  | binary hm hn ihm ihn =>
      obtain ⟨⟨-, -, -, hcount⟩, hpm, hpn⟩ := hp
      obtain ⟨x, hx, hrest⟩ := Option.bind_eq_some_iff.mp hw
      obtain ⟨y, hy, hop⟩ := Option.bind_eq_some_iff.mp hrest
      have hl := ihm hpm hx
      have hr := ihn hpn hy
      refine leaves_binary hl hr ?_ (Num.value_ne_str hx) (Num.value_ne_str hy)
        (fun hshift => ?_) hop
      · rw [hm.inferExprType_eq]
        decide
      · rw [← inferNumKind_of_leaves hl, ← inferNumKind_of_leaves hr, hm.inferNumKind_eq,
          hn.inferNumKind_eq]
        exact hcount hshift

end Placement

/-- The instructions of a constant expression, run by the machine, come to what the expression
means, which is also what its code is said to leave; or they stop at a division by zero where it
means nothing. -/
theorem constant_expression_runs {dst next : Nat} (pc : Nat) (h : Placement s vm e n)
    (hops : n.Supported) (hplaced : n.Placed next) (hdst : dst + n.kind.byteSize ≤ next) :
    ∃ block free, n.gen dst next pc = some (block, free) ∧ next ≤ free ∧
      ∀ code, code.length < 2 ^ 31 → At code pc block → vm.pc = pc → Room vm free →
        Comes code vm (denote s e) fun v vm' =>
          leaves s e = some v ∧ InSlot vm'.frames.data (slot vm dst) v ∧
            Kept vm vm' (pc + block.length) dst (inferNumKind s e).byteSize next := by
  obtain ⟨block, free, hgen, hle, hrun⟩ := Num.computes hops dst next pc hplaced hdst
  refine ⟨block, free, hgen, hle, fun code hcode hat hpc hroom => ?_⟩
  have hcomes : Leaves code vm (n.value vm) n.kind n.kind (pc + block.length) dst next :=
    hrun code vm hcode hat hpc hroom
  rw [Leaves, h.value_eq] at hcomes
  rw [h.inferNumKind_eq]
  cases hvalue : denote s e with
  | none =>
      rw [hvalue] at hcomes
      exact hcomes
  | some v =>
      rw [hvalue] at hcomes
      obtain ⟨vm', hsteps, hkind, hslot, hkept⟩ := hcomes
      rw [widthTo_self hkind] at hslot
      exact ⟨vm', hsteps, h.leaves_eq hops (h.value_eq.trans hvalue), hslot, hkept⟩

/-- `-7 * 6`. -/
theorem constant_expression_runs_product : ∃ code free vm vm',
    (Num.binary (.unary .neg (.word (.imm 7))) .mul (.word (.imm 6))).gen 0 4 0 =
        some (code, free) ∧
      Steps code vm vm' ∧ readWord vm'.frames.data (slot vm 0) = -42 := by
  obtain ⟨vm₀, -⟩ : ∃ vm, VmState.withArgs [] true (.ofCode "main" [] 0) [] = some vm := ⟨_, rfl⟩
  let vm : VmState := { vm₀ with frames := ⟨List.replicate 64 0, 0, 64⟩, pc := 0 }
  have hexpr : Placement {} vm (.binary (.unary .neg (.intLit 7)) .mul (.intLit 6))
      (.binary (.unary .neg (.word (.imm 7))) .mul (.word (.imm 6))) :=
    .binary (.unary (.intLit (by decide) rfl)) (.intLit (by decide) rfl)
  have hplaced : (Num.binary (.unary .neg (.word (.imm 7))) .mul (.word (.imm 6))).Placed 4 :=
    ⟨trivial, trivial⟩
  have hops : (Num.binary (.unary .neg (.word (.imm 7))) .mul (.word (.imm 6))).Supported :=
    ⟨⟨by decide, by decide, by decide, fun _ => rfl⟩, ⟨by decide, fun _ => rfl, trivial⟩, trivial⟩
  obtain ⟨block, free, hgen, -, hrun⟩ :=
    constant_expression_runs 0 hexpr hops hplaced (show 0 + 4 ≤ 4 by decide)
  have hcode : (Num.binary (.unary .neg (.word (.imm 7))) .mul (.word (.imm 6))).gen 0 4 0 = some
      ([instr .movw (.imm 7) .unused (.slot 12), instr .movw (.imm 0) .unused (.slot 16),
        instr .subw (.slot 12) (.slot 16) (.slot 4), instr .movw (.imm 6) .unused (.slot 8),
        instr .mulw (.slot 8) (.slot 4) (.slot 0)], 20) := rfl
  obtain ⟨rfl, rfl⟩ := Prod.mk.inj (Option.some.inj (hcode.symm.trans hgen))
  have hroom : Room vm 20 := by
    refine ⟨?_, ?_⟩
    · show 0 + frameHeaderSize + 20 ≤ (List.replicate 64 (0 : Byte)).length
      decide
    · show (List.replicate 64 (0 : Byte)).length ≤ mpBase
      decide
  have hcomes := hrun _ (by decide) (At.self _) rfl hroom
  have hvalue : denote {} (.binary (.unary .neg (.intLit 7)) .mul (.intLit 6)) =
      some (.word (-42)) := rfl
  rw [hvalue] at hcomes
  obtain ⟨vm', hsteps, -, hslot, -⟩ := hcomes
  exact ⟨_, _, vm, vm', hgen, hsteps, hslot⟩

end RiceVM.Limbo.Numbers
