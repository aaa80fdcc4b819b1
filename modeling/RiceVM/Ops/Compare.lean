import RiceVM.Lib.Utf8Order
import RiceVM.Ops.Strings

/-!
Branches. A branch compares its source with its middle operand and goes on at its destination
where the comparison holds.
-/
namespace RiceVM.Ops
open Exec Utf8

/-- The two operands of a branch, read one way. -/
def operandPair {α : Type} (read : VmState → AddrTarget → Word → α) (vm : VmState) : α × α :=
  (read vm vm.src vm.immSrc, read vm vm.mid vm.immMid)

/-- `get_str_pair_src_mid`: what is no string compares as the empty one. -/
def getStrPairSrcMid : VmState → String × String :=
  operandPair fun vm target imm => vm.heap.text (vm.readWordAt target imm)

def branch {α : Type} (operands : VmState → α × α) (test : α → α → Bool) : VM Unit := do
  let vm ← get
  if test (operands vm).1 (operands vm).2 then
    let target ← dstWord
    modify fun vm => { vm with nextPc := target.asUsize }
  else pure ()

def wordBranch : (Word → Word → Bool) → VM Unit := branch (operandPair VmState.readWordAt)
def bigBranch : (Big → Big → Bool) → VM Unit := branch (operandPair VmState.readBigAt)
def byteBranch : (Byte → Byte → Bool) → VM Unit := branch (operandPair VmState.readByteAt)

/-- Strings are compared as the bytes they are stored as. -/
def stringBranch (test : Ordering → Bool) : VM Unit :=
  branch getStrPairSrcMid fun s m => test (cmpBytes (asBytes s) (asBytes m))

def opBeqw : VM Unit := wordBranch (· == ·)
def opBnew : VM Unit := wordBranch (· != ·)
def opBltw : VM Unit := wordBranch BitVec.slt
def opBlew : VM Unit := wordBranch BitVec.sle
def opBgtw : VM Unit := wordBranch fun s m => m.slt s
def opBgew : VM Unit := wordBranch fun s m => m.sle s

def opBeql : VM Unit := bigBranch (· == ·)
def opBnel : VM Unit := bigBranch (· != ·)
def opBltl : VM Unit := bigBranch BitVec.slt
def opBlel : VM Unit := bigBranch BitVec.sle
def opBgtl : VM Unit := bigBranch fun s m => m.slt s
def opBgel : VM Unit := bigBranch fun s m => m.sle s

def opBeqb : VM Unit := byteBranch (· == ·)
def opBneb : VM Unit := byteBranch (· != ·)
def opBltb : VM Unit := byteBranch BitVec.ult
def opBleb : VM Unit := byteBranch BitVec.ule
def opBgtb : VM Unit := byteBranch fun s m => m.ult s
def opBgeb : VM Unit := byteBranch fun s m => m.ule s

def opBeqc : VM Unit := stringBranch (· == .eq)
def opBnec : VM Unit := stringBranch (· != .eq)
def opBltc : VM Unit := stringBranch (· == .lt)
def opBlec : VM Unit := stringBranch (· != .gt)
def opBgtc : VM Unit := stringBranch (· == .gt)
def opBgec : VM Unit := stringBranch (· != .lt)

end RiceVM.Ops

namespace RiceVM
open Exec Ops Utf8

/-- The six comparisons. -/
inductive Comparison where
  | eq | ne | lt | le | gt | ge
  deriving DecidableEq, Repr

namespace Comparison

/-- What a comparison says in terms of one order. -/
def Holds {α : Type} [LT α] : Comparison → α → α → Prop
  | .eq, a, b => a = b
  | .ne, a, b => a ≠ b
  | .lt, a, b => a < b
  | .le, a, b => a < b ∨ a = b
  | .gt, a, b => b < a
  | .ge, a, b => b < a ∨ a = b

def wordOp : Comparison → VM Unit
  | .eq => opBeqw | .ne => opBnew | .lt => opBltw | .le => opBlew | .gt => opBgtw | .ge => opBgew

def bigOp : Comparison → VM Unit
  | .eq => opBeql | .ne => opBnel | .lt => opBltl | .le => opBlel | .gt => opBgtl | .ge => opBgel

def byteOp : Comparison → VM Unit
  | .eq => opBeqb | .ne => opBneb | .lt => opBltb | .le => opBleb | .gt => opBgtb | .ge => opBgeb

def stringOp : Comparison → VM Unit
  | .eq => opBeqc | .ne => opBnec | .lt => opBltc | .le => opBlec | .gt => opBgtc | .ge => opBgec

/-- The tests the branches make. -/
def signed {n : Nat} : Comparison → BitVec n → BitVec n → Bool
  | .eq => (· == ·) | .ne => (· != ·) | .lt => BitVec.slt | .le => BitVec.sle
  | .gt => fun s m => m.slt s | .ge => fun s m => m.sle s

def unsigned {n : Nat} : Comparison → BitVec n → BitVec n → Bool
  | .eq => (· == ·) | .ne => (· != ·) | .lt => BitVec.ult | .le => BitVec.ule
  | .gt => fun s m => m.ult s | .ge => fun s m => m.ule s

def ordered : Comparison → Ordering → Bool
  | .eq => (· == .eq) | .ne => (· != .eq) | .lt => (· == .lt) | .le => (· != .gt)
  | .gt => (· == .gt) | .ge => (· != .lt)

theorem wordOp_eq (c : Comparison) : c.wordOp = wordBranch c.signed := by cases c <;> rfl
theorem bigOp_eq (c : Comparison) : c.bigOp = bigBranch c.signed := by cases c <;> rfl
theorem byteOp_eq (c : Comparison) : c.byteOp = byteBranch c.unsigned := by cases c <;> rfl
theorem stringOp_eq (c : Comparison) : c.stringOp = stringBranch c.ordered := by cases c <;> rfl

theorem signed_iff {n : Nat} (c : Comparison) (s m : BitVec n) :
    c.signed s m = true ↔ c.Holds s.toInt m.toInt := by
  have heq : s = m ↔ s.toInt = m.toInt := BitVec.toInt_inj.symm
  cases c with
  | eq => simpa [signed, Holds] using heq
  | ne => simpa [signed, Holds] using not_congr heq
  | lt => simp [signed, Holds, BitVec.slt]
  | gt => simp [signed, Holds, BitVec.slt]
  | le => simp only [signed, Holds, BitVec.sle, decide_eq_true_eq]; omega
  | ge => simp only [signed, Holds, BitVec.sle, decide_eq_true_eq]; omega

theorem unsigned_iff {n : Nat} (c : Comparison) (s m : BitVec n) :
    c.unsigned s m = true ↔ c.Holds s.toNat m.toNat := by
  have heq : s = m ↔ s.toNat = m.toNat := BitVec.toNat_inj.symm
  cases c with
  | eq => simpa [unsigned, Holds] using heq
  | ne => simpa [unsigned, Holds] using not_congr heq
  | lt => simp [unsigned, Holds, BitVec.ult]
  | gt => simp [unsigned, Holds, BitVec.ult]
  | le => simp only [unsigned, Holds, BitVec.ule, decide_eq_true_eq]; omega
  | ge => simp only [unsigned, Holds, BitVec.ule, decide_eq_true_eq]; omega

theorem ordered_iff (c : Comparison) (s m : String) :
    c.ordered (cmpBytes (asBytes s) (asBytes m)) = true ↔ c.Holds s m := by
  obtain ⟨hlt, hgt, heq⟩ := cmpBytes_spec (asBytes s) (asBytes m)
  rw [asBytes_lt_iff] at hlt hgt
  rw [asBytes_inj] at heq
  cases c <;> cases hcmp : cmpBytes (asBytes s) (asBytes m) <;>
    simp_all [ordered, Holds]

end Comparison

/-- A branch is taken exactly where a condition holds, and changes nothing but where the program
goes on. -/
def BranchesOn (vm : VmState) (p : Prop) (op : VM Unit) : Prop :=
  (p → op vm = .ok () { vm with nextPc := (vm.readWordAt vm.dst vm.immDst).asUsize }) ∧
    (¬ p → op vm = .ok () vm)

variable {vm : VmState}

theorem branchesOn_branch {α : Type} {operands : VmState → α × α} {test : α → α → Bool} {p : Prop}
    (h : test (operands vm).1 (operands vm).2 = true ↔ p) :
    BranchesOn vm p (branch operands test) := by
  constructor
  · intro hp
    rw [branch, bind_ok (get_apply vm), if_pos (h.mpr hp)]
    rfl
  · intro hp
    rw [branch, bind_ok (get_apply vm), if_neg (fun htest => hp (h.mp htest))]
    rfl

/-- Every branch follows one order of its operands: words and bigs that of their signed values,
bytes that of their values, strings that of their characters. -/
theorem branches_follow_order (vm : VmState) (c : Comparison) :
    BranchesOn vm (c.Holds (vm.readWordAt vm.src vm.immSrc).toInt
      (vm.readWordAt vm.mid vm.immMid).toInt) c.wordOp ∧
    BranchesOn vm (c.Holds (vm.readBigAt vm.src vm.immSrc).toInt
      (vm.readBigAt vm.mid vm.immMid).toInt) c.bigOp ∧
    BranchesOn vm (c.Holds (vm.readByteAt vm.src vm.immSrc).toNat
      (vm.readByteAt vm.mid vm.immMid).toNat) c.byteOp ∧
    BranchesOn vm (c.Holds (vm.heap.text (vm.readWordAt vm.src vm.immSrc))
      (vm.heap.text (vm.readWordAt vm.mid vm.immMid))) c.stringOp := by
  rw [c.wordOp_eq, c.bigOp_eq, c.byteOp_eq, c.stringOp_eq]
  exact ⟨branchesOn_branch (c.signed_iff _ _), branchesOn_branch (c.signed_iff _ _),
    branchesOn_branch (c.unsigned_iff _ _), branchesOn_branch (c.ordered_iff _ _)⟩

end RiceVM
