import RiceVM.Interpreter
import RiceVM.Lib.Assembly
import RiceVM.Limbo.Casts
import RiceVM.Ops.Arith
import RiceVM.Ops.Compare

/-!
Expressions of words and bigs: the instructions that are generated for them, and what the machine
does with each of these. An operand is evaluated to a temporary of its width and converted to the
width of the operation; a comparison is a branch over `Movw $0`.
-/
namespace RiceVM.Limbo.Numbers
open Exec Memory Ops Assembly
open Casts (slot)

/-! ### Expressions and their code -/

/-- What an instruction names: a slot of the frame, a place in the data of the module, or a value
of its own. -/
inductive Arg where
  | slot (off : Nat)
  | data (off : Nat)
  | imm (v : Word)
  | unused
  deriving DecidableEq, Repr

namespace Arg

def operand : Arg → Operand
  | slot off => .fp (.ofUsize off)
  | data off => .mp (.ofUsize off)
  | imm v => .imm v
  | unused => .unused

def middle : Arg → MiddleOperand
  | slot off => ⟨.smallOffsetFp, .ofUsize off⟩
  | data off => ⟨.smallOffsetMp, .ofUsize off⟩
  | imm v => .imm v
  | unused => .unused

/-- Where it is, in a frame at `base`. -/
def target (base : Nat) : Arg → AddrTarget
  | slot off => .frame (base + off)
  | data off => .mp off
  | imm _ => .immediate
  | unused => .none

def reg : Arg → Word
  | slot off | data off => .ofUsize off
  | imm v => v
  | unused => 0

end Arg

def instr (op : Opcode) (src mid dst : Arg) : Instruction :=
  ⟨op, src.operand, mid.middle, dst.operand⟩

/-- A numeric expression over variables and constants, which are where the compiler put them. -/
inductive Num where
  | word (a : Arg)
  | big (a : Arg)
  | unary (op : UnaryOp) (e : Num)
  | binary (l : Num) (op : BinOp) (r : Num)
  deriving DecidableEq, Repr

/-- The width of the result of an operator, by those of its operands. -/
def binaryKind (op : BinOp) (lk rk : NumKind) : NumKind :=
  match op with
  | .eq | .neq | .lt | .gt | .leq | .geq | .logAnd | .logOr => .word
  | _ => lk.max rk

/-- `infer_num_kind`. -/
def Num.kind : Num → NumKind
  | .word _ => .word
  | .big _ => .big
  | .unary _ e => e.kind
  | .binary l op r => binaryKind op l.kind r.kind

def arithOpcode (op : BinOp) (kind : NumKind) : Option Opcode :=
  match op, kind with
  | .add, .word => some .addw
  | .add, .big => some .addl
  | .sub, .word => some .subw
  | .sub, .big => some .subl
  | .mul, .word => some .mulw
  | .mul, .big => some .mull
  | .div, .word => some .divw
  | .div, .big => some .divl
  | .mod, .word => some .modw
  | .mod, .big => some .modl
  | .and, .word => some .andw
  | .and, .big => some .andl
  | .or, .word => some .orw
  | .or, .big => some .orl
  | .xor, .word => some .xorw
  | .xor, .big => some .xorl
  | .lshift, .word => some .shlw
  | .lshift, .big => some .shll
  | .rshift, .word => some .shrw
  | .rshift, .big => some .shrl
  | _, _ => none

def compareOpcode (op : BinOp) (kind : NumKind) : Option Opcode :=
  match op, kind with
  | .eq, .word => some .beqw
  | .eq, .big => some .beql
  | .neq, .word => some .bnew
  | .neq, .big => some .bnel
  | .lt, .word => some .bltw
  | .lt, .big => some .bltl
  | .gt, .word => some .bgtw
  | .gt, .big => some .bgtl
  | .leq, .word => some .blew
  | .leq, .big => some .blel
  | .geq, .word => some .bgew
  | .geq, .big => some .bgel
  | _, _ => none

/-- Code for a destination, with the first free offset of the frame and the pc it will have; also
the first offset that is free behind it. -/
abbrev Generator := Nat → Nat → Nat → Option (List Instruction × Nat)

/-- `gen_expr_to_kind`: a narrower or a wider value goes through a temporary. -/
def genToKind (inner target : NumKind) (gen : Generator) : Generator := fun dst next pc =>
  match inner, target with
  | .word, .big => do
    let (code, free) ← gen next (next + 4) pc
    some (code ++ [instr .cvtwl (.slot next) .unused (.slot dst)], free)
  | .big, .word => do
    let (code, free) ← gen next (next + 8) pc
    some (code ++ [instr .cvtlw (.slot next) .unused (.slot dst)], free)
  | .word, .word | .big, .big => gen dst next pc
  | _, _ => none

/-- The widths that the operands are brought to: of a shift the count is a word. -/
def operandKinds (op : BinOp) (lk rk : NumKind) : NumKind × NumKind :=
  match op with
  | .lshift | .rshift => (lk, .word)
  | _ => (lk.max rk, lk.max rk)

/-- The code after the operands of a binary operator. -/
def genOperator (op : BinOp) (kind : NumKind) (dst l r pc : Nat) : Option (List Instruction) :=
  match compareOpcode op kind with
  | some branch =>
    some [instr .movw (.imm 1) .unused (.slot dst),
      instr branch (.slot l) (.slot r) (.imm (.ofUsize (pc + 3))),
      instr .movw (.imm 0) .unused (.slot dst)]
  | none =>
    (arithOpcode op kind).map fun opcode => [instr opcode (.slot r) (.slot l) (.slot dst)]

/-- `gen_binary`. -/
def genBinary (op : BinOp) (lk rk : NumKind) (genL genR : Generator) : Generator :=
  fun dst next pc => do
    let (kl, kr) := operandKinds op lk rk
    let r := next + kl.byteSize
    let (codeL, free) ← genToKind lk kl genL next (r + kr.byteSize) pc
    let (codeR, free) ← genToKind rk kr genR r free (pc + codeL.length)
    let tail ← genOperator op kl dst next r (pc + codeL.length + codeR.length)
    some (codeL ++ (codeR ++ tail), free)

/-- `gen_unary`, of the operators on numbers. -/
def genUnary (op : UnaryOp) (kind : NumKind) (gen : Generator) : Generator := fun dst next pc =>
  match op, kind with
  | .neg, .word => do
    let (code, free) ← gen next (next + 8) pc
    some (code ++ [instr .movw (.imm 0) .unused (.slot (next + 4)),
      instr .subw (.slot next) (.slot (next + 4)) (.slot dst)], free)
  | .neg, .big => do
    let (code, free) ← gen next (next + 16) pc
    some (code ++ [instr .movw (.imm 0) .unused (.slot free),
      instr .cvtwl (.slot free) .unused (.slot (next + 8)),
      instr .subl (.slot next) (.slot (next + 8)) (.slot dst)], free + 4)
  | .not, _ => do
    let (code, free) ← gen dst next pc
    let skip := pc + code.length
    some (code ++ [instr .beqw (.slot dst) (.imm 0) (.imm (.ofUsize (skip + 3))),
      instr .movw (.imm 0) .unused (.slot dst),
      instr .jmp .unused .unused (.imm (.ofUsize (skip + 4))),
      instr .movw (.imm 1) .unused (.slot dst)], free)
  | .bitNot, .word => do
    let (code, free) ← gen dst next pc
    some (code ++ [instr .movw (.imm (-1)) .unused (.slot free),
      instr .xorw (.slot free) .unused (.slot dst)], free + 4)
  | .bitNot, .big => do
    let (code, free) ← gen dst next pc
    some (code ++ [instr .movw (.imm (-1)) .unused (.slot free),
      instr .cvtwl (.slot free) .unused (.slot (free + 4)),
      instr .xorl (.slot (free + 4)) .unused (.slot dst)], free + 12)
  | _, _ => none

/-- `gen_expr_to`, of a numeric expression. A variable that is its own destination stays there. -/
def Num.gen : Num → Generator
  | .word a => fun dst next _ =>
    some (if a = .slot dst then [] else [instr .movw a .unused (.slot dst)], next)
  | .big a => fun dst next _ =>
    some (if a = .slot dst then [] else [instr .movl a .unused (.slot dst)], next)
  | .unary op e => genUnary op e.kind e.gen
  | .binary l op r => genBinary op l.kind r.kind l.gen r.gen

/-! ### The machine -/

/-- The instructions that are generated. -/
def operation : Opcode → VM Unit
  | .movw => opMovw
  | .movl => opMovl
  | .cvtwl => opCvtwl
  | .cvtlw => opCvtlw
  | .jmp => opJmp
  | .addw => opAddw
  | .addl => opAddl
  | .subw => opSubw
  | .subl => opSubl
  | .mulw => opMulw
  | .mull => opMull
  | .divw => opDivw
  | .divl => opDivl
  | .modw => opModw
  | .modl => opModl
  | .andw => opAndw
  | .andl => opAndl
  | .orw => opOrw
  | .orl => opOrl
  | .xorw => opXorw
  | .xorl => opXorl
  | .shlw => opShlw
  | .shll => opShll
  | .shrw => opShrw
  | .shrl => opShrl
  | .beqw => opBeqw
  | .beql => opBeql
  | .bnew => opBnew
  | .bnel => opBnel
  | .bltw => opBltw
  | .bltl => opBltl
  | .bgtw => opBgtw
  | .bgtl => opBgtl
  | .blew => opBlew
  | .blel => opBlel
  | .bgew => opBgew
  | .bgel => opBgel
  | _ => pure ()

/-- An instruction that does not wait. -/
def step (inst : Instruction) : VM Unit := do
  begin inst
  operation inst.opcode
  modify fun vm => { vm with pc := vm.nextPc }

/-- The machine runs through the code. -/
inductive Steps (code : List Instruction) : VmState → VmState → Prop
  | refl (vm : VmState) : Steps code vm vm
  | step {vm vm' vm'' : VmState} {inst : Instruction} (hi : code[vm.pc]? = some inst)
      (h : step inst vm = .ok () vm') (hrest : Steps code vm' vm'') : Steps code vm vm''

/-- The machine is at a division by zero. -/
def Divides (code : List Instruction) (vm : VmState) : Prop :=
  ∃ inst u, code[vm.pc]? = some inst ∧ begin inst vm = .ok () u ∧
    operation inst.opcode u = raiseException zeroDivide u

/-- A run to where the code has left its value, or to a division by zero where there is none. -/
def Comes {α : Type} (code : List Instruction) (vm : VmState) (value : Option α)
    (post : α → VmState → Prop) : Prop :=
  match value with
  | some v => ∃ vm', Steps code vm vm' ∧ post v vm'
  | none => ∃ vm', Steps code vm vm' ∧ Divides code vm'

/-! ### Runs -/

variable {code : List Instruction} {vm vm' vm'' : VmState}

theorem Steps.trans (h : Steps code vm vm') (h' : Steps code vm' vm'') : Steps code vm vm'' := by
  induction h with
  | refl _ => exact h'
  | step hi hstep _ ih => exact .step hi hstep (ih h')

namespace Comes

variable {α β : Type} {value : Option α} {post post' : α → VmState → Prop}

theorem done {v : α} (h : post v vm) : Comes code vm (some v) post := ⟨vm, .refl vm, h⟩

theorem after (h : Steps code vm vm') (hrest : Comes code vm' value post) :
    Comes code vm value post := by
  cases value with
  | none =>
      obtain ⟨u, hsteps, hdivides⟩ := hrest
      exact ⟨u, h.trans hsteps, hdivides⟩
  | some v =>
      obtain ⟨u, hsteps, hpost⟩ := hrest
      exact ⟨u, h.trans hsteps, hpost⟩

theorem step {inst : Instruction} (hi : code[vm.pc]? = some inst)
    (hstep : Numbers.step inst vm = .ok () vm') (hrest : Comes code vm' value post) :
    Comes code vm value post := after (.step hi hstep (.refl vm')) hrest

theorem mono (h : Comes code vm value post) (himp : ∀ v u, post v u → post' v u) :
    Comes code vm value post' := by
  cases value with
  | none => exact h
  | some v =>
      obtain ⟨u, hsteps, hpost⟩ := h
      exact ⟨u, hsteps, himp v u hpost⟩

/-- What comes after a value goes on from where it was left. -/
theorem bind {f : α → Option β} {next : β → VmState → Prop} (h : Comes code vm value post)
    (hnext : ∀ v u, post v u → Comes code u (f v) next) :
    Comes code vm (value.bind f) next := by
  cases value with
  | none => exact h
  | some v =>
      obtain ⟨u, hsteps, hpost⟩ := h
      exact after hsteps (hnext v u hpost)

theorem map {f : α → β} {mapped : β → VmState → Prop} (h : Comes code vm value post)
    (himp : ∀ v u, post v u → mapped (f v) u) : Comes code vm (value.map f) mapped := by
  cases value with
  | none => exact h
  | some v =>
      obtain ⟨u, hsteps, hpost⟩ := h
      exact ⟨u, hsteps, himp v u hpost⟩

/-- What is done to a value that was left. -/
theorem next (h : Comes code vm value post)
    (hnext : ∀ v u, post v u → Comes code u (some v) post') : Comes code vm value post' := by
  cases value with
  | none => exact h
  | some v =>
      obtain ⟨u, hsteps, hpost⟩ := h
      exact after hsteps (hnext v u hpost)

end Comes

/-! ### One instruction -/

section Operands

variable {base : Nat}

/-- An operand that the machine can resolve. -/
def Arg.Reachable (base : Nat) : Arg → Prop
  | slot off => base + off < mpBase
  | data off => off < 2 ^ 31
  | _ => True

theorem toUsize?_ofUsize {n : Nat} (h : n < 2 ^ 31) : (Word.ofUsize n).toUsize? = some n := by
  rw [Word.toUsize?, Word.msb_ofUsize h, Word.toNat_ofUsize (by omega)]
  rfl

theorem frameAddr_ofUsize {off : Nat} (h : base + off < mpBase) :
    frameAddr base (.ofUsize off) = .ok (base + off) := by
  have hoff : off < 2 ^ 31 := by
    rw [mpBase] at h
    omega
  rw [frameAddr, offsetOperand, toUsize?_ofUsize hoff]
  exact if_pos h

theorem resolveOperand_operand {a : Arg} (h : a.Reachable base) (data mp : List Byte)
    (refs : List (HeapId × Nat)) :
    resolveOperand a.operand base data mp refs = .ok (a.target base) := by
  cases a with
  | slot off =>
      have haddr := frameAddr_ofUsize h
      simp only [Arg.operand, Operand.fp, resolveOperand, haddr]
      rfl
  | data off =>
      simp only [Arg.operand, Operand.mp, resolveOperand, offsetOperand, toUsize?_ofUsize h]
      rfl
  | imm v => rfl
  | unused => rfl

theorem resolveMiddle_middle {a : Arg} (h : a.Reachable base) :
    resolveMiddle a.middle base = .ok (a.target base) := by
  cases a with
  | slot off =>
      have haddr := frameAddr_ofUsize h
      simp only [Arg.middle, resolveMiddle, haddr]
      rfl
  | data off =>
      simp only [Arg.middle, resolveMiddle, offsetOperand, toUsize?_ofUsize h]
      rfl
  | imm v => rfl
  | unused => rfl

end Operands

/-- The machine after the operands of an instruction are resolved. -/
def loaded (vm : VmState) (src mid dst : Arg) : VmState :=
  { vm with
    src := src.target vm.frames.currentDataOffset
    mid := mid.target vm.frames.currentDataOffset
    dst := dst.target vm.frames.currentDataOffset
    immSrc := src.reg, immMid := mid.reg, immDst := dst.reg, nextPc := vm.pc + 1 }

theorem begin_instr {op : Opcode} {src mid dst : Arg}
    (hsrc : src.Reachable vm.frames.currentDataOffset)
    (hmid : mid.Reachable vm.frames.currentDataOffset)
    (hdst : dst.Reachable vm.frames.currentDataOffset) :
    begin (instr op src mid dst) vm = .ok () (loaded vm src mid dst) := by
  have hregs : src.operand.register1 = src.reg ∧ mid.middle.register1 = mid.reg ∧
      dst.operand.register1 = dst.reg := by
    refine ⟨?_, ?_, ?_⟩
    · cases src <;> rfl
    · cases mid <;> rfl
    · cases dst <;> rfl
  refine (begin_ok (resolveOperand_operand hsrc _ _ _) (resolveMiddle_middle hmid)
    (resolveOperand_operand hdst _ _ _)).trans ?_
  simp only [instr, hregs, loaded]

theorem step_instr {op : Opcode} {src mid dst : Arg} {u : VmState}
    (hsrc : src.Reachable vm.frames.currentDataOffset)
    (hmid : mid.Reachable vm.frames.currentDataOffset)
    (hdst : dst.Reachable vm.frames.currentDataOffset)
    (hop : operation op (loaded vm src mid dst) = .ok () u) :
    step (instr op src mid dst) vm = .ok () { u with pc := u.nextPc } := by
  rw [step, bind_ok (begin_instr hsrc hmid hdst)]
  exact bind_ok hop

/-- The machine with other bytes in its frames and at another pc. The registers of the last
instruction are those of `regs`. -/
def moved (vm regs : VmState) (data : List Byte) (pc : Nat) : VmState :=
  { vm with
    frames := { vm.frames with data := data }
    pc := pc, nextPc := regs.nextPc
    src := regs.src, mid := regs.mid, dst := regs.dst
    immSrc := regs.immSrc, immMid := regs.immMid, immDst := regs.immDst }

/-- Nothing else of the machine has changed. -/
def Went (vm vm' : VmState) (data : List Byte) (pc : Nat) : Prop := vm' = moved vm vm' data pc

section Instructions

variable {d l r : Nat}

/-- What an operand is read as. -/
def Arg.wordIn (vm : VmState) (a : Arg) : Word :=
  vm.readWordAt (a.target vm.frames.currentDataOffset) a.reg

def Arg.bigIn (vm : VmState) (a : Arg) : Big :=
  vm.readBigAt (a.target vm.frames.currentDataOffset) a.reg

theorem step_movw {a : Arg} (ha : a.Reachable vm.frames.currentDataOffset)
    (hd : slot vm d < mpBase) :
    ∃ vm', step (instr .movw a .unused (.slot d)) vm = .ok () vm' ∧
      Went vm vm' (writeWord vm.frames.data (slot vm d) (a.wordIn vm)) (vm.pc + 1) :=
  ⟨_, step_instr ha trivial hd rfl, rfl⟩

theorem step_movl {a : Arg} (ha : a.Reachable vm.frames.currentDataOffset)
    (hd : slot vm d < mpBase) :
    ∃ vm', step (instr .movl a .unused (.slot d)) vm = .ok () vm' ∧
      Went vm vm' (writeBig vm.frames.data (slot vm d) (a.bigIn vm)) (vm.pc + 1) :=
  ⟨_, step_instr ha trivial hd rfl, rfl⟩

theorem step_cvtwl (hl : slot vm l < mpBase) (hd : slot vm d < mpBase) :
    ∃ vm', step (instr .cvtwl (.slot l) .unused (.slot d)) vm = .ok () vm' ∧
      Went vm vm' (writeBig vm.frames.data (slot vm d)
        ((readWord vm.frames.data (slot vm l)).signExtend 64)) (vm.pc + 1) :=
  ⟨_, step_instr hl trivial hd rfl, rfl⟩

theorem step_cvtlw (hl : slot vm l < mpBase) (hd : slot vm d < mpBase) :
    ∃ vm', step (instr .cvtlw (.slot l) .unused (.slot d)) vm = .ok () vm' ∧
      Went vm vm' (writeWord vm.frames.data (slot vm d)
        ((readBig vm.frames.data (slot vm l)).setWidth 32)) (vm.pc + 1) :=
  ⟨_, step_instr hl trivial hd rfl, rfl⟩

theorem step_jmp (vm : VmState) {target : Nat} (h : target < 2 ^ 31) :
    ∃ vm', step (instr .jmp .unused .unused (.imm (.ofUsize target))) vm = .ok () vm' ∧
      Went vm vm' vm.frames.data target := by
  refine ⟨_, step_instr trivial trivial trivial rfl, ?_⟩
  simp only [Went, moved, loaded, VmState.readWordAt, VmState.readAt, Arg.target, Arg.reg, id_eq,
    Word.asUsize_ofUsize h]

/-- A branch on a slot and another operand. -/
theorem branched {α : Type} (operands : VmState → α × α) (test : α → α → Bool) {target : Nat}
    {u : VmState} (h : target < 2 ^ 31) (hdst : u.dst = .immediate)
    (himm : u.immDst = .ofUsize target) :
    branch operands test u = .ok () { u with
      nextPc := if test (operands u).1 (operands u).2 then target else u.nextPc } := by
  have hread : u.readWordAt u.dst u.immDst = .ofUsize target := by
    rw [hdst, himm]
    rfl
  rw [branch, bind_ok (get_apply u)]
  split
  · have htarget : dstWord u = .ok (.ofUsize target) u := by
      rw [← hread]
      rfl
    rw [bind_ok htarget, modify_apply, Word.asUsize_ofUsize h]
  · rfl

theorem step_wordBranch {op : Opcode} {a : Arg} {test : Word → Word → Bool} {target : Nat}
    (hop : operation op = wordBranch test) (hl : slot vm l < mpBase)
    (ha : a.Reachable vm.frames.currentDataOffset) (h : target < 2 ^ 31) :
    ∃ vm', step (instr op (.slot l) a (.imm (.ofUsize target))) vm = .ok () vm' ∧
      Went vm vm' vm.frames.data
        (if test (readWord vm.frames.data (slot vm l)) (a.wordIn vm) then target
          else vm.pc + 1) := by
  have hrun := branched (operandPair VmState.readWordAt) test
    (u := loaded vm (.slot l) a (.imm (.ofUsize target))) h rfl rfl
  exact ⟨_, step_instr hl ha trivial ((congrFun hop _).trans hrun), rfl⟩

theorem step_bigBranch {op : Opcode} {test : Big → Big → Bool} {target : Nat}
    (hop : operation op = bigBranch test) (hl : slot vm l < mpBase) (hr : slot vm r < mpBase)
    (h : target < 2 ^ 31) :
    ∃ vm', step (instr op (.slot l) (.slot r) (.imm (.ofUsize target))) vm = .ok () vm' ∧
      Went vm vm' vm.frames.data
        (if test (readBig vm.frames.data (slot vm l)) (readBig vm.frames.data (slot vm r)) then
          target else vm.pc + 1) := by
  have hrun := branched (operandPair VmState.readBigAt) test
    (u := loaded vm (.slot l) (.slot r) (.imm (.ofUsize target))) h rfl rfl
  exact ⟨_, step_instr hl hr trivial ((congrFun hop _).trans hrun), rfl⟩

theorem step_xorw (hr : slot vm r < mpBase) (hd : slot vm d < mpBase) :
    ∃ vm', step (instr .xorw (.slot r) .unused (.slot d)) vm = .ok () vm' ∧
      Went vm vm' (writeWord vm.frames.data (slot vm d)
        (readWord vm.frames.data (slot vm r) ^^^ readWord vm.frames.data (slot vm d)))
        (vm.pc + 1) :=
  ⟨_, step_instr hr trivial hd rfl, rfl⟩

theorem step_xorl (hr : slot vm r < mpBase) (hd : slot vm d < mpBase) :
    ∃ vm', step (instr .xorl (.slot r) .unused (.slot d)) vm = .ok () vm' ∧
      Went vm vm' (writeBig vm.frames.data (slot vm d)
        (readBig vm.frames.data (slot vm r) ^^^ readBig vm.frames.data (slot vm d)))
        (vm.pc + 1) :=
  ⟨_, step_instr hr trivial hd rfl, rfl⟩

theorem step_subw (hl : slot vm l < mpBase) (hr : slot vm r < mpBase) (hd : slot vm d < mpBase) :
    ∃ vm', step (instr .subw (.slot r) (.slot l) (.slot d)) vm = .ok () vm' ∧
      Went vm vm' (writeWord vm.frames.data (slot vm d)
        (readWord vm.frames.data (slot vm l) - readWord vm.frames.data (slot vm r)))
        (vm.pc + 1) :=
  ⟨_, step_instr hr hl hd rfl, rfl⟩

theorem step_subl (hl : slot vm l < mpBase) (hr : slot vm r < mpBase) (hd : slot vm d < mpBase) :
    ∃ vm', step (instr .subl (.slot r) (.slot l) (.slot d)) vm = .ok () vm' ∧
      Went vm vm' (writeBig vm.frames.data (slot vm d)
        (readBig vm.frames.data (slot vm l) - readBig vm.frames.data (slot vm r)))
        (vm.pc + 1) :=
  ⟨_, step_instr hr hl hd rfl, rfl⟩

/-- What an instruction that takes two words makes of them. -/
def OnWords (opcode : Opcode) (result : Word → Word → Option Word) : Prop :=
  (∃ f, operation opcode = wordArith f ∧ ∀ s m, result m s = some (f s m)) ∨
    ∃ f, operation opcode = wordDivision f ∧
      ∀ s m, result m s = if s = 0 then none else some (f s m)

def OnBigs (opcode : Opcode) (result : Big → Big → Option Big) : Prop :=
  (∃ f, operation opcode = bigArith f ∧ ∀ s m, result m s = some (f s m)) ∨
    ∃ f, operation opcode = bigDivision f ∧
      ∀ s m, result m s = if s = 0 then none else some (f s m)

theorem onWords_of_arithOpcode {op : BinOp} {opcode : Opcode}
    (h : arithOpcode op .word = some opcode) :
    OnWords opcode fun a b => (shift op a b).or (arith op a b) := by
  cases op <;> cases h
  case div | mod => exact .inr ⟨_, rfl, fun s m => rfl⟩
  all_goals exact .inl ⟨_, rfl, fun s m => congrArg some (by first | rfl | ac_rfl)⟩

theorem onBigs_of_arithOpcode {op : BinOp} {opcode : Opcode}
    (h : arithOpcode op .big = some opcode) (hl : op ≠ .lshift) (hr : op ≠ .rshift) :
    OnBigs opcode (arith op) := by
  cases op <;> cases h
  case div | mod => exact .inr ⟨_, rfl, fun s m => rfl⟩
  case lshift => exact absurd rfl hl
  case rshift => exact absurd rfl hr
  all_goals exact .inl ⟨_, rfl, fun s m => congrArg some (by first | rfl | ac_rfl)⟩

theorem comes_onWords {opcode : Opcode} {result : Word → Word → Option Word}
    (h : OnWords opcode result)
    (hi : code[vm.pc]? = some (instr opcode (.slot r) (.slot l) (.slot d)))
    (hl : slot vm l < mpBase) (hr : slot vm r < mpBase) (hd : slot vm d < mpBase) :
    Comes code vm
      (result (readWord vm.frames.data (slot vm l)) (readWord vm.frames.data (slot vm r)))
      fun v vm' => Went vm vm' (writeWord vm.frames.data (slot vm d) v) (vm.pc + 1) := by
  let u := loaded vm (.slot r) (.slot l) (.slot d)
  rcases h with ⟨f, hop, hresult⟩ | ⟨f, hop, hresult⟩
  · rw [hresult]
    exact .step hi (step_instr hr hl hd ((congrFun hop u).trans rfl)) (.done rfl)
  · rw [hresult]
    have hdivision := (congrFun hop u).trans (wordDivision_apply f u)
    by_cases hzero : readWord vm.frames.data (slot vm r) = 0
    · rw [if_pos hzero]
      exact ⟨vm, .refl vm, _, u, hi, begin_instr hr hl hd, hdivision.trans (if_pos hzero)⟩
    · rw [if_neg hzero]
      exact .step hi (step_instr hr hl hd (hdivision.trans (if_neg hzero))) (.done rfl)

theorem comes_onBigs {opcode : Opcode} {result : Big → Big → Option Big}
    (h : OnBigs opcode result)
    (hi : code[vm.pc]? = some (instr opcode (.slot r) (.slot l) (.slot d)))
    (hl : slot vm l < mpBase) (hr : slot vm r < mpBase) (hd : slot vm d < mpBase) :
    Comes code vm
      (result (readBig vm.frames.data (slot vm l)) (readBig vm.frames.data (slot vm r)))
      fun v vm' => Went vm vm' (writeBig vm.frames.data (slot vm d) v) (vm.pc + 1) := by
  let u := loaded vm (.slot r) (.slot l) (.slot d)
  rcases h with ⟨f, hop, hresult⟩ | ⟨f, hop, hresult⟩
  · rw [hresult]
    exact .step hi (step_instr hr hl hd ((congrFun hop u).trans rfl)) (.done rfl)
  · rw [hresult]
    have hdivision := (congrFun hop u).trans (bigDivision_apply f u)
    by_cases hzero : readBig vm.frames.data (slot vm r) = 0
    · rw [if_pos hzero]
      exact ⟨vm, .refl vm, _, u, hi, begin_instr hr hl hd, hdivision.trans (if_pos hzero)⟩
    · rw [if_neg hzero]
      exact .step hi (step_instr hr hl hd (hdivision.trans (if_neg hzero))) (.done rfl)

def IsShift (op : BinOp) : Prop := op = .lshift ∨ op = .rshift

/-- A big is shifted by a word. -/
theorem comes_bigShift {op : BinOp} {opcode : Opcode} (h : arithOpcode op .big = some opcode)
    (hop : IsShift op)
    (hi : code[vm.pc]? = some (instr opcode (.slot r) (.slot l) (.slot d)))
    (hl : slot vm l < mpBase) (hr : slot vm r < mpBase) (hd : slot vm d < mpBase) :
    Comes code vm
      (shift op (readBig vm.frames.data (slot vm l)) (readWord vm.frames.data (slot vm r)))
      fun v vm' => Went vm vm' (writeBig vm.frames.data (slot vm d) v) (vm.pc + 1) := by
  rcases hop with rfl | rfl <;> cases h
  · exact .step hi (step_instr hr hl hd rfl) (.done rfl)
  · exact .step hi (step_instr hr hl hd rfl) (.done rfl)

end Instructions

/-! ### The interpreter -/

section Interpreter

variable {env : Env} {nested : Nested} {inst : Instruction}

/-- The instructions that the interpreter leaves to its environment. -/
def computed : List Opcode :=
  [.cvtwl, .cvtlw, .addw, .addl, .subw, .subl, .mulw, .mull, .divw, .divl, .modw, .modl, .andw,
    .andl, .orw, .orl, .xorw, .xorl, .shlw, .shll, .shrw, .shrl, .beqw, .beql, .bnew, .bnel, .bltw,
    .bltl, .bgtw, .bgtl, .blew, .blel, .bgew, .bgel]

/-- An environment that computes them as they are defined. -/
def Faithful (env : Env) : Prop := ∀ op ∈ computed, opCompute env op = operation op

end Interpreter

end RiceVM.Limbo.Numbers
