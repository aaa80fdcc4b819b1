import RiceVM.Lib.Emitter
import RiceVM.Lib.Words
import RiceVM.Limbo.Infer

/-!
The code of a boolean expression, as a value and as a condition. What a comparison compares is one
instruction each: it leaves a value that depends on the world, and changes the world.
-/
namespace RiceVM.Limbo.Condition

open Backpatch

variable {ω : Type}

inductive Comparison where
  | eq | neq | lt | gt | leq | geq
  deriving DecidableEq, Repr

namespace Comparison

def isEquality : Comparison → Bool
  | .eq | .neq => true
  | _ => false

def holds (op : Comparison) {n : Nat} (a b : BitVec n) : Bool :=
  match op with
  | .eq => a == b
  | .neq => a != b
  | .lt => a.slt b
  | .gt => b.slt a
  | .leq => a.sle b
  | .geq => b.sle a

end Comparison

/-- An expression that is compared. -/
structure Term (ω : Type) where
  /-- Where it stands in the source. -/
  span : Nat
  /-- The type and the width that are inferred; wide is a big's. -/
  valTy : ValType
  wide : Bool
  /-- The bytes of frame that its code takes. -/
  temps : Nat
  /-- Of one that is not wide, the low word. -/
  value : ω → BitVec 64
  effect : ω → ω

/-- A string, a list, an array or a ref. -/
structure Ref (ω : Type) extends Term ω where
  isString : Bool
  narrow : wide = false

inductive Operand (ω : Type) where
  | nil
  | term (t : Term ω)

namespace Operand

def valTy : Operand ω → ValType
  | .nil => .ptr
  | .term t => t.valTy

def wide : Operand ω → Bool
  | .nil => false
  | .term t => t.wide

end Operand

inductive Expr (ω : Type) where
  | compare (op : Comparison) (l r : Term ω)
  /-- `x == nil`, or `x != nil`. -/
  | nilRight (x : Ref ω) (neq : Bool)
  /-- `nil == x`, or `nil != x`. -/
  | nilLeft (neq : Bool) (x : Ref ω)
  | not (e : Expr ω)
  | and (l r : Expr ω)
  | or (l r : Expr ω)

inductive Instr (ω : Type) where
  | eval (t : Term ω) (dst : Nat)
  | movw (imm : BitVec 32) (dst : Nat)
  | cvtwl (src dst : Nat)
  | cvtlw (src dst : Nat)
  | branch (op : Comparison) (wide : Bool) (src mid : Nat) (pc : Option Nat)
  /-- `beqc`, or `bnec`. -/
  | branchc (neq : Bool) (src mid : Nat) (pc : Option Nat)
  /-- `beqw` with a middle operand of 0, or `bnew`. -/
  | branchz (neq : Bool) (src : Nat) (pc : Option Nat)
  | jmp (pc : Option Nat)
  /-- A statement of an `if`. -/
  | arm (taken : Bool)

namespace Instr

def jump : Instr ω → Jump
  | .branch _ _ _ _ pc | .branchc _ _ _ pc | .branchz _ _ pc | .jmp pc =>
    match pc with
    | none => .hole
    | some pc => .target pc
  | _ => .none

def falls : Instr ω → Bool
  | .jmp _ => false
  | _ => true

def setTarget (pc : Nat) : Instr ω → Instr ω
  | .branch op wide src mid _ => .branch op wide src mid (some pc)
  | .branchc neq src mid _ => .branchc neq src mid (some pc)
  | .branchz neq src _ => .branchz neq src (some pc)
  | .jmp _ => .jmp (some pc)
  | i => i

end Instr

instance : Patchable (Instr ω) where
  jump := Instr.jump
  falls := Instr.falls
  setTarget := Instr.setTarget
  jump_setTarget pc i := by
    cases i with
    | branch op wide src mid dest | branchc neq src mid dest | branchz neq src dest | jmp dest =>
        cases dest <;> rfl
    | eval | movw | cvtwl | cvtlw | arm => rfl
  falls_setTarget pc i := by cases i <;> rfl

/-! ### The generator -/

abbrev Gen (ω : Type) := Emitter (Instr ω)

def byteSize (wide : Bool) : Nat := if wide then 8 else 4

def genOperandTo (o : Operand ω) (dst : Nat) (g : Gen ω) : Gen ω :=
  match o with
  | .nil => g.emit (.movw 0 dst)
  | .term t => (g.alloc t.temps).emit (.eval t dst)

def genOperandToKind (o : Operand ω) (dst : Nat) (wide : Bool) (g : Gen ω) : Gen ω :=
  if o.wide = wide then genOperandTo o dst g
  else
    let tmp := g.nextLocal
    let g := genOperandTo o tmp (g.alloc (byteSize o.wide))
    g.emit (if wide then .cvtwl tmp dst else .cvtlw tmp dst)

/-- Leave 1, and branch over the instruction that leaves 0. -/
def genFlag (branch : Instr ω) (dst : Nat) (g : Gen ω) : Gen ω :=
  let g := g.emit (.movw 1 dst)
  let skip := g.pc
  let g := (g.emit branch).emit (.movw 0 dst)
  g.patch skip g.pc

def genComparison (l : Operand ω) (op : Comparison) (r : Operand ω) (dst : Nat) (g : Gen ω) :
    Gen ω :=
  if l.valTy = .ptr ∧ op.isEquality then
    let lTmp := g.nextLocal
    let rTmp := g.nextLocal + 4
    let g := genOperandTo r rTmp (genOperandTo l lTmp ((g.alloc 4).alloc 4))
    genFlag (.branchc (op = .neq) lTmp rTmp none) dst g
  else
    let wide := l.wide || r.wide
    let lTmp := g.nextLocal
    let rTmp := g.nextLocal + byteSize wide
    let g := (g.alloc (byteSize wide)).alloc (byteSize wide)
    let g := genOperandToKind r rTmp wide (genOperandToKind l lTmp wide g)
    genFlag (.branch op wide lTmp rTmp none) dst g

def equality (neq : Bool) : Comparison := if neq then .neq else .eq

/-- To the slot `dst`: `genCondTo`, where a comparison with `nil` is a test of the other operand's
word, or `genExprTo`. -/
def gen (cond : Bool) : Expr ω → Nat → Gen ω → Gen ω
  | .compare op l r, dst, g => genComparison (.term l) op (.term r) dst g
  | .nilRight x neq, dst, g =>
    if cond then
      if neq then genOperandTo (.term x.toTerm) dst g
      else
        let tmp := g.nextLocal
        genFlag (.branchz false tmp none) dst (genOperandTo (.term x.toTerm) tmp (g.alloc 4))
    else genComparison (.term x.toTerm) (equality neq) .nil dst g
  | .nilLeft neq x, dst, g =>
    if cond ∧ neq then genOperandTo (.term x.toTerm) dst g
    else genComparison .nil (equality neq) (.term x.toTerm) dst g
  | .not e, dst, g =>
    let g := gen false e dst g
    let skip := g.pc
    let g := (g.emit (.branchz false dst none)).emit (.movw 0 dst)
    let fin := g.pc
    let g := g.emit (.jmp none)
    let g := (g.patch skip g.pc).emit (.movw 1 dst)
    g.patch fin g.pc
  | .and l r, dst, g =>
    let lTmp := g.nextLocal
    let g := gen true l lTmp (g.alloc 4)
    let short := g.pc
    let g := gen true r dst (g.emit (.branchz false lTmp none))
    let fin := g.pc
    let g := g.emit (.jmp none)
    let g := (g.patch short g.pc).emit (.movw 0 dst)
    g.patch fin g.pc
  | .or l r, dst, g =>
    let lTmp := g.nextLocal
    let g := gen true l lTmp (g.alloc 4)
    let short := g.pc
    let g := gen true r dst (g.emit (.branchz true lTmp none))
    let fin := g.pc
    let g := g.emit (.jmp none)
    let g := (g.patch short g.pc).emit (.movw 1 dst)
    g.patch fin g.pc

def genCondTo : Expr ω → Nat → Gen ω → Gen ω := gen true

def genExprTo : Expr ω → Nat → Gen ω → Gen ω := gen false

def genIf (cond : Expr ω) (hasElse : Bool) (g : Gen ω) : Gen ω :=
  let condTmp := g.nextLocal
  let g := genCondTo cond condTmp (g.alloc 4)
  let jumpIdx := g.pc
  let g := (g.emit (.branchz false condTmp none)).emit (.arm true)
  if hasElse then
    let skipIdx := g.pc
    let g := g.emit (.jmp none)
    let g := (g.patch jumpIdx g.pc).emit (.arm false)
    g.patch skipIdx g.pc
  else g.patch jumpIdx g.pc

/-! ### Execution -/

/-- What the program can see of the evaluation. -/
inductive Event where
  | operand (span : Nat)
  | arm (taken : Bool)
  deriving DecidableEq, Repr

structure State (ω : Type) where
  frame : Words
  world : ω
  trace : List Event

/-- The strings of the heap, of which 0 is none. -/
structure Strings (ω : Type) where
  get : ω → BitVec 32 → Option String
  nil (w : ω) : get w 0 = none

variable (strings : Strings ω)

/-- The text of what is no string is empty. -/
def Strings.text (w : ω) (id : BitVec 32) : String := (strings.get w id).getD ""

def store (wide : Bool) (frame : Words) (dst : Nat) (v : BitVec 64) : Words :=
  if wide then frame.setWide dst v else frame.set dst (Words.low v)

def exec : Instr ω → Nat → State ω → Nat × State ω
  | .eval t dst, pc, s =>
    (pc + 1, ⟨store t.wide s.frame dst (t.value s.world), t.effect s.world,
      s.trace ++ [.operand t.span]⟩)
  | .movw imm dst, pc, s => (pc + 1, { s with frame := s.frame.set dst imm })
  | .cvtwl src dst, pc, s =>
    (pc + 1, { s with frame := s.frame.setWide dst ((s.frame src).signExtend 64) })
  | .cvtlw src dst, pc, s =>
    (pc + 1, { s with frame := s.frame.set dst (Words.low (s.frame.wide src)) })
  | .branch op wide src mid target, pc, s =>
    let taken := if wide then op.holds (s.frame.wide src) (s.frame.wide mid)
      else op.holds (s.frame src) (s.frame mid)
    (if taken then target.getD 0 else pc + 1, s)
  | .branchc neq src mid target, pc, s =>
    let same := strings.text s.world (s.frame src) == strings.text s.world (s.frame mid)
    (if same ≠ neq then target.getD 0 else pc + 1, s)
  | .branchz neq src target, pc, s =>
    (if (s.frame src == 0) ≠ neq then target.getD 0 else pc + 1, s)
  | .jmp target, _, s => (target.getD 0, s)
  | .arm taken, pc, s => (pc + 1, { s with trace := s.trace ++ [.arm taken] })

end RiceVM.Limbo.Condition
