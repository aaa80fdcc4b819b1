import RiceVM.Lib.Emitter
import RiceVM.Lib.Words
import RiceVM.Limbo.Infer

/-!
The code of a `case`: the selector once, then a chain of comparisons, arm after arm. Expressions
and bodies are single instructions, of which only the slot an expression's value goes to and the
frame they take up matter here.
-/
namespace RiceVM.Limbo.Case

open Backpatch

/-- The types a `case` may be over. -/
inductive Kind where
  | int | big | string
  deriving DecidableEq, Repr

/-- A value. A string is its heap id. -/
abbrev Val : Kind → Type
  | .int | .string => BitVec 32
  | .big => BitVec 64

variable {k : Kind}

/-- The word that a value's slot begins with. -/
def Val.low (v : Val k) : BitVec 32 :=
  match k with
  | .int | .string => v
  | .big => Words.low v

/-- An expression: its value, and the bytes of frame its code takes. -/
structure Operand (k : Kind) where
  value : Val k
  temps : Nat

inductive Pattern (k : Kind) where
  | expr (e : Operand k)
  | range (lo hi : Operand k)
  | wildcard

structure Arm (k : Kind) where
  patterns : List (Pattern k)
  /-- The bytes of frame that the body takes. -/
  temps : Nat

inductive Branch where
  | beqw | beqc | bltw | blew
  deriving DecidableEq, Repr

inductive Instr (k : Kind) where
  | selector (e : Operand k) (dst : Nat)
  | eval (e : Operand k) (dst : Nat)
  /-- Compares two slots. -/
  | branch (op : Branch) (src mid : Nat) (pc : Option Nat)
  | jmp (pc : Option Nat)
  | body (arm : Nat)

namespace Instr

def jump : Instr k → Jump
  | .branch _ _ _ none | .jmp none => .hole
  | .branch _ _ _ (some pc) | .jmp (some pc) => .target pc
  | _ => .none

def falls : Instr k → Bool
  | .jmp _ => false
  | _ => true

def setTarget (pc : Nat) : Instr k → Instr k
  | .branch op src mid _ => .branch op src mid (some pc)
  | .jmp _ => .jmp (some pc)
  | i => i

end Instr

instance : Patchable (Instr k) where
  jump := Instr.jump
  falls := Instr.falls
  setTarget := Instr.setTarget
  jump_setTarget pc i := by
    cases i with
    | branch op src mid dest | jmp dest => cases dest <;> rfl
    | selector | eval | body => rfl
  falls_setTarget pc i := by cases i <;> rfl

@[simp] theorem setTarget_branch (op : Branch) (src mid pc : Nat) (dest : Option Nat) :
    Patchable.setTarget pc (.branch op src mid dest : Instr k) = .branch op src mid (some pc) := rfl

@[simp] theorem setTarget_jmp (pc : Nat) (dest : Option Nat) :
    Patchable.setTarget pc (.jmp dest : Instr k) = .jmp (some pc) := rfl

/-! ### The generator -/

abbrev Gen (k : Kind) := Emitter (Instr k)

/-- Evaluate an expression to a slot that was taken before. -/
def genExprTo (e : Operand k) (dst : Nat) (g : Gen k) : Gen k := (g.alloc e.temps).emit (.eval e dst)

/-- The comparison of an expression pattern. -/
def equality (valTy : ValType) : Branch := if valTy ≠ .word then .beqc else .beqw

/-- The checks of an arm's patterns, and their jumps to its body. -/
def genPatterns (valTy : ValType) (valTmp : Nat) : List (Pattern k) → Gen k → Gen k × List Nat
  | [], g => (g, [])
  | .expr e :: patterns, g =>
    let patTmp := g.nextLocal
    let g := genExprTo e patTmp (g.alloc 4)
    let idx := g.pc
    let r := genPatterns valTy valTmp patterns (g.emit (.branch (equality valTy) valTmp patTmp none))
    (r.1, idx :: r.2)
  | .range lo hi :: patterns, g =>
    let loTmp := g.nextLocal
    let hiTmp := g.nextLocal + 4
    let g := genExprTo hi hiTmp (genExprTo lo loTmp ((g.alloc 4).alloc 4))
    let belowIdx := g.pc
    let g := g.emit (.branch .bltw valTmp loTmp none)
    let matchIdx := g.pc
    let g := g.emit (.branch .blew valTmp hiTmp none)
    let r := genPatterns valTy valTmp patterns (g.patch belowIdx g.pc)
    (r.1, matchIdx :: r.2)
  | .wildcard :: patterns, g =>
    let idx := g.pc
    let r := genPatterns valTy valTmp patterns (g.emit (.jmp none))
    (r.1, idx :: r.2)

/-- The arms from the `n`-th on, and their jumps to the end. -/
def genArms (valTy : ValType) (valTmp : Nat) : List (Arm k) → Nat → Gen k → Gen k × List Nat
  | [], _, g => (g, [])
  | arm :: arms, n, g =>
    let checks := genPatterns valTy valTmp arm.patterns g
    let g := checks.1
    let skipIdx := g.pc
    let g := g.emit (.jmp none)
    let g := g.patchAll checks.2 g.pc
    let g := (g.alloc arm.temps).emit (.body n)
    let endIdx := g.pc
    let g := g.emit (.jmp none)
    let r := genArms valTy valTmp arms (n + 1) (g.patch skipIdx g.pc)
    (r.1, endIdx :: r.2)

/-- `valTy` is the type that is inferred for the selector. -/
def genCase (valTy : ValType) (selector : Operand k) (arms : List (Arm k)) (g : Gen k) : Gen k :=
  let valTmp := g.nextLocal
  let g := ((g.alloc 4).alloc selector.temps).emit (.selector selector valTmp)
  let r := genArms valTy valTmp arms 0 g
  r.1.patchAll r.2 r.1.pc

/-! ### Execution -/

/-- What the program can see of a `case`. -/
inductive Event where
  | selector
  | body (arm : Nat)
  deriving DecidableEq, Repr

structure State where
  frame : Words
  trace : List Event

/-- A value in its slot; a big takes two words. -/
def store (frame : Words) (dst : Nat) (v : Val k) : Words :=
  match k with
  | .int | .string => frame.set dst v
  | .big => frame.setWide dst v

/-- Is the branch taken? The text of an id that is no string's is empty. -/
def Branch.taken (text : BitVec 32 → String) (op : Branch) (s m : BitVec 32) : Bool :=
  match op with
  | .beqw => s == m
  | .beqc => text s == text m
  | .bltw => s.slt m
  | .blew => s.sle m

def exec (text : BitVec 32 → String) : Instr k → Nat → State → Nat × State
  | .selector e dst, pc, s =>
    (pc + 1, ⟨store s.frame dst e.value, s.trace ++ [.selector]⟩)
  | .eval e dst, pc, s => (pc + 1, { s with frame := store s.frame dst e.value })
  | .branch op src mid target, pc, s =>
    (if op.taken text (s.frame src) (s.frame mid) then target.getD 0 else pc + 1, s)
  | .jmp target, _, s => (target.getD 0, s)
  | .body n, pc, s => (pc + 1, { s with trace := s.trace ++ [.body n] })

end RiceVM.Limbo.Case
