import RiceVM.Limbo.Infer
import Mathlib.Logic.Function.Basic

/-!
The code of `lv op= e` and of `++` and `--`. What is evaluated on the way, the right side and the
parts of the left one, is one instruction each, that leaves a value and changes memory.
-/
namespace RiceVM.Limbo.Compound

variable {ω : Type}

/-- The operators that have an assignment of their own. -/
inductive AssignOp where
  | add | sub | mul | div | mod | and | or | xor | lshift | rshift
  deriving DecidableEq, Repr

/-! ### Memory -/

inductive Slot where
  | frame (off : Nat)
  | mp (off : Nat)
  deriving DecidableEq, Repr

/-- Variables, the bytes of arrays and records, and what else there is. -/
structure Mem (ω : Type) where
  vars : Slot → BitVec 64
  heap : BitVec 32 → List (BitVec 8)
  world : ω

inductive Width where
  | byte | word | wide
  deriving DecidableEq, Repr

namespace Width

def bytes : Width → Nat
  | .byte => 1
  | .word => 4
  | .wide => 8

/-- The bits of a cell that a value of this width takes. -/
def mask : Width → BitVec 64
  | .byte => 0xff
  | .word => 0xffffffff
  | .wide => 0xffffffffffffffff

end Width

/-- Where a value is: in a variable, or at an offset of an object. -/
inductive Place where
  | slot (s : Slot)
  | heap (id : BitVec 32) (off : Nat)

def ofBytes : List (BitVec 8) → BitVec 64
  | [] => 0
  | b :: bs => b.setWidth 64 ||| ofBytes bs <<< 8

def toBytes : Nat → BitVec 64 → List (BitVec 8)
  | 0, _ => []
  | n + 1, v => v.setWidth 8 :: toBytes n (v >>> 8)

namespace Mem

/-- What is outside of an object reads as 0. -/
def load (m : Mem ω) (w : Width) : Place → BitVec 64
  | .slot s => m.vars s &&& w.mask
  | .heap id off =>
    if off + w.bytes ≤ (m.heap id).length then ofBytes (((m.heap id).drop off).take w.bytes) else 0

/-- A write that is not inside an object does nothing. -/
def store (m : Mem ω) (w : Width) (v : BitVec 64) : Place → Mem ω
  | .slot s =>
    { m with vars := Function.update m.vars s (m.vars s &&& ~~~w.mask ||| v &&& w.mask) }
  | .heap id off =>
    let bytes := m.heap id
    if off + w.bytes ≤ bytes.length then
      let bytes := bytes.take off ++ (toBytes w.bytes v ++ bytes.drop (off + w.bytes))
      { m with heap := Function.update m.heap id bytes }
    else m

end Mem

/-- What is evaluated, by its place in the source. -/
abbrev Event := Nat

structure Term (ω : Type) where
  kind : NumKind
  run : Mem ω → BitVec 64 × Mem ω × List Event

/-- Strings, reals and conversions. -/
structure Prims (ω : Type) where
  concat (s t : BitVec 64) (m : Mem ω) : BitVec 64 × Mem ω
  real (op : AssignOp) (a b : BitVec 64) : BitVec 64
  convert (source target : NumKind) (v : BitVec 64) : BitVec 64

/-! ### Lvalues -/

/-- The width that a variable of this type has, and a field. -/
def slotKind (ty : BasicType) : NumKind := typeNumKind (.basic ty)

def kindWidth : NumKind → Width
  | .word => .word
  | .big | .real => .wide

/-- The width that an array's element has. -/
def elemWidth : BasicType → Width
  | .byte => .byte
  | ty => kindWidth (slotKind ty)

/-- What is assigned to, with its type, and what the compiler finds about it: what its table says
of a variable; what it takes an array's name for, where that is, and the element type it finds; and
the field it finds, or else the offset it estimates. -/
inductive Lvalue (ω : Type) where
  | var (slot : Slot) (ty : BasicType) (found : ValType) (kind : NumKind)
  | element (arr idx : Term ω) (elem : BasicType) (found : ValType) (home : Option Slot)
      (known : Option BasicType)
  | field (obj : Term ω) (off : Nat) (ty : BasicType) (info : Option (Nat × BasicType))
      (estimated : Nat)

/-- An element of a type that is not known is taken for a word. -/
def knownElem (known : Option BasicType) : BasicType := known.getD .int

/-- So is a field. -/
def foundField (info : Option (Nat × BasicType)) (estimated : Nat) : Nat × NumKind :=
  match info with
  | some (off, ty) => (off, slotKind ty)
  | none => (estimated, .word)

/-! ### The generator -/

inductive Operand where
  | imm (v : BitVec 64)
  | temp (n : Nat)
  | slot (s : Slot)
  /-- Through a reference to an array's element. -/
  | elem (ref : Nat)
  /-- Through a record in a slot. -/
  | field (rec : Nat) (off : Nat)

/-- Where the value of an expression goes. -/
inductive Dst where
  | temp (n : Nat)
  | local (off : Nat)
  deriving DecidableEq, Repr

def Dst.slot : Dst → Option Slot
  | .temp _ => none
  | .local off => some (.frame off)

inductive Instr (ω : Type) where
  | eval (t : Term ω) (dst : Nat)
  | convert (source target : NumKind) (src dst : Nat)
  /-- A reference to an element; the array knows how wide its elements are. -/
  | ind (elem : BasicType) (arr ref idx : Nat)
  /-- A character of a string, read and stored. -/
  | indc (str idx dst : Nat)
  | insc (src idx : Nat) (str : Operand)
  | mov (w : Width) (src : Operand) (dst : Dst)
  /-- `dst = dst op src`. -/
  | arith (op : AssignOp) (kind : NumKind) (src dst : Operand)
  | addc (src : Nat) (dst : Operand)

/-- Slots of the frame are numbered in the order they are taken, from `next` on. -/
def genExprToKind (t : Term ω) (dst : Nat) (kind : NumKind) (next : Nat) : List (Instr ω) :=
  if t.kind = kind then [.eval t dst]
  else [.eval t next, .convert t.kind kind next dst]

def compoundOpcode (op : AssignOp) (kind : NumKind) : AssignOp × NumKind :=
  match op with
  | .add | .sub | .mul | .div => (op, kind)
  | _ => (.add, .word)

def genCompoundAssign (op : AssignOp) (rhs : Term ω) (next : Nat) : Lvalue ω → List (Instr ω)
  | .var slot _ found kind =>
    if found = .ptr ∧ op = .add then [.eval rhs next, .addc next (.slot slot)]
    else
      let opcode := compoundOpcode op kind
      genExprToKind rhs next kind (next + 1) ++
        [.arith opcode.1 opcode.2 (.temp next) (.slot slot)]
  | .element arr idx elem _ _ known =>
    let kind := slotKind (knownElem known)
    let opcode := compoundOpcode op kind
    genExprToKind rhs next kind (next + 1) ++
      [.eval idx (next + 2), .eval arr (next + 3), .ind elem (next + 3) (next + 4) (next + 2),
        .arith opcode.1 opcode.2 (.temp next) (.elem (next + 4))]
  | .field .. => []

def emitIncDec (target : Operand) (kind : NumKind) (inc : Bool) (next : Nat) : List (Instr ω) :=
  let op : AssignOp := if inc then .add else .sub
  match kind with
  | .word => [.arith op .word (.imm 1) target]
  | .big | .real =>
    [.mov .word (.imm 1) (.temp next), .convert .word kind next (next + 1),
      .arith op kind (.temp (next + 1)) target]

/-- The old value goes to `dst`, where the expression is used, unless that is the variable
itself. -/
def genIncDec (inc : Bool) (dst : Option Dst) (next : Nat) : Lvalue ω → List (Instr ω)
  | .var slot _ _ kind =>
    if dst.bind Dst.slot = some slot then emitIncDec (.slot slot) kind inc next
    else
      (dst.map fun d => Instr.mov (kindWidth kind) (.slot slot) d).toList ++
        emitIncDec (.slot slot) kind inc next
  | .element arr idx elem found home known =>
    if found = .array then
      [.eval arr next, .eval idx (next + 1), .ind elem next (next + 2) (next + 1)] ++
        (dst.map fun d => Instr.mov (elemWidth (knownElem known)) (.elem (next + 2)) d).toList ++
        emitIncDec (.elem (next + 2)) (slotKind (knownElem known)) inc (next + 3)
    else
      -- What is not found to be an array is taken for a string, and its character is written back.
      [.eval arr next, .eval idx (next + 1), .indc next (next + 1) (next + 2)] ++
        (dst.map fun d => Instr.mov .word (.temp (next + 2)) d).toList ++
        [.arith (if inc then .add else .sub) .word (.imm 1) (.temp (next + 2)),
          .insc (next + 2) (next + 1) (home.elim (.temp next) .slot)]
  | .field obj _ _ info estimated =>
    let (off, kind) := foundField info estimated
    [.eval obj next] ++
      (dst.map fun d => Instr.mov (kindWidth kind) (.field next off) d).toList ++
      emitIncDec (.field next off) kind inc (next + 1)

/-! ### Execution -/

structure State (ω : Type) where
  temps : Nat → BitVec 64
  refs : Nat → BitVec 32 × Nat
  mem : Mem ω
  trace : List Event

/-- Arithmetic on words; division by zero is an exception. -/
def applyBits {n : Nat} (op : AssignOp) (a b : BitVec n) : Option (BitVec n) :=
  match op with
  | .add => some (a + b)
  | .sub => some (a - b)
  | .mul => some (a * b)
  | .div => if b = 0 then none else some (a.sdiv b)
  | .mod => if b = 0 then none else some (a.srem b)
  | .and => some (a &&& b)
  | .or => some (a ||| b)
  | .xor => some (a ^^^ b)
  | .lshift => some (a <<< (b.toNat % n))
  | .rshift => some (a.sshiftRight (b.toNat % n))

def apply (p : Prims ω) (op : AssignOp) : NumKind → BitVec 64 → BitVec 64 → Option (BitVec 64)
  | .word, a, b => (applyBits op (a.setWidth 32) (b.setWidth 32)).map (·.setWidth 64)
  | .big, a, b => applyBits op a b
  | .real, a, b => some (p.real op a b)

/-- The element's address, in an array of such elements. -/
def elemAddress (m : Mem ω) (elem : BasicType) (arr idx : BitVec 64) : Option (BitVec 32 × Nat) :=
  let id := arr.setWidth 32
  let off := (idx.setWidth 32).toNat * (elemWidth elem).bytes
  if 0 ≤ (idx.setWidth 32).toInt ∧ off < (m.heap id).length then some (id, off) else none

namespace State

variable (s : State ω)

def setTemp (n : Nat) (v : BitVec 64) : State ω :=
  { s with temps := Function.update s.temps n v }

def deliver (w : Width) (v : BitVec 64) : Dst → State ω
  | .temp n => s.setTemp n v
  | .local off => { s with mem := s.mem.store w v (.slot (.frame off)) }

def place : Operand → Option Place
  | .imm _ | .temp _ => none
  | .slot slot => some (.slot slot)
  | .elem ref => some (.heap (s.refs ref).1 (s.refs ref).2)
  | .field rec off => some (.heap ((s.temps rec).setWidth 32) off)

def read (w : Width) : Operand → BitVec 64
  | .imm v => v
  | .temp n => s.temps n
  | o => match s.place o with
    | some place => s.mem.load w place
    | none => 0

end State

def exec (p : Prims ω) (s : State ω) : Instr ω → Option (State ω)
  | .eval t dst =>
    let r := t.run s.mem
    some { s.setTemp dst r.1 with mem := r.2.1, trace := s.trace ++ r.2.2 }
  | .convert source target src dst => some (s.setTemp dst (p.convert source target (s.temps src)))
  | .ind elem arr ref idx => do
    let address ← elemAddress s.mem elem (s.temps arr) (s.temps idx)
    some { s with refs := Function.update s.refs ref address }
  -- The value is an array, and no string, so this raises.
  | .indc .. | .insc .. => none
  | .mov w src dst => some (s.deliver w (s.read w src) dst)
  | .arith op kind src dst => do
    let place ← s.place dst
    let v ← apply p op kind (s.mem.load (kindWidth kind) place) (s.read (kindWidth kind) src)
    some { s with mem := s.mem.store (kindWidth kind) v place }
  | .addc src dst => do
    let place ← s.place dst
    let r := p.concat (s.mem.load .word place) (s.temps src) s.mem
    some { s with mem := r.2.store .word r.1 place }

def run (p : Prims ω) (code : List (Instr ω)) (s : State ω) : Option (State ω) :=
  code.foldlM (exec p) s

end RiceVM.Limbo.Compound
