import RiceVM.Limbo.Infer
import RiceVM.Ops.Strtol

/-!
Constant expressions: what the compiler folds them to, the code it generates for the same
expression in a function body, and what the operators mean at the width of their operands.
-/
namespace RiceVM.Limbo
open Ops (parseStrtol strtolWord)

section Arithmetic

variable {n : Nat}

/-- Wrapping arithmetic in `n` bits. -/
def arith (op : BinOp) (a b : BitVec n) : Option (BitVec n) :=
  match op with
  | .add => some (a + b)
  | .sub => some (a - b)
  | .mul => some (a * b)
  | .div => if b = 0 then none else some (a.sdiv b)
  | .mod => if b = 0 then none else some (a.srem b)
  | .and => some (a &&& b)
  | .or => some (a ||| b)
  | .xor => some (a ^^^ b)
  | _ => none

def compare (op : BinOp) (a b : BitVec n) : Option Bool :=
  match op with
  | .eq => some (a = b)
  | .neq => some (a ≠ b)
  | .lt => some (a.slt b)
  | .gt => some (b.slt a)
  | .leq => some (a.sle b)
  | .geq => some (b.sle a)
  | _ => none

/-- `wrapping_shl` and `wrapping_shr`: only the low bits of the count are used. -/
def shift (op : BinOp) (a : BitVec n) (count : Word) : Option (BitVec n) :=
  match op with
  | .lshift => some (a <<< (count.toNat % n))
  | .rshift => some (a.sshiftRight (count.toNat % n))
  | _ => none

/-- A truth value, as a number. -/
def flag (b : Bool) : BitVec n := if b then 1 else 0

/-- The number of characters of a string. -/
def charCount (t : String) : BitVec n := BitVec.ofNat n t.length

end Arithmetic

/-! ### Folding -/

def BinOp.debug : BinOp → String
  | .add => "Add" | .sub => "Sub" | .mul => "Mul" | .div => "Div" | .mod => "Mod"
  | .power => "Power" | .and => "And" | .or => "Or" | .xor => "Xor" | .lshift => "Lshift"
  | .rshift => "Rshift" | .eq => "Eq" | .neq => "Neq" | .lt => "Lt" | .gt => "Gt" | .leq => "Leq"
  | .geq => "Geq" | .logAnd => "LogAnd" | .logOr => "LogOr"

def UnaryOp.debug : UnaryOp → String
  | .neg => "Neg" | .not => "Not" | .bitNot => "BitNot" | .ref => "Ref"

/-- Arithmetic on reals, by their bits. -/
structure Floats where
  add : Big → Big → Big
  sub : Big → Big → Big
  mul : Big → Big → Big
  div : Big → Big → Big
  neg : Big → Big
  ofInt : Big → Big
  toInt : Big → Big

inductive FoldError where
  | error (text : String)
  /-- Arithmetic that overflows where it is checked. -/
  | panic
  deriving DecidableEq, Repr

abbrev Folded := Except FoldError ConstVal

variable (f : Floats)

/-- An operator on two folded integers, of whatever type: they are 64 bits wide. -/
def foldInts (op : BinOp) (a b : Big) : Option Big :=
  match op with
  | .lshift | .rshift => shift op a (b.setWidth 32)
  | _ => (arith op a b).or ((compare op a b).map flag)

def foldReals (op : BinOp) (a b : Big) : Folded :=
  match op with
  | .add => .ok (.real (f.add a b))
  | .sub => .ok (.real (f.sub a b))
  | .mul => .ok (.real (f.mul a b))
  | .div => .ok (.real (f.div a b))
  | _ => .error (.error s!"unsupported constant operator {op.debug} on real")

/-- Fold a binary operation over two constant values. -/
def foldConstBinary (lhs : ConstVal) (op : BinOp) (rhs : ConstVal) : Folded :=
  match lhs, rhs with
  | .str a, .str b =>
    if op = .add then .ok (.str (a ++ b))
    else .error (.error s!"unsupported constant operator {op.debug}")
  | .int a, .int b =>
    if (op = .div ∨ op = .mod) ∧ b = 0 then .error (.error "constant division by zero")
    else
      match foldInts op a b with
      | some v => .ok (.int v)
      | none => .error (.error s!"unsupported constant operator {op.debug}")
  | .real a, .real b => foldReals f op a b
  | .int a, .real b => foldReals f op (f.ofInt a) b
  | .real a, .int b => foldReals f op a (f.ofInt b)
  | _, _ => .error (.error s!"unsupported constant operator {op.debug}")

def foldUnary (op : UnaryOp) (v : ConstVal) : Folded :=
  match op, v with
  -- `-n` is checked: the negation of the least integer overflows.
  | .neg, .int n => if n = BitVec.intMin 64 then .error .panic else .ok (.int (-n))
  | .neg, .real n => .ok (.real (f.neg n))
  | .bitNot, .int n => .ok (.int (~~~n))
  | .not, .int n => .ok (.int (flag (n = 0)))
  | op, _ => .error (.error s!"unsupported constant operator {op.debug}")

def foldCast (ty : Ty) (v : ConstVal) : Folded :=
  match ty, v with
  | .basic .real, .int n => .ok (.real (f.ofInt n))
  | .basic .int, .real n | .basic .big, .real n | .basic .byte, .real n => .ok (.int (f.toInt n))
  | .basic .string, .int n => .ok (.str (toString n.toInt))
  | _, v => .ok v

def foldLen : ConstVal → Folded
  | .str t => .ok (.int (charCount t))
  | _ => .error (.error "`len` of a non-constant")

/-- The folder of the code generator (`lens`) and that of the interfaces, which knows no `len` and
reports no reason. -/
def foldWith (lens : Bool) (consts : String → Option ConstVal)
    (qualified : String → String → Option ConstVal) (iota : Big) : Expr → Folded
  | .intLit v => .ok (.int v)
  | .charLit v => .ok (.int (v.signExtend 64))
  | .realLit bits => .ok (.real bits)
  | .stringLit t => .ok (.str t)
  | .ident name =>
    if name = "iota" then .ok (.int iota)
    else
      match consts name with
      | some v => .ok v
      | none => .error (.error s!"`{name}` is not a constant")
  | .modQual (.ident module) member =>
    match qualified module member with
    | some v => .ok v
    | none => .error (.error s!"`{module}->{member}` is not a constant")
  | .modQual _ _ => .error (.error "unsupported qualified constant")
  | .unary op inner => do foldUnary f op (← foldWith lens consts qualified iota inner)
  | .cast ty inner => do foldCast f ty (← foldWith lens consts qualified iota inner)
  | .binary lhs op rhs => do
    let l ← foldWith lens consts qualified iota lhs
    let r ← foldWith lens consts qualified iota rhs
    foldConstBinary f l op r
  | .len inner =>
    if lens then do foldLen (← foldWith lens consts qualified iota inner)
    else .error (.error "not a constant expression")
  | _ => .error (.error "not a constant expression")

/-- Fold a `con` declaration or the initialiser of a module's variable. -/
def foldConst (s : Scope) (iota : Big) (e : Expr) : Folded :=
  foldWith f true s.consts s.qualifiedConsts iota e

/-- Fold a constant of a module interface, of which `prior` holds the constants declared before. -/
def foldInterface (s : Scope) (prior : String → Option ConstVal) (iota : Big) (e : Expr) : Folded :=
  foldWith f false prior s.qualifiedConsts iota e

/-! ### Values at their widths -/

/-- A value of a run: an `int` or a `byte` in a word, a `big`, a `string`. -/
inductive Val where
  | word (v : Word)
  | big (v : Big)
  | str (t : String)
  deriving DecidableEq, Repr

namespace Val

def const : Val → ConstVal
  | .word v => .int (v.signExtend 64)
  | .big v => .int v
  | .str t => .str t

def kind : Val → NumKind
  | .big _ => .big
  | _ => .word

/-- What a word move reads: of a big, its low word. -/
def word? : Val → Option Word
  | .word v => some v
  | .big v => some (v.setWidth 32)
  | .str _ => none

def big? : Val → Option Big
  | .big v => some v
  | _ => none

def str? : Val → Option String
  | .str t => some t
  | _ => none

/-- The contents of a slot that was given the width `kind`. -/
def readAt (kind : NumKind) (x : Val) : Option Val :=
  match kind, x with
  | .word, .str t => some (.str t)
  | .word, x => x.word?.map .word
  | .big, x => x.big?.map .big
  | .real, _ => none

@[simp] theorem word?_word (v : Word) : (word v).word? = some v := rfl

@[simp] theorem word?_big (v : Big) : (big v).word? = some (v.setWidth 32) := rfl

@[simp] theorem word?_str (t : String) : (str t).word? = none := rfl

@[simp] theorem big?_word (v : Word) : (word v).big? = none := rfl

@[simp] theorem big?_big (v : Big) : (big v).big? = some v := rfl

@[simp] theorem str?_str (t : String) : (str t).str? = some t := rfl

@[simp] theorem readAt_word_word (v : Word) : (word v).readAt .word = some (.word v) := rfl

@[simp] theorem readAt_word_big (v : Big) :
    (big v).readAt .word = some (.word (v.setWidth 32)) := rfl

@[simp] theorem readAt_word_str (t : String) : (str t).readAt .word = some (.str t) := rfl

@[simp] theorem readAt_big_word (v : Word) : (word v).readAt .big = none := rfl

@[simp] theorem readAt_big_big (v : Big) : (big v).readAt .big = some (.big v) := rfl

@[simp] theorem readAt_big_str (t : String) : (str t).readAt .big = none := rfl

@[simp] theorem readAt_real (x : Val) : x.readAt .real = none := rfl

end Val

/-- The data item of a module's variable whose initialiser is folded: a variable that is no big
has the low 32 bits of an integer. -/
def declareGlobal (kind : NumKind) : ConstVal → Option Val
  | .int n => some (if kind = .big then .big n else .word (n.setWidth 32))
  | .str t => some (.str t)
  | .real _ => none

/-! ### The generated code -/

/-- The code of an expression. Each operand is computed to a slot of its own; `src` and `mid` are
the instruction's operands, and an instruction computes `mid op src`. -/
inductive Code where
  | word (v : Word)
  | big (v : Big)
  | str (t : String)
  | arith (kind : NumKind) (op : BinOp) (src mid : Code)
  /-- The count is a word at either width. -/
  | shift (kind : NumKind) (op : BinOp) (src mid : Code)
  | exp (kind : NumKind) (src mid : Code)
  /-- A branch over `Movw $0`. -/
  | test (kind : NumKind) (op : BinOp) (l r : Code)
  | testc (op : BinOp) (l r : Code)
  /-- `Beqw` on the result's slot, which is then given a word. -/
  | not (c : Code)
  | both (l r : Code)
  | either (l r : Code)
  | addc (src mid : Code)
  | lenc (c : Code)
  | cvtwl (c : Code)
  | cvtlw (c : Code)
  | cvtwc (c : Code)
  | cvtlc (c : Code)
  | cvtcw (c : Code)
  deriving Repr

def genConst : ConstVal → Option Code
  | .int v => some (if isWide v then .big v else .word (v.setWidth 32))
  | .str t => some (.str t)
  | .real _ => none

/-- The code of an operand of kind `inner`, converted to `target`. -/
def genToKind (inner target : NumKind) (c : Code) : Option Code :=
  match inner, target with
  | .word, .big => some (.cvtwl c)
  | .big, .word => some (.cvtlw c)
  | .word, .word | .big, .big => some c
  | _, _ => none

def genUnary (op : UnaryOp) (kind : NumKind) (c : Code) : Option Code :=
  match op, kind with
  | .neg, .word => some (.arith .word .sub c (.word 0))
  | .neg, .big => some (.arith .big .sub c (.cvtwl (.word 0)))
  | .not, _ => some (.not c)
  | .bitNot, .word => some (.arith .word .xor (.word (-1)) c)
  | .bitNot, .big => some (.arith .big .xor (.cvtwl (.word (-1))) c)
  | _, _ => none

variable (s : Scope)

def genBinary (lhs : Expr) (op : BinOp) (rhs : Expr) (l r : Code) : Option Code :=
  let lk := inferNumKind s lhs
  let rk := inferNumKind s rhs
  match op with
  | .eq | .neq | .lt | .gt | .leq | .geq =>
    if inferExprType s lhs = .ptr ∧ (op = .eq ∨ op = .neq) then some (.testc op l r)
    else do
      some (.test (lk.max rk) op (← genToKind lk (lk.max rk) l) (← genToKind rk (lk.max rk) r))
  | .logAnd => some (.both l r)
  | .logOr => some (.either l r)
  | .lshift | .rshift => do some (.shift lk op (← genToKind rk .word r) l)
  | .power => do some (.exp lk (← genToKind rk .word r) l)
  | _ => do
    some (.arith (lk.max rk) op (← genToKind rk (lk.max rk) r) (← genToKind lk (lk.max rk) l))

def genCast (ty : BasicType) (inner : Expr) (c : Code) : Option Code :=
  match ty, inferNumKind s inner with
  | .int, .word => some (if inferExprType s inner = .ptr then .cvtcw c else c)
  | .int, .big => some (.cvtlw c)
  | .big, .word => some (.cvtwl c)
  | .big, .big => some c
  -- A byte is not narrowed.
  | .byte, _ => some c
  | .string, .word => some (.cvtwc c)
  | .string, .big => some (.cvtlc c)
  | _, _ => none

/-- The code of an expression of the forms a constant expression is built from; of the rest, and
of reals, none is given here. -/
def genCode : Expr → Option Code
  | .intLit v => genConst (.int v)
  | .charLit v => some (.word v)
  | .stringLit t => some (.str t)
  | .ident name =>
    if (s.lookupVar name).isSome then none else (s.consts name).bind genConst
  | .modQual (.ident name) member =>
    (s.qualifiedConsts ((s.moduleHandleType name).getD name) member).bind genConst
  | .unary op inner => do genUnary op (inferNumKind s inner) (← genCode inner)
  | .binary lhs op rhs => do
    let l ← genCode lhs
    let r ← genCode rhs
    if op = .add ∧ inferExprType s lhs = .ptr then some (.addc r l)
    else genBinary s lhs op rhs l r
  | .cast (.basic ty) inner => do
    let c ← genCode inner
    if ty = .string ∧ inferExprType s inner = .array then none else genCast s ty inner c
  | .len inner => do
    let c ← genCode inner
    if inferExprType s inner = .array then none else some (.lenc c)
  | _ => none

/-! ### Running it -/

/-- `Expw` and `Expl`: a negative exponent inverts. -/
def expBy {n : Nat} (base : BitVec n) (count : Word) : BitVec n :=
  let r := base ^ count.toInt.natAbs
  if count.toInt < 0 then if r = 0 then 0 else (1 : BitVec n).sdiv r else r

namespace Code

/-- What the code leaves in the slot of its result; none where it faults, or reads a heap address
as a number or a number as a string. -/
def eval : Code → Option Val
  | .word v => some (.word v)
  | .big v => some (.big v)
  | .str t => some (.str t)
  | .arith .word op src mid => do
    some (.word (← Limbo.arith op (← (← eval mid).word?) (← (← eval src).word?)))
  | .arith .big op src mid => do
    some (.big (← Limbo.arith op (← (← eval mid).big?) (← (← eval src).big?)))
  | .shift .word op src mid => do
    some (.word (← Limbo.shift op (← (← eval mid).word?) (← (← eval src).word?)))
  | .shift .big op src mid => do
    some (.big (← Limbo.shift op (← (← eval mid).big?) (← (← eval src).word?)))
  | .exp .word src mid => do some (.word (expBy (← (← eval mid).word?) (← (← eval src).word?)))
  | .exp .big src mid => do some (.big (expBy (← (← eval mid).big?) (← (← eval src).word?)))
  | .test .word op l r => do
    some (.word (flag (← compare op (← (← eval l).word?) (← (← eval r).word?))))
  | .test .big op l r => do
    some (.word (flag (← compare op (← (← eval l).big?) (← (← eval r).big?))))
  | .testc op l r => do
    let a ← (← eval l).str?
    let b ← (← eval r).str?
    some (.word (flag (if op = .eq then a = b else a ≠ b)))
  | .not c => do
    match ← eval c with
    | .word v => some (.word (flag (v = 0)))
    | .big v => some (.big ((v >>> 32) <<< 32 ||| flag (v.setWidth 32 = 0#32)))
    | .str _ => none
  | .both l r => do
    if (← (← eval l).word?) = 0 then some (.word 0) else some (.word (← (← eval r).word?))
  | .either l r => do
    if (← (← eval l).word?) = 0 then some (.word (← (← eval r).word?)) else some (.word 1)
  | .addc src mid => do some (.str ((← (← eval mid).str?) ++ (← (← eval src).str?)))
  | .lenc c => do some (.word (charCount (← (← eval c).str?)))
  | .cvtwl c => do some (.big ((← (← eval c).word?).signExtend 64))
  | .cvtlw c => do some (.word ((← (← eval c).big?).setWidth 32))
  | .cvtwc c => do some (.str (toString (← (← eval c).word?).toInt))
  | .cvtlc c => do some (.str (toString (← (← eval c).big?).toInt))
  | .cvtcw c => do some (.word (strtolWord (← (← eval c).str?)))
  | .arith .real _ _ _ | .shift .real _ _ _ | .exp .real _ _ | .test .real _ _ _ => none

end Code

/-- The value an expression's code leaves, as the slot it was given is then read. -/
def leaves (e : Expr) : Option Val := do
  (← (← genCode s e).eval).readAt (inferNumKind s e)

/-! ### What the operators mean -/

/-- An operator on two numbers of one type, which `wrap` is the type of. -/
def numeric {n : Nat} (wrap : BitVec n → Val) (op : BinOp) (a b : BitVec n) : Option Val :=
  ((arith op a b).map wrap).or ((compare op a b).map fun t => .word (flag t))

/-- A binary operator of a constant expression. A mixed operation is that of the wider type; a
shift is one of its left operand. -/
def denoteBinary (op : BinOp) (x y : Val) : Option Val :=
  match op with
  | .lshift | .rshift =>
    match x with
    | .word a => y.word?.bind fun count => (shift op a count).map .word
    | .big a => y.word?.bind fun count => (shift op a count).map .big
    | .str _ => none
  | _ =>
    match x, y with
    | .word a, .word b => numeric .word op a b
    | .word a, .big b => numeric .big op (a.signExtend 64) b
    | .big a, .word b => numeric .big op a (b.signExtend 64)
    | .big a, .big b => numeric .big op a b
    | .str a, .str b => if op = .add then some (.str (a ++ b)) else none
    | _, _ => none

def denoteUnary (op : UnaryOp) (x : Val) : Option Val :=
  match op, x with
  | .neg, .word v => some (.word (-v))
  | .neg, .big v => some (.big (-v))
  | .not, .word v => some (.word (flag (v = 0)))
  | .not, .big v => some (.big (flag (v = 0)))
  | .bitNot, .word v => some (.word (~~~v))
  | .bitNot, .big v => some (.big (~~~v))
  | _, _ => none

/-- A value converted to a type: an `int` has 32 bits, a `byte` the low 8 of them. -/
def denoteCast (ty : BasicType) (x : Val) : Option Val :=
  let low := match x with
    | .str t => some (strtolWord t)
    | x => x.word?
  match ty, x with
  | .int, _ => low.map .word
  | .byte, _ => low.map fun v => .word (v &&& 255)
  | .big, .word v => some (.big (v.signExtend 64))
  | .big, .big v => some (.big v)
  | .big, .str t => some (.big (BitVec.ofInt 64 (parseStrtol t)))
  | .string, .word v => some (.str (toString v.toInt))
  | .string, .big v => some (.str (toString v.toInt))
  | .string, .str t => some (.str t)
  | .real, _ => none

/-- A named constant is as wide as its value needs. -/
def denoteConst : ConstVal → Option Val
  | .int v => some (if isWide v then .big v else .word (v.setWidth 32))
  | .str t => some (.str t)
  | .real _ => none

/-- The value of a constant expression, each operator taken at the width of its operands. -/
def denote : Expr → Option Val
  | .intLit v => denoteConst (.int v)
  | .charLit v => some (.word v)
  | .stringLit t => some (.str t)
  | .ident name => (s.consts name).bind denoteConst
  | .modQual (.ident name) member => (s.qualifiedConsts name member).bind denoteConst
  | .unary op inner => do denoteUnary op (← denote inner)
  | .binary lhs op rhs => do denoteBinary op (← denote lhs) (← denote rhs)
  | .cast (.basic ty) inner => do denoteCast ty (← denote inner)
  | .len inner => do some (.word (charCount (← (← denote inner).str?)))
  | _ => none

end RiceVM.Limbo
