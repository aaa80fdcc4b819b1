import RiceVM.Limbo.Typing

/-!
The instructions an operator is compiled to, beside those the type of its operands calls for.
-/
namespace RiceVM.Limbo

/-! ### The compiler's choice -/

/-- From the width of an operand to the one an operator works at. -/
def conversion : NumKind → NumKind → List Opcode
  | .word, .big => [.cvtwl]
  | .word, .real => [.cvtwf]
  | .big, .word => [.cvtlw]
  | .big, .real => [.cvtlf]
  | .real, .word => [.cvtfw]
  | .real, .big => [.cvtfl]
  | .word, .word | .big, .big | .real, .real => []

def addOpcode : NumKind → Opcode
  | .word => .addw
  | .big => .addl
  | .real => .addf

def branchOpcode : BinOp → NumKind → Opcode
  | .eq, .word => .beqw
  | .eq, .big => .beql
  | .eq, .real => .beqf
  | .neq, .word => .bnew
  | .neq, .big => .bnel
  | .neq, .real => .bnef
  | .lt, .word => .bltw
  | .lt, .big => .bltl
  | .lt, .real => .bltf
  | .gt, .word => .bgtw
  | .gt, .big => .bgtl
  | .gt, .real => .bgtf
  | .leq, .word => .blew
  | .leq, .big => .blel
  | .leq, .real => .blef
  | .geq, .word => .bgew
  | .geq, .big => .bgel
  | .geq, .real => .bgef
  | _, _ => .beqw

/-- A comparison leaves 1 and branches over the instruction that leaves 0. -/
def compareBy (branch : Opcode) : List Opcode := [.movw, branch, .movw]

def lenOpcode : ValType → Opcode
  | .array => .lena
  | _ => .lenc

/-- Index an array and load the element. -/
def arrayElemOpcodes : Option BasicType → List Opcode
  | some .byte => [.indb, .movb]
  | some .big => [.indl, .movl]
  | some .real => [.indf, .movf]
  | _ => [.indw, .movw]

def Expr.isNil : Expr → Bool
  | .nil => true
  | _ => false

variable (s : Scope)

/-- Both operands at the width of the wider. -/
def genOperands (l r : Expr) : List Opcode :=
  let kind := (inferNumKind s l).max (inferNumKind s r)
  conversion (inferNumKind s l) kind ++ conversion (inferNumKind s r) kind

def genAdd (l r : Expr) : List Opcode :=
  if inferExprType s l = .ptr then [.addc]
  else genOperands s l r ++ [addOpcode ((inferNumKind s l).max (inferNumKind s r))]

def genComparison (l : Expr) (op : BinOp) (r : Expr) : List Opcode :=
  if inferExprType s l = .ptr ∧ op.isEquality = true then
    compareBy (if op = .eq then .beqc else .bnec)
  else genOperands s l r ++
    compareBy (branchOpcode op ((inferNumKind s l).max (inferNumKind s r)))

/-- A comparison as a condition, where those with `nil` are tests of the other operand. -/
def genCond (l : Expr) (op : BinOp) (r : Expr) : List Opcode :=
  match op with
  | .neq => if r.isNil || l.isNil then [] else genComparison s l .neq r
  | .eq => if r.isNil then compareBy .beqw else genComparison s l .eq r
  | op => genComparison s l op r

def genSlice (arr : Expr) (lo hi : Option Expr) : List Opcode :=
  (if lo.isSome then [] else [.movw]) ++
    (if hi.isSome then [] else [lenOpcode (inferExprType s arr)]) ++ [.slicea, .movp]

/-- The operator's own instructions, without its operands'. -/
def genOperator (inCond : Bool) : Expr → List Opcode
  | .binary l .add r => genAdd s l r
  | .binary l op r => if inCond then genCond s l op r else genComparison s l op r
  | .index arr _ =>
    if inferExprType s arr = .ptr then [.indc] else arrayElemOpcodes (arrayElemBasicForExpr s arr)
  | .slice arr lo hi => genSlice s arr lo hi
  | .len e => [lenOpcode (inferExprType s e)]
  | _ => []

/-! ### What the types call for -/

def stringBranch : BinOp → Opcode
  | .eq => .beqc
  | .neq => .bnec
  | .lt => .bltc
  | .gt => .bgtc
  | .leq => .blec
  | _ => .bgec

def Ty.isString : Ty → Bool
  | .basic .string => true
  | _ => false

def basicOf : Ty → Option BasicType
  | .basic b => some b
  | _ => none

section

variable (τ : Ty)

def addCode : List Opcode := if τ.isString then [.addc] else [addOpcode (typeNumKind τ)]

/-- A reference other than a string is its own truth value, so that `e != nil` needs no instruction
in a condition. -/
def comparisonCode (inCond : Bool) (l : Expr) (op : BinOp) (r : Expr) : List Opcode :=
  if τ.isString then compareBy (stringBranch op)
  else if inCond ∧ op = .neq ∧ (r.isNil || l.isNil) then []
  else compareBy (branchOpcode op (typeNumKind τ))

def indexCode : List Opcode :=
  match τ with
  | .array elem => arrayElemOpcodes (basicOf elem)
  | _ => [.indc]

def sliceCode (lo hi : Option Expr) : List Opcode :=
  (if lo.isSome then [] else [.movw]) ++
    match τ with
    | .array _ => (if hi.isSome then [] else [.lena]) ++ [.slicea, .movp]
    | _ => (if hi.isSome then [] else [.lenc]) ++ [.slicec, .movp]

def lenCode : List Opcode :=
  match τ with
  | .array _ => [.lena]
  | .list _ => [.lenl]
  | _ => [.lenc]

/-- The instructions of an operator on operands of type `τ`. -/
def operatorCode (inCond : Bool) : Expr → List Opcode
  | .binary _ .add _ => addCode τ
  | .binary l op r => comparisonCode τ inCond l op r
  | .index _ _ => indexCode τ
  | .slice _ lo hi => sliceCode τ lo hi
  | .len _ => lenCode τ
  | _ => []

end

end RiceVM.Limbo
