import RiceVM.Limbo.Infer

/-!
The types of expressions over numbers, strings, arrays, lists and refs, as the language gives them.
The compiler has no such judgement: its guesses are measured by it.
-/
namespace RiceVM.Limbo

namespace BasicType

def isNumber : BasicType → Bool
  | .string => false
  | _ => true

def isInteger : BasicType → Bool
  | .int | .byte | .big => true
  | _ => false

end BasicType

namespace BinOp

def isArith : BinOp → Bool
  | .sub | .mul | .div | .mod | .power | .and | .or | .xor => true
  | _ => false

def isShift : BinOp → Bool
  | .lshift | .rshift => true
  | _ => false

def isEquality : BinOp → Bool
  | .eq | .neq => true
  | _ => false

def isOrder : BinOp → Bool
  | .lt | .gt | .leq | .geq => true
  | _ => false

def isLogical : BinOp → Bool
  | .logAnd | .logOr => true
  | _ => false

end BinOp

namespace Ty

/-- The types whose values are references and that `nil` belongs to. -/
def isRef : Ty → Bool
  | .basic .string | .array _ | .list _ | .chan _ | .bufChan _ | .ref _ | .module => true
  | _ => false

/-- Numbers and references, which `==` applies to. -/
def isScalar : Ty → Bool
  | .basic _ => true
  | τ => τ.isRef

def isSequence : Ty → Bool
  | .basic .string | .array _ => true
  | _ => false

/-- The storage class of a type's values. -/
def storage : Ty → ValType
  | .basic .string => .ptr
  | .basic _ => .word
  | .array _ => .array
  | _ => .ptr

end Ty

/-- What is declared: the types of variables and constants, the results of the file's functions
and the fields of its ADTs. -/
structure Typing where
  var : String → Option Ty
  func : String → Option Ty
  field : String → String → Option Ty

inductive HasType (Γ : Typing) : Expr → Ty → Prop
  | int {v : Big} (h : isWide v = false) : HasType Γ (.intLit v) (.basic .int)
  | big {v : Big} (h : isWide v = true) : HasType Γ (.intLit v) (.basic .big)
  | real {bits : Big} : HasType Γ (.realLit bits) (.basic .real)
  | char {c : Word} : HasType Γ (.charLit c) (.basic .int)
  | string {v : String} : HasType Γ (.stringLit v) (.basic .string)
  | nil {τ : Ty} (h : τ.isRef = true) : HasType Γ .nil τ
  | var {x : String} {τ : Ty} (h : Γ.var x = some τ) : HasType Γ (.ident x) τ
  | add {l r : Expr} {b : BasicType} (hl : HasType Γ l (.basic b)) (hr : HasType Γ r (.basic b)) :
      HasType Γ (.binary l .add r) (.basic b)
  | arith {l r : Expr} {op : BinOp} {b : BasicType} (hop : op.isArith = true)
      (hb : b.isNumber = true) (hl : HasType Γ l (.basic b)) (hr : HasType Γ r (.basic b)) :
      HasType Γ (.binary l op r) (.basic b)
  | shift {l r : Expr} {op : BinOp} {b : BasicType} (hop : op.isShift = true)
      (hb : b.isInteger = true) (hl : HasType Γ l (.basic b)) (hr : HasType Γ r (.basic .int)) :
      HasType Γ (.binary l op r) (.basic b)
  | equality {l r : Expr} {op : BinOp} {τ : Ty} (hop : op.isEquality = true)
      (hτ : τ.isScalar = true) (hl : HasType Γ l τ) (hr : HasType Γ r τ) : HasType Γ (.binary l op r) (.basic .int)
  | order {l r : Expr} {op : BinOp} {b : BasicType} (hop : op.isOrder = true)
      (hl : HasType Γ l (.basic b)) (hr : HasType Γ r (.basic b)) :
      HasType Γ (.binary l op r) (.basic .int)
  | logical {l r : Expr} {op : BinOp} (hop : op.isLogical = true)
      (hl : HasType Γ l (.basic .int)) (hr : HasType Γ r (.basic .int)) :
      HasType Γ (.binary l op r) (.basic .int)
  | neg {e : Expr} {b : BasicType} (hb : b.isNumber = true) (he : HasType Γ e (.basic b)) :
      HasType Γ (.unary .neg e) (.basic b)
  | not {e : Expr} (he : HasType Γ e (.basic .int)) : HasType Γ (.unary .not e) (.basic .int)
  | bitNot {e : Expr} {b : BasicType} (hb : b.isInteger = true) (he : HasType Γ e (.basic b)) :
      HasType Γ (.unary .bitNot e) (.basic b)
  | call {f : String} {args : List Expr} {σs : List Ty} {τ : Ty} (h : Γ.func f = some τ)
      (hargs : List.Forall₂ (HasType Γ) args σs) : HasType Γ (.call (.ident f) args) τ
  | field {e : Expr} {adt : QualName} {f : String} {τ : Ty}
      (he : HasType Γ e (.ref (.named adt))) (h : Γ.field adt.name f = some τ) :
      HasType Γ (.dot e f) τ
  | charAt {e i : Expr} (he : HasType Γ e (.basic .string)) (hi : HasType Γ i (.basic .int)) :
      HasType Γ (.index e i) (.basic .int)
  | elem {e i : Expr} {τ : Ty} (he : HasType Γ e (.array τ)) (hi : HasType Γ i (.basic .int)) :
      HasType Γ (.index e i) τ
  | slice {e : Expr} {lo hi : Option Expr} {τ : Ty} (hτ : τ.isSequence = true)
      (he : HasType Γ e τ) (hlo : ∀ i ∈ lo, HasType Γ i (.basic .int))
      (hhi : ∀ i ∈ hi, HasType Γ i (.basic .int)) : HasType Γ (.slice e lo hi) τ
  | cons {h t : Expr} {τ : Ty} (hh : HasType Γ h τ) (ht : HasType Γ t (.list τ)) :
      HasType Γ (.cons h t) (.list τ)
  | hd {e : Expr} {τ : Ty} (he : HasType Γ e (.list τ)) : HasType Γ (.hd e) τ
  | tl {e : Expr} {τ : Ty} (he : HasType Γ e (.list τ)) : HasType Γ (.tl e) (.list τ)
  | lenList {e : Expr} {τ : Ty} (he : HasType Γ e (.list τ)) : HasType Γ (.len e) (.basic .int)
  | len {e : Expr} {τ : Ty} (hτ : τ.isSequence = true) (he : HasType Γ e τ) :
      HasType Γ (.len e) (.basic .int)
  | arrayAlloc {n : Expr} {τ : Ty} (hn : HasType Γ n (.basic .int)) :
      HasType Γ (.arrayAlloc n τ) (.array τ)
  | listLit {es : List Expr} {τ : Ty} (hes : ∀ e ∈ es, HasType Γ e τ) :
      HasType Γ (.listLit es) (.list τ)
  | cast {e : Expr} {b c : BasicType} (he : HasType Γ e (.basic c)) :
      HasType Γ (.cast (.basic b) e) (.basic b)
  | toBytes {e : Expr} (he : HasType Γ e (.basic .string)) :
      HasType Γ (.cast (.array (.basic .byte)) e) (.array (.basic .byte))
  | ofBytes {e : Expr} (he : HasType Γ e (.array (.basic .byte))) :
      HasType Γ (.cast (.basic .string) e) (.basic .string)
  | assign {l r : Expr} {τ : Ty} (hl : HasType Γ l τ) (hr : HasType Γ r τ) :
      HasType Γ (.assign l r) τ

/-- `e` applies `+`, a comparison, `len`, an index or a slice to operands of type `τ`. -/
inductive OperandType (Γ : Typing) : Expr → Ty → Prop
  | add {l r : Expr} {b : BasicType} (hl : HasType Γ l (.basic b)) (hr : HasType Γ r (.basic b)) :
      OperandType Γ (.binary l .add r) (.basic b)
  | equality {l r : Expr} {op : BinOp} {τ : Ty} (hop : op.isEquality = true)
      (hτ : τ.isScalar = true) (hl : HasType Γ l τ) (hr : HasType Γ r τ) : OperandType Γ (.binary l op r) τ
  | order {l r : Expr} {op : BinOp} {b : BasicType} (hop : op.isOrder = true)
      (hl : HasType Γ l (.basic b)) (hr : HasType Γ r (.basic b)) :
      OperandType Γ (.binary l op r) (.basic b)
  | lenList {e : Expr} {τ : Ty} (he : HasType Γ e (.list τ)) : OperandType Γ (.len e) (.list τ)
  | len {e : Expr} {τ : Ty} (hτ : τ.isSequence = true) (he : HasType Γ e τ) :
      OperandType Γ (.len e) τ
  | index {e i : Expr} {τ : Ty} (hτ : τ.isSequence = true) (he : HasType Γ e τ)
      (hi : HasType Γ i (.basic .int)) : OperandType Γ (.index e i) τ
  | slice {e : Expr} {lo hi : Option Expr} {τ : Ty} (hτ : τ.isSequence = true)
      (he : HasType Γ e τ) : OperandType Γ (.slice e lo hi) τ

end RiceVM.Limbo
