import RiceVM.Limbo.Parser
import RiceVM.Lib.Fuel

/-!
Expressions printed with the fewest parentheses that precedence and associativity ask for. From
loosest to tightest: assignments and send, `||`, `&&`, `::`, `|`, `^`, `&`, equality, relational,
shifts, additive, multiplicative, `**`, prefix operators and casts, postfix operators.
-/
namespace RiceVM.Limbo

/-- The place of an operator in the order of precedence, from 1; assignments are at 0. -/
def BinOp.prec : BinOp → Nat
  | .logOr => 1
  | .logAnd => 2
  | .or => 4
  | .xor => 5
  | .and => 6
  | .eq | .neq => 7
  | .lt | .gt | .leq | .geq => 8
  | .lshift | .rshift => 9
  | .add | .sub => 10
  | .mul | .div | .mod => 11
  | .power => 12

def BinOp.token : BinOp → TokenKind
  | .add => .plus
  | .sub => .minus
  | .mul => .star
  | .div => .slash
  | .mod => .percent
  | .power => .power
  | .and => .amp
  | .or => .pipe
  | .xor => .caret
  | .lshift => .lshift
  | .rshift => .rshift
  | .eq => .eq
  | .neq => .neq
  | .lt => .lt
  | .gt => .gt
  | .leq => .leq
  | .geq => .geq
  | .logAnd => .andAnd
  | .logOr => .orOr

/-- The compound assignment of an operator that has one. -/
def BinOp.assignToken : BinOp → Option TokenKind
  | .add => some .plusEq
  | .sub => some .minusEq
  | .mul => some .starEq
  | .div => some .slashEq
  | .mod => some .percentEq
  | .and => some .ampEq
  | .or => some .pipeEq
  | .xor => some .caretEq
  | .lshift => some .lshiftEq
  | .rshift => some .rshiftEq
  | _ => none

def UnaryOp.token : UnaryOp → TokenKind
  | .neg => .minus
  | .not => .bang
  | .bitNot => .tilde
  | .ref => .ref

def BasicType.token : BasicType → TokenKind
  | .int => .int
  | .byte => .byte
  | .big => .big
  | .real => .real
  | .string => .string_

namespace Syntax

/-- Assignments and send, `::` and `**` associate to the right. -/
def rightAssoc (prec : Nat) : Prop := prec = 0 ∨ prec = 3 ∨ prec = 12

instance (prec : Nat) : Decidable (rightAssoc prec) := inferInstanceAs (Decidable (_ ∨ _ ∨ _))

/-- The loosest left operand that an infix operator takes without parentheses. -/
def leftPrec (prec : Nat) : Nat := if rightAssoc prec then prec + 1 else prec

def rightPrec (prec : Nat) : Nat := if rightAssoc prec then prec else prec + 1

/-- The precedence of prefix operators and casts. -/
def prefixPrec : Nat := 13

/-- The precedence of postfix operators, and of what needs no parentheses anywhere. -/
def postfixPrec : Nat := 14

/-- The precedence of an expression's outermost operator. -/
def Expr.prec : Expr → Nat
  | .binary _ op _ => op.prec
  | .cons _ _ => 3
  | .assign _ _ | .compoundAssign _ _ _ | .declAssign _ _ | .tupleDeclAssign _ _ | .send _ _ => 0
  | .unary _ _ | .cast _ _ | .hd _ | .tl _ | .len _ | .tagof _ | .recv _ => prefixPrec
  | _ => postfixPrec

mutual

def printType : Ty → List TokenKind
  | .basic b => [b.token]
  | .array elem => .array :: .of :: printType elem
  | .list elem => .list :: .of :: printType elem
  | .chan elem => .chan :: .of :: printType elem
  | .ref target => .ref :: printType target
  | .tuple fields => .lparen :: printTypes fields ++ [.rparen]
  | .named ⟨none, name⟩ => [.ident name]
  | .named ⟨some qualifier, name⟩ => [.ident qualifier, .arrow, .ident name]
  | .func _ => []

def printTypes : List Ty → List TokenKind
  | [] => []
  | [ty] => printType ty
  | ty :: tys => printType ty ++ .comma :: printTypes tys

end

/-- An operand, in parentheses if it is looser than its place allows. -/
def paren (prec : Nat) (e : Expr) (ts : List TokenKind) : List TokenKind :=
  if e.prec < prec then .lparen :: ts ++ [.rparen] else ts

/-- A name that a tuple declares, where `nil` declares none. -/
def nameToken (name : String) : TokenKind := if name = "nil" then .nil else .ident name

def printNames : List String → List TokenKind
  | [] => []
  | [name] => [nameToken name]
  | name :: names => nameToken name :: .comma :: printNames names

mutual

def print : Expr → List TokenKind
  | .intLit v => [.intLit v]
  | .realLit bits => [.realLit bits]
  | .stringLit s => [.stringLit s]
  | .charLit v => [.charLit v]
  | .nil => [.nil]
  | .ident name => [.ident name]
  | .binary lhs op rhs =>
    paren (leftPrec op.prec) lhs (print lhs) ++
      op.token :: paren (rightPrec op.prec) rhs (print rhs)
  | .cons head tail => paren (leftPrec 3) head (print head) ++
      .colonColon :: paren (rightPrec 3) tail (print tail)
  | .assign lhs rhs => paren (leftPrec 0) lhs (print lhs) ++
      .assign :: paren (rightPrec 0) rhs (print rhs)
  | .compoundAssign lhs op rhs => paren (leftPrec 0) lhs (print lhs) ++
      op.assignToken.toList ++ paren (rightPrec 0) rhs (print rhs)
  | .send chan value => paren (leftPrec 0) chan (print chan) ++
      .chanSend :: paren (rightPrec 0) value (print value)
  | .declAssign names rhs =>
    names.map .ident ++ .colonEq :: paren (rightPrec 0) rhs (print rhs)
  | .tupleDeclAssign names rhs =>
    (match names with
      | [] => []
      | name :: names => .lparen :: nameToken name :: .comma :: printNames names ++ [.rparen]) ++
      .colonEq :: paren (rightPrec 0) rhs (print rhs)
  | .unary op inner => op.token :: paren prefixPrec inner (print inner)
  | .hd inner => .hd :: paren prefixPrec inner (print inner)
  | .tl inner => .tl :: paren prefixPrec inner (print inner)
  | .len inner => .len :: paren prefixPrec inner (print inner)
  | .tagof inner => .tagof :: paren prefixPrec inner (print inner)
  | .recv chan => .chanRecv :: paren prefixPrec chan (print chan)
  | .cast ty inner => printType ty ++ paren prefixPrec inner (print inner)
  | .call callee args =>
    paren postfixPrec callee (print callee) ++ .lparen :: printList args ++ [.rparen]
  | .dot inner member => paren postfixPrec inner (print inner) ++ [.dot, .ident member]
  | .modQual module member => paren postfixPrec module (print module) ++ [.arrow, .ident member]
  | .index arr idx => paren postfixPrec arr (print arr) ++ .lbracket :: print idx ++ [.rbracket]
  | .slice arr lo hi =>
    paren postfixPrec arr (print arr) ++
      .lbracket :: printBound lo ++ .colon :: printBound hi ++ [.rbracket]
  | .postInc inner => paren postfixPrec inner (print inner) ++ [.inc]
  | .postDec inner => paren postfixPrec inner (print inner) ++ [.dec]
  | .tuple [] => []
  -- A tuple of one element ends in a comma.
  | .tuple (elem :: elems) => .lparen :: print elem ++ .comma :: printList elems ++ [.rparen]
  | .load _ _ | .arrayAlloc _ _ | .arrayLit _ _ _ | .chanAlloc _ | .listLit _ => []

def printBound : Option Expr → List TokenKind
  | none => []
  | some e => print e

def printList : List Expr → List TokenKind
  | [] => []
  | e :: es => print e ++ printMore es

/-- The elements after the first of a list. -/
def printMore : List Expr → List TokenKind
  | [] => []
  | e :: es => .comma :: (print e ++ printMore es)

end

end Syntax

end RiceVM.Limbo
