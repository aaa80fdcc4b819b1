import RiceVM.Core

/-!
The types, record declarations and expressions of a Limbo program. Source positions are left
out, and so are the parts of a type and of an array literal that nothing here reads.
-/
namespace RiceVM.Limbo

inductive BasicType where
  | int | byte | big | real | string
  deriving DecidableEq, Repr

/-- A qualified name: `Module.func` or just `func`. -/
structure QualName where
  qualifier : Option String
  name : String
  deriving DecidableEq, Repr

/-- A type expression. -/
inductive Ty where
  | basic (b : BasicType)
  | array (elem : Ty)
  | list (elem : Ty)
  | chan (elem : Ty)
  | bufChan (elem : Ty)
  | ref (target : Ty)
  | tuple (fields : List Ty)
  | func
  | named (name : QualName)
  | module
  deriving Repr

/-- Names declared together, with the type they share. -/
structure VarDecl where
  names : List String
  ty : Option Ty
  deriving Repr

inductive AdtMember where
  | field (v : VarDecl)
  | const
  | func
  deriving Repr

structure PickCase where
  tags : List String
  fields : List VarDecl
  deriving Repr

structure AdtDecl where
  name : String
  members : List AdtMember
  pick : Option (List PickCase)
  deriving Repr

inductive BinOp where
  | add | sub | mul | div | mod | power | and | or | xor | lshift | rshift
  | eq | neq | lt | gt | leq | geq | logAnd | logOr
  deriving DecidableEq, Repr

inductive UnaryOp where
  | neg | not | bitNot | ref
  deriving DecidableEq, Repr

inductive Expr where
  | intLit (v : Big)
  /-- A real, by its bits. -/
  | realLit (bits : Big)
  | stringLit (s : String)
  | charLit (v : Word)
  | nil
  | ident (name : String)
  | binary (lhs : Expr) (op : BinOp) (rhs : Expr)
  | unary (op : UnaryOp) (inner : Expr)
  | call (callee : Expr) (args : List Expr)
  | dot (inner : Expr) (field : String)
  | modQual (module : Expr) (member : String)
  | index (arr idx : Expr)
  | slice (arr : Expr) (lo hi : Option Expr)
  | tuple (elems : List Expr)
  | cons (head tail : Expr)
  | recv (chan : Expr)
  | send (chan value : Expr)
  | load (ty : Ty) (path : Expr)
  | arrayAlloc (size : Expr) (elem : Ty)
  | arrayLit (size : Option Expr) (elems : List Expr) (elem : Option Ty)
  | chanAlloc (elem : Ty)
  | listLit (elems : List Expr)
  | refAlloc (ty : Ty) (args : List Expr)
  | cast (ty : Ty) (inner : Expr)
  | declAssign (names : List String) (rhs : Expr)
  | tupleDeclAssign (names : List String) (rhs : Expr)
  | assign (lhs rhs : Expr)
  | compoundAssign (lhs : Expr) (op : BinOp) (rhs : Expr)
  | hd (inner : Expr)
  | tl (inner : Expr)
  | len (inner : Expr)
  | tagof (inner : Expr)
  | postInc (inner : Expr)
  | postDec (inner : Expr)
  deriving Repr

end RiceVM.Limbo
