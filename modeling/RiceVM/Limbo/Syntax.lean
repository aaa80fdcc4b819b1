import RiceVM.Limbo.Ast

/-!
The syntax trees the parser builds, with all the parts a source file can spell. Source positions
are left out, and so are the forms the parser never builds: a type's `bufChan` and `module`, an
expression's `refAlloc`.
-/
namespace RiceVM.Limbo.Syntax

mutual

inductive Ty where
  | basic (b : BasicType)
  | array (elem : Ty)
  | list (elem : Ty)
  | chan (elem : Ty)
  | ref (target : Ty)
  | tuple (fields : List Ty)
  | func (sig : FuncSig)
  | named (name : QualName)

inductive FuncSig where
  | mk (name : String) (params : List Param) (ret : Option Ty)

inductive Param where
  | mk (names : List String) (ty : Ty) (isSelf isNil : Bool)

end

mutual

inductive Expr where
  | intLit (v : Big)
  /-- A real, by its bits. -/
  | realLit (bits : Big)
  | stringLit (s : String)
  | charLit (v : Word)
  | nil
  | ident (name : String)
  | binary (lhs : Expr) (op : BinOp) (rhs : Expr)
  | unary (op : UnaryOp) (inner : Expr)
  | call (callee : Expr) (args : List Expr)
  | dot (inner : Expr) (member : String)
  | modQual (module : Expr) (member : String)
  | index (arr idx : Expr)
  | slice (arr : Expr) (lo hi : Option Expr)
  | tuple (elems : List Expr)
  | cons (head tail : Expr)
  | recv (chan : Expr)
  | send (chan value : Expr)
  | load (ty : Ty) (path : Expr)
  | arrayAlloc (size : Expr) (elem : Ty)
  /-- The size is absent where the length follows from the elements. -/
  | arrayLit (size : Option Expr) (elems : List ArrayElem) (elem : Option Ty)
  | chanAlloc (elem : Ty)
  | listLit (elems : List Expr)
  | cast (ty : Ty) (inner : Expr)
  | declAssign (names : List String) (rhs : Expr)
  | tupleDeclAssign (names : List String) (rhs : Expr)
  | assign (lhs rhs : Expr)
  | compoundAssign (lhs : Expr) (op : BinOp) (rhs : Expr)
  | hd (inner : Expr)
  | tl (inner : Expr)
  | len (inner : Expr)
  | tagof (inner : Expr)
  | postInc (inner : Expr)
  | postDec (inner : Expr)

/-- An element of an array literal, with the indices it is for unless it is positional. -/
inductive ArrayElem where
  | mk (index : Option ArrayIndex) (value : Expr)

inductive ArrayIndex where
  /-- Selectors joined by `or`, each an index or a `lo to hi` range. -/
  | selectors (sels : List (Expr × Option Expr))
  /-- `*`: every index no other element names. -/
  | wildcard

end

end RiceVM.Limbo.Syntax
