import RiceVM.Limbo.Layout

/-!
What the compiler takes an expression to be. There is no type checker: the width of a value and
its storage class are read off the expression's form and tables keyed by name.
-/
namespace RiceVM.Limbo

/-- Slot widths, narrowest first: a word, a big or a real. -/
inductive NumKind where
  | word | big | real
  deriving DecidableEq, Repr

namespace NumKind

def byteSize : NumKind → Nat
  | .word => 4
  | .big | .real => 8

/-- The wider of two kinds, as mixed arithmetic promotes. -/
def max : NumKind → NumKind → NumKind
  | .real, _ | _, .real => .real
  | .big, _ | _, .big => .big
  | .word, .word => .word

end NumKind

/-- The storage class of a value. -/
inductive ValType where
  | word | ptr | array
  deriving DecidableEq, Repr

def typeNumKind : Ty → NumKind
  | .basic .big => .big
  | .basic .real => .real
  | _ => .word

/-- The type of an interface's member, once its names are resolved. -/
inductive ResolvedType where
  | int | byte | big | real | string
  | array (elem : ResolvedType)
  | list (elem : ResolvedType)
  | chan (elem : ResolvedType)
  | ref (target : ResolvedType)
  | tuple
  | adt (name : String)
  | module
  | fn
  | nil
  | unknown
  deriving Repr

namespace ResolvedType

def numKind : ResolvedType → NumKind
  | .big => .big
  | .real => .real
  | _ => .word

def isPtr : ResolvedType → Bool
  | .int | .byte | .big | .real | .unknown => false
  | _ => true

def valType : ResolvedType → ValType
  | .array _ => .array
  | ty => if ty.isPtr then .ptr else .word

def adtName : ResolvedType → Option String
  | .adt name => some (((name.splitOn ".").getLast?).getD name)
  | .ref inner | .array inner | .list inner => inner.adtName
  | _ => none

end ResolvedType

/-- A folded constant; a real by its bits. -/
inductive ConstVal where
  | int (v : Big)
  | real (bits : Big)
  | str (s : String)
  deriving DecidableEq, Repr

/-- Does an integer need more than a word? -/
def isWide (v : Big) : Bool := v.toInt > 2 ^ 31 - 1 || v.toInt < -2 ^ 31

namespace ConstVal

def valType : ConstVal → ValType
  | .str _ => .ptr
  | _ => .word

def numKind : ConstVal → NumKind
  | .real _ => .real
  | .int v => if isWide v then .big else .word
  | .str _ => .word

end ConstVal

/-- What the compiler knows of an ADT's method. -/
structure MethodSig where
  ret : Option Ty
  takesSelf : Bool

/-- The compiler's tables, most of them keyed by name. -/
structure Scope where
  /-- Frame offset, storage class and kind of each local, in order of declaration. -/
  locals : List (String × Nat × ValType × NumKind) := []
  globals : List (String × Nat × ValType × NumKind) := []
  consts : String → Option ConstVal := fun _ => none
  /-- The constants of interfaces, by module and member. -/
  qualifiedConsts : String → String → Option ConstVal := fun _ _ => none
  /-- The interface of each variable that holds a loaded module. -/
  moduleHandleType : String → Option String := fun _ => none
  /-- The return kind of each function of the file. -/
  funcTable : List (String × NumKind) := []
  funcTupleRet : String → Option (List Ty) := fun _ => none
  funcRetTypes : String → Option Ty := fun _ => none
  localTuple : String → Option (List Ty) := fun _ => none
  localArrayElem : String → Option Ty := fun _ => none
  localChanElem : String → Option Ty := fun _ => none
  localAdtType : String → Option String := fun _ => none
  adtLayouts : String → Option (List Field) := fun _ => none
  adtMethods : String → String → Option MethodSig := fun _ _ => none
  /-- The variants of tagged ADTs, as `Adt.Variant`. -/
  adtVariants : List String := []
  /-- The return type of a function reached through a module handle. -/
  handleFunc : String → String → Option (Option ResolvedType) := fun _ _ => none

namespace Scope

/-- A local, or else a module-level variable. -/
def lookupVar (s : Scope) (name : String) : Option (ValType × NumKind) :=
  ((s.locals.find? (·.1 = name)).or (s.globals.find? (·.1 = name))).map (·.2.2)

def adtFieldInfo (s : Scope) (adt field : String) : Option (Nat × Ty) := do
  let f ← (← s.adtLayouts adt).find? (·.name = field)
  some (f.off, f.ty)

end Scope

def adtNameForType : Ty → Option String
  | .named q => some q.name
  | .ref inner => adtNameForType inner
  | _ => none

/-- `t0`, `t1`, ... name a tuple's fields by position. -/
def tupleFieldIndex (field : String) : Option Nat :=
  match field.toList with
  | 't' :: digits =>
    if digits ≠ [] ∧ digits.all (·.isDigit) then
      some (digits.foldl (fun n c => 10 * n + (c.toNat - '0'.toNat)) 0)
    else none
  | _ => none

def sysReturnKind (name : String) : NumKind := if name = "seek" then .big else .word

def sysReturnValType (name : String) : ValType :=
  if name ∈ ["fildes", "open", "create", "fstat", "stat", "dirread", "dial", "announce", "listen"]
  then .ptr else .word

variable (s : Scope)

def moduleCallNumKind (handle func : String) : NumKind :=
  match s.handleFunc handle func with
  | some ret => (ret.map (·.numKind)).getD .word
  | none => sysReturnKind func

def moduleCallValType (handle func : String) : ValType :=
  match s.handleFunc handle func with
  | some ret => (ret.map (·.valType)).getD .word
  | none => sysReturnValType func

def arrayElemTypeForExpr : Expr → Option Ty
  | .ident name => s.localArrayElem name
  | .index inner _ =>
    match arrayElemTypeForExpr inner with
    | some (.array elem) => some elem
    | _ => none
  | _ => none

def arrayElemBasicForExpr (e : Expr) : Option BasicType :=
  match arrayElemTypeForExpr s e with
  | some (.basic b) => some b
  | _ => none

/-- The ADT a method call goes to: one named directly, or that of the receiver. -/
def adtMethodTarget (obj : Expr) (method : String) (receiver : Option String) : Option String :=
  let direct := match obj with
    | .ident name =>
      if (s.adtMethods name method).isSome ∧ s.lookupVar name = none then some name else none
    | _ => none
  direct.or (receiver.filter fun adt => (s.adtMethods adt method).isSome)

mutual
/-- The ADT of the value an expression produces, when it can be told. -/
def adtNameForExpr : Expr → Option String
  | .ident name => s.localAdtType name
  | .dot inner field =>
    (adtNameForExpr inner).bind fun outer =>
      (s.adtFieldInfo outer field).bind fun f => adtNameForType f.2
  | .index arr _ => (arrayElemTypeForExpr s arr).bind adtNameForType
  | .recv chan => (chanElemType chan).bind adtNameForType
  | .call (.modQual (.ident handle) name) _ =>
    (s.handleFunc handle name).bind fun ret => ret.bind (·.adtName)
  | .call (.dot obj method) _ =>
    (adtMethodTarget s obj method (adtNameForExpr obj)).bind fun adt =>
      (s.adtMethods adt method).bind fun sig => sig.ret.bind adtNameForType
  | .call (.ident name) _ => (s.funcRetTypes name).bind adtNameForType
  | _ => none

/-- The element type of the channel an expression denotes, if it is known. -/
def chanElemType : Expr → Option Ty
  | .ident name => s.localChanElem name
  | .chanAlloc ty => some ty
  | .dot inner field =>
    ((adtNameForExpr inner).bind fun adt => s.adtFieldInfo adt field).bind fun f =>
      match f.2 with
      | .chan elem | .bufChan elem => some elem
      | _ => none
  | _ => none
end

/-- The type of a field of the ADT an expression denotes. -/
def fieldTypeForExpr (inner : Expr) (field : String) : Option Ty :=
  ((adtNameForExpr s inner).bind fun adt => s.adtFieldInfo adt field).map (·.2)

/-- The declared return type of a method, as a call through `obj` finds it. -/
def methodRet (obj : Expr) (method : String) : Option Ty :=
  (adtMethodTarget s obj method (adtNameForExpr s obj)).bind fun adt =>
    (s.adtMethods adt method).bind (·.ret)

/-- The numeric kind of an expression: the width of the slot its value takes. -/
def inferNumKind : Expr → NumKind
  | .intLit v => if isWide v then .big else .word
  | .realLit _ => .real
  | .ident name =>
    match s.lookupVar name with
    | some (_, kind) => kind
    | none => ((s.consts name).map (·.numKind)).getD .word
  | .assign _ rhs | .declAssign _ rhs | .compoundAssign _ _ rhs => inferNumKind rhs
  | .postInc inner | .postDec inner => inferNumKind inner
  | .cast ty _ => typeNumKind ty
  | .unary _ inner => inferNumKind inner
  | .binary lhs op rhs =>
    match op with
    | .eq | .neq | .lt | .gt | .leq | .geq | .logAnd | .logOr => .word
    | _ => (inferNumKind lhs).max (inferNumKind rhs)
  | .call (.ident name) _ => ((s.funcTable.find? (·.1 = name)).map (·.2)).getD .word
  | .call (.modQual (.ident handle) name) _ => moduleCallNumKind s handle name
  | .call (.dot obj method) _ => ((methodRet s obj method).map typeNumKind).getD .word
  | .index arr _ => ((arrayElemBasicForExpr s arr).map fun b => typeNumKind (.basic b)).getD .word
  | .recv (.ident name) => ((s.localChanElem name).map typeNumKind).getD .word
  | .dot inner field => ((fieldTypeForExpr s inner field).map typeNumKind).getD .word
  | _ => .word

/-- The storage class of an expression's value. -/
def inferExprType : Expr → ValType
  | .stringLit _ | .nil => .ptr
  | .ident name =>
    match s.lookupVar name with
    | some (ty, _) => ty
    | none => ((s.consts name).map (·.valType)).getD .word
  | .assign _ rhs | .declAssign _ rhs | .compoundAssign _ _ rhs => inferExprType rhs
  | .postInc inner | .postDec inner => inferExprType inner
  | .binary lhs op _ =>
    match op with
    | .add => if inferExprType lhs = .ptr then .ptr else .word
    | _ => .word
  | .hd _ | .tl _ | .load _ _ | .cons _ _ | .chanAlloc _ | .listLit _ => .ptr
  | .dot inner field =>
    match fieldTypeForExpr s inner field with
    | some (.basic _) | none => .word
    | some (.array _) => .array
    | some _ => .ptr
  | .index arr _ =>
    match arrayElemTypeForExpr s arr with
    | some (.basic _) | none => .word
    | some (.array _) => .array
    | some _ => .ptr
  | .call (.modQual (.ident handle) name) _ => moduleCallValType s handle name
  | .call (.dot obj method) _ =>
    match methodRet s obj method with
    | some (.basic .int) | some (.basic .byte) | some (.basic .big) | some (.basic .real)
    | none => .word
    | some (.array _) => .array
    | some _ => .ptr
  | .arrayAlloc _ _ | .arrayLit _ _ _ => .array
  | .cast ty _ =>
    match ty with
    | .basic .int | .basic .byte | .basic .big | .basic .real => .word
    | .array _ => .array
    | _ => .ptr
  | _ => .word

theorem inferExprType_add (l r : Expr) :
    inferExprType s (.binary l .add r) = if inferExprType s l = .ptr then .ptr else .word := by
  rw [inferExprType]

mutual
/-- The field types of an expression, if it denotes a tuple. -/
def tupleFieldsOf : Expr → Option (List Ty)
  | .tuple elems => some (tupleFieldTypes elems)
  | .ident name => s.localTuple name
  | .call (.ident name) _ => s.funcTupleRet name
  | .recv chan =>
    match chanElemType s chan with
    | some (.tuple fields) => some fields
    | _ => none
  | .index (.ident name) _ =>
    match s.localArrayElem name with
    | some (.tuple fields) => some fields
    | _ => none
  | .dot inner field =>
    match tupleFieldsOf inner, tupleFieldIndex field with
    | some fields, some n =>
      match (computeTupleLayout fields).fields[n]? with
      | some (.tuple inner, _) => some inner
      | _ => none
    | _, _ =>
      match fieldTypeForExpr s inner field with
      | some (.tuple fields) => some fields
      | _ => none
  | .tupleDeclAssign _ rhs | .declAssign _ rhs | .assign _ rhs => tupleFieldsOf rhs
  | _ => none

/-- The types of the elements of a tuple literal. A pointer of any kind is a `string`. -/
def tupleFieldTypes : List Expr → List Ty
  | [] => []
  | e :: elems =>
    (match tupleFieldsOf e with
      | some fields => .tuple fields
      | none =>
        match inferNumKind s e with
        | .big => .basic .big
        | .real => .basic .real
        | .word => if inferExprType s e = .word then .basic .int else .basic .string) ::
      tupleFieldTypes elems
end

end RiceVM.Limbo
