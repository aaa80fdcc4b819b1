import RiceVM.Limbo.Forms

/-!
What is recorded of a variable when it is introduced, and so how it shows its type from then on.
-/
namespace RiceVM.Limbo

/-- A parameter, a declaration `x: T`, or `x := e`. -/
inductive Intro where
  | param (x : String) (ty : Ty)
  | decl (x : String) (ty : Ty)
  | declAssign (x : String) (rhs : Expr)

def Intro.name : Intro → String
  | .param x _ | .decl x _ | .declAssign x _ => x

def inferParamType : Ty → ValType
  | .basic .string => .ptr
  | .basic _ => .word
  | .array _ => .array
  | _ => .ptr

/-- Unlike a parameter's, the class of a declared array is that of any pointer. -/
def inferDeclType : Ty → ValType
  | .basic .string => .ptr
  | .basic _ => .word
  | _ => .ptr

def isByteCast : Expr → Bool
  | .cast (.basic .byte) _ => true
  | _ => false

/-- The element type an array literal without one is given. -/
def arrayLitElem (s : Scope) (elems : List Expr) : BasicType :=
  if elems ≠ [] ∧ elems.all isByteCast then .byte
  else match elems with
    | [] => .int
    | e :: _ =>
      if inferExprType s e = .word then
        match inferNumKind s e with
        | .big => .big
        | .real => .real
        | .word => .int
      else .string

def adtVariantOwner (s : Scope) : Expr → Option String
  | .ident name => if s.lookupVar name = none then some name else none
  | .modQual _ name => some name
  | _ => none

/-- The ADT, or variant of one, that a constructor names. -/
def adtCtorName (s : Scope) (e : Expr) : Option String :=
  let byName (name : String) := if (s.adtLayouts name).isSome then some name else none
  match e with
  | .dot base variant =>
    (adtVariantOwner s base).bind fun adt =>
      if s!"{adt}.{variant}" ∈ s.adtVariants then some s!"{adt}.{variant}" else none
  | .ident name | .modQual _ name => byName name
  | _ => none

/-- The ADT of the value of `x := rhs`, when its form names one. -/
def adtFromRhs (s : Scope) : Expr → Option String
  | .refAlloc ty _ => adtNameForType ty
  | .unary .ref (.call callee _) => adtCtorName s callee
  | .unary .ref e => adtCtorName s e
  | .call callee args => adtNameForExpr s (.call callee args)
  | _ => none

namespace Scope

/-- A name keeps the slot and the class it was first given in the function. -/
def allocLocal (s : Scope) (off : Nat) (x : String) (ty : ValType) (kind : NumKind) : Scope :=
  if (s.locals.find? (·.1 = x)).isSome then s else
    { s with locals := s.locals ++ [(x, off, ty, kind)] }

def declareLocalOfType (s : Scope) (off : Nat) (x : String) : Ty → Scope
  | .tuple fields =>
    { s.allocLocal off x .word .word with
      localTuple := Function.update s.localTuple x (some fields) }
  | ty => s.allocLocal off x ty.storage (typeNumKind ty)

/-- Record what a type says of a variable: its elements and its ADT. -/
def noteType (s : Scope) (x : String) (ty : Ty) : Scope :=
  { s with
    localArrayElem := match ty with
      | .array elem => Function.update s.localArrayElem x (some elem)
      | _ => s.localArrayElem
    localChanElem := match ty with
      | .chan elem | .bufChan elem => Function.update s.localChanElem x (some elem)
      | _ => s.localChanElem
    localAdtType := match adtNameForType ty with
      | some adt => Function.update s.localAdtType x (some adt)
      | none => s.localAdtType }

/-- Record what the value of `x := rhs` says of it, as far as its form tells. -/
def noteValue (s : Scope) (x : String) (rhs : Expr) : Scope :=
  { s with
    localArrayElem := match rhs with
      | .arrayAlloc _ ty | .arrayLit _ _ (some ty) =>
        Function.update s.localArrayElem x (some ty)
      | .arrayLit _ elems none =>
        Function.update s.localArrayElem x (some (.basic (arrayLitElem s elems)))
      | _ => s.localArrayElem
    localChanElem := match chanElemType s rhs with
      | some elem => Function.update s.localChanElem x (some elem)
      | none => s.localChanElem
    localAdtType := match adtFromRhs s rhs with
      | some adt => Function.update s.localAdtType x (some adt)
      | none => s.localAdtType }

/-- The tables after a variable is introduced, its slot being at `off` if it gets a new one. -/
def introduce (s : Scope) (off : Nat) : Intro → Scope
  | .param x ty =>
    let s := { s with locals := s.locals ++ [(x, off, inferParamType ty, typeNumKind ty)] }
    (match ty with
      | .tuple fields => { s with localTuple := Function.update s.localTuple x (some fields) }
      | _ => s).noteType x ty
  | .decl x ty =>
    (match ty with
      | .tuple _ => s.declareLocalOfType off x ty
      | _ => s.allocLocal off x (inferDeclType ty) (typeNumKind ty)).noteType x ty
  | .declAssign x rhs =>
    match tupleFieldsOf s rhs with
    | some fields => s.declareLocalOfType off x (.tuple fields)
    | none => (s.allocLocal off x (inferExprType s rhs) (inferNumKind s rhs)).noteValue x rhs

end Scope

/-- The class and the width a variable is recorded with. -/
def Intro.recorded (s : Scope) : Intro → ValType × NumKind
  | .param _ ty => (inferParamType ty, typeNumKind ty)
  | .decl _ (.tuple _) => (.word, .word)
  | .decl _ ty => (inferDeclType ty, typeNumKind ty)
  | .declAssign _ rhs =>
    match tupleFieldsOf s rhs with
    | some _ => (.word, .word)
    | none => (inferExprType s rhs, inferNumKind s rhs)

variable {s : Scope} {off : Nat}

theorem lookupVar_push {x : String} {ty : ValType} {kind : NumKind}
    (hx : s.locals.find? (·.1 = x) = none) :
    ({ s with locals := s.locals ++ [(x, off, ty, kind)] } : Scope).lookupVar x =
      some (ty, kind) := by
  simp [Scope.lookupVar, List.find?_append, hx]

theorem lookupVar_allocLocal {x : String} {ty : ValType} {kind : NumKind}
    (hx : s.locals.find? (·.1 = x) = none) :
    (s.allocLocal off x ty kind).lookupVar x = some (ty, kind) := by
  rw [Scope.allocLocal, if_neg (by simp [hx])]
  exact lookupVar_push hx

/-- A name new to the function is recorded as its introduction says. -/
theorem lookupVar_introduce {i : Intro} (hx : s.locals.find? (·.1 = i.name) = none) :
    (s.introduce off i).lookupVar i.name = some (i.recorded s) := by
  cases i with
  | param x ty => cases ty <;> exact lookupVar_push hx
  | decl x ty => cases ty <;> exact lookupVar_allocLocal hx
  | declAssign x rhs =>
      rw [Scope.introduce, Intro.recorded]
      cases tupleFieldsOf s rhs with
      | some fields => exact lookupVar_allocLocal hx
      | none => exact lookupVar_allocLocal hx

theorem looks_ident_iff {x : String} {c c' : ValType} {kind : NumKind}
    (h : s.lookupVar x = some (c, kind)) : Looks s c' (.ident x) ↔ c' = c := by
  constructor
  · intro hlooks
    cases hlooks with
    | var h' =>
        rw [h] at h'
        exact (congrArg Prod.fst (Option.some.inj h')).symm
    | const h' =>
        rw [h] at h'
        cases h'
  · rintro rfl
    exact .var h

theorem widthIs_ident_iff {x : String} {c : ValType} {kind k : NumKind}
    (h : s.lookupVar x = some (c, kind)) : WidthIs s (.ident x) k ↔ k = kind := by
  rw [← inferNumKind_iff, inferNumKind, h, eq_comm]

/-- After its introduction a variable looks like what was recorded: a parameter like its type, a
declared array like a pointer, and the target of `:=` like the expression it was given. -/
theorem introduced_iff {i : Intro} (hx : s.locals.find? (·.1 = i.name) = none) {c : ValType}
    {k : NumKind} :
    (Looks (s.introduce off i) c (.ident i.name) ↔ c = (i.recorded s).1) ∧
      (WidthIs (s.introduce off i) (.ident i.name) k ↔ k = (i.recorded s).2) :=
  ⟨looks_ident_iff (lookupVar_introduce hx), widthIs_ident_iff (lookupVar_introduce hx)⟩

end RiceVM.Limbo
