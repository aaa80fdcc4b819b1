import RiceVM.Limbo.Compound
import RiceVM.Limbo.Selection
import RiceVM.Ops.Strings
import RiceVM.Programs

/-!
Assignment to a character of a string, `s[i] = c`. The code fetches the string into a temporary
and changes the temporary with `insc`; nothing is stored back into `s`. What `s` holds afterwards
depends on whether the string was copied.
-/
namespace RiceVM

def MiddleOperand.fp (offset : Word) : MiddleOperand := ⟨.smallOffsetFp, offset⟩

namespace Limbo.CharAssign
open Exec
open Compound (Slot)

/-! ### The generator -/

structure Emitter where
  code : List Instruction
  /-- The frame offset of the next local or temporary. -/
  nextLocal : Nat

abbrev Emit := Exec Emitter String

def emit (i : Instruction) : Emit Unit := modify fun g => { g with code := g.code ++ [i] }

def allocTempFor (kind : NumKind) : Emit Nat := do
  let g ← get
  set { g with nextLocal := g.nextLocal + kind.byteSize }
  return g.nextLocal

def allocTemp : Emit Nat := allocTempFor .word

def opFp (off : Nat) : Operand := .fp (Word.ofUsize off)
def midFp (off : Nat) : MiddleOperand := .fp (Word.ofUsize off)
def opFpInd (off inner : Nat) : Operand := .deref (Word.ofUsize off) (Word.ofUsize inner)

def operand : Slot → Operand
  | .frame off => opFp off
  | .mp off => .mp (Word.ofUsize off)

/-- A variable's slot, storage class and kind. -/
def lookupVar (s : Scope) (name : String) : Option (Slot × ValType × NumKind) :=
  ((s.locals.find? (·.1 = name)).map fun l => (Slot.frame l.2.1, l.2.2)).or
    ((s.globals.find? (·.1 = name)).map fun g => (Slot.mp g.2.1, g.2.2))

def movOpcode : ValType → NumKind → Opcode
  | _, .big => .movl
  | _, .real => .movf
  | .word, .word => .movw
  | _, .word => .movp

/-- Where a field is assumed to be in a record that is not known. -/
def estimateFieldOffset (field : String) : Nat :=
  if field ∈ ["x", "min", "fd", "path", "name"] then 0
  else if field ∈ ["y", "max", "vers", "uid", "offset"] then 4
  else if field ∈ ["z", "qtype", "gid", "label"] then 8
  else if field ∈ ["w", "muid", "mode"] then 12
  else if field ∈ ["length", "size"] then 16
  else if field = "atime" then 20
  else if field = "mtime" then 24
  else match tupleFieldIndex field with
    | some n => n * 4
    | none => 0

variable (s : Scope)

-- `sub` generates the expressions within and those that are no lvalues, `tupleBlock` evaluates
-- a tuple that is no local into the frame
variable (sub : Expr → Nat → Emit Unit) (tupleBlock : Expr → Emit Nat)

/-- The offset of a record's field and the opcode that reads it. -/
def fieldAccess (inner : Expr) (field : String) : Nat × Opcode :=
  match (adtNameForExpr s inner).bind (s.adtFieldInfo · field) with
  | some (off, ty) => (off, fieldMoveOpcode ty)
  | none => (estimateFieldOffset field, .movw)

/-- The offset of a tuple in the frame. -/
def genTupleBlock (e : Expr) : Emit Nat :=
  match e with
  | .ident name =>
    match s.localTuple name, s.locals.find? (·.1 = name) with
    | some _, some l => pure l.2.1
    | _, _ => tupleBlock e
  | _ => tupleBlock e

def genExprTo (e : Expr) (dst : Nat) : Emit Unit :=
  match e with
  | .ident name =>
    match s.localTuple name, lookupVar s name with
    | none, some (slot, ty, kind) =>
      if slot = .frame dst then pure ()
      else emit ⟨movOpcode ty kind, operand slot, .unused, opFp dst⟩
    | _, _ => sub e dst
  | .dot inner field =>
    match tupleFieldIndex field, tupleFieldsOf s inner with
    | some n, some fields => do
      let block ← genTupleBlock s tupleBlock inner
      match (computeTupleLayout fields).fields[n]? with
      | some (ty, off) =>
        (copyValue (block + off) dst ty).forM fun move =>
          emit ⟨move.op, opFp move.src, .unused, opFp move.dst⟩
      | none => throw s!"`.{field}` is out of range for a {fields.length}-field tuple"
    | _, _ => do
      let refTmp ← allocTemp
      sub inner refTmp
      let (fieldOff, movOp) := fieldAccess s inner field
      emit ⟨movOp, opFpInd refTmp fieldOff, .unused, opFp dst⟩
  | .index arr idx => do
    let arrTmp ← allocTemp
    let idxTmp ← allocTemp
    sub arr arrTmp
    sub idx idxTmp
    if inferExprType s arr = .ptr then emit ⟨.indc, opFp arrTmp, midFp idxTmp, opFp dst⟩
    else
      let refTmp ← allocTemp
      match arrayElemOpcodes (arrayElemBasicForExpr s arr) with
      | [indOp, movOp] =>
        emit ⟨indOp, opFp arrTmp, midFp refTmp, opFp idxTmp⟩
        emit ⟨movOp, opFpInd refTmp 0, .unused, opFp dst⟩
      | _ => pure ()
  | _ => sub e dst

/-- `arr[idx] = rhs`: an element of an array, or a character of a string. -/
def genElementAssign (arr idx rhs : Expr) : Emit Unit := do
  let idxTmp ← allocTemp
  let arrTmp ← allocTemp
  if inferExprType s arr = .array then
    let elem := arrayElemBasicForExpr s arr
    let valTmp ← allocTempFor ((elem.map fun b => typeNumKind (.basic b)).getD .word)
    genExprTo s sub tupleBlock rhs valTmp
    genExprTo s sub tupleBlock idx idxTmp
    genExprTo s sub tupleBlock arr arrTmp
    let refTmp ← allocTemp
    match arrayElemOpcodes elem with
    | [indOp, movOp] =>
      emit ⟨indOp, opFp arrTmp, midFp refTmp, opFp idxTmp⟩
      emit ⟨movOp, opFp valTmp, .unused, opFpInd refTmp 0⟩
    | _ => pure ()
  else
    let valTmp ← allocTemp
    genExprTo s sub tupleBlock rhs valTmp
    genExprTo s sub tupleBlock idx idxTmp
    genExprTo s sub tupleBlock arr arrTmp
    emit ⟨.insc, opFp valTmp, midFp idxTmp, opFp arrTmp⟩

/-! ### The string's fetch -/

/-- The opcode that fetches a string into the frame slot `dst`, for each kind of lvalue. -/
inductive Fetched (dst : Nat) : Expr → Opcode → Prop
  | variable {name : String} {slot : Slot} {ty : ValType} (htuple : s.localTuple name = none)
      (hvar : lookupVar s name = some (slot, ty, .word)) (hty : ty ≠ .array)
      (hslot : slot ≠ .frame dst) : Fetched dst (.ident name) (movOpcode ty .word)
  | field {inner : Expr} {name : String} {ty : Ty} (htuple : tupleFieldsOf s inner = none)
      (hfield : fieldTypeForExpr s inner name = some ty)
      (hty : ty = .basic .string ∨ ∃ q, ty = .named q) :
      Fetched dst (.dot inner name) (fieldMoveOpcode ty)
  | unknownField {inner : Expr} {name : String} (htuple : tupleFieldsOf s inner = none)
      (hfield : fieldTypeForExpr s inner name = none) : Fetched dst (.dot inner name) .movw
  | tupleField {tuple name : String} {fields : List Ty} {n off : Nat}
      {l : String × Nat × ValType × NumKind} (htuple : s.localTuple tuple = some fields)
      (hlocal : s.locals.find? (·.1 = tuple) = some l) (hname : tupleFieldIndex name = some n)
      (hfield : (computeTupleLayout fields).fields[n]? = some (.basic .string, off))
      (hnone : fieldTypeForExpr s (.ident tuple) name = none) (hslot : l.2.1 + off ≠ dst) :
      Fetched dst (.dot (.ident tuple) name) .movp
  | element {arr idx : Expr} (harr : inferExprType s arr ≠ .ptr)
      (helem : arrayElemTypeForExpr s arr = none ∨
        arrayElemTypeForExpr s arr = some (.basic .string) ∨
        ∃ q, arrayElemTypeForExpr s arr = some (.named q)) : Fetched dst (.index arr idx) .movw
  /-- An array whose storage class is a pointer's is taken for a string. -/
  | pointerElement {arr idx : Expr} (harr : inferExprType s arr = .ptr)
      (helem : arrayElemTypeForExpr s arr = none ∨
        arrayElemTypeForExpr s arr = some (.basic .string) ∨
        ∃ q, arrayElemTypeForExpr s arr = some (.named q)) : Fetched dst (.index arr idx) .indc

variable {s sub tupleBlock}

theorem scope_lookupVar (name : String) :
    s.lookupVar name = (lookupVar s name).map fun v => (v.2.1, v.2.2) := by
  unfold Scope.lookupVar lookupVar
  cases s.locals.find? (·.1 = name) with
  | some l => rfl
  | none => cases s.globals.find? (·.1 = name) <;> rfl

/-- A fetched string is not taken for an array. -/
theorem Fetched.not_array {dst : Nat} {e : Expr} {op : Opcode} (h : Fetched s dst e op) :
    inferExprType s e ≠ .array := by
  cases h with
  | «variable» htuple hvar hty hslot =>
      rw [inferExprType, scope_lookupVar, hvar]
      exact hty
  | field htuple hfield hty =>
      rw [inferExprType, hfield]
      intro harray
      rcases hty with rfl | ⟨q, rfl⟩ <;> cases harray
  | unknownField htuple hfield =>
      rw [inferExprType, hfield]
      intro harray
      cases harray
  | tupleField htuple hlocal hname hfield hnone hslot =>
      rw [inferExprType, hnone]
      intro harray
      cases harray
  | element harr helem | pointerElement harr helem =>
      rw [inferExprType]
      intro harray
      rcases helem with h | h | ⟨q, h⟩ <;> rw [h] at harray <;> cases harray

theorem Fetched.op {dst : Nat} {e : Expr} {op : Opcode} (h : Fetched s dst e op) :
    op = .movp ∨ op = .movw ∨ op = .indc := by
  cases h with
  | «variable» htuple hvar hty hslot =>
      rename_i ty
      cases ty with
      | word => exact .inr (.inl rfl)
      | ptr => exact .inl rfl
      | array => exact absurd rfl hty
  | field htuple hfield hty =>
      rcases hty with rfl | ⟨q, rfl⟩
      · exact .inr (.inl rfl)
      · exact .inl rfl
  | tupleField => exact .inl rfl
  | unknownField => exact .inr (.inl rfl)
  | element => exact .inr (.inl rfl)
  | pointerElement => exact .inr (.inr rfl)

/-- The end of the code of `s[i] = c`, after its parts are evaluated. The index, the string and
the character have a word each, from `next` on. -/
structure Site where
  op : Opcode
  source : Operand
  middle : MiddleOperand
  next : Nat

namespace Site

def fetch (site : Site) : Instruction :=
  ⟨site.op, site.source, site.middle, opFp (site.next + 4)⟩

def insc (site : Site) : Instruction :=
  ⟨.insc, opFp (site.next + 8), midFp site.next, opFp (site.next + 4)⟩

/-- The code of `lv[idx] = rhs` ends so, for a string `lv`. -/
def Of (site : Site) (s : Scope) (lv : Expr) : Prop :=
  Fetched s (site.next + 4) lv site.op ∧
    ∃ sub tupleBlock idx rhs, ∃ g g₁ g' : Emitter, g.nextLocal = site.next ∧
      genElementAssign s sub tupleBlock lv idx rhs g = .ok () g' ∧
      g'.code = g₁.code ++ [site.fetch, site.insc]

end Site

end Limbo.CharAssign
end RiceVM
