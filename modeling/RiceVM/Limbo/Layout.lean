import RiceVM.Core
import RiceVM.Heap
import RiceVM.Limbo.Ast

/-!
Where the compiler puts the fields of records and tuples, and which words of them it tells the
collector to follow.
-/
namespace RiceVM.Limbo

/-- Round `off` up to a multiple of `align`, a power of two. -/
def alignUp (off align : Nat) : Nat := (off + align - 1) / align * align

/-- Does a field of this type hold a heap pointer? -/
def typeIsPtr : Ty → Bool
  | .basic .int | .basic .byte | .basic .big | .basic .real => false
  | _ => true

mutual
/-- Field width and alignment. A tuple is stored inline. -/
def typeSizeAlign : Ty → Nat × Nat
  | .basic .big | .basic .real => (8, 8)
  | .tuple fields => (max (alignUp (placeFields 0 fields).2 4) 4, (fieldAligns fields).max?.getD 4)
  | _ => (4, 4)

/-- The fields one after the other from `off`, and the offset just past the last one. -/
def placeFields (off : Nat) : List Ty → List (Ty × Nat) × Nat
  | [] => ([], off)
  | ty :: fields =>
    let start := alignUp off (typeSizeAlign ty).2
    let rest := placeFields (start + (typeSizeAlign ty).1) fields
    ((ty, start) :: rest.1, rest.2)

def fieldAligns : List Ty → List Nat
  | [] => []
  | ty :: fields => (typeSizeAlign ty).2 :: fieldAligns fields
end

abbrev Ty.size (ty : Ty) : Nat := (typeSizeAlign ty).1
abbrev Ty.align (ty : Ty) : Nat := (typeSizeAlign ty).2

/-- The byte layout of a tuple value. -/
structure TupleLayout where
  fields : List (Ty × Nat)
  size : Nat
  ptrOffsets : List Nat

def computeTupleLayout (fields : List Ty) : TupleLayout :=
  let placed := placeFields 0 fields
  { fields := placed.1
    size := max (alignUp placed.2 4) 4
    ptrOffsets := (placed.1.filter fun f => typeIsPtr f.1).map (·.2) }

/-- A field of a record: its name, type and byte offset. -/
structure Field where
  name : String
  ty : Ty
  off : Nat

/-- Names that share a type, one after the other. -/
def placeNames (ty : Ty) (off : Nat) : List String → List Field
  | [] => []
  | name :: names => ⟨name, ty, off⟩ :: placeNames ty (off + ty.size) names

/-- Place `decls` from `base` onwards. The offset is rounded up once for each declaration. -/
def layoutFields (base : Nat) : List VarDecl → List Field × Nat
  | [] => ([], base)
  | v :: decls =>
    match v.ty with
    | none => layoutFields base decls
    | some ty =>
      let off := alignUp base ty.align
      let rest := layoutFields (off + v.names.length * ty.size) decls
      (placeNames ty off v.names ++ rest.1, rest.2)

/-- Where an ADT's own fields start: after the tag, when there is one. -/
def adtFieldBase (adt : AdtDecl) : Nat :=
  match adt.pick with
  | some _ => 4
  | none => 0

def adtFieldDecls (adt : AdtDecl) : List VarDecl :=
  adt.members.filterMap fun
    | .field v => some v
    | _ => none

def computeAdtLayout (adt : AdtDecl) : List Field :=
  (layoutFields (adtFieldBase adt) (adtFieldDecls adt)).1

def computeVariantLayout (adt : AdtDecl) (case : PickCase) : List Field :=
  let common := layoutFields (adtFieldBase adt) (adtFieldDecls adt)
  common.1 ++ (layoutFields common.2 case.fields).1

/-- A record's total size and the offsets of the words that hold heap pointers. -/
structure RecordShape where
  size : Nat
  ptrOffsets : List Nat

def shapeOf (base : Nat) (fields : List Field) : RecordShape where
  size := alignUp (max (fields.foldl (fun last f => max last (f.off + f.ty.size)) base) 4) 4
  ptrOffsets := (fields.filter fun f => typeIsPtr f.ty).map (·.off)

/-- Make room in `shape` for a variant. -/
def RecordShape.overlay (shape variant : RecordShape) : RecordShape where
  size := max shape.size variant.size
  ptrOffsets := variant.ptrOffsets.foldl
    (fun offs off => if off ∈ offs then offs else offs ++ [off]) shape.ptrOffsets

def computeAdtShape (adt : AdtDecl) : RecordShape :=
  let base := adtFieldBase adt
  (adt.pick.getD []).foldl
    (fun shape case => shape.overlay (shapeOf base (computeVariantLayout adt case)))
    (shapeOf base (computeAdtLayout adt))

/-- What the compiler keeps of a record type; a variant has its tag and its case's number. -/
structure AdtRecord where
  key : String
  layout : List Field
  shape : RecordShape
  variant : Option (Nat × Nat)

/-- The records of the pick cases from number `group` on. Tags are dense, one for each name. -/
def variantRecords (adt : AdtDecl) (tag group : Nat) : List PickCase → List AdtRecord
  | [] => []
  | case :: cases =>
    let layout := computeVariantLayout adt case
    let shape := shapeOf (adtFieldBase adt) layout
    (case.tags.zipIdx tag).map (fun (name, tag) =>
        ⟨adt.name ++ "." ++ name, layout, shape, some (tag, group)⟩) ++
      variantRecords adt (tag + case.tags.length) (group + 1) cases

/-- The records an ADT declares: the ADT itself and each of its variants. -/
def recordAdt (adt : AdtDecl) : List AdtRecord :=
  ⟨adt.name, computeAdtLayout adt, computeAdtShape adt, none⟩ ::
    variantRecords adt 0 0 (adt.pick.getD [])

/-- A pointer map over `size` bytes, most significant bit first. -/
def pointerMapFor (size : Nat) (offsets : List Nat) : List Byte :=
  offsets.foldl
    (fun bytes off =>
      if off + 4 > size then bytes
      else bytes.modify (off / 4 / 8) (· ||| (1#8 <<< (7 - off / 4 % 8))))
    (List.replicate (((size + 3) / 4 + 7) / 8) 0#8)

def movOpcodeForType : Ty → Opcode
  | .basic .big => .movl
  | .basic .real => .movf
  | .basic .int | .basic .byte => .movw
  | _ => .movp

/-- A move between two frame offsets. -/
structure Move where
  op : Opcode
  src : Nat
  dst : Nat
  deriving DecidableEq, Repr

mutual
/-- Copy one value between two frame offsets, a tuple field by field. -/
def copyValue (src dst : Nat) : Ty → List Move
  | .tuple fields => if src = dst then [] else copyFields src dst 0 fields
  | ty => if src = dst then [] else [⟨movOpcodeForType ty, src, dst⟩]

/-- The fields' copies, each at the offset `compute_tuple_layout` gives it. -/
def copyFields (src dst off : Nat) : List Ty → List Move
  | [] => []
  | ty :: fields =>
    let start := alignUp off ty.align
    copyValue (src + start) (dst + start) ty ++ copyFields src dst (start + ty.size) fields
end

/-- The move that fills a field of a record: one for each field. -/
def fieldMoveOpcode : Ty → Opcode
  | .basic .big => .movl
  | .basic .real => .movf
  | .basic _ => .movw
  | _ => .movp

/-- How many bytes a move writes. -/
def moveWidth : Opcode → Nat
  | .movl | .movf => 8
  | _ => 4

mutual
/-- The words of a value that hold a heap reference. -/
def Ty.refWords : Ty → List Nat
  | .basic .int | .basic .byte | .basic .big | .basic .real => []
  | .tuple fields => refWordsFrom 0 fields
  | _ => [0]

def refWordsFrom (off : Nat) : List Ty → List Nat
  | [] => []
  | ty :: fields =>
    let start := alignUp off ty.align
    ty.refWords.map (start + ·) ++ refWordsFrom (start + ty.size) fields
end

end RiceVM.Limbo
