import RiceVM.State

/-!
Fixed-point instructions. `STemp` and `DTemp` stand in reserved slots of the frame: the residual
the compiler divides or multiplies by, and the scale, with two rounding flags below it in the
rounded variants.
-/
namespace RiceVM.Ops
open Exec Memory

/-- A reserved word of the frame. -/
def frameTemp (offset : Nat) (vm : VmState) : Word :=
  let base := vm.frames.currentDataOffset
  if base + offset + 4 ≤ vm.frames.data.length then readWord vm.frames.data (base + offset) else 0

def readStmp : VmState → Word := frameTemp 4
def readDtmp : VmState → Word := frameTemp 12

/-- Shift by a scale of either sign. The amount is taken modulo the width; the negation of the
least scale overflows, and a build that checks overflow panics there. -/
def applyScale (val : Big) (scale : Word) : VM Big :=
  if 0 ≤ scale.toInt then return val <<< (scale.toNat % 64)
  else if scale = .intMin 32 then panic
  else return val.sshiftRight ((-scale).toNat % 64)

/-- `wrapping_div`, and zero for a zero divisor. -/
def safeDiv (a b : Big) : Big := if b = 0 then 0 else a.sdiv b

/-- All the bits a right shift drops; none for a left shift, and none from 63 bits on. -/
def roundingMask (scale : Word) : Big :=
  if 0 ≤ scale.toInt ∨ 63 ≤ (-scale).toNat then 0 else (1 : Big) <<< (-scale).toNat - 1

def toBig (w : Word) : Big := w.signExtend 64

/-- The signs of two factors differ, zero being positive. -/
def signsDiffer (x y : Big) : Prop :=
  (0 ≤ x.toInt ∧ y.toInt < 0) ∨ (x.toInt < 0 ∧ 0 ≤ y.toInt)

instance (x y : Big) : Decidable (signsDiffer x y) := by
  unfold signsDiffer
  infer_instance

def divideFault : ExecError := .threadFault "fixed-point division by zero"

def opMulx : VM Unit := do
  let y := toBig (← srcWord)
  let x := toBig (← midWord)
  let scale := readDtmp (← get)
  let z ← applyScale (x * y) scale
  setDstWord (z.setWidth 32)

def opMulx0 : VM Unit := do
  let y := toBig (← srcWord)
  let x := toBig (← midWord)
  if x = 0 ∨ y = 0 then setDstWord 0
  else
    let scale := readDtmp (← get)
    let residual := toBig (readStmp (← get))
    let z ← applyScale (x * y) scale
    setDstWord ((if residual ≠ 0 then safeDiv z residual else z).setWidth 32)

/-- What a rounded product is added before it is scaled. -/
def productBefore (vnz wnz : Bool) (x y : Big) (scale : Word) : Big :=
  if wnz ∧ ((¬ vnz ∧ ((0 < x.toInt ∧ y.toInt < 0) ∨ (x.toInt < 0 ∧ 0 < y.toInt))) ∨
      (vnz ∧ ((0 < x.toInt ∧ 0 < y.toInt) ∨ (x.toInt < 0 ∧ y.toInt < 0)))) then
    roundingMask scale
  else 0

/-- What it is added after that. -/
def productAfter (vnz : Bool) (x y a : Big) : Big :=
  if vnz then (if signsDiffer x y then -(a - 1) else a - 1) else 0

def opMulx1 : VM Unit := do
  let y := toBig (← srcWord)
  let x := toBig (← midWord)
  let p := readDtmp (← get)
  let a := toBig (readStmp (← get))
  if x = 0 ∨ y = 0 then setDstWord 0
  else
    let vnz : Bool := p &&& 2 ≠ 0
    let wnz : Bool := p &&& 1 ≠ 0
    let scale := p.sshiftRight 2
    let v := productAfter vnz x y a
    let w := productBefore vnz wnz x y scale
    let r ← applyScale (x * y + w) scale
    let r := r + v
    setDstWord ((if a ≠ 0 then safeDiv r a else r).setWidth 32)

def opDivx : VM Unit := do
  let y := toBig (← srcWord)
  if y = 0 then throw divideFault
  else
    let x := toBig (← midWord)
    let scale := readDtmp (← get)
    let scaledX ← applyScale x scale
    setDstWord ((safeDiv scaledX y).setWidth 32)

def opDivx0 : VM Unit := do
  let y := toBig (← srcWord)
  if y = 0 then throw divideFault
  else
    let x := toBig (← midWord)
    if x = 0 then setDstWord 0
    else
      let residual := toBig (readStmp (← get))
      let scale := readDtmp (← get)
      let tmp := if residual ≠ 0 then x * residual else x
      let scaled ← applyScale tmp scale
      setDstWord ((safeDiv scaled y).setWidth 32)

/-- What a rounded dividend is added before it is scaled. -/
def quotientBefore (wnz : Bool) (x : Big) (scale : Word) : Big :=
  if wnz ∧ x.toInt ≤ 0 then roundingMask scale else 0

/-- What a rounded quotient is added. -/
def quotientAfter (vnz : Bool) (x y : Big) : Big :=
  if vnz then (if signsDiffer x y then -1 else 1) else 0

def opDivx1 : VM Unit := do
  let y := toBig (← srcWord)
  if y = 0 then throw divideFault
  else
    let x := toBig (← midWord)
    let p := readDtmp (← get)
    let b := toBig (readStmp (← get))
    if x = 0 then setDstWord 0
    else
      let vnz : Bool := p &&& 2 ≠ 0
      let wnz : Bool := p &&& 1 ≠ 0
      let scale := p.sshiftRight 2
      let v := quotientAfter vnz x y
      let w := quotientBefore wnz x scale
      let s ← applyScale (b * x + w) scale
      let s := safeDiv s y
      setDstWord ((s + v).setWidth 32)

def opCvtxx : VM Unit := do
  let x := toBig (← srcWord)
  let scale ← midWord
  let z ← applyScale x scale
  setDstWord (z.setWidth 32)

def opCvtxx0 : VM Unit := do
  let x := toBig (← srcWord)
  if x = 0 then setDstWord 0
  else
    let residual := toBig (readStmp (← get))
    let scale ← midWord
    let scaled ← applyScale x scale
    setDstWord ((if residual ≠ 0 then safeDiv scaled residual else scaled).setWidth 32)

def conversionBefore (vnz wnz : Bool) (x : Big) (scale : Word) : Big :=
  if wnz ∧ ((¬ vnz ∧ x.toInt < 0) ∨ (vnz ∧ 0 < x.toInt)) then roundingMask scale else 0

def conversionAfter (vnz : Bool) (x a : Big) : Big :=
  if vnz then (if x.toInt < 0 then -(a - 1) else a - 1) else 0

def opCvtxx1 : VM Unit := do
  let x := toBig (← srcWord)
  let p ← midWord
  let a := toBig (readStmp (← get))
  if x = 0 then setDstWord 0
  else
    let vnz : Bool := p &&& 2 ≠ 0
    let wnz : Bool := p &&& 1 ≠ 0
    let scale := p.sshiftRight 2
    let v := conversionAfter vnz x a
    let w := conversionBefore vnz wnz x scale
    let r ← applyScale (x + w) scale
    let r := r + v
    setDstWord ((if a ≠ 0 then safeDiv r a else r).setWidth 32)

end RiceVM.Ops
