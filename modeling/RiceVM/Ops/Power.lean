import RiceVM.Ops.Convert
import RiceVM.Lib.Power

/-!
Powers of words and bigs: the base is the middle operand, or what the destination holds, and the
exponent is the source.
-/
namespace RiceVM.Ops
open Exec SquareMultiply

def midOrDstWord : VM Word := do
  let vm ← get
  if vm.mid = .none then return vm.readWordAt vm.dst vm.immDst else midWord

def midOrDstBig : VM Big := do
  let vm ← get
  if vm.mid = .none then return vm.readBigAt vm.dst vm.immDst
  else return vm.readBigAt vm.mid vm.immMid

/-- `1.wrapping_div(r)`, where there is something to divide by. -/
def reciprocal {w : Nat} (r : BitVec w) : BitVec w := if r ≠ 0 then (1 : BitVec w).sdiv r else 0

/-- The power of `x` that the signed word `n` names. The loop runs on the magnitude of the
exponent, which is unsigned: the magnitude of the least word is no word. -/
def power {w : Nat} (x : BitVec w) (n : Word) : BitVec w :=
  let r := powLoop 1 x n.toInt.natAbs
  if n.msb then reciprocal r else r

def opExpw : VM Unit := do
  let n ← srcWord
  let x ← midOrDstWord
  setDstWord (power x n)

def opExpl : VM Unit := do
  let n ← srcWord
  let x ← midOrDstBig
  setDstBig (power x n)

end RiceVM.Ops
