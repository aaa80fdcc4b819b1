import RiceVM.Lib.RangeSearch
import RiceVM.Ops.Convert

/-!
The case instructions. A table in frame or module data has a count, the entries with the bounds
of a range and a destination each, and a default destination. The dispatch is the same program
whatever its reads do.
-/
namespace RiceVM.Ops
open Exec Memory RangeSearch

section
variable {m : Type → Type} [Monad m]

/-- The destination of a table of `n` entries, each `stride` long, from `first` on. -/
def caseTarget (read : Nat → m Word) (probe : Nat → m Ordering) (first stride pcField n : Nat) :
    m Word := do
  let defaultPc ← read (first + n * stride)
  match ← rangeSearch probe stride first n with
  | some entry => read (entry + pcField)
  | none => return defaultPc

def probeWord (read : Nat → m Word) (value : Word) (entry : Nat) : m Ordering := do
  let lo ← read entry
  let hi ← read (entry + 1)
  return if value.slt lo then .lt else if hi.sle value then .gt else .eq

def caseWord (read : Nat → m Word) (value : Word) (n : Nat) : m Word :=
  caseTarget read (probeWord read value) 1 3 2 n

/-- Strings compare by their bytes in UTF-8, which is by their characters. -/
def probeText (text : HeapId → String) (read : Nat → m Word) (value : String) (entry : Nat) :
    m Ordering := do
  let lo := text (← read entry)
  if value = lo then return .eq
  else if value < lo then return .lt
  else
    let hiId ← read (entry + 1)
    return if hiId = nil ∨ text hiId < value then .gt else .eq

def caseText (text : HeapId → String) (read : Nat → m Word) (value : String) (n : Nat) : m Word :=
  caseTarget read (probeText text read value) 1 3 2 n

def probeBig (readBig : Nat → m Big) (value : Big) (entry : Nat) : m Ordering := do
  let lo ← readBig entry
  let hi ← readBig (entry + 8)
  return if value.slt lo then .lt else if hi.sle value then .gt else .eq

/-- The entries of a table of bigs begin after a word of padding; offsets are in bytes. -/
def caseBig (readWord : Nat → m Word) (readBig : Nat → m Big) (value : Big) (n : Nat) : m Word :=
  caseTarget readWord (probeBig readBig value) 8 24 16 n

end

/-- Read a table in frame or module data; a table anywhere else reads as zeros. -/
def readTable {α : Type} (read : List Byte → Nat → α) (zero : α) (vm : VmState) (base : AddrTarget)
    (offset : Nat) : Except ExecError α :=
  match base with
  | .frame off => .ok (read vm.frames.data (off + offset))
  | .mp off => .ok (read vm.mp (off + offset))
  | _ => .ok zero

def tableWord (vm : VmState) (base : AddrTarget) (idx : Nat) : Except ExecError Word :=
  readTable readWord 0 vm base (idx * 4)

/-- Jump to the destination that the dispatch on a count finds. -/
def jumpTo (count : Word) (target : Nat → Except ExecError Word) : VM Unit := do
  -- the offset of the default overflows for a negative count
  if count.msb then panic
  else
    let pc ← ofExcept (target count.asUsize)
    modify fun vm => { vm with nextPc := pc.asUsize }

def opCasew : VM Unit := do
  let value ← srcWord
  let vm ← get
  jumpTo (vm.readWordAt vm.dst vm.immDst) (caseWord (tableWord vm vm.dst) value)

def opCasec : VM Unit := do
  let valueId ← srcPtr
  let vm ← get
  jumpTo (vm.readWordAt vm.dst vm.immDst)
    (caseText vm.heap.text (tableWord vm vm.dst) (vm.heap.text valueId))

def opCasel : VM Unit := do
  let value ← srcBig
  let vm ← get
  jumpTo (vm.readWordAt vm.dst vm.immDst)
    (caseBig (readTable readWord 0 vm vm.dst) (readTable readBig 0 vm vm.dst) value)

end RiceVM.Ops
