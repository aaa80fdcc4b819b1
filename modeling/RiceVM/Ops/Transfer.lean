import RiceVM.Ops.Pointer

/-!
The transfer loops of the system module: a read that waits for data, a read repeated until the
buffer is full, and a copy from one descriptor to another. What a handle answers is the host's;
what the other threads do meanwhile is theirs.
-/
namespace RiceVM

structure HostError where
  wouldBlock : Bool
  text : String
  deriving DecidableEq, Repr

/-- The open handles, whose state is a `σ`. They take and give any part of what is asked. -/
structure Handles (σ : Type) where
  read : (fd : Word) → (len : Nat) → σ → Except HostError (List Byte) × σ
  write : (fd : Word) → List Byte → σ → Except HostError Nat × σ
  /-- Can the host still supply data? -/
  waitsOnHost : (fd : Word) → σ → Bool
  /-- Is the descriptor a `/prog/N/wait` file? -/
  isWaitFile : (fd : Word) → σ → Bool
  /-- Let another machine thread run; `false` where there is none. -/
  runOtherVmThread : Exec (VmState × σ) ExecError Bool
  read_le : ∀ {fd len s bytes}, (read fd len s).1 = .ok bytes → bytes.length ≤ len
  write_le : ∀ {fd buf s n}, (write fd buf s).1 = .ok n → n ≤ buf.length

/-- An answer of a handle. -/
inductive HandleCall where
  | read (fd : Word) (bytes : List Byte)
  | wrote (fd : Word) (buf : List Byte) (n : Nat)
  | refused (fd : Word)
  deriving DecidableEq, Repr

/-- The machine, the handles, and what they answered a built-in, the last answer first. -/
structure Transfer (σ : Type) where
  vm : VmState
  host : σ
  calls : List HandleCall

abbrev TransferM (σ α : Type) := Exec (Transfer σ) ExecError α

namespace Ops
open Exec Memory
variable {σ : Type} (handles : Handles σ)

def letOtherRun : TransferM σ Bool := fun s =>
  match handles.runOtherVmThread (s.vm, s.host) with
  | .ok ran t => .ok ran { s with vm := t.1, host := t.2 }
  | .error e t => .error e { s with vm := t.1, host := t.2 }
  | .panic => .panic
  | .diverge => .diverge

def modifyVm (f : VmState → VmState) : TransferM σ Unit := modify fun s => { s with vm := f s.vm }

def filesRead (fd : Word) (len : Nat) : TransferM σ (Except HostError (List Byte)) := fun s =>
  let (result, host) := handles.read fd len s.host
  let call := match result with
    | .ok bytes => .read fd bytes
    | .error _ => .refused fd
  .ok result { s with host, calls := call :: s.calls }

def filesWrite (fd : Word) (buf : List Byte) : TransferM σ (Except HostError Nat) := fun s =>
  let (result, host) := handles.write fd buf s.host
  let call := match result with
    | .ok n => .wrote fd buf n
    | .error _ => .refused fd
  .ok result { s with host, calls := call :: s.calls }

/-- `FileTable::read_blocking`: poll until the host has data. -/
def readBlocking (fd : Word) (len : Nat) : Nat → TransferM σ (Except HostError (List Byte))
  | 0 => diverge
  | fuel + 1 => do
    let result ← filesRead handles fd len
    match result with
    | .ok bytes => return .ok bytes
    | .error e =>
      let s ← get
      if e.wouldBlock ∧ handles.waitsOnHost fd s.host then readBlocking fd len fuel
      else return .error e

/-- The oldest exit record, cut to the buffer; nothing where no thread is left to exit. -/
def readWaitRecord (fd : Word) (len : Nat) : Nat → TransferM σ (List Byte)
  | 0 => diverge
  | fuel + 1 => do
    let s ← get
    match s.vm.waitRecords with
    | record :: rest =>
      let bytes := (record.toUTF8.toList.map (·.toBitVec)).take len
      set { s with vm := { s.vm with waitRecords := rest }, calls := .read fd bytes :: s.calls }
      return bytes
    | [] =>
      if ← letOtherRun handles then readWaitRecord fd len fuel
      else
        modify fun s => { s with calls := .read fd [] :: s.calls }
        return []

def readFdLoop (fd : Word) (len : Nat) : Nat → TransferM σ (Except HostError (List Byte))
  | 0 => diverge
  | fuel + 1 => do
    match ← filesRead handles fd len with
    | .ok bytes => return .ok bytes
    | .error e =>
      if e.wouldBlock then
        if ← letOtherRun handles then readFdLoop fd len fuel
        else readBlocking handles fd len fuel
      else return .error e

def readFd (fd : Word) (len fuel : Nat) : TransferM σ (Except HostError (List Byte)) := do
  let s ← get
  if handles.isWaitFile fd s.host then return .ok (← readWaitRecord handles fd len fuel)
  else readFdLoop handles fd len fuel

/-- The number of a descriptor record. -/
def getFdNum (vm : VmState) (fdId : HeapId) : Word :=
  if fdId = nil then -1
  else
    match (vm.heap.get fdId).map HeapObject.data with
    | some (.record data) => if 4 ≤ data.length then readWord data 0 else -1
    | _ => -1

/-- The arguments of a built-in begin here. -/
def argsAt : Nat := 32

def argWord (vm : VmState) (i : Nat) : Word :=
  readWord vm.frames.data (vm.frames.currentDataOffset + argsAt + i * 4)

/-- Write the result of a built-in. -/
def reply (base : Nat) (result : Word) : TransferM σ Unit :=
  modifyVm fun vm =>
    { vm with frames := { vm.frames with data := writeWord vm.frames.data base result } }

/-- A count given by the guest, cut to its buffer. -/
def clampCount (vm : VmState) (bufId : HeapId) (count : Word) : Option Nat := do
  let len ← vm.heap.arrayByteLen bufId
  return min (← count.toUsize?) len

/-- Read until `count` bytes are there; `got` are. -/
def readnLoop (fd : Word) (count : Nat) : Nat → List Byte → TransferM σ (List Byte × Word)
  | 0, _ => diverge
  | fuel + 1, got => do
    if got.length < count then
      match ← readFd handles fd (count - got.length) fuel with
      | .ok [] => return (got, 0)
      | .ok bytes => readnLoop fd count fuel (got ++ bytes)
      | .error e =>
        modifyVm fun vm => { vm with lastError := e.text }
        return (got, if got.length = 0 then -1 else 0)
    else return (got, 0)

def sysReadn (fuel : Nat) : TransferM σ Unit := do
  let vm := (← get).vm
  let base := vm.frames.currentDataOffset
  let bufId := argWord vm 1
  match clampCount vm bufId (argWord vm 2) with
  | none => reply base 0
  | some count =>
    let (got, result) ← readnLoop handles (getFdNum vm (argWord vm 0)) count fuel []
    if 0 < got.length then
      modifyVm fun vm => { vm with heap := vm.heap.arrayWrite bufId 0 got }
      reply base (.ofNat 32 got.length)
    else reply base result

/-- The largest buffer of `stream`. -/
def maxStreamBuf : Nat := 2 ^ 20

def streamBuf (bufsiz : Word) : Nat :=
  match bufsiz.toUsize? with
  | some (n + 1) => min (n + 1) maxStreamBuf
  | _ => 8192

/-- Copy until the source ends or a handle fails; `total` bytes were accepted. -/
def streamLoop (srcFd dstFd : Word) (bufsiz : Nat) : Nat → Nat → TransferM σ Word
  | 0, _ => diverge
  | fuel + 1, total => do
    match ← readFd handles srcFd bufsiz fuel with
    | .ok [] => return .ofNat 32 total
    | .ok bytes =>
      match ← filesWrite handles dstFd bytes with
      | .ok n => streamLoop srcFd dstFd bufsiz fuel (total + n)
      | .error e =>
        modifyVm fun vm => { vm with lastError := e.text }
        return -1
    | .error e =>
      modifyVm fun vm => { vm with lastError := e.text }
      return -1

def sysStream (fuel : Nat) : TransferM σ Unit := do
  let vm := (← get).vm
  let srcFd := getFdNum vm (argWord vm 0)
  let dstFd := getFdNum vm (argWord vm 1)
  reply vm.frames.currentDataOffset
    (← streamLoop handles srcFd dstFd (streamBuf (argWord vm 2)) fuel 0)

end Ops
end RiceVM
