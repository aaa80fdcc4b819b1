import RiceVM.Descriptors
import RiceVM.Results
import RiceVM.Ops.Transfer

/-!
The records of descriptors. A built-in that opens a file makes a record with its number and
remembers it as the owner; the next one that opens a file closes what a dead record owned.
-/
namespace RiceVM
open Exec Memory Filetab

/-- A machine with its descriptor table. -/
structure FdVm where
  vm : VmState
  files : FileTable

abbrev FdM (α : Type) := Exec FdVm ExecError α

namespace Filetab.FileTable

def fildes (t : FileTable) (fd : Int) : Bool := (0 ≤ fd ∧ fd ≤ 2) ∨ fd ∈ t.files

/-- The descriptors whose owner is no object any more. -/
def deadFds (t : FileTable) (h : Heap) : List Int :=
  (t.owners.filter fun owner => (h.get owner.2).isNone).map Prod.fst

def reap (t : FileTable) (h : Heap) : FileTable := (t.deadFds h).foldl close t

end Filetab.FileTable

namespace Ops

def onVm {α : Type} (op : VM α) : FdM α := fun s =>
  match op s.vm with
  | .ok a vm => .ok a { s with vm }
  | .error e vm => .error e { s with vm }
  | .panic => .panic
  | .diverge => .diverge

/-- An operation of the table; it panics where the counter of descriptors overflows. -/
def onFiles (op : FileTable → Option (FileTable.Reply × FileTable)) : FdM FileTable.Reply := fun s =>
  match op s.files with
  | some (reply, files) => .ok reply { s with files }
  | none => .panic

def reapReclaimedFds : FdM Unit := modify fun s => { s with files := s.files.reap s.vm.heap }

/-- The bytes of the record of a descriptor. -/
def fdData (fd : Int) : List Byte := writeWord (List.replicate 4 0) 0 (.ofInt 32 fd)

def allocFd (fd : Int) : FdM HeapId := onVm (alloc 0 (.record (fdData fd)))

def setResult (val : Word) : FdM Unit := onVm do
  let base := (← get).frames.currentDataOffset
  setFrames (writeWord · base val)

/-- What `open` and `create` share. The result lists the number and the record made. -/
def openWith (errorText : FileTable.Reply → String) (call : FileTable → Option (FileTable.Reply × FileTable)) :
    FdM (List (Int × HeapId)) := do
  reapReclaimedFds
  match ← onFiles call with
  | .fd fd =>
    let fdId ← allocFd fd
    modify fun s => { s with files := s.files.setOwner fd fdId }
    setResult fdId
    return [(fd, fdId)]
  | reply =>
    onVm (modify fun vm => { vm with lastError := errorText reply })
    setResult 0
    return []

def argPath (vm : VmState) : Text := ((vm.heap.getString (argWord vm 0)).getD "").toList

def sysOpen (errorText : FileTable.Reply → String) (host : Filetab.Host) : FdM (List (Int × HeapId)) := do
  let vm := (← get).vm
  openWith errorText fun files => files.openFd (argPath vm) (argWord vm 1) host

def sysCreate (errorText : FileTable.Reply → String) (host : Filetab.Host) : FdM (List (Int × HeapId)) := do
  let vm := (← get).vm
  openWith errorText fun files => files.create (argPath vm) (argWord vm 1) (argWord vm 2) host

def sysFildes : FdM (List (Int × HeapId)) := do
  let s ← get
  let fdNum := (argWord s.vm 0).toInt
  if s.files.fildes fdNum then
    let fdId ← allocFd fdNum
    setResult fdId
    return [(fdNum, fdId)]
  else
    setResult 0
    return []

def sysDup (host : Filetab.Host) : FdM Unit := do
  let vm := (← get).vm
  match ← onFiles fun files => files.dup (argWord vm 0).toInt (argWord vm 1).toInt host with
  | .fd fd => setResult (.ofInt 32 fd)
  | _ => setResult (-1)

def sysPipe : FdM (List (Int × HeapId)) := do
  let fdsArrId := argWord (← get).vm 0
  match ← onFiles FileTable.pipe with
  | .fds readFd writeFd =>
    let fd0 ← allocFd readFd
    let fd1 ← allocFd writeFd
    onVm (modifyHeap fun h =>
      (h.arrayWrite fdsArrId 0 (writeWord (List.replicate 4 0) 0 fd0)).arrayWrite fdsArrId 4
        (writeWord (List.replicate 4 0) 0 fd1))
    setResult 0
    return [(readFd, fd0), (writeFd, fd1)]
  | _ => return []

end Ops
end RiceVM
