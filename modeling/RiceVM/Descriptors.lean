import RiceVM.HostPaths
import Mathlib.Data.List.AList

/-!
The descriptor table. A handle that is not a pipe is the host's, and so is what it answers; a pipe
is a queue of bytes that counts its write ends.
-/
namespace RiceVM.Filetab

/-! ### The table -/

/-- What a descriptor refers to. Files, streams and pipes are numbered. -/
inductive Handle where
  | stdin | stdout | stderr | random | memory | audio | audioCtl
  | regular (file : Nat)
  | tcpStream (stream : Nat)
  | tcpListener (listener : Nat)
  | pipeReader (pipe : Nat)
  | pipeWriter (pipe : Nat)
  deriving DecidableEq, Repr

structure FileEntry where
  inner : Handle
  path : Option Text
  deriving DecidableEq, Repr

structure PipeState where
  data : List Byte
  writers : Nat
  deriving DecidableEq, Repr

structure FileTable where
  files : AList fun _ : Int => FileEntry
  nextFd : Int
  root : Text
  /-- The heap id of the record that owns a descriptor. -/
  owners : List (Int × HeapId)
  dirOffsets : AList fun _ : Int => Nat
  pipes : Nat → PipeState
  nextPipe : Nat

inductive ErrorKind where
  | notFound | wouldBlock | unsupported | invalidInput | host
  deriving DecidableEq, Repr

/-- The host's part in one operation: what it answers if it is asked. -/
structure Host where
  openFile : Option Nat
  /-- Can the handle be duplicated? -/
  clone : Bool
  accept : Option (Nat × Text)
  read : Except ErrorKind (List Byte)
  write : Except ErrorKind Nat
  seek : Except ErrorKind Nat

def maxFd : Int := 65536

namespace FileTable

variable (t : FileTable)

def withRoot (root : Text) : FileTable :=
  { files := (((∅ : AList fun _ : Int => FileEntry).insert 0 ⟨.stdin, some "/dev/stdin".toList⟩).insert
      1 ⟨.stdout, some "/dev/stdout".toList⟩).insert 2 ⟨.stderr, some "/dev/stderr".toList⟩
    nextFd := 3
    root := root
    owners := []
    dirOffsets := ∅
    pipes := fun _ => ⟨[], 0⟩
    nextPipe := 0 }

/-- What `fd` refers to. -/
def inner (fd : Int) : Option Handle := (t.files.lookup fd).map (·.inner)

def updatePipe (p : Nat) (f : PipeState → PipeState) : FileTable :=
  { t with pipes := Function.update t.pipes p (f (t.pipes p)) }

/-- An entry that leaves the table is dropped, and its write end with it. -/
def drop : Option FileEntry → FileTable
  | some ⟨.pipeWriter p, _⟩ => t.updatePipe p fun s => { s with writers := s.writers - 1 }
  | _ => t

def insert (fd : Int) (entry : FileEntry) : FileTable :=
  { t with files := t.files.insert fd entry }.drop (t.files.lookup fd)

def remove (fd : Int) : FileTable :=
  { t with files := t.files.erase fd }.drop (t.files.lookup fd)

/-- The next number. The counter is an `i32` and overflowing it panics. -/
def takeFd : Option (Int × FileTable) :=
  if t.nextFd = 2147483647 then none else some (t.nextFd, { t with nextFd := t.nextFd + 1 })

/-- A fresh descriptor for an entry. -/
def insertFresh (entry : FileEntry) : Option (Int × FileTable) :=
  t.takeFd.map fun r => (r.1, r.2.insert r.1 entry)

/-- Duplicate a handle, where that is possible. -/
def tryClone (host : Host) : Handle → Option (Handle × FileTable)
  | .pipeWriter p =>
    some (.pipeWriter p, t.updatePipe p fun s => { s with writers := s.writers + 1 })
  | .regular file => if host.clone then some (.regular file, t) else none
  | .tcpStream stream => if host.clone then some (.tcpStream stream, t) else none
  | .tcpListener listener => if host.clone then some (.tcpListener listener, t) else none
  | handle => some (handle, t)

/-! ### The operations -/

inductive Reply where
  | fd (fd : Int)
  | fds (readFd writeFd : Int)
  | bytes (data : List Byte)
  | count (n : Nat)
  | accepted (fd : Int) (addr : Text)
  | done
  | error (kind : ErrorKind)
  /-- The `-1` of `dup`. -/
  | refused
  deriving DecidableEq, Repr

def Reply.failed : Reply → Prop
  | .error _ | .refused => True
  | _ => False

/-- A device's file, or the descriptor that stands for it already. -/
def openVirtual (path : Text) (mode : Word) : Int ⊕ Handle :=
  if path = "/dev/audio".toList then .inr .audio
  else if path = "/dev/audioctl".toList then .inr .audioCtl
  else if path = "/dev/cons".toList then .inl (if mode &&& 3#32 = 0#32 then 0 else 1)
  else if path = "/dev/random".toList ∨ path = "/dev/urandom".toList then .inr .random
  else .inr .memory

def openFd (path : Text) (mode : Word) (host : Host) : Option (Reply × FileTable) :=
  match openPath t.root path mode with
  | none =>
    match openVirtual path mode with
    | .inl fd => some (.fd fd, t)
    | .inr handle => (t.insertFresh ⟨handle, some path⟩).map fun r => (.fd r.1, r.2)
  | some (resolved, _) =>
    match host.openFile with
    | none => some (.error .host, t)
    | some file => (t.insertFresh ⟨.regular file, some resolved⟩).map fun r => (.fd r.1, r.2)

def create (path : Text) (mode perm : Word) (host : Host) : Option (Reply × FileTable) :=
  match host.openFile with
  | none => some (.error .host, t)
  | some file =>
    (t.insertFresh ⟨.regular file, some (createPath t.root path mode perm).1⟩).map fun r =>
      (.fd r.1, r.2)

def pipe : Option (Reply × FileTable) := do
  let p := t.nextPipe
  let (readFd, t) ← { t with
    pipes := Function.update t.pipes p ⟨[], 1⟩
    nextPipe := p + 1 }.takeFd
  let (writeFd, t) ← t.takeFd
  some (.fds readFd writeFd,
    (t.insert readFd ⟨.pipeReader p, none⟩).insert writeFd ⟨.pipeWriter p, none⟩)

/-- A read of `n` bytes at most. -/
def read (fd : Int) (n : Nat) (host : Host) : Reply × FileTable :=
  match t.inner fd with
  | none => (.error .notFound, t)
  | some (.pipeReader p) =>
    if n = 0 then (.bytes [], t)
    else if (t.pipes p).data ≠ [] then
      (.bytes ((t.pipes p).data.take n), t.updatePipe p fun s => { s with data := s.data.drop n })
    else if (t.pipes p).writers = 0 then (.bytes [], t)
    else (.error .wouldBlock, t)
  | some (.pipeWriter _) => (.error .unsupported, t)
  | some _ =>
    match host.read with
    | .ok data => (.bytes (data.take n), t)
    | .error kind => (.error kind, t)

def write (fd : Int) (buf : List Byte) (host : Host) : Reply × FileTable :=
  match t.inner fd with
  | none => (.error .notFound, t)
  | some (.pipeWriter p) =>
    (.count buf.length, t.updatePipe p fun s => { s with data := s.data ++ buf })
  | some (.pipeReader _) => (.error .unsupported, t)
  | some _ =>
    match host.write with
    | .ok n => (.count n, t)
    | .error kind => (.error kind, t)

def seek (fd : Int) (host : Host) : Reply × FileTable :=
  match t.inner fd with
  | none => (.error .notFound, t)
  | some (.pipeReader _) | some (.pipeWriter _) => (.error .unsupported, t)
  | some _ =>
    match host.seek with
    | .ok pos => (.count pos, t)
    | .error kind => (.error kind, t)

/-- The standard descriptors stay open. -/
def close (fd : Int) : FileTable :=
  let t := if 2 < fd then t.remove fd else t
  { t with
    owners := t.owners.filter fun owner => owner.1 ≠ fd
    dirOffsets := t.dirOffsets.erase fd }

def dup (oldFd newFd : Int) (host : Host) : Option (Reply × FileTable) :=
  if maxFd < newFd then some (.refused, t)
  else
    match t.files.lookup oldFd with
    | none => some (.refused, t)
    | some entry =>
      match t.tryClone host entry.inner with
      | none => some (.refused, t)
      | some (inner, t) =>
        if newFd < 0 then
          (t.insertFresh ⟨inner, entry.path⟩).map fun r => (.fd r.1, r.2)
        else
          let t := t.close newFd
          let t := if t.nextFd ≤ newFd then { t with nextFd := newFd + 1 } else t
          some (.fd newFd, t.insert newFd ⟨inner, entry.path⟩)

def setOwner (fd : Int) (owner : HeapId) : FileTable :=
  { t with owners := (t.owners.filter fun owner => owner.1 ≠ fd) ++ [(fd, owner)] }

def setDirOffset (fd : Int) (offset : Nat) : FileTable :=
  { t with dirOffsets := t.dirOffsets.insert fd offset }

/-- The listener is taken out of the table while the host accepts, and put back afterwards. -/
def acceptOn (listenerFd : Int) (host : Host) : Option (Reply × FileTable) :=
  match t.files.lookup listenerFd with
  | none => some (.error .notFound, t)
  | some entry =>
    let t := { t with files := t.files.erase listenerFd }
    match entry.inner with
    | .tcpListener _ =>
      match host.accept with
      | none => some (.error .host, t.drop (some entry))
      | some (stream, addr) =>
        (t.insertFresh ⟨.tcpStream stream, some addr⟩).map fun r =>
          (.accepted r.1 addr, r.2.insert listenerFd entry)
    | _ => some (.error .invalidInput, t.insert listenerFd entry)

inductive Request where
  | openFd (path : Text) (mode : Word)
  | create (path : Text) (mode perm : Word)
  | pipe
  | read (fd : Int) (n : Nat)
  | write (fd : Int) (buf : List Byte)
  | seek (fd : Int)
  | dup (oldFd newFd : Int)
  | close (fd : Int)
  | setOwner (fd : Int) (owner : HeapId)
  | setDirOffset (fd : Int) (offset : Nat)
  | accept (listenerFd : Int)
  deriving DecidableEq, Repr

/-- Nothing where the counter of descriptors overflows. -/
def step (host : Host) : Request → Option (Reply × FileTable)
  | .openFd path mode => t.openFd path mode host
  | .create path mode perm => t.create path mode perm host
  | .pipe => t.pipe
  | .read fd n => some (t.read fd n host)
  | .write fd buf => some (t.write fd buf host)
  | .seek fd => some (t.seek fd host)
  | .dup oldFd newFd => t.dup oldFd newFd host
  | .close fd => some (.done, t.close fd)
  | .setOwner fd owner => some (.done, t.setOwner fd owner)
  | .setDirOffset fd offset => some (.done, t.setDirOffset fd offset)
  | .accept fd => t.acceptOn fd host

/-! ### Failed operations -/

section

variable {t : FileTable} {t' : FileTable} {host : Host} {reply : Reply}

@[simp] theorem drop_files (entry : Option FileEntry) : (t.drop entry).files = t.files := by
  unfold drop
  split <;> rfl

@[simp] theorem drop_owners (entry : Option FileEntry) : (t.drop entry).owners = t.owners := by
  unfold drop
  split <;> rfl

@[simp] theorem drop_dirOffsets (entry : Option FileEntry) :
    (t.drop entry).dirOffsets = t.dirOffsets := by
  unfold drop
  split <;> rfl

@[simp] theorem insert_files (fd : Int) (entry : FileEntry) :
    (t.insert fd entry).files = t.files.insert fd entry := drop_files _

theorem insertFresh_succeeds {entry : FileEntry} {f : Int → Reply} (hf : ∀ fd, ¬ (f fd).failed)
    (h : (t.insertFresh entry).map (fun r => (f r.1, r.2)) = some (reply, t')) :
    ¬ reply.failed := by
  obtain ⟨r, -, hr⟩ := Option.map_eq_some_iff.mp h
  cases hr
  exact hf r.1

theorem openFd_failed {path : Text} {mode : Word}
    (h : t.openFd path mode host = some (reply, t')) (hfailed : reply.failed) : t' = t := by
  unfold openFd at h
  split at h
  · split at h
    · cases h; rfl
    · exact absurd hfailed (insertFresh_succeeds (fun _ => id) h)
  · split at h
    · cases h; rfl
    · exact absurd hfailed (insertFresh_succeeds (fun _ => id) h)

theorem create_failed {path : Text} {mode perm : Word}
    (h : t.create path mode perm host = some (reply, t')) (hfailed : reply.failed) : t' = t := by
  unfold create at h
  split at h
  · cases h; rfl
  · exact absurd hfailed (insertFresh_succeeds (fun _ => id) h)

theorem pipe_succeeds (h : t.pipe = some (reply, t')) : ¬ reply.failed := by
  simp only [pipe, Option.bind_eq_bind, Option.bind_eq_some_iff] at h
  obtain ⟨_, -, _, -, heq⟩ := h
  cases heq
  exact id

theorem read_failed {fd : Int} {n : Nat} (h : t.read fd n host = (reply, t'))
    (hfailed : reply.failed) : t' = t := by
  unfold read at h
  repeat' split at h
  all_goals cases h
  all_goals first | rfl | exact hfailed.elim

theorem write_failed {fd : Int} {buf : List Byte} (h : t.write fd buf host = (reply, t'))
    (hfailed : reply.failed) : t' = t := by
  unfold write at h
  repeat' split at h
  all_goals cases h
  all_goals first | rfl | exact hfailed.elim

theorem seek_keeps {fd : Int} (h : t.seek fd host = (reply, t')) : t' = t := by
  unfold seek at h
  repeat' split at h
  all_goals cases h
  all_goals rfl

theorem dup_failed {oldFd newFd : Int} (h : t.dup oldFd newFd host = some (reply, t'))
    (hfailed : reply.failed) : t' = t := by
  unfold dup at h
  repeat' split at h
  all_goals first
    | (cases h; rfl)
    | exact absurd hfailed (insertFresh_succeeds (fun _ => id) h)
    | (cases h; exact hfailed.elim)

/-- The same descriptors are open, and everything recorded of them is the same. -/
def Unchanged (t t' : FileTable) : Prop :=
  (∀ fd, t'.files.lookup fd = t.files.lookup fd) ∧ t'.owners = t.owners ∧
    t'.dirOffsets = t.dirOffsets

theorem Unchanged.refl (t : FileTable) : Unchanged t t := ⟨fun _ => rfl, rfl, rfl⟩

theorem lookup_insert_erase {fd : Int} {entry : FileEntry} (h : t.files.lookup fd = some entry)
    (fd' : Int) : ((t.files.erase fd).insert fd entry).lookup fd' = t.files.lookup fd' := by
  by_cases heq : fd' = fd
  · rw [heq, AList.lookup_insert, h]
  · rw [AList.lookup_insert_ne heq, AList.lookup_erase_ne heq]

def IsListener (t : FileTable) (fd : Int) : Prop := ∃ n, t.inner fd = some (.tcpListener n)

/-- A failed operation changes nothing, and a listener is kept. -/
def Atomic (t : FileTable) (host : Host) (request : Request) : Prop :=
  ∀ reply t', t.step host request = some (reply, t') →
    (reply.failed → Unchanged t t') ∧
    ∀ fd, request = .accept fd → t.IsListener fd → t'.files.lookup fd = t.files.lookup fd

/-- The host has no connection for a listener. -/
def AcceptFails (t : FileTable) (host : Host) : Request → Prop
  | .accept fd => t.IsListener fd ∧ host.accept = none
  | _ => False

theorem isListener_of_lookup {fd : Int} {n : Nat} {path : Option Text}
    (h : t.files.lookup fd = some ⟨.tcpListener n, path⟩) : t.IsListener fd :=
  ⟨n, by rw [inner, h]; rfl⟩

theorem acceptOn_atomic {fd : Int} (hok : ¬ t.AcceptFails host (.accept fd))
    (h : t.acceptOn fd host = some (reply, t')) :
    (reply.failed → Unchanged t t') ∧
      (t.IsListener fd → t'.files.lookup fd = t.files.lookup fd) := by
  unfold acceptOn at h
  cases hlookup : t.files.lookup fd with
  | none =>
      rw [hlookup] at h
      cases h
      exact ⟨fun _ => .refl t, fun _ => hlookup⟩
  | some entry =>
      rw [hlookup] at h
      obtain ⟨handle, path⟩ := entry
      simp only at h
      split at h
      · next n =>
          split at h
          · next haccept => exact absurd ⟨isListener_of_lookup hlookup, haccept⟩ hok
          · next stream addr haccept =>
              obtain ⟨r, -, hr⟩ := Option.map_eq_some_iff.mp h
              cases hr
              exact ⟨fun hfailed => hfailed.elim, fun _ => by simp⟩
      · cases h
        have hsame := lookup_insert_erase hlookup
        exact ⟨fun _ => ⟨fun fd' => by simpa using hsame fd', drop_owners _, drop_dirOffsets _⟩,
          fun _ => by simp⟩

theorem atomic_of_not_acceptFails {request : Request} (hok : ¬ t.AcceptFails host request) :
    t.Atomic host request := by
  intro reply t' h
  have hsame (hfailed : reply.failed → t' = t) : reply.failed → Unchanged t t' :=
    fun hf => by rw [hfailed hf]; exact .refl t
  cases request with
  | openFd path mode => exact ⟨hsame (openFd_failed h), fun _ heq => nomatch heq⟩
  | create path mode perm => exact ⟨hsame (create_failed h), fun _ heq => nomatch heq⟩
  | pipe => exact ⟨fun hf => absurd hf (pipe_succeeds h), fun _ heq => nomatch heq⟩
  | read fd n => exact ⟨hsame (read_failed (Option.some.inj h)), fun _ heq => nomatch heq⟩
  | write fd buf => exact ⟨hsame (write_failed (Option.some.inj h)), fun _ heq => nomatch heq⟩
  | seek fd => exact ⟨hsame fun _ => seek_keeps (Option.some.inj h), fun _ heq => nomatch heq⟩
  | dup oldFd newFd => exact ⟨hsame (dup_failed h), fun _ heq => nomatch heq⟩
  | close fd => cases h; exact ⟨fun hf => hf.elim, fun _ heq => nomatch heq⟩
  | setOwner fd owner => cases h; exact ⟨fun hf => hf.elim, fun _ heq => nomatch heq⟩
  | setDirOffset fd offset => cases h; exact ⟨fun hf => hf.elim, fun _ heq => nomatch heq⟩
  | accept fd =>
      have haccept := acceptOn_atomic hok h
      exact ⟨haccept.1, fun fd' heq hlistener => by cases heq; exact haccept.2 hlistener⟩

/-- An `accept` that the host fails returns early, and leaves the listener out of the table. -/
theorem acceptOn_loses {fd : Int} (h : t.AcceptFails host (.accept fd)) :
    ∃ t', t.acceptOn fd host = some (.error .host, t') ∧ t'.files.lookup fd = none := by
  obtain ⟨⟨n, hinner⟩, haccept⟩ := h
  obtain ⟨⟨handle, path⟩, hlookup, rfl⟩ := Option.map_eq_some_iff.mp hinner
  refine ⟨_, by simp only [acceptOn, hlookup, haccept]; rfl, ?_⟩
  rw [drop_files]
  exact AList.lookup_erase _ _

end

/-- Every operation is atomic, but for an `accept` that the host fails. -/
theorem atomic_iff (t : FileTable) (host : Host) (request : Request) :
    t.Atomic host request ↔ ¬ t.AcceptFails host request := by
  refine ⟨fun h hfails => ?_, atomic_of_not_acceptFails⟩
  cases request with
  | accept fd =>
      obtain ⟨t', hstep, hlost⟩ := acceptOn_loses hfails
      have hkept := (h _ t' hstep).2 fd rfl hfails.1
      obtain ⟨n, hinner⟩ := hfails.1
      rw [hlost] at hkept
      rw [inner, ← hkept] at hinner
      cases hinner
  | _ => exact hfails

/-- A host that has nothing to give. -/
def Host.down : Host := ⟨none, false, none, .error .host, .error .host, .error .host⟩

theorem failed_accept_closes_listener :
    ¬ (((withRoot []).insert 3 ⟨.tcpListener 0, none⟩).Atomic Host.down (.accept 3)) :=
  fun h => (atomic_iff _ _ _).mp h ⟨⟨0, rfl⟩, rfl⟩

end FileTable

end RiceVM.Filetab
