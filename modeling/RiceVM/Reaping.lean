import RiceVM.Ops.FdRecords
import RiceVM.Pipes
import RiceVM.SentPointers
import RiceVM.Views

/-!
What reaping closes. A descriptor has one owner, so it is known to be abandoned as long as no
other record was made for it and no other file was put in its place.
-/
namespace RiceVM
open Exec Memory Buffer Filetab Ops

/-! ### The table -/

namespace Filetab.FileTable
variable {t t' : FileTable} {host : Filetab.Host} {reply : Reply} {fd : Int}

theorem mem_close_files {x : Int} : x ∈ (t.close fd).files ↔ x ∈ t.files ∧ (x ≤ 2 ∨ x ≠ fd) := by
  unfold close
  by_cases hfd : 2 < fd
  · rw [if_pos hfd]
    change x ∈ (t.remove fd).files ↔ _
    rw [remove, drop_files, AList.mem_erase]
    constructor
    · exact fun h => ⟨h.2, .inr h.1⟩
    · exact fun h => ⟨h.2.elim (by omega) id, h.1⟩
  · rw [if_neg hfd]
    exact ⟨fun h => ⟨h, by omega⟩, And.left⟩

theorem mem_close_owners {o : Int × HeapId} :
    o ∈ (t.close fd).owners ↔ o ∈ t.owners ∧ o.1 ≠ fd := by
  have howners : (t.close fd).owners = t.owners.filter fun owner => owner.1 ≠ fd := by
    unfold close
    split
    · exact congrArg (List.filter _) (drop_owners _)
    · rfl
  rw [howners, List.mem_filter, decide_eq_true_eq]

theorem nextFd_close : (t.close fd).nextFd = t.nextFd := by
  unfold close
  split
  · exact drop_nextFd _
  · rfl

section
variable {fds : List Int}

theorem mem_closeAll_files {x : Int} :
    x ∈ (fds.foldl close t).files ↔ x ∈ t.files ∧ (x ≤ 2 ∨ x ∉ fds) := by
  induction fds generalizing t with
  | nil => simp
  | cons fd fds ih =>
      rw [List.foldl_cons, ih, mem_close_files, List.mem_cons]
      tauto

theorem mem_closeAll_owners {o : Int × HeapId} :
    o ∈ (fds.foldl close t).owners ↔ o ∈ t.owners ∧ o.1 ∉ fds := by
  induction fds generalizing t with
  | nil => simp
  | cons fd fds ih =>
      rw [List.foldl_cons, ih, mem_close_owners, List.mem_cons]
      tauto

theorem nextFd_closeAll : (fds.foldl close t).nextFd = t.nextFd := by
  induction fds generalizing t with
  | nil => rfl
  | cons fd fds ih => rw [List.foldl_cons, ih, nextFd_close]

end

theorem mem_deadFds {h : Heap} {x : Int} :
    x ∈ t.deadFds h ↔ ∃ owner, (x, owner) ∈ t.owners ∧ h.get owner = none := by
  unfold deadFds
  simp only [List.mem_map, List.mem_filter, Option.isNone_iff_eq_none, Prod.exists, exists_and_right,
    exists_eq_right]

/-- The table after it got the descriptors `fds`, with no owners yet. -/
structure Gained (t t' : FileTable) (fds : List Int) : Prop where
  files : ∀ x, x ∈ t'.files ↔ x ∈ fds ∨ x ∈ t.files
  next : t.nextFd ≤ t'.nextFd
  below : ∀ fd ∈ fds, fd < t'.nextFd
  cap : t.nextFd ≤ 2147483647 → t'.nextFd ≤ 2147483647
  kept : ∀ o ∈ t.owners, o.1 ∉ fds → o ∈ t'.owners
  owners : ∀ o ∈ t'.owners, o ∈ t.owners

theorem insert_owners (fd : Int) (entry : FileEntry) : (t.insert fd entry).owners = t.owners :=
  drop_owners _

theorem insert_nextFd (fd : Int) (entry : FileEntry) : (t.insert fd entry).nextFd = t.nextFd :=
  drop_nextFd _

theorem takeFd_eq (h : t.takeFd = some (fd, t')) :
    fd = t.nextFd ∧ t.nextFd ≠ 2147483647 ∧ t' = { t with nextFd := t.nextFd + 1 } := by
  unfold takeFd at h
  split at h
  · cases h
  · next hne =>
      cases h
      exact ⟨rfl, hne, rfl⟩

theorem gained_insertFresh {entry : FileEntry} (h : t.insertFresh entry = some (fd, t')) :
    fd = t.nextFd ∧ t.nextFd ≠ 2147483647 ∧ Gained t t' [fd] := by
  obtain ⟨⟨fd, u⟩, htake, heq⟩ := Option.map_eq_some_iff.mp h
  cases heq
  obtain ⟨rfl, hne, rfl⟩ := takeFd_eq htake
  refine ⟨rfl, hne, fun x => ?_, ?_, fun x hx => ?_, fun hcap => ?_, fun o ho _ => ?_,
    fun o ho => ?_⟩
  · rw [insert_files, AList.mem_insert, List.mem_singleton]
  · rw [insert_nextFd]
    exact Int.le_of_lt (Int.lt_succ _)
  · rw [insert_nextFd, List.mem_singleton.mp hx]
    exact Int.lt_succ _
  · rw [insert_nextFd]
    change t.nextFd + 1 ≤ _
    omega
  · rwa [insert_owners]
  · rwa [insert_owners] at ho

/-- What opens a file gives the next number, but for the console. -/
theorem openFd_fd {path : Text} {mode : Word}
    (h : t.openFd path mode host = some (.fd fd, t')) :
    (t' = t ∧ (fd = 0 ∨ fd = 1)) ∨
      (fd = t.nextFd ∧ t.nextFd ≠ 2147483647 ∧ Gained t t' [fd]) := by
  unfold openFd at h
  split at h
  · split at h
    · next console hconsole =>
        cases h
        refine .inl ⟨rfl, ?_⟩
        unfold openVirtual at hconsole
        repeat' split at hconsole
        all_goals cases hconsole
        · exact .inl rfl
        · exact .inr rfl
    · obtain ⟨r, hfresh, heq⟩ := Option.map_eq_some_iff.mp h
      cases heq
      exact .inr (gained_insertFresh hfresh)
  · split at h
    · cases h
    · obtain ⟨r, hfresh, heq⟩ := Option.map_eq_some_iff.mp h
      cases heq
      exact .inr (gained_insertFresh hfresh)

theorem create_fd {path : Text} {mode perm : Word}
    (h : t.create path mode perm host = some (.fd fd, t')) :
    fd = t.nextFd ∧ t.nextFd ≠ 2147483647 ∧ Gained t t' [fd] := by
  unfold create at h
  split at h
  · cases h
  · obtain ⟨r, hfresh, heq⟩ := Option.map_eq_some_iff.mp h
    cases heq
    exact gained_insertFresh hfresh

theorem tryClone_keeps {handle inner : Handle} (h : t.tryClone host handle = some (inner, t')) :
    t'.owners = t.owners ∧ t'.nextFd = t.nextFd := by
  cases handle with
  | regular | tcpStream | tcpListener =>
      simp only [tryClone] at h
      split at h <;> cases h
      exact ⟨rfl, rfl⟩
  | _ =>
      cases h
      exact ⟨rfl, rfl⟩

theorem Gained.of_same {u : FileTable} {fds : List Int} (hfiles : u.files = t.files)
    (howners : u.owners = t.owners) (hnext : u.nextFd = t.nextFd) (hg : Gained u t' fds) :
    Gained t t' fds := by
  obtain ⟨files, next, below, cap, kept, owners⟩ := hg
  rw [hfiles] at files
  rw [hnext] at next cap
  rw [howners] at kept owners
  exact ⟨files, next, below, cap, kept, owners⟩

/-- The counter stays above a number that was asked for. -/
def above (t : FileTable) (fd : Int) : FileTable :=
  if t.nextFd ≤ fd then { t with nextFd := fd + 1 } else t

theorem above_keeps : (t.above fd).files = t.files ∧ (t.above fd).owners = t.owners ∧
    (t.above fd).nextFd = max t.nextFd (fd + 1) := by
  unfold above
  split
  · next hle =>
      refine ⟨rfl, rfl, ?_⟩
      change fd + 1 = _
      omega
  · exact ⟨rfl, rfl, by omega⟩

/-- A descriptor in the place of another. -/
theorem gained_place (entry : FileEntry) (hfd : fd ≤ maxFd) :
    Gained t (((t.close fd).above fd).insert fd entry) [fd] := by
  obtain ⟨hfiles, howners, hnext⟩ := @above_keeps (t.close fd) fd
  rw [nextFd_close] at hnext
  have hcap : maxFd = 65536 := rfl
  refine ⟨fun x => ?_, ?_, fun x hx => ?_, fun hle => ?_, fun o ho hne => ?_, fun o ho => ?_⟩
  · rw [insert_files, AList.mem_insert, hfiles, mem_close_files, List.mem_singleton]
    tauto
  · rw [insert_nextFd]
    omega
  · rw [insert_nextFd, List.mem_singleton.mp hx]
    omega
  · rw [insert_nextFd]
    omega
  · rw [insert_owners, howners, mem_close_owners]
    exact ⟨ho, fun heq => hne (List.mem_singleton.mpr heq)⟩
  · rw [insert_owners, howners, mem_close_owners] at ho
    exact ho.1

/-- A descriptor that `dup` makes has the next number or the one asked for. -/
theorem gained_dup {oldFd newFd : Int} (h : t.dup oldFd newFd host = some (reply, t')) :
    t' = t ∨ ∃ fd, (fd = t.nextFd ∨ fd = newFd) ∧ Gained t t' [fd] := by
  unfold dup at h
  split at h
  · cases h
    exact .inl rfl
  next hmax =>
  split at h
  · cases h
    exact .inl rfl
  split at h
  · cases h
    exact .inl rfl
  next inner u hclone =>
  obtain ⟨howners, hnext⟩ := tryClone_keeps hclone
  have hfiles := tryClone_files hclone
  split at h
  · obtain ⟨r, hfresh, heq⟩ := Option.map_eq_some_iff.mp h
    cases heq
    obtain ⟨hfd, -, hgained⟩ := gained_insertFresh hfresh
    exact .inr ⟨r.1, .inl (hfd.trans hnext), hgained.of_same hfiles howners hnext⟩
  · cases h
    exact .inr ⟨newFd, .inr rfl,
      (gained_place _ (Int.le_of_not_gt hmax)).of_same hfiles howners hnext⟩

theorem gained_pipe (h : t.pipe = some (reply, t')) :
    reply = .fds t.nextFd (t.nextFd + 1) ∧ t.nextFd ≠ 2147483647 ∧ t.nextFd + 1 ≠ 2147483647 ∧
      Gained t t' [t.nextFd, t.nextFd + 1] := by
  unfold pipe at h
  obtain ⟨⟨readFd, u⟩, hread, h⟩ := Option.bind_eq_some_iff.mp h
  obtain ⟨⟨writeFd, v⟩, hwrite, h⟩ := Option.bind_eq_some_iff.mp h
  cases h
  obtain ⟨rfl, hne, rfl⟩ := takeFd_eq hread
  obtain ⟨rfl, hne', rfl⟩ := takeFd_eq hwrite
  refine ⟨rfl, hne, hne', fun x => ?_, ?_, fun x hx => ?_, fun hcap => ?_, fun o ho _ => ?_,
    fun o ho => ?_⟩
  · rw [insert_files, insert_files, AList.mem_insert, AList.mem_insert, List.mem_cons,
      List.mem_singleton]
    tauto
  · rw [insert_nextFd, insert_nextFd]
    change t.nextFd ≤ t.nextFd + 1 + 1
    omega
  · rw [insert_nextFd, insert_nextFd]
    change x < t.nextFd + 1 + 1
    rcases List.mem_cons.mp hx with rfl | hx
    · omega
    · rw [List.mem_singleton.mp hx]
      omega
  · rw [insert_nextFd, insert_nextFd]
    have hlast : t.nextFd + 1 ≠ 2147483647 := hne'
    change t.nextFd + 1 + 1 ≤ 2147483647
    change t.nextFd ≠ 2147483647 at hne
    omega
  · rwa [insert_owners, insert_owners]
  · rwa [insert_owners, insert_owners] at ho

end Filetab.FileTable
/-! ### Records -/

/-- The object is a record that holds the number. -/
def Heap.Numbers (h : Heap) (id : HeapId) (fd : Int) : Prop :=
  ∃ obj data, h.get id = some obj ∧ obj.data = .record data ∧ (readWord data 0).toInt = fd

/-- A write into an array changes arrays only. -/
theorem Heap.get_arrayWrite (h : Heap) (id : HeapId) (offset : Nat) (bytes : List Byte)
    (i : HeapId) : (h.arrayWrite id offset bytes).get i = h.get i ∨
      ∃ obj elemType elemSize data n, h.get i = some obj ∧
        obj.data = .array elemType elemSize data n := by
  unfold arrayWrite
  generalize h.objects.entries.length + 1 = fuel
  induction fuel generalizing id offset with
  | zero => exact .inl rfl
  | succ fuel ih =>
      unfold arrayWriteLoop
      split
      · exact .inl rfl
      · next obj hget =>
          split
          · exact ih _ _
          · next hdata =>
              rw [get_update]
              split
              · next heq => exact .inr ⟨obj, _, _, _, _, heq ▸ hget, hdata⟩
              · exact .inl rfl
          · exact .inl rfl

/-- What was made so far: the records of descriptors, and the numbers `open` and `create` gave. -/
structure FdLog where
  made : List HeapId
  opened : List Int

/-- A change of the heap that keeps the records: they may go, but what stays is what it was. -/
structure KeepsRecords (made : List HeapId) (h h' : Heap) : Prop where
  next : h.nextId ≤ h'.nextId
  same : ∀ id ∈ made, ∀ obj', h'.get id = some obj' → ∃ obj, h.get id = some obj ∧
    obj.data = obj'.data

section
variable {h h' : Heap} {made : List HeapId} {id : HeapId} {fd : Int}

theorem KeepsRecords.before (hk : KeepsRecords made h h') (hid : id ∈ made)
    (hn : h'.Numbers id fd) : h.Numbers id fd := by
  obtain ⟨obj', data, hget, hdata, hword⟩ := hn
  obtain ⟨obj, hobj, hsame⟩ := hk.same id hid obj' hget
  exact ⟨obj, data, hobj, hsame.trans hdata, hword⟩

theorem KeepsRecords.after (hk : KeepsRecords made h h') (hid : id ∈ made)
    (hlive : (h'.get id).isSome) (hn : h.Numbers id fd) : h'.Numbers id fd := by
  obtain ⟨obj, data, hget, hdata, hword⟩ := hn
  obtain ⟨obj', hget'⟩ := Option.isSome_iff_exists.mp hlive
  obtain ⟨old, hold, hsame⟩ := hk.same id hid obj' hget'
  obtain rfl : obj = old := Option.some.inj (hget.symm.trans hold)
  exact ⟨obj', data, hget', hsame.symm.trans hdata, hword⟩

theorem toInt_ofInt_fd (hlow : 0 ≤ fd) (hcap : fd ≤ 2147483647) :
    (BitVec.ofInt 32 fd).toInt = fd := by
  rw [BitVec.toInt_ofInt]
  exact Int.bmod_eq_of_le (by omega) (by omega)

theorem readWord_fdData (hfd : (BitVec.ofInt 32 fd).toInt = fd) :
    (readWord (fdData fd) 0).toInt = fd :=
  (congrArg BitVec.toInt (readWord_writeWord_self _ (by decide))).trans hfd

end

/-! ### Owners -/

/-- A live owner is the only record of its descriptor, and what was opened has an owner. -/
structure Tracked (h : Heap) (t : FileTable) (log : FdLog) : Prop where
  low : 2 < t.nextFd
  cap : t.nextFd ≤ 2147483647
  filesBelow : ∀ fd ∈ t.files, fd < t.nextFd
  openedBelow : ∀ fd ∈ log.opened, fd < t.nextFd
  heldBelow : ∀ id ∈ log.made, ∀ fd, h.Numbers id fd → fd < t.nextFd
  born : ∀ id ∈ log.made, id < h.nextId
  records : ∀ id ∈ log.made, ∀ obj, h.get id = some obj → ∃ data, obj.data = .record data
  ownersOpened : ∀ o ∈ t.owners, o.1 ∈ log.opened
  sole : ∀ o ∈ t.owners, 2 < o.1 → ∀ id ∈ log.made, h.Numbers id o.1 → id = o.2
  owned : ∀ fd ∈ log.opened, 2 < fd → fd ∈ t.files →
    ∃ owner ∈ log.made, (fd, owner) ∈ t.owners ∧ ((h.get owner).isSome → h.Numbers owner fd)

namespace Tracked
variable {h h' : Heap} {t t' : FileTable} {log : FdLog}

theorem keeps (ht : Tracked h t log) (hk : KeepsRecords log.made h h') : Tracked h' t log where
  low := ht.low
  cap := ht.cap
  filesBelow := ht.filesBelow
  openedBelow := ht.openedBelow
  heldBelow id hid fd hn := ht.heldBelow id hid fd (hk.before hid hn)
  born id hid := by
    have hlt := ht.born id hid
    have hle := hk.next
    bv_omega
  records id hid obj' hobj' := by
    obtain ⟨obj, hobj, hsame⟩ := hk.same id hid obj' hobj'
    exact hsame ▸ ht.records id hid obj hobj
  ownersOpened := ht.ownersOpened
  sole o ho htwo id hid hn := ht.sole o ho htwo id hid (hk.before hid hn)
  owned fd hfd htwo hfile := by
    obtain ⟨owner, hmade, howner, hlive⟩ := ht.owned fd hfd htwo hfile
    refine ⟨owner, hmade, howner, fun hsome => hk.after hmade hsome (hlive ?_)⟩
    obtain ⟨obj', hobj'⟩ := Option.isSome_iff_exists.mp hsome
    obtain ⟨obj, hobj, -⟩ := hk.same owner hmade obj' hobj'
    rw [hobj]
    rfl

theorem reap (ht : Tracked h t log) : Tracked h (t.reap h) log := by
  have hfiles (x : Int) : x ∈ (t.reap h).files ↔ x ∈ t.files ∧ (x ≤ 2 ∨ x ∉ t.deadFds h) :=
    FileTable.mem_closeAll_files
  have howners (o : Int × HeapId) : o ∈ (t.reap h).owners ↔ o ∈ t.owners ∧ o.1 ∉ t.deadFds h :=
    FileTable.mem_closeAll_owners
  have hnext : (t.reap h).nextFd = t.nextFd := FileTable.nextFd_closeAll
  constructor
  · exact hnext ▸ ht.low
  · exact hnext ▸ ht.cap
  · exact fun fd hfd => hnext ▸ ht.filesBelow fd ((hfiles fd).mp hfd).1
  · exact hnext ▸ ht.openedBelow
  · exact hnext ▸ ht.heldBelow
  · exact ht.born
  · exact ht.records
  · exact fun o ho => ht.ownersOpened o ((howners o).mp ho).1
  · exact fun o ho => ht.sole o ((howners o).mp ho).1
  · intro fd hfd htwo hfile
    obtain ⟨hold, hkept⟩ := (hfiles fd).mp hfile
    obtain ⟨owner, hmade, howner, hlive⟩ := ht.owned fd hfd htwo hold
    exact ⟨owner, hmade, (howners _).mpr ⟨howner, hkept.resolve_left (by omega)⟩, hlive⟩

/-- New descriptors that are not in the place of one that was opened. -/
theorem gained (ht : Tracked h t log) {fds : List Int} (hg : t.Gained t' fds)
    (hnew : ∀ fd ∈ fds, 2 < fd → fd ∉ log.opened) : Tracked h t' log where
  low := Int.lt_of_lt_of_le ht.low hg.next
  cap := hg.cap ht.cap
  filesBelow fd hfd := by
    rcases (hg.files fd).mp hfd with hin | hold
    · exact hg.below fd hin
    · exact Int.lt_of_lt_of_le (ht.filesBelow fd hold) hg.next
  openedBelow fd hfd := Int.lt_of_lt_of_le (ht.openedBelow fd hfd) hg.next
  heldBelow id hid fd hn := Int.lt_of_lt_of_le (ht.heldBelow id hid fd hn) hg.next
  born := ht.born
  records := ht.records
  ownersOpened o ho := ht.ownersOpened o (hg.owners o ho)
  sole o ho := ht.sole o (hg.owners o ho)
  owned fd hfd htwo hfile := by
    have hnot : fd ∉ fds := fun hin => hnew fd hin htwo hfd
    have hold := ((hg.files fd).mp hfile).resolve_left hnot
    obtain ⟨owner, hmade, howner, hlive⟩ := ht.owned fd hfd htwo hold
    exact ⟨owner, hmade, hg.kept _ howner hnot, hlive⟩

/-- A record for a descriptor that was not opened, or has no owner yet. -/
theorem record (ht : Tracked h t log) {id : HeapId} {fd : Int}
    (ha : h.alloc 0 (.record (fdData fd)) none = some (id, h'))
    (hround : (BitVec.ofInt 32 fd).toInt = fd) (hbelow : fd < t.nextFd)
    (hnew : 2 < fd → fd ∉ log.opened) :
    h'.Numbers id fd ∧ KeepsRecords log.made h h' ∧
      Tracked h' t { log with made := id :: log.made } := by
  obtain ⟨hid, hnext, hget⟩ := Heap.alloc_cases ha
  have hfresh : ∀ i ∈ log.made, i ≠ id := by
    rintro i hi rfl
    have hlt := ht.born i hi
    rw [hid] at hlt
    exact absurd hlt (BitVec.lt_irrefl _)
  have hk : KeepsRecords log.made h h' :=
    ⟨BitVec.le_of_lt hnext, fun i hi obj' hobj' => ⟨obj', by
      rwa [hget, if_neg (hfresh i hi)] at hobj', rfl⟩⟩
  have hself : h'.Numbers id fd :=
    ⟨⟨1, 0, none, .record (fdData fd)⟩, fdData fd, by rw [hget, if_pos rfl], rfl,
      readWord_fdData hround⟩
  have honly : ∀ x, h'.Numbers id x → x = fd := by
    rintro x ⟨obj, data, hobj, hdata, hword⟩
    rw [hget, if_pos rfl] at hobj
    cases hobj
    cases hdata
    exact hword.symm.trans (readWord_fdData hround)
  have hkept := ht.keeps hk
  refine ⟨hself, hk, hkept.low, hkept.cap, hkept.filesBelow, hkept.openedBelow, ?_, ?_, ?_,
    hkept.ownersOpened, ?_, ?_⟩
  · intro i hi x hn
    rcases List.mem_cons.mp hi with rfl | hi
    · rwa [honly x hn]
    · exact hkept.heldBelow i hi x hn
  · intro i hi
    rcases List.mem_cons.mp hi with rfl | hi
    · rwa [hid]
    · exact hkept.born i hi
  · intro i hi obj hobj
    rcases List.mem_cons.mp hi with rfl | hi
    · rw [hget, if_pos rfl] at hobj
      cases hobj
      exact ⟨_, rfl⟩
    · exact hkept.records i hi obj hobj
  · intro o ho htwo i hi hn
    rcases List.mem_cons.mp hi with rfl | hi
    · rw [honly o.1 hn] at htwo
      have hopened := hkept.ownersOpened o ho
      rw [honly o.1 hn] at hopened
      exact absurd hopened (hnew htwo)
    · exact hkept.sole o ho htwo i hi hn
  · intro x hx htwo hfile
    obtain ⟨owner, hmade, howner, hlive⟩ := hkept.owned x hx htwo hfile
    exact ⟨owner, List.mem_cons_of_mem _ hmade, howner, hlive⟩

/-- The record becomes the owner of what was opened. -/
theorem setOwner {id : HeapId} {fd : Int} {made : List HeapId} {opened : List Int}
    (ht : Tracked h t ⟨id :: made, opened⟩) (hbelow : fd < t.nextFd) (hn : h.Numbers id fd)
    (hsole : 2 < fd → ∀ i ∈ made, ¬ h.Numbers i fd) :
    Tracked h (t.setOwner fd id) ⟨id :: made, fd :: opened⟩ := by
  have howners (o : Int × HeapId) : o ∈ (t.setOwner fd id).owners ↔
      (o ∈ t.owners ∧ o.1 ≠ fd) ∨ o = (fd, id) := by
    rw [FileTable.setOwner, List.mem_append, List.mem_filter, decide_eq_true_eq,
      List.mem_singleton]
  refine ⟨ht.low, ht.cap, ht.filesBelow, ?_, ht.heldBelow, ht.born, ht.records, ?_, ?_, ?_⟩
  · intro x hx
    rcases List.mem_cons.mp hx with rfl | hx
    · exact hbelow
    · exact ht.openedBelow x hx
  · intro o ho
    rcases (howners o).mp ho with ⟨hold, -⟩ | rfl
    · exact List.mem_cons_of_mem _ (ht.ownersOpened o hold)
    · exact List.mem_cons_self
  · intro o ho htwo i hi hni
    rcases (howners o).mp ho with ⟨hold, -⟩ | rfl
    · exact ht.sole o hold htwo i hi hni
    · rcases List.mem_cons.mp hi with rfl | hi
      · rfl
      · exact absurd hni (hsole htwo i hi)
  · intro x hx htwo hfile
    by_cases hsame : x = fd
    · subst hsame
      exact ⟨id, List.mem_cons_self, (howners _).mpr (.inr rfl), fun _ => hn⟩
    · obtain ⟨owner, hmade, howner, hlive⟩ :=
        ht.owned x ((List.mem_cons.mp hx).resolve_left hsame) htwo hfile
      exact ⟨owner, hmade, (howners _).mpr (.inl ⟨howner, hsame⟩), hlive⟩

theorem arrayWrite (ht : Tracked h t log) (id : HeapId) (offset : Nat) (bytes : List Byte) :
    Tracked (h.arrayWrite id offset bytes) t log := by
  refine ht.keeps ⟨(Heap.plain_arrayWrite h id offset bytes).nextId, fun i hi obj' hobj' => ?_⟩
  rcases h.get_arrayWrite id offset bytes i with hsame | ⟨obj, _, _, _, _, hget, hdata⟩
  · exact ⟨obj', hsame ▸ hobj', rfl⟩
  · obtain ⟨data, hrecord⟩ := ht.records i hi obj hget
    rw [hdata] at hrecord
    cases hrecord

/-- What `open` or `create` gave, with its record as the owner. -/
theorem opened (ht : Tracked h t log) {id : HeapId} {fd : Int}
    (hfd : (t' = t ∧ (fd = 0 ∨ fd = 1)) ∨
      (fd = t.nextFd ∧ t.nextFd ≠ 2147483647 ∧ t.Gained t' [fd]))
    (ha : h.alloc 0 (.record (fdData fd)) none = some (id, h')) :
    Tracked h' (t'.setOwner fd id) ⟨id :: log.made, fd :: log.opened⟩ := by
  have hlow := ht.low
  have hcap := ht.cap
  rcases hfd with ⟨rfl, hconsole⟩ | ⟨hnext, hne, hg⟩
  · have hround : (BitVec.ofInt 32 fd).toInt = fd := by
      rcases hconsole with rfl | rfl <;> rfl
    obtain ⟨hn, -, htracked⟩ := ht.record ha hround (by omega) fun htwo => by omega
    exact htracked.setOwner (by omega) hn fun htwo => by omega
  · have hround : (BitVec.ofInt 32 fd).toInt = fd := by
      rw [BitVec.toInt_ofInt]
      exact Int.bmod_eq_of_le (by omega) (by omega)
    have hnot : fd ∉ log.opened := fun hin => absurd (ht.openedBelow fd hin) (by omega)
    have hbelow := hg.below fd (List.mem_singleton_self fd)
    have hgained := ht.gained hg fun x hx _ => List.mem_singleton.mp hx ▸ hnot
    obtain ⟨hn, hk, htracked⟩ := hgained.record ha hround hbelow fun _ => hnot
    refine htracked.setOwner hbelow hn fun _ i hi hni => ?_
    have hlt := ht.heldBelow i hi fd (hk.before hi hni)
    omega

/-- Reaping closes what no live record holds, and of what was opened all of it but the standard
descriptors. -/
theorem closes (ht : Tracked h t log) :
    (∀ fd ∈ t.files, fd ∉ (t.reap h).files → ∀ id ∈ log.made, ¬ h.Numbers id fd) ∧
    (∀ fd ∈ log.opened, 2 < fd → (∀ id ∈ log.made, ¬ h.Numbers id fd) →
      fd ∉ (t.reap h).files) ∧
    ∀ fd ∈ t.files, fd ≤ 2 → fd ∈ (t.reap h).files := by
  have hfiles (x : Int) : x ∈ (t.reap h).files ↔ x ∈ t.files ∧ (x ≤ 2 ∨ x ∉ t.deadFds h) :=
    FileTable.mem_closeAll_files
  refine ⟨?_, ?_, fun fd hfd hle => (hfiles fd).mpr ⟨hfd, .inl hle⟩⟩
  · rintro fd hfd hclosed id hid ⟨obj, data, hget, hdata, hword⟩
    rw [hfiles] at hclosed
    have hdead : 2 < fd ∧ fd ∈ t.deadFds h := by
      constructor
      · exact Int.lt_of_not_ge fun hle => hclosed ⟨hfd, .inl hle⟩
      · exact not_not.mp fun hnot => hclosed ⟨hfd, .inr hnot⟩
    obtain ⟨owner, howner, hnone⟩ := FileTable.mem_deadFds.mp hdead.2
    have heq := ht.sole _ howner hdead.1 id hid ⟨obj, data, hget, hdata, hword⟩
    rw [heq, hnone] at hget
    cases hget
  · intro fd hfd htwo hfree hfile
    obtain ⟨hold, hkept⟩ := (hfiles fd).mp hfile
    obtain ⟨owner, hmade, howner, hlive⟩ := ht.owned fd hfd htwo hold
    refine hkept.resolve_left (by omega) (FileTable.mem_deadFds.mpr ⟨owner, howner, ?_⟩)
    exact Option.not_isSome_iff_eq_none.mp fun hsome => hfree owner hmade (hlive hsome)

end Tracked

/-! ### The built-ins -/

section
variable {s t : FdVm} {errorText : FileTable.Reply → String} {host : Filetab.Host}

theorem onFiles_ok {op : FileTable → Option (FileTable.Reply × FileTable)} {r : FileTable.Reply}
    (h : onFiles op s = .ok r t) : op s.files = some (r, t.files) ∧ t.vm = s.vm := by
  unfold onFiles at h
  cases hop : op s.files with
  | none =>
      rw [hop] at h
      cases h
  | some result =>
      rw [hop] at h
      cases h
      exact ⟨rfl, rfl⟩

theorem onVm_ok {α : Type} {op : VM α} {a : α} (h : onVm op s = .ok a t) :
    op s.vm = .ok a t.vm ∧ t.files = s.files := by
  unfold onVm at h
  cases hop : op s.vm with
  | ok b vm =>
      rw [hop] at h
      cases h
      exact ⟨rfl, rfl⟩
  | error | panic | diverge =>
      rw [hop] at h
      cases h

theorem allocFd_ok {fd : Int} {id : HeapId} (h : allocFd fd s = .ok id t) :
    s.vm.heap.alloc 0 (.record (fdData fd)) none = some (id, t.vm.heap) ∧ t.files = s.files := by
  obtain ⟨halloc, hfiles⟩ := onVm_ok h
  obtain ⟨heap, ha, hvm⟩ := alloc_eq_ok halloc
  rw [hvm]
  exact ⟨ha, hfiles⟩

theorem setResult_ok {val : Word} {u : Unit} (h : setResult val s = .ok u t) :
    t.vm.heap = s.vm.heap ∧ t.files = s.files := by
  obtain ⟨hset, hfiles⟩ := onVm_ok h
  exact ⟨(congrArg VmState.heap (Res.ok.inj hset).2).symm, hfiles⟩

/-- The numbers that a call of the table can give. -/
def Opens (call : FileTable → Option (FileTable.Reply × FileTable)) : Prop :=
  ∀ {files files' : FileTable} {fd : Int}, call files = some (.fd fd, files') →
    (files' = files ∧ (fd = 0 ∨ fd = 1)) ∨
      (fd = files.nextFd ∧ files.nextFd ≠ 2147483647 ∧ files.Gained files' [fd])

/-- A call that gives no number leaves the table alone. -/
def KeepsFailed (call : FileTable → Option (FileTable.Reply × FileTable)) : Prop :=
  ∀ {files files' : FileTable} {r : FileTable.Reply}, (∀ fd, r ≠ .fd fd) →
    call files = some (r, files') → files' = files

theorem Tracked.openWith {call : FileTable → Option (FileTable.Reply × FileTable)}
    {made : List (Int × HeapId)} {log : FdLog} (ht : Tracked s.vm.heap s.files log)
    (hcall : Opens call) (hkeeps : KeepsFailed call) (h : openWith errorText call s = .ok made t) :
    Tracked t.vm.heap t.files ⟨made.map Prod.snd ++ log.made, made.map Prod.fst ++ log.opened⟩ := by
  have hreap := ht.reap
  unfold Ops.openWith at h
  obtain ⟨_, u, hrun, h⟩ := bind_eq_ok.mp h
  cases hrun
  obtain ⟨r, v, hopen, h⟩ := bind_eq_ok.mp h
  obtain ⟨hresult, hvm⟩ := onFiles_ok hopen
  cases r with
  | fd fd =>
      obtain ⟨id, w, halloc, h⟩ := bind_eq_ok.mp h
      obtain ⟨_, x, hset, h⟩ := bind_eq_ok.mp h
      cases hset
      obtain ⟨_, y, hwrite, h⟩ := bind_eq_ok.mp h
      cases h
      obtain ⟨ha, hfiles⟩ := allocFd_ok halloc
      obtain ⟨hheap, htable⟩ := setResult_ok hwrite
      rw [hheap, htable]
      change Tracked w.vm.heap (w.files.setOwner fd id) ⟨id :: log.made, fd :: log.opened⟩
      rw [hfiles]
      rw [hvm] at ha
      exact hreap.opened (hcall hresult) ha
  | fds | bytes | count | accepted | done | error | refused =>
      obtain ⟨_, w, herror, h⟩ := bind_eq_ok.mp h
      obtain ⟨_, x, hwrite, h⟩ := bind_eq_ok.mp h
      cases h
      obtain ⟨herror, hfiles⟩ := onVm_ok herror
      obtain ⟨hheap, htable⟩ := setResult_ok hwrite
      have hsame := congrArg VmState.heap (Res.ok.inj herror).2
      rw [hheap, htable, hfiles, ← hsame, hkeeps (by rintro _ ⟨⟩) hresult]
      change Tracked v.vm.heap _ log
      rw [hvm]
      exact hreap

theorem openFd_keepsFailed (path : Text) (mode : Word) :
    KeepsFailed fun files => files.openFd path mode host := by
  intro files files' r hr h
  change files.openFd path mode host = some (r, files') at h
  unfold FileTable.openFd at h
  split at h
  · split at h
    · cases h
      rfl
    · obtain ⟨_, -, heq⟩ := Option.map_eq_some_iff.mp h
      exact absurd (Prod.mk.inj heq).1.symm (hr _)
  · split at h
    · cases h
      rfl
    · obtain ⟨_, -, heq⟩ := Option.map_eq_some_iff.mp h
      exact absurd (Prod.mk.inj heq).1.symm (hr _)

theorem create_keepsFailed (path : Text) (mode perm : Word) :
    KeepsFailed fun files => files.create path mode perm host := by
  intro files files' r hr h
  change files.create path mode perm host = some (r, files') at h
  unfold FileTable.create at h
  split at h
  · cases h
    rfl
  · obtain ⟨_, -, heq⟩ := Option.map_eq_some_iff.mp h
    exact absurd (Prod.mk.inj heq).1.symm (hr _)

theorem Tracked.sysOpen {made : List (Int × HeapId)} {log : FdLog}
    (ht : Tracked s.vm.heap s.files log) (h : sysOpen errorText host s = .ok made t) :
    Tracked t.vm.heap t.files ⟨made.map Prod.snd ++ log.made, made.map Prod.fst ++ log.opened⟩ :=
  ht.openWith (fun hcall => FileTable.openFd_fd hcall) (openFd_keepsFailed _ _) h

theorem Tracked.sysCreate {made : List (Int × HeapId)} {log : FdLog}
    (ht : Tracked s.vm.heap s.files log) (h : sysCreate errorText host s = .ok made t) :
    Tracked t.vm.heap t.files ⟨made.map Prod.snd ++ log.made, made.map Prod.fst ++ log.opened⟩ :=
  ht.openWith (fun hcall => .inr (FileTable.create_fd hcall)) (create_keepsFailed _ _ _) h

/-- The number is none above the standard ones that `open` or `create` gave. -/
def Unopened (log : FdLog) (fd : Int) : Prop := 2 < fd → fd ∉ log.opened

theorem Tracked.sysFildes {made : List (Int × HeapId)} {log : FdLog}
    (ht : Tracked s.vm.heap s.files log) (hnew : Unopened log (argWord s.vm 0).toInt)
    (h : sysFildes s = .ok made t) :
    Tracked t.vm.heap t.files ⟨made.map Prod.snd ++ log.made, log.opened⟩ := by
  unfold Ops.sysFildes at h
  rw [bind_ok (get_apply s)] at h
  by_cases hfildes : s.files.fildes (argWord s.vm 0).toInt = true
  · simp only [hfildes, if_true] at h
    obtain ⟨id, u, halloc, h⟩ := bind_eq_ok.mp h
    obtain ⟨_, v, hwrite, h⟩ := bind_eq_ok.mp h
    cases h
    obtain ⟨ha, hfiles⟩ := allocFd_ok halloc
    obtain ⟨hheap, htable⟩ := setResult_ok hwrite
    rw [hheap, htable, hfiles]
    have hbelow : (argWord s.vm 0).toInt < s.files.nextFd := by
      have hlow := ht.low
      rcases of_decide_eq_true hfildes with hstandard | hin
      · omega
      · exact ht.filesBelow _ hin
    exact (ht.record ha (congrArg BitVec.toInt (BitVec.ofInt_toInt)) hbelow hnew).2.2
  · simp only [hfildes] at h
    obtain ⟨_, v, hwrite, h⟩ := bind_eq_ok.mp h
    cases h
    obtain ⟨hheap, htable⟩ := setResult_ok hwrite
    rw [hheap, htable]
    exact ht

theorem Tracked.sysDup {u : Unit} {log : FdLog} (ht : Tracked s.vm.heap s.files log)
    (hnew : Unopened log (argWord s.vm 1).toInt) (h : sysDup host s = .ok u t) :
    Tracked t.vm.heap t.files log := by
  unfold Ops.sysDup at h
  rw [bind_ok (get_apply s)] at h
  obtain ⟨r, v, hdup, h⟩ := bind_eq_ok.mp h
  obtain ⟨hresult, hvm⟩ := onFiles_ok hdup
  have hset : ∃ val, setResult val v = .ok u t := by
    cases r <;> exact ⟨_, h⟩
  obtain ⟨val, hset⟩ := hset
  obtain ⟨hheap, htable⟩ := setResult_ok hset
  rw [hheap, htable, hvm]
  rcases FileTable.gained_dup hresult with hsame | ⟨fd, hfd, hg⟩
  · rwa [hsame]
  · refine ht.gained hg fun x hx htwo => ?_
    rw [List.mem_singleton.mp hx] at htwo ⊢
    rcases hfd with hnext | htarget
    · exact fun hin => absurd (ht.openedBelow fd hin) (by omega)
    · rw [htarget] at htwo ⊢
      exact hnew htwo

theorem Tracked.sysPipe {made : List (Int × HeapId)} {log : FdLog}
    (ht : Tracked s.vm.heap s.files log) (h : sysPipe s = .ok made t) :
    Tracked t.vm.heap t.files ⟨made.reverse.map Prod.snd ++ log.made, log.opened⟩ := by
  have hlow := ht.low
  have hcap := ht.cap
  unfold Ops.sysPipe at h
  rw [bind_ok (get_apply s)] at h
  obtain ⟨r, v, hpipe, h⟩ := bind_eq_ok.mp h
  obtain ⟨hresult, hvm⟩ := onFiles_ok hpipe
  obtain ⟨rfl, hne, hne', hg⟩ := FileTable.gained_pipe hresult
  have hnot : ∀ fd ∈ [s.files.nextFd, s.files.nextFd + 1], fd ∉ log.opened := by
    intro fd hfd hin
    have hlt := ht.openedBelow fd hin
    rcases List.mem_cons.mp hfd with rfl | hfd
    · omega
    · rw [List.mem_singleton.mp hfd] at hlt
      omega
  have hgained := ht.gained hg fun fd hfd _ => hnot fd hfd
  obtain ⟨fd0, w, halloc, h⟩ := bind_eq_ok.mp h
  obtain ⟨fd1, x, halloc', h⟩ := bind_eq_ok.mp h
  obtain ⟨_, y, hstore, h⟩ := bind_eq_ok.mp h
  obtain ⟨_, z, hwrite, h⟩ := bind_eq_ok.mp h
  cases h
  obtain ⟨ha, hfiles⟩ := allocFd_ok halloc
  obtain ⟨ha', hfiles'⟩ := allocFd_ok halloc'
  obtain ⟨hstore, hfiles''⟩ := onVm_ok hstore
  obtain ⟨hheap, htable⟩ := setResult_ok hwrite
  rw [hvm] at ha
  obtain ⟨-, -, hfirst⟩ := hgained.record ha (toInt_ofInt_fd (by omega) (by omega))
    (hg.below _ List.mem_cons_self) fun _ => hnot _ List.mem_cons_self
  have hlast := List.mem_cons_of_mem s.files.nextFd (List.mem_singleton_self (s.files.nextFd + 1))
  obtain ⟨-, -, hsecond⟩ := hfirst.record ha' (toInt_ofInt_fd (by omega) (by omega))
    (hg.below _ hlast) fun _ => hnot _ hlast
  rw [hheap, htable, hfiles'', hfiles', hfiles, ← congrArg VmState.heap (Res.ok.inj hstore).2]
  exact (hsecond.arrayWrite _ _ _).arrayWrite _ _ _

end

/-! ### Runs -/

/-- The run of a machine that starts with the standard descriptors, opens and duplicates files,
makes pipes and lets records go, in any order. `A` says of which numbers `fildes` makes another
record and what `dup` puts a descriptor in the place of. -/
inductive FdRun (A : FdLog → Int → Prop) (errorText : FileTable.Reply → String) (root : Text) :
    FdVm → FdLog → Prop
  | start (vm : VmState) : FdRun A errorText root ⟨vm, .withRoot root⟩ ⟨[], []⟩
  | opened {s t : FdVm} {log : FdLog} {host : Filetab.Host} {made : List (Int × HeapId)}
      (before : FdRun A errorText root s log) (call : sysOpen errorText host s = .ok made t) :
      FdRun A errorText root t ⟨made.map Prod.snd ++ log.made, made.map Prod.fst ++ log.opened⟩
  | created {s t : FdVm} {log : FdLog} {host : Filetab.Host} {made : List (Int × HeapId)}
      (before : FdRun A errorText root s log) (call : sysCreate errorText host s = .ok made t) :
      FdRun A errorText root t ⟨made.map Prod.snd ++ log.made, made.map Prod.fst ++ log.opened⟩
  | fildes {s t : FdVm} {log : FdLog} {made : List (Int × HeapId)}
      (before : FdRun A errorText root s log) (allowed : A log (argWord s.vm 0).toInt)
      (call : sysFildes s = .ok made t) :
      FdRun A errorText root t ⟨made.map Prod.snd ++ log.made, log.opened⟩
  | dup {s t : FdVm} {log : FdLog} {host : Filetab.Host} {u : Unit}
      (before : FdRun A errorText root s log) (allowed : A log (argWord s.vm 1).toInt)
      (call : sysDup host s = .ok u t) : FdRun A errorText root t log
  | pipe {s t : FdVm} {log : FdLog} {made : List (Int × HeapId)}
      (before : FdRun A errorText root s log) (call : sysPipe s = .ok made t) :
      FdRun A errorText root t ⟨made.reverse.map Prod.snd ++ log.made, log.opened⟩
  /-- What the guest does meanwhile, a release of a record or anything else. -/
  | guest {s : FdVm} {vm : VmState} {log : FdLog} (before : FdRun A errorText root s log)
      (keeps : KeepsRecords log.made s.vm.heap vm.heap) :
      FdRun A errorText root ⟨vm, s.files⟩ log

theorem keepsRecords_decRef (made : List HeapId) (h : Heap) (id : HeapId) :
    KeepsRecords made h (h.decRef id) where
  next := (Heap.plain_decRef h id).nextId
  same i _ obj' hobj' := by
    obtain ⟨obj, hobj, hsame⟩ := Heap.data_decRef hobj'
    exact ⟨obj, hobj, hsame.symm⟩

theorem tracked_start (h : Heap) (root : Text) : Tracked h (.withRoot root) ⟨[], []⟩ where
  low := (by decide : (2 : Int) < 3)
  cap := (by decide : (3 : Int) ≤ 2147483647)
  filesBelow fd hfd := by
    simp only [FileTable.withRoot, AList.mem_insert, AList.notMem_empty, or_false] at hfd
    change fd < 3
    omega
  openedBelow := nofun
  heldBelow := nofun
  born := nofun
  records := nofun
  ownersOpened := nofun
  sole := nofun
  owned := nofun

section
variable {s u : FdVm} {log : FdLog} {errorText : FileTable.Reply → String} {root : Text}

theorem FdRun.tracked (hrun : FdRun Unopened errorText root s log) :
    Tracked s.vm.heap s.files log := by
  induction hrun with
  | start vm => exact tracked_start _ _
  | opened before call ih => exact ih.sysOpen call
  | created before call ih => exact ih.sysCreate call
  | fildes before allowed call ih => exact ih.sysFildes allowed call
  | dup before allowed call ih => exact ih.sysDup allowed call
  | pipe before call ih => exact ih.sysPipe call
  | guest before keeps ih => exact ih.keeps keeps

/-- No record of a descriptor that is still there holds the number. -/
def Abandoned (h : Heap) (log : FdLog) (fd : Int) : Prop := ∀ id ∈ log.made, ¬ h.Numbers id fd

/-- What reaping closes was abandoned, and what was opened and abandoned is closed, but for the
standard descriptors, which stay open. -/
theorem reaping_closes_abandoned (hrun : FdRun Unopened errorText root s log)
    (hreap : reapReclaimedFds s = .ok () u) :
    (∀ fd ∈ s.files.files, fd ∉ u.files.files → Abandoned s.vm.heap log fd) ∧
    (∀ fd ∈ log.opened, 2 < fd → Abandoned s.vm.heap log fd → fd ∉ u.files.files) ∧
    ∀ fd ∈ s.files.files, fd ≤ 2 → fd ∈ u.files.files := by
  cases hreap
  exact hrun.tracked.closes

end

/-! ### Runs after a first file -/

/-- The host opens every file. -/
def willing : Filetab.Host := ⟨some 0, true, none, .error .host, .error .host, .error .host⟩

/-- About to call with the given arguments. -/
def asking (args : List Word) (s : FdVm) : FdVm :=
  ⟨{ s.vm with frames := { s.vm.frames with
    data := writeWords s.vm.frames.data (s.vm.frames.currentDataOffset + argsAt) args } }, s.files⟩

/-- After the call that opens the file of the given name. -/
def afterOpen (path : String) (p : Int → HeapId → FdVm → Bool) : Bool :=
  (machineWith [⟨1, 0, none, .str path⟩] id).any fun vm =>
    match sysOpen (fun _ => "") willing (asking [0x10000000] ⟨vm, .withRoot []⟩) with
    | .ok [(fd, fdId)] s => p fd fdId s
    | _ => false

section
variable {A : FdLog → Int → Prop} {s t : FdVm} {log : FdLog}

theorem exists_afterOpen (path : String) {p : Int → HeapId → FdVm → Bool}
    (h : afterOpen path p = true) : ∃ fd fdId s,
      FdRun A (fun _ => "") [] s ⟨[fdId], [fd]⟩ ∧ p fd fdId s = true := by
  unfold afterOpen at h
  rw [Option.any_eq_true] at h
  obtain ⟨vm, -, h⟩ := h
  cases hopen : sysOpen (fun _ => "") willing (asking [0x10000000] ⟨vm, .withRoot []⟩) with
  | ok made s =>
      rw [hopen] at h
      match made, h, hopen with
      | [(fd, fdId)], h, hopen => exact ⟨fd, fdId, s, .opened (.start _) hopen, h⟩
  | error | panic | diverge =>
      rw [hopen] at h
      cases h

theorem FdRun.asking (h : FdRun A (fun _ => "") [] s log) (args : List Word) :
    FdRun A (fun _ => "") [] (asking args s) log :=
  .guest h ⟨BitVec.le_refl _, fun _ _ obj' hobj' => ⟨obj', hobj', rfl⟩⟩

/-- The machine after it let the object go. -/
def releasing (id : HeapId) (s : FdVm) : FdVm :=
  ⟨{ s.vm with heap := s.vm.heap.decRef id }, s.files⟩

theorem FdRun.releasing (h : FdRun A (fun _ => "") [] s log) (id : HeapId) :
    FdRun A (fun _ => "") [] (releasing id s) log := .guest h (keepsRecords_decRef _ _ _)

theorem abandoned_of_gone {h : Heap} {id : HeapId} {opened : List Int} (hgone : h.get id = none)
    (fd : Int) : Abandoned h ⟨[id], opened⟩ fd := by
  rintro i hi ⟨obj, _, hget, -⟩
  rw [List.mem_singleton.mp hi, hgone] at hget
  cases hget

end

/-- A file that was opened is closed after its record went. -/
theorem opened_closed : ∃ (s u : FdVm) (log : FdLog) (fd : Int),
    FdRun Unopened (fun _ => "") [] s log ∧ reapReclaimedFds s = .ok () u ∧
    fd ∈ s.files.files ∧ fd ∉ u.files.files := by
  obtain ⟨fd, fdId, s, hrun, htest⟩ := exists_afterOpen "f" (p := fun fd fdId s =>
    decide (2 < fd ∧ fd ∈ s.files.files ∧ (s.vm.heap.decRef fdId).get fdId = none))
    (by decide +kernel)
  obtain ⟨htwo, hfile, hgone⟩ := of_decide_eq_true htest
  exact ⟨releasing fdId s, _, _, fd, hrun.releasing fdId, rfl, hfile,
    (reaping_closes_abandoned (hrun.releasing fdId) rfl).2.1 fd (List.mem_singleton_self fd) htwo
      (abandoned_of_gone hgone fd)⟩

/-- There is a run at whose end reaping does this. -/
def SomeReaping (p : FdVm → FdVm → FdLog → Int → Prop) : Prop :=
  ∃ s u log fd, FdRun (fun _ _ => True) (fun _ => "") [] s log ∧ reapReclaimedFds s = .ok () u ∧
    p s u log fd

/-- The console stays open after its only record went. -/
theorem console_stays : SomeReaping fun s u log fd =>
    fd = 0 ∧ fd ∈ log.opened ∧ Abandoned s.vm.heap log fd ∧ fd ∈ u.files.files := by
  obtain ⟨fd, fdId, s, hrun, htest⟩ := exists_afterOpen (A := fun _ _ => True)
    "/dev/cons" (p := fun fd fdId s => decide (fd = 0 ∧
      (s.vm.heap.decRef fdId).get fdId = none ∧ 0 ∈ (s.files.reap (s.vm.heap.decRef fdId)).files))
    (by decide +kernel)
  obtain ⟨rfl, hgone, hstays⟩ := of_decide_eq_true htest
  exact ⟨releasing fdId s, _, _, 0, hrun.releasing fdId, rfl, rfl, List.mem_singleton_self 0,
    abandoned_of_gone hgone 0, hstays⟩

/-- A second record of a descriptor does not keep it open once the first went. -/
theorem held_closed : SomeReaping fun s u log fd =>
    fd ∈ s.files.files ∧ fd ∉ u.files.files ∧ ¬ Abandoned s.vm.heap log fd := by
  obtain ⟨fd, fdId, s, hrun, htest⟩ := exists_afterOpen (A := fun _ _ => True) "f"
    (p := fun fd fdId s => match sysFildes (asking [.ofInt 32 fd] s) with
      | .ok [(_, second)] t => decide (fd ∈ t.files.files ∧
          fd ∉ (t.files.reap (t.vm.heap.decRef fdId)).files ∧
          ((t.vm.heap.decRef fdId).get second).map HeapObject.data = some (.record (fdData fd)) ∧
          (BitVec.ofInt 32 fd).toInt = fd)
      | _ => false) (by decide +kernel)
  cases hfildes : sysFildes (asking [.ofInt 32 fd] s) with
  | ok made t =>
      rw [hfildes] at htest
      match made, htest, hfildes with
      | [(_, second)], htest, hfildes =>
          obtain ⟨hfile, hclosed, hdata, hround⟩ := of_decide_eq_true htest
          obtain ⟨obj, hobj, hrecord⟩ := Option.map_eq_some_iff.mp hdata
          have hmade := FdRun.fildes (hrun.asking [.ofInt 32 fd]) trivial hfildes
          refine ⟨releasing fdId t, _, _, fd, hmade.releasing fdId, rfl, hfile, hclosed,
            fun habandoned => ?_⟩
          exact habandoned second List.mem_cons_self
            ⟨obj, _, hobj, hrecord, readWord_fdData hround⟩
  | error | panic | diverge =>
      rw [hfildes] at htest
      cases htest

/-- Is the console that is put in the place of the file open after the file's record went? -/
def dupStays (fd : Int) (fdId : HeapId) (s : FdVm) : Bool :=
  match sysDup willing (asking [0, .ofInt 32 fd] s) with
  | .ok () t => decide (2 < fd ∧ (t.vm.heap.decRef fdId).get fdId = none ∧
      fd ∈ (t.files.reap (t.vm.heap.decRef fdId)).files)
  | _ => false

/-- What `dup` puts in the place of a file stays open after the record of the file went. -/
theorem replaced_stays : SomeReaping fun s u log fd =>
    2 < fd ∧ fd ∈ log.opened ∧ Abandoned s.vm.heap log fd ∧ fd ∈ u.files.files := by
  obtain ⟨fd, fdId, s, hrun, htest⟩ := exists_afterOpen (A := fun _ _ => True) "f"
    (p := dupStays) (by decide +kernel)
  unfold dupStays at htest
  cases hdup : sysDup willing (asking [0, .ofInt 32 fd] s) with
  | ok made t =>
      rw [hdup] at htest
      obtain ⟨htwo, hgone, hstays⟩ := of_decide_eq_true htest
      have hmade := FdRun.dup (hrun.asking [0, .ofInt 32 fd]) trivial hdup
      exact ⟨releasing fdId t, _, _, fd, hmade.releasing fdId, rfl, htwo,
        List.mem_singleton_self fd, abandoned_of_gone hgone fd, hstays⟩
  | error | panic | diverge =>
      rw [hdup] at htest
      cases htest

/-- Reaping leaves the console open, closes what a second record holds, and leaves open what was put
in the place of a file. -/
theorem reaping_exceptions :
    (SomeReaping fun s u log fd =>
      fd = 0 ∧ fd ∈ log.opened ∧ Abandoned s.vm.heap log fd ∧ fd ∈ u.files.files) ∧
    (SomeReaping fun s u log fd =>
      fd ∈ s.files.files ∧ fd ∉ u.files.files ∧ ¬ Abandoned s.vm.heap log fd) ∧
    SomeReaping fun s u log fd =>
      2 < fd ∧ fd ∈ log.opened ∧ Abandoned s.vm.heap log fd ∧ fd ∈ u.files.files :=
  ⟨console_stays, held_closed, replaced_stays⟩

end RiceVM
