import RiceVM.Descriptors

/-!
Pipes as streams of bytes: what is read from one is what was written to it, and it is at its end
once no descriptor refers to its write end.
-/
namespace RiceVM.Filetab.FileTable

variable {t t' : FileTable} {host : Host} {reply : Reply} {p : Nat}

/-! ### Write ends -/

def FileEntry.writes (p : Nat) (entry : FileEntry) : Bool := entry.inner = .pipeWriter p

/-- How many descriptors refer to the pipe's write end. -/
def countWriters (files : AList fun _ : Int => FileEntry) (p : Nat) : Nat :=
  files.entries.countP fun e => FileEntry.writes p e.2

/-- 1 for the write end of the pipe. -/
def unit (handle : Handle) (p : Nat) : Nat := if handle = .pipeWriter p then 1 else 0

theorem countWriters_erase (files : AList fun _ : Int => FileEntry) (fd : Int) (p : Nat) :
    countWriters files p =
      countWriters (files.erase fd) p + ((files.lookup fd).elim 0 fun e => unit e.inner p) := by
  by_cases hmem : fd ∈ files
  · obtain ⟨entry, before, after, hnot, hfiles, herase⟩ := List.exists_of_kerase hmem
    have hlookup : files.lookup fd = some entry :=
      AList.mem_lookup_iff.mpr (by rw [hfiles]; simp)
    have hentries : (files.erase fd).entries = before ++ after := herase
    rw [countWriters, countWriters, hentries, hfiles, hlookup, List.countP_append,
      List.countP_append, List.countP_cons]
    simp [FileEntry.writes, unit, Nat.add_assoc]
  · rw [AList.lookup_eq_none.mpr hmem]
    have herase : files.erase fd = files :=
      AList.ext (List.kerase_of_notMem_keys (mt AList.mem_keys.mpr hmem))
    rw [herase]
    rfl

theorem countWriters_insert (files : AList fun _ : Int => FileEntry) (fd : Int)
    (entry : FileEntry) (p : Nat) :
    countWriters (files.insert fd entry) p =
      countWriters (files.erase fd) p + unit entry.inner p := by
  have hentries : (files.erase fd).entries = files.entries.kerase fd := rfl
  rw [countWriters, AList.entries_insert, List.countP_cons]
  simp [countWriters, FileEntry.writes, unit, hentries]

theorem countWriters_pos {fd : Int} (h : t.inner fd = some (.pipeWriter p)) :
    0 < countWriters t.files p := by
  obtain ⟨entry, hlookup, hinner⟩ := Option.map_eq_some_iff.mp h
  rw [countWriters_erase t.files fd p, hlookup]
  simp [unit, hinner]

theorem exists_of_countWriters (h : 0 < countWriters t.files p) :
    ∃ fd, t.inner fd = some (.pipeWriter p) := by
  obtain ⟨⟨fd, entry⟩, hmem, hwrites⟩ := List.countP_pos_iff.mp h
  have hlookup : t.files.lookup fd = some entry := AList.mem_lookup_iff.mpr hmem
  exact ⟨fd, by simpa [inner, hlookup, FileEntry.writes] using hwrites⟩

/-! ### Tables -/

/-- Every pipe counts its write ends in the table and `extra p` more, that are not in it yet; what
is not handed out yet is not in use. -/
structure Good (t : FileTable) (extra : Nat → Nat) : Prop where
  writers : ∀ p, (t.pipes p).writers = countWriters t.files p + extra p
  below : ∀ fd, t.nextFd ≤ fd → t.files.lookup fd = none
  known : ∀ p, t.nextPipe ≤ p → (t.pipes p).writers = 0

@[simp] theorem drop_nextFd (entry : Option FileEntry) : (t.drop entry).nextFd = t.nextFd := by
  unfold drop
  split <;> rfl

@[simp] theorem drop_nextPipe (entry : Option FileEntry) :
    (t.drop entry).nextPipe = t.nextPipe := by
  unfold drop
  split <;> rfl

theorem drop_writers (entry : Option FileEntry) (p : Nat) :
    ((t.drop entry).pipes p).writers =
      (t.pipes p).writers - entry.elim 0 fun e => unit e.inner p := by
  cases entry with
  | none => rfl
  | some entry =>
      obtain ⟨handle, path⟩ := entry
      cases handle with
      | pipeWriter q =>
          by_cases heq : p = q
          · subst heq
            simp [drop, updatePipe, unit]
          · simp [drop, updatePipe, unit, heq, Ne.symm heq]
      | _ => rfl

@[simp] theorem drop_data (entry : Option FileEntry) (p : Nat) :
    ((t.drop entry).pipes p).data = (t.pipes p).data := by
  unfold drop
  split
  · next q _ =>
      by_cases heq : p = q
      · subst heq
        simp [updatePipe]
      · simp [updatePipe, heq]
  · rfl

theorem tryClone_files {handle inner : Handle} (h : t.tryClone host handle = some (inner, t')) :
    t'.files = t.files := by
  cases handle with
  | regular | tcpStream | tcpListener =>
      simp only [tryClone] at h
      split at h <;> cases h
      rfl
  | _ =>
      cases h
      rfl

theorem nextFd_of_insertFresh {fd : Int} {entry : FileEntry}
    (h : t.insertFresh entry = some (fd, t')) : t'.nextFd = t.nextFd + 1 := by
  obtain ⟨⟨fd, t₁⟩, htake, heq⟩ := Option.map_eq_some_iff.mp h
  cases heq
  unfold takeFd at htake
  split at htake <;> cases htake
  exact drop_nextFd _

theorem fd_of_insertFresh {fd : Int} {entry : FileEntry}
    (h : t.insertFresh entry = some (fd, t')) : fd = t.nextFd := by
  obtain ⟨⟨fd, t₁⟩, htake, heq⟩ := Option.map_eq_some_iff.mp h
  cases heq
  unfold takeFd at htake
  split at htake <;> cases htake
  rfl

namespace Good

variable {extra : Nat → Nat}

theorem insert {fd : Int} {entry : FileEntry}
    (h : t.Good fun p => extra p + unit entry.inner p) (hfd : fd < t.nextFd) :
    (t.insert fd entry).Good extra where
  writers p := by
    have hp := h.writers p
    rw [countWriters_erase t.files fd p] at hp
    rw [FileTable.insert, drop_writers, drop_files, countWriters_insert]
    simp only at hp ⊢
    omega
  below fd' hfd' := by
    rw [FileTable.insert, drop_nextFd] at hfd'
    rw [insert_files, AList.lookup_insert_ne (by simp only at hfd'; omega)]
    exact h.below fd' hfd'
  known p hp := by
    rw [FileTable.insert, drop_nextPipe] at hp
    rw [FileTable.insert, drop_writers]
    simp only [h.known p hp]
    omega

theorem remove (h : t.Good extra) (fd : Int) : (t.remove fd).Good extra where
  writers p := by
    have hp := h.writers p
    rw [countWriters_erase t.files fd p] at hp
    rw [FileTable.remove, drop_writers, drop_files]
    simp only at hp ⊢
    omega
  below fd' hfd' := by
    rw [FileTable.remove, drop_nextFd] at hfd'
    rw [FileTable.remove, drop_files]
    by_cases heq : fd' = fd
    · rw [heq]
      exact AList.lookup_erase _ _
    · exact (AList.lookup_erase_ne heq).trans (h.below fd' hfd')
  known p hp := by
    rw [FileTable.remove, drop_nextPipe] at hp
    rw [FileTable.remove, drop_writers]
    simp only [h.known p hp]
    omega

theorem close (h : t.Good extra) (fd : Int) : (t.close fd).Good extra := by
  by_cases hfd : 2 < fd
  · simp only [FileTable.close, if_pos hfd]
    exact ⟨(h.remove fd).writers, (h.remove fd).below, (h.remove fd).known⟩
  · simp only [FileTable.close, if_neg hfd]
    exact ⟨h.writers, h.below, h.known⟩

theorem takeFd {fd : Int} (h : t.Good extra) (htake : t.takeFd = some (fd, t')) :
    t'.Good extra ∧ fd = t.nextFd ∧ t'.nextFd = t.nextFd + 1 := by
  unfold FileTable.takeFd at htake
  split at htake
  · cases htake
  · cases htake
    exact ⟨⟨h.writers, fun fd hfd => h.below fd (by simp only at hfd; omega), h.known⟩, rfl, rfl⟩

theorem insertFresh {fd : Int} {entry : FileEntry} (h : t.Good fun p => extra p + unit entry.inner p)
    (hinsert : t.insertFresh entry = some (fd, t')) :
    t'.Good extra ∧ t.files.lookup fd = none := by
  obtain ⟨⟨fd, t₁⟩, htake, heq⟩ := Option.map_eq_some_iff.mp hinsert
  cases heq
  obtain ⟨hgood, rfl, hnext⟩ := h.takeFd htake
  exact ⟨hgood.insert (by simp only [hnext]; omega), h.below _ (Int.le_refl _)⟩

theorem tryClone {fd : Int} {handle inner : Handle} (h : t.Good fun _ => 0)
    (hinner : t.inner fd = some handle) (hclone : t.tryClone host handle = some (inner, t')) :
    t'.Good (unit inner) := by
  cases handle with
  | pipeWriter p =>
      cases hclone
      refine ⟨fun q => ?_, h.below, fun q hq => ?_⟩
      · by_cases heq : q = p
        · subst heq
          simpa [updatePipe, unit] using h.writers q
        · simpa [updatePipe, unit, heq, Ne.symm heq] using h.writers q
      · have hpos := countWriters_pos hinner
        have hne : q ≠ p := by
          rintro rfl
          have hzero := h.known q hq
          rw [h.writers] at hzero
          omega
        simpa [updatePipe, hne] using h.known q hq
  | regular | tcpStream | tcpListener =>
      simp only [FileTable.tryClone] at hclone
      split at hclone
      · cases hclone
        exact h
      · cases hclone
  | _ =>
      cases hclone
      exact h

theorem dup {oldFd newFd : Int} (h : t.Good fun _ => 0)
    (hdup : t.dup oldFd newFd host = some (reply, t')) :
    t'.Good (fun _ => 0) ∧ ∀ fd, reply = .fd fd → newFd < 0 → t.files.lookup fd = none := by
  unfold FileTable.dup at hdup
  split at hdup
  · cases hdup
    exact ⟨h, fun _ heq => nomatch heq⟩
  · cases hlookup : t.files.lookup oldFd with
    | none =>
        rw [hlookup] at hdup
        cases hdup
        exact ⟨h, fun _ heq => nomatch heq⟩
    | some entry =>
        rw [hlookup] at hdup
        cases hclone : t.tryClone host entry.inner with
        | none =>
            simp only [hclone] at hdup
            cases hdup
            exact ⟨h, fun _ heq => nomatch heq⟩
        | some cloned =>
            obtain ⟨inner, t₁⟩ := cloned
            have hgood : t₁.Good fun p => 0 + unit inner p := by
              simpa using h.tryClone (by rw [FileTable.inner, hlookup]; rfl) hclone
            simp only [hclone] at hdup
            split at hdup
            · obtain ⟨⟨fd, t₂⟩, hfresh, heq⟩ := Option.map_eq_some_iff.mp hdup
              cases heq
              obtain ⟨hgood', hnone⟩ := hgood.insertFresh hfresh
              refine ⟨hgood', fun fd' heq _ => ?_⟩
              cases heq
              rwa [tryClone_files hclone] at hnone
            · next hnew =>
                cases hdup
                refine ⟨?_, fun _ _ hneg => absurd hneg hnew⟩
                have hclosed := hgood.close newFd
                split
                · next hle =>
                    refine insert ⟨hclosed.writers, fun fd hfd => hclosed.below fd ?_,
                      hclosed.known⟩ (Int.lt_succ newFd)
                    exact Int.le_trans hle (Int.le_trans (Int.le_of_lt (Int.lt_succ _)) hfd)
                · next hlt => exact hclosed.insert (Int.not_le.mp hlt)

theorem pipe (h : t.Good fun _ => 0) (hpipe : t.pipe = some (reply, t')) :
    t'.Good (fun _ => 0) ∧ ∃ readFd writeFd, reply = .fds readFd writeFd ∧ readFd ≠ writeFd ∧
      t.files.lookup readFd = none ∧ t.files.lookup writeFd = none := by
  simp only [FileTable.pipe, Option.bind_eq_bind, Option.bind_eq_some_iff] at hpipe
  obtain ⟨⟨readFd, t₁⟩, hread, ⟨writeFd, t₂⟩, hwrite, heq⟩ := hpipe
  cases heq
  have hnew : Good
      { t with
        pipes := Function.update t.pipes t.nextPipe ⟨[], 1⟩
        nextPipe := t.nextPipe + 1 } (unit (.pipeWriter t.nextPipe)) := by
    refine ⟨fun p => ?_, h.below, fun p hp => ?_⟩
    · have hp := h.writers p
      by_cases heq : p = t.nextPipe
      · subst heq
        rw [h.known _ (Nat.le_refl _)] at hp
        simp only [Function.update_self, unit, if_true]
        omega
      · simpa [unit, heq, Ne.symm heq] using hp
    · have hle : t.nextPipe < p := hp
      simpa [Nat.ne_of_gt hle] using h.known p (Nat.le_of_lt hle)
  obtain ⟨hgood₁, rfl, hnext₁⟩ := hnew.takeFd hread
  obtain ⟨hgood₂, rfl, hnext₂⟩ := hgood₁.takeFd hwrite
  have hreader : t₂.Good fun p => unit (.pipeWriter t.nextPipe) p +
      unit (.pipeReader t.nextPipe) p := hgood₂
  have hwriter : (t₂.insert t.nextFd ⟨.pipeReader t.nextPipe, none⟩).Good
      (unit (.pipeWriter t.nextPipe)) := hreader.insert (by simp only at hnext₁; omega)
  refine ⟨insert (by simpa using hwriter) ?_, _, _, rfl, ?_, h.below _ (Int.le_refl _),
    h.below _ ?_⟩
  · rw [FileTable.insert, drop_nextFd]
    simp only
    omega
  · simp only at hnext₁ ⊢
    omega
  · simp only at hnext₁ ⊢
    omega

theorem fresh {entry : FileEntry} {f : Int → Reply} (hentry : ∀ p, unit entry.inner p = 0)
    (h : t.Good fun _ => 0)
    (hstep : (t.insertFresh entry).map (fun r => (f r.1, r.2)) = some (reply, t')) :
    t'.Good (fun _ => 0) ∧ ∃ fd, reply = f fd ∧ t.files.lookup fd = none := by
  obtain ⟨⟨fd, t₁⟩, hfresh, heq⟩ := Option.map_eq_some_iff.mp hstep
  cases heq
  have hgood : t.Good fun p => 0 + unit entry.inner p := by simpa [hentry] using h
  obtain ⟨hgood', hnone⟩ := hgood.insertFresh hfresh
  exact ⟨hgood', fd, rfl, hnone⟩

theorem openFd {path : Text} {mode : Word} (h : t.Good fun _ => 0)
    (hopen : t.openFd path mode host = some (reply, t')) :
    t'.Good (fun _ => 0) ∧ ∀ fd, reply = .fd fd → openVirtual path mode ≠ .inl fd →
      t.files.lookup fd = none := by
  unfold FileTable.openFd at hopen
  split at hopen
  · split at hopen
    · next hvirtual =>
        cases hopen
        exact ⟨h, fun _ heq hne => absurd (by cases heq; exact hvirtual) hne⟩
    · next handle hvirtual =>
        have hhandle (p : Nat) : unit handle p = 0 := by
          unfold openVirtual at hvirtual
          repeat' split at hvirtual
          all_goals cases hvirtual
          all_goals rfl
        obtain ⟨hgood, fd, rfl, hnone⟩ := h.fresh hhandle hopen
        exact ⟨hgood, fun _ heq _ => by cases heq; exact hnone⟩
  · split at hopen
    · cases hopen
      exact ⟨h, fun _ heq => nomatch heq⟩
    · obtain ⟨hgood, fd, rfl, hnone⟩ := h.fresh (fun _ => rfl) hopen
      exact ⟨hgood, fun _ heq _ => by cases heq; exact hnone⟩

theorem create {path : Text} {mode perm : Word} (h : t.Good fun _ => 0)
    (hcreate : t.create path mode perm host = some (reply, t')) :
    t'.Good (fun _ => 0) ∧ ∀ fd, reply = .fd fd → t.files.lookup fd = none := by
  unfold FileTable.create at hcreate
  split at hcreate
  · cases hcreate
    exact ⟨h, fun _ heq => nomatch heq⟩
  · obtain ⟨hgood, fd, rfl, hnone⟩ := h.fresh (fun _ => rfl) hcreate
    exact ⟨hgood, fun _ heq => by cases heq; exact hnone⟩

/-- The queue of a pipe is of no concern. -/
theorem setData (h : t.Good fun _ => 0) (p : Nat) (f : List Byte → List Byte) :
    (t.updatePipe p fun s => { s with data := f s.data }).Good fun _ => 0 := by
  have hwriters (q : Nat) :
      ((t.updatePipe p fun s => { s with data := f s.data }).pipes q).writers =
        (t.pipes q).writers := by
    by_cases heq : q = p
    · subst heq
      simp [updatePipe]
    · simp [updatePipe, heq]
  exact ⟨fun q => (hwriters q).trans (h.writers q), h.below,
    fun q hq => (hwriters q).trans (h.known q hq)⟩

theorem read {fd : Int} {n : Nat} (h : t.Good fun _ => 0)
    (hread : t.read fd n host = (reply, t')) : t'.Good fun _ => 0 := by
  unfold FileTable.read at hread
  repeat' split at hread
  all_goals cases hread
  all_goals first | exact h | exact h.setData _ (List.drop n)

theorem write {fd : Int} {buf : List Byte} (h : t.Good fun _ => 0)
    (hwrite : t.write fd buf host = (reply, t')) : t'.Good fun _ => 0 := by
  unfold FileTable.write at hwrite
  repeat' split at hwrite
  all_goals cases hwrite
  all_goals first | exact h | exact h.setData _ (· ++ buf)

theorem acceptOn {fd : Int} (h : t.Good fun _ => 0)
    (haccept : t.acceptOn fd host = some (reply, t')) :
    t'.Good (fun _ => 0) ∧ ∀ fd' addr, reply = .accepted fd' addr → t.files.lookup fd' = none := by
  cases hlookup : t.files.lookup fd with
  | none =>
      simp only [FileTable.acceptOn, hlookup] at haccept
      cases haccept
      exact ⟨h, fun _ _ heq => by cases heq⟩
  | some entry =>
      have hout : Good { t with files := t.files.erase fd } fun p => 0 + unit entry.inner p := by
        refine ⟨fun p => ?_, fun fd' hfd' => ?_, h.known⟩
        · have hp := h.writers p
          rw [countWriters_erase t.files fd p, hlookup] at hp
          simpa using hp
        · by_cases heq : fd' = fd
          · rw [heq]
            exact AList.lookup_erase _ _
          · exact (AList.lookup_erase_ne heq).trans (h.below fd' hfd')
      have hfd : fd < t.nextFd := by
        by_contra hge
        rw [h.below fd (Int.not_lt.mp hge)] at hlookup
        cases hlookup
      simp only [FileTable.acceptOn, hlookup] at haccept
      split at haccept
      · next n hinner =>
          have hunit (p : Nat) : unit entry.inner p = 0 := by rw [hinner]; rfl
          simp only [hunit, Nat.add_zero] at hout
          split at haccept
          · cases haccept
            have hdrop : ({ t with files := t.files.erase fd } : FileTable).drop (some entry) =
                { t with files := t.files.erase fd } := by
              obtain ⟨handle, path⟩ := entry
              cases hinner
              rfl
            rw [hdrop]
            exact ⟨hout, fun _ _ heq => by cases heq⟩
          · obtain ⟨⟨fd', t₁⟩, hfresh, heq⟩ := Option.map_eq_some_iff.mp haccept
            cases heq
            obtain ⟨hgood, hnone⟩ := Good.insertFresh hout hfresh
            have hnext := nextFd_of_insertFresh hfresh
            refine ⟨insert (by simpa [hunit] using hgood) (by simp only at hnext ⊢; omega), ?_⟩
            intro fd'' addr heq
            cases heq
            by_cases heq : fd' = fd
            · have hnew := fd_of_insertFresh hfresh
              simp only at hnew
              omega
            · rw [← hnone]
              exact (AList.lookup_erase_ne heq).symm
      · cases haccept
        exact ⟨insert hout hfd, fun _ _ heq => by cases heq⟩

end Good

/-! ### Streams -/

/-- What a pipe's descriptors see: bytes that are put into it, and bytes that are taken out. -/
inductive Event where
  | put (p : Nat) (data : List Byte)
  | took (p : Nat) (data : List Byte)

def written (p : Nat) (events : List Event) : List Byte :=
  events.flatMap fun
    | .put q data => if q = p then data else []
    | .took _ _ => []

def taken (p : Nat) (events : List Event) : List Byte :=
  events.flatMap fun
    | .put _ _ => []
    | .took q data => if q = p then data else []

/-- What an operation has done to a pipe. -/
def events (t : FileTable) (request : Request) (reply : Reply) : List Event :=
  match request, reply with
  | .write fd buf, .count _ =>
    match t.inner fd with
    | some (.pipeWriter p) => [.put p buf]
    | _ => []
  | .read fd _, .bytes data =>
    match t.inner fd with
    | some (.pipeReader p) => [.took p data]
    | _ => []
  | _, _ => []

/-- Is it a read or a write? -/
def Request.transfers : Request → Bool
  | .read _ _ | .write _ _ => true
  | _ => false

theorem events_quiet {request : Request} (h : Request.transfers request = false) :
    t.events request reply = [] := by
  cases request with
  | read | write => cases h
  | _ => cases reply <;> rfl

/-- The descriptors that an operation has handed out as new. -/
def freshFds (request : Request) (reply : Reply) : List Int :=
  match request, reply with
  | .pipe, .fds readFd writeFd => [readFd, writeFd]
  | .dup _ newFd, .fd fd => if newFd < 0 then [fd] else []
  | .openFd path mode, .fd fd => if openVirtual path mode = .inl fd then [] else [fd]
  | .create _ _ _, .fd fd => [fd]
  | .accept _, .accepted fd _ => [fd]
  | _, _ => []

/-- Any operations, one after the other, with any answers of the host. -/
inductive Reaches (root : Text) : FileTable → List Event → Prop
  | new : Reaches root (withRoot root) []
  | step {t t' : FileTable} {trace : List Event} {reply : Reply} (host : Host) (request : Request)
      (h : Reaches root t trace) (hstep : t.step host request = some (reply, t')) :
      Reaches root t' (trace ++ t.events request reply)

theorem Good.step {request : Request} (h : t.Good fun _ => 0)
    (hstep : t.step host request = some (reply, t')) :
    t'.Good (fun _ => 0) ∧ (freshFds request reply).Nodup ∧
      ∀ fd ∈ freshFds request reply, t.files.lookup fd = none := by
  cases request with
  | openFd path mode =>
      obtain ⟨hgood, hfresh⟩ := h.openFd hstep
      refine ⟨hgood, ?_⟩
      cases reply with
      | fd fd =>
          by_cases hold : openVirtual path mode = .inl fd
          · simp [freshFds, hold]
          · simpa [freshFds, hold] using hfresh fd rfl hold
      | _ => simp [freshFds]
  | create path mode perm =>
      obtain ⟨hgood, hfresh⟩ := h.create hstep
      refine ⟨hgood, ?_⟩
      cases reply with
      | fd fd => simpa [freshFds] using hfresh fd rfl
      | _ => simp [freshFds]
  | pipe =>
      obtain ⟨hgood, readFd, writeFd, rfl, hne, hread, hwrite⟩ := h.pipe hstep
      exact ⟨hgood, by simpa [freshFds] using hne, by simp [freshFds, hread, hwrite]⟩
  | dup oldFd newFd =>
      obtain ⟨hgood, hfresh⟩ := h.dup hstep
      refine ⟨hgood, ?_⟩
      cases reply with
      | fd fd =>
          by_cases hneg : newFd < 0
          · simpa [freshFds, hneg] using hfresh fd rfl hneg
          · simp [freshFds, hneg]
      | _ => simp [freshFds]
  | accept fd =>
      obtain ⟨hgood, hfresh⟩ := h.acceptOn hstep
      refine ⟨hgood, ?_⟩
      cases reply with
      | accepted fd' addr => simpa [freshFds] using hfresh fd' addr rfl
      | _ => simp [freshFds]
  | read fd n => exact ⟨h.read (Option.some.inj hstep), by simp [freshFds], by simp [freshFds]⟩
  | write fd buf => exact ⟨h.write (Option.some.inj hstep), by simp [freshFds], by simp [freshFds]⟩
  | seek fd =>
      rw [seek_keeps (Option.some.inj hstep)]
      exact ⟨h, by simp [freshFds], by simp [freshFds]⟩
  | close fd =>
      cases hstep
      exact ⟨h.close fd, by simp [freshFds], by simp [freshFds]⟩
  | setOwner fd owner =>
      cases hstep
      exact ⟨⟨h.writers, h.below, h.known⟩, by simp [freshFds], by simp [freshFds]⟩
  | setDirOffset fd offset =>
      cases hstep
      exact ⟨⟨h.writers, h.below, h.known⟩, by simp [freshFds], by simp [freshFds]⟩

/-! Only reads, writes and new pipes change what is queued. -/

theorem insert_data (fd : Int) (entry : FileEntry) (p : Nat) :
    ((t.insert fd entry).pipes p).data = (t.pipes p).data := drop_data _ _

theorem takeFd_pipes {fd : Int} (h : t.takeFd = some (fd, t')) :
    t'.pipes = t.pipes ∧ t'.nextPipe = t.nextPipe := by
  unfold takeFd at h
  split at h <;> cases h
  exact ⟨rfl, rfl⟩

theorem insertFresh_data {fd : Int} {entry : FileEntry} (h : t.insertFresh entry = some (fd, t'))
    (p : Nat) : (t'.pipes p).data = (t.pipes p).data ∧ t'.nextPipe = t.nextPipe := by
  obtain ⟨⟨fd, t₁⟩, htake, heq⟩ := Option.map_eq_some_iff.mp h
  cases heq
  obtain ⟨hpipes, hnext⟩ := takeFd_pipes htake
  exact ⟨by rw [insert_data, hpipes], (drop_nextPipe _).trans hnext⟩

theorem tryClone_data {handle inner : Handle} (h : t.tryClone host handle = some (inner, t'))
    (p : Nat) : (t'.pipes p).data = (t.pipes p).data ∧ t'.nextPipe = t.nextPipe := by
  cases handle with
  | pipeWriter q =>
      cases h
      by_cases heq : p = q
      · subst heq
        simp [updatePipe]
      · simp [updatePipe, heq]
  | regular | tcpStream | tcpListener =>
      simp only [tryClone] at h
      split at h <;> cases h
      exact ⟨rfl, rfl⟩
  | _ =>
      cases h
      exact ⟨rfl, rfl⟩

theorem close_data (fd : Int) (p : Nat) :
    ((t.close fd).pipes p).data = (t.pipes p).data ∧ (t.close fd).nextPipe = t.nextPipe := by
  by_cases hfd : 2 < fd
  · simp [close, hfd, remove]
  · simp [close, hfd]

theorem fresh_data {entry : FileEntry} {f : Int → Reply}
    (h : (t.insertFresh entry).map (fun r => (f r.1, r.2)) = some (reply, t')) (p : Nat) :
    (t'.pipes p).data = (t.pipes p).data ∧ t'.nextPipe = t.nextPipe := by
  obtain ⟨⟨fd, t₁⟩, hfresh, heq⟩ := Option.map_eq_some_iff.mp h
  cases heq
  exact insertFresh_data hfresh p

theorem dup_data {oldFd newFd : Int} (h : t.dup oldFd newFd host = some (reply, t')) (p : Nat) :
    (t'.pipes p).data = (t.pipes p).data ∧ t'.nextPipe = t.nextPipe := by
  unfold dup at h
  split at h
  · cases h
    exact ⟨rfl, rfl⟩
  · split at h
    · cases h
      exact ⟨rfl, rfl⟩
    · split at h
      · cases h
        exact ⟨rfl, rfl⟩
      · next inner t₁ hclone =>
          obtain ⟨hdata, hnext⟩ := tryClone_data hclone p
          split at h
          · obtain ⟨hdata', hnext'⟩ := fresh_data h p
            exact ⟨hdata'.trans hdata, hnext'.trans hnext⟩
          · cases h
            obtain ⟨hdata', hnext'⟩ := close_data (t := t₁) newFd p
            rw [insert_data, insert, drop_nextPipe]
            split
            all_goals exact ⟨hdata'.trans hdata, hnext'.trans hnext⟩

theorem acceptOn_data {fd : Int} (h : t.acceptOn fd host = some (reply, t')) (p : Nat) :
    (t'.pipes p).data = (t.pipes p).data ∧ t'.nextPipe = t.nextPipe := by
  unfold acceptOn at h
  split at h
  · cases h
    exact ⟨rfl, rfl⟩
  · split at h
    · split at h
      · cases h
        exact ⟨drop_data _ _, drop_nextPipe _⟩
      · obtain ⟨⟨fd', t₁⟩, hfresh, heq⟩ := Option.map_eq_some_iff.mp h
        cases heq
        obtain ⟨hdata, hnext⟩ := insertFresh_data hfresh p
        exact ⟨(insert_data _ _ _).trans hdata, (drop_nextPipe _).trans hnext⟩
    · cases h
      exact ⟨insert_data _ _ _, drop_nextPipe _⟩

/-- A pipe holds what was written to it and not taken out yet. -/
structure Streams (t : FileTable) (trace : List Event) : Prop where
  queue : ∀ p, written p trace = taken p trace ++ (t.pipes p).data
  new : ∀ p, t.nextPipe ≤ p → written p trace = []

namespace Streams

variable {trace : List Event}

theorem keep (h : t.Streams trace)
    (hdata : ∀ p, (t'.pipes p).data = (t.pipes p).data ∧ t'.nextPipe = t.nextPipe) :
    t'.Streams trace :=
  ⟨fun p => by rw [(hdata p).1]; exact h.queue p, fun p hp => h.new p ((hdata p).2 ▸ hp)⟩

theorem pipe (h : t.Streams trace) (hpipe : t.pipe = some (reply, t')) : t'.Streams trace := by
  simp only [FileTable.pipe, Option.bind_eq_bind, Option.bind_eq_some_iff] at hpipe
  obtain ⟨⟨readFd, t₁⟩, hread, ⟨writeFd, t₂⟩, hwrite, heq⟩ := hpipe
  cases heq
  obtain ⟨hpipes₁, hnext₁⟩ := takeFd_pipes hread
  obtain ⟨hpipes₂, hnext₂⟩ := takeFd_pipes hwrite
  have hpipes := hpipes₂.trans hpipes₁
  have hnext := hnext₂.trans hnext₁
  refine ⟨fun p => ?_, fun p hp => ?_⟩
  · rw [insert_data, insert_data, hpipes]
    by_cases heq : p = t.nextPipe
    · -- nothing was written to a pipe that did not exist
      have hqueue := h.queue p
      have hnew := h.new p (Nat.le_of_eq heq.symm)
      rw [hnew] at hqueue ⊢
      have htaken := (List.append_eq_nil_iff.mp hqueue.symm).1
      rw [htaken, heq]
      simp
    · simpa [heq] using h.queue p
  · rw [FileTable.insert, drop_nextPipe] at hp
    simp only [FileTable.insert, drop_nextPipe, hnext] at hp
    exact h.new p (Nat.le_of_succ_le hp)

theorem read {fd : Int} {n : Nat} (h : t.Streams trace)
    (hread : t.read fd n host = (reply, t')) :
    t'.Streams (trace ++ t.events (.read fd n) reply) := by
  unfold FileTable.read at hread
  split at hread
  · cases hread
    simpa [events] using h
  · next p hinner =>
      split at hread
      · cases hread
        exact ⟨fun q => by simpa [events, hinner, written, taken] using h.queue q,
          fun q hq => by simpa [events, hinner, written] using h.new q hq⟩
      · split at hread
        · cases hread
          refine ⟨fun q => ?_, fun q hq => by simpa [events, hinner, written] using h.new q hq⟩
          have hqueue := h.queue q
          by_cases heq : q = p
          · subst heq
            simpa [events, hinner, written, taken, updatePipe] using hqueue
          · simpa [events, hinner, written, taken, updatePipe, heq, Ne.symm heq] using hqueue
        · split at hread
          · cases hread
            exact ⟨fun q => by simpa [events, hinner, written, taken] using h.queue q,
              fun q hq => by simpa [events, hinner, written] using h.new q hq⟩
          · cases hread
            simpa [events] using h
  · cases hread
    simpa [events] using h
  · next handle hreader hwriter hinner =>
      have hevents : t.events (.read fd n) reply = [] := by
        cases reply <;> simp only [events]
        rw [hinner]
        split <;> simp_all
      rw [hevents, List.append_nil]
      split at hread <;> cases hread <;> exact h

theorem write {fd : Int} {buf : List Byte} (h : t.Streams trace) (hgood : t.Good fun _ => 0)
    (hwrite : t.write fd buf host = (reply, t')) :
    t'.Streams (trace ++ t.events (.write fd buf) reply) := by
  unfold FileTable.write at hwrite
  split at hwrite
  · cases hwrite
    simpa [events] using h
  · next p hinner =>
      cases hwrite
      have hpos := countWriters_pos hinner
      refine ⟨fun q => ?_, fun q hq => ?_⟩
      · have hqueue := h.queue q
        by_cases heq : q = p
        · subst heq
          simp only [written, taken] at hqueue
          simp [events, hinner, written, taken, updatePipe, hqueue]
        · simpa [events, hinner, written, taken, updatePipe, heq, Ne.symm heq] using hqueue
      · have hne : p ≠ q := by
          rintro rfl
          have hzero := hgood.known p hq
          rw [hgood.writers] at hzero
          omega
        simpa [events, hinner, written, hne] using h.new q hq
  · cases hwrite
    simpa [events] using h
  · next handle hwriter hreader hinner =>
      have hevents : t.events (.write fd buf) reply = [] := by
        cases reply <;> simp only [events]
        rw [hinner]
        split <;> simp_all
      rw [hevents, List.append_nil]
      split at hwrite <;> cases hwrite <;> exact h

theorem step {request : Request} (h : t.Streams trace) (hgood : t.Good fun _ => 0)
    (hstep : t.step host request = some (reply, t')) :
    t'.Streams (trace ++ t.events request reply) := by
  cases request with
  | read fd n => exact h.read (Option.some.inj hstep)
  | write fd buf => exact h.write hgood (Option.some.inj hstep)
  | pipe =>
      rw [events_quiet rfl, List.append_nil]
      exact h.pipe hstep
  | openFd path mode =>
      rw [events_quiet rfl, List.append_nil]
      refine h.keep fun p => ?_
      simp only [FileTable.step, openFd] at hstep
      split at hstep
      · split at hstep
        · cases hstep
          exact ⟨rfl, rfl⟩
        · exact fresh_data hstep p
      · split at hstep
        · cases hstep
          exact ⟨rfl, rfl⟩
        · exact fresh_data hstep p
  | create path mode perm =>
      rw [events_quiet rfl, List.append_nil]
      refine h.keep fun p => ?_
      simp only [FileTable.step, create] at hstep
      split at hstep
      · cases hstep
        exact ⟨rfl, rfl⟩
      · exact fresh_data hstep p
  | dup oldFd newFd =>
      rw [events_quiet rfl, List.append_nil]
      exact h.keep (dup_data hstep)
  | accept fd =>
      rw [events_quiet rfl, List.append_nil]
      exact h.keep (acceptOn_data hstep)
  | seek fd =>
      rw [events_quiet rfl, List.append_nil, seek_keeps (Option.some.inj hstep)]
      exact h
  | close fd =>
      cases hstep
      rw [events_quiet rfl, List.append_nil]
      exact h.keep (close_data fd)
  | setOwner fd owner | setDirOffset fd owner =>
      cases hstep
      rw [events_quiet rfl, List.append_nil]
      exact ⟨h.queue, h.new⟩

end Streams

theorem Good.withRoot (root : Text) : (withRoot root).Good fun _ => 0 where
  writers _ := rfl
  below fd hfd := by
    have hle : 3 ≤ fd := hfd
    simp only [FileTable.withRoot]
    rw [AList.lookup_insert_ne (by omega), AList.lookup_insert_ne (by omega),
      AList.lookup_insert_ne (by omega)]
    rfl
  known _ _ := rfl

namespace Reaches

variable {root : Text} {trace : List Event}

theorem good (h : Reaches root t trace) : t.Good fun _ => 0 := by
  induction h with
  | new => exact .withRoot root
  | step _ _ _ hstep ih => exact (ih.step hstep).1

theorem streams (h : Reaches root t trace) : t.Streams trace := by
  induction h with
  | new => exact ⟨fun _ => rfl, fun _ _ => rfl⟩
  | step _ _ h hstep ih => exact ih.step h.good hstep

end Reaches

/-- Does a descriptor refer to the pipe's write end? -/
def HasWriter (t : FileTable) (p : Nat) : Prop := ∃ fd, t.inner fd = some (.pipeWriter p)

theorem Good.hasWriter_iff (h : t.Good fun _ => 0) (p : Nat) :
    t.HasWriter p ↔ (t.pipes p).writers ≠ 0 := by
  rw [h.writers p, Nat.add_zero]
  exact ⟨fun ⟨_, hfd⟩ => Nat.ne_of_gt (countWriters_pos hfd),
    fun hne => exists_of_countWriters (Nat.pos_of_ne_zero hne)⟩

/-- A read of an empty pipe, with room for a byte at least. -/
theorem read_empty {fd : Int} {n : Nat} (hinner : t.inner fd = some (.pipeReader p))
    (hempty : (t.pipes p).data = []) (hn : 0 < n) (host : Host) :
    (t.read fd n host).1 = if (t.pipes p).writers = 0 then .bytes [] else .error .wouldBlock := by
  simp only [read, hinner, hempty]
  rw [if_neg (Nat.ne_of_gt hn), if_neg (by simp)]
  split <;> rfl

/-- What the pipes of a table do, after any operations. -/
theorem pipes_are_streams {root : Text} {trace : List Event} (h : Reaches root t trace) :
    (∀ p, taken p trace <+: written p trace ∧
      written p trace = taken p trace ++ (t.pipes p).data) ∧
    (∀ fd p, t.inner fd = some (.pipeReader p) → written p trace = taken p trace →
      ∀ n host, 0 < n →
        ((t.read fd n host).1 = .bytes [] ↔ ¬ t.HasWriter p) ∧
        ((t.read fd n host).1 = .error .wouldBlock ↔ t.HasWriter p)) ∧
    ∀ host request reply t', t.step host request = some (reply, t') →
      (freshFds request reply).Nodup ∧ ∀ fd ∈ freshFds request reply, t.inner fd = none := by
  refine ⟨fun p => ?_, fun fd p hinner hread n host hn => ?_, fun host request reply t' hstep => ?_⟩
  · have hqueue := h.streams.queue p
    exact ⟨hqueue ▸ List.prefix_append _ _, hqueue⟩
  · have hqueue := h.streams.queue p
    rw [hread] at hqueue
    have hempty : (t.pipes p).data = [] := List.append_right_eq_self.mp hqueue.symm
    rw [read_empty hinner hempty hn, h.good.hasWriter_iff]
    by_cases hzero : (t.pipes p).writers = 0
    · rw [if_pos hzero]
      simp [hzero]
    · rw [if_neg hzero]
      simp [hzero]
  · obtain ⟨-, hnodup, hfresh⟩ := h.good.step hstep
    exact ⟨hnodup, fun fd hmem => by rw [inner, hfresh fd hmem]; rfl⟩

theorem pipes_are_streams_blocks : ∃ t, Reaches [] t [] ∧ (t.read 3 1 Host.down).1 =
    .error .wouldBlock :=
  ⟨_, .step Host.down .pipe .new rfl, ((pipes_are_streams (.step Host.down .pipe .new rfl)).2.1 3 0
    rfl rfl 1 Host.down Nat.one_pos).2.mpr ⟨4, rfl⟩⟩

/-- A read of no bytes does not block, whether or not the pipe has a writer. -/
theorem empty_read_not_blocked :
    ∃ t trace, Reaches [] t trace ∧ t.inner 3 = some (.pipeReader 0) ∧ t.HasWriter 0 ∧
      written 0 trace = taken 0 trace ∧ (t.read 3 0 Host.down).1 = .bytes [] :=
  ⟨_, _, .step Host.down .pipe .new rfl, rfl, ⟨4, rfl⟩, rfl, rfl⟩

end RiceVM.Filetab.FileTable
