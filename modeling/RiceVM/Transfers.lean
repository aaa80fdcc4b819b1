import RiceVM.Ops.Transfer
import RiceVM.Views

/-!
What the transfer loops make of any answers of the handles: the bytes that were read and the bytes
that were accepted, in the order of the calls.
-/
namespace RiceVM
open Exec Memory Buffer Ops

namespace HandleCall

def bytesRead (fd : Word) : HandleCall → List Byte
  | .read fd' bytes => if fd' = fd then bytes else []
  | _ => []

/-- What was accepted is the beginning of what was offered. -/
def bytesPassed (fd : Word) : HandleCall → List Byte
  | .wrote fd' buf n => if fd' = fd then buf.take n else []
  | _ => []

/-- A write that was accepted whole. -/
def Whole : HandleCall → Prop
  | .wrote _ buf n => n = buf.length
  | _ => True

instance : DecidablePred Whole
  | .wrote _ buf n => inferInstanceAs (Decidable (n = buf.length))
  | .read .. | .refused _ => .isTrue trivial

end HandleCall

/-- The bytes read from a descriptor, first to last. -/
def received (fd : Word) (calls : List HandleCall) : List Byte :=
  calls.reverse.flatMap (·.bytesRead fd)

/-- The bytes a descriptor accepted, first to last. -/
def passed (fd : Word) (calls : List HandleCall) : List Byte :=
  calls.reverse.flatMap (·.bytesPassed fd)

/-- The last answer was an error. -/
def Failed : List HandleCall → Prop
  | .refused _ :: _ => True
  | _ => False

instance : DecidablePred Failed
  | .refused _ :: _ => .isTrue trivial
  | [] | .read .. :: _ | .wrote .. :: _ => .isFalse not_false

theorem received_append (fd : Word) (later before : List HandleCall) :
    received fd (later ++ before) = received fd before ++ received fd later := by
  rw [received, List.reverse_append, List.flatMap_append]
  rfl

theorem passed_append (fd : Word) (later before : List HandleCall) :
    passed fd (later ++ before) = passed fd before ++ passed fd later := by
  rw [passed, List.reverse_append, List.flatMap_append]
  rfl

/-- The errors that a read waited through. -/
def OnlyWaited (fd : Word) (calls : List HandleCall) : Prop := ∀ c ∈ calls, c = .refused fd

theorem OnlyWaited.cons {fd : Word} {calls : List HandleCall} (h : OnlyWaited fd calls) :
    OnlyWaited fd (.refused fd :: calls) := List.forall_mem_cons.mpr ⟨rfl, h⟩

theorem OnlyWaited.nil (fd : Word) : OnlyWaited fd [] := fun _ hc => absurd hc List.not_mem_nil

theorem OnlyWaited.append {fd : Word} {later before : List HandleCall} (hl : OnlyWaited fd later)
    (hb : OnlyWaited fd before) : OnlyWaited fd (later ++ before) := fun c hc =>
  (List.mem_append.mp hc).elim (hl c) (hb c)

theorem OnlyWaited.silent {fd d : Word} {calls : List HandleCall} (h : OnlyWaited fd calls) :
    received d calls = [] ∧ passed d calls = [] ∧ ∀ c ∈ calls, c.Whole := by
  refine ⟨List.flatMap_eq_nil_iff.mpr fun c hc => ?_, List.flatMap_eq_nil_iff.mpr fun c hc => ?_,
    fun c hc => ?_⟩
  · rw [h c (List.mem_reverse.mp hc)]
    rfl
  · rw [h c (List.mem_reverse.mp hc)]
    rfl
  · rw [h c hc]
    trivial

section
variable {σ : Type} {handles : Handles σ} {s t u : Transfer σ} {fd : Word} {len fuel : Nat}

/-- A property of the heap that the other threads keep. -/
def Handles.Keep (handles : Handles σ) (P : Heap → Prop) : Prop :=
  ∀ vm host ran vm' host', handles.runOtherVmThread (vm, host) = .ok ran (vm', host') →
    P vm.heap → P vm'.heap

/-- A read that came to an end: it waited, and what it gives back is its last answer. -/
structure ReadDone (handles : Handles σ) (fd : Word) (len : Nat) (s t : Transfer σ)
    (result : Except HostError (List Byte)) : Prop where
  calls : ∃ waits, OnlyWaited fd waits ∧ t.calls = (match result with
    | .ok bytes => .read fd bytes
    | .error _ => .refused fd) :: (waits ++ s.calls)
  length : ∀ bytes, result = .ok bytes → bytes.length ≤ len
  heap : ∀ P, handles.Keep P → P s.vm.heap → P t.vm.heap

variable {result : Except HostError (List Byte)}

theorem filesRead_done (h : filesRead handles fd len s = .ok result t) :
    ReadDone handles fd len s t result ∧ t.vm = s.vm := by
  unfold filesRead at h
  cases h
  refine ⟨⟨⟨[], OnlyWaited.nil fd, ?_⟩, fun bytes hok => handles.read_le hok, fun _ _ hP => hP⟩, rfl⟩
  cases (handles.read fd len s.host).1 <;> rfl

/-- A read after an answer that there is nothing yet. -/
theorem ReadDone.after {e : HostError} (hd : ReadDone handles fd len u t result)
    (hu : ReadDone handles fd len s u (.error e)) : ReadDone handles fd len s t result := by
  obtain ⟨waits, hwaits, hcalls⟩ := hd.calls
  obtain ⟨waits', hwaits', hcalls'⟩ := hu.calls
  refine ⟨⟨waits ++ .refused fd :: waits', hwaits.append hwaits'.cons, ?_⟩, hd.length,
    fun P hkeep hP => hd.heap P hkeep (hu.heap P hkeep hP)⟩
  rw [hcalls, hcalls', List.append_assoc]
  rfl

theorem readBlocking_done (h : readBlocking handles fd len fuel s = .ok result t) :
    ReadDone handles fd len s t result := by
  induction fuel generalizing s with
  | zero => cases h
  | succ fuel ih =>
      unfold readBlocking at h
      obtain ⟨answer, u, hread, h⟩ := bind_eq_ok.mp h
      have hdone := (filesRead_done hread).1
      cases answer with
      | ok bytes =>
          cases h
          exact hdone
      | error e =>
          dsimp only at h
          rw [bind_ok (get_apply u)] at h
          split at h
          · exact (ih h).after hdone
          · cases h
            exact hdone

theorem letOtherRun_calls {ran : Bool} (h : letOtherRun handles s = .ok ran t) :
    t.calls = s.calls ∧ ∀ P, handles.Keep P → P s.vm.heap → P t.vm.heap := by
  unfold letOtherRun at h
  cases hrun : handles.runOtherVmThread (s.vm, s.host) with
  | ok ran' u =>
      rw [hrun] at h
      cases h
      exact ⟨rfl, fun P hkeep hP => hkeep _ _ _ _ _ hrun hP⟩
  | error | panic | diverge =>
      rw [hrun] at h
      cases h

/-- A read after another thread had its turn. -/
theorem ReadDone.afterOther {ran : Bool} (hd : ReadDone handles fd len u t result)
    (hu : letOtherRun handles s = .ok ran u) : ReadDone handles fd len s t result := by
  obtain ⟨hcalls, hheap⟩ := letOtherRun_calls hu
  exact ⟨hcalls ▸ hd.calls, hd.length, fun P hkeep hP => hd.heap P hkeep (hheap P hkeep hP)⟩

theorem readWaitRecord_done {bytes : List Byte}
    (h : readWaitRecord handles fd len fuel s = .ok bytes t) :
    ReadDone handles fd len s t (.ok bytes) := by
  induction fuel generalizing s with
  | zero => cases h
  | succ fuel ih =>
      unfold readWaitRecord at h
      rw [bind_ok (get_apply s)] at h
      cases hrecords : s.vm.waitRecords with
      | cons record rest =>
          rw [hrecords] at h
          cases h
          refine ⟨⟨[], OnlyWaited.nil fd, rfl⟩, ?_, fun _ _ hP => hP⟩
          rintro _ ⟨⟩
          rw [List.length_take]
          exact Nat.min_le_left _ _
      | nil =>
          rw [hrecords] at h
          obtain ⟨ran, u, hother, h⟩ := bind_eq_ok.mp h
          split at h
          · exact (ih h).afterOther hother
          · cases h
            refine ReadDone.afterOther ⟨⟨[], OnlyWaited.nil fd, rfl⟩, ?_, fun _ _ hP => hP⟩ hother
            rintro _ ⟨⟩
            exact Nat.zero_le _

theorem readFdLoop_done (h : readFdLoop handles fd len fuel s = .ok result t) :
    ReadDone handles fd len s t result := by
  induction fuel generalizing s with
  | zero => cases h
  | succ fuel ih =>
      unfold readFdLoop at h
      obtain ⟨answer, u, hread, h⟩ := bind_eq_ok.mp h
      have hdone := (filesRead_done hread).1
      cases answer with
      | ok bytes =>
          cases h
          exact hdone
      | error e =>
          dsimp only at h
          split at h
          · obtain ⟨ran, v, hother, h⟩ := bind_eq_ok.mp h
            split at h
            · exact ((ih h).afterOther hother).after hdone
            · exact ((readBlocking_done h).afterOther hother).after hdone
          · cases h
            exact hdone

theorem readFd_done (h : readFd handles fd len fuel s = .ok result t) :
    ReadDone handles fd len s t result := by
  unfold readFd at h
  rw [bind_ok (get_apply s)] at h
  split at h
  · obtain ⟨bytes, u, hrecord, h⟩ := bind_eq_ok.mp h
    cases h
    exact readWaitRecord_done hrecord
  · exact readFdLoop_done h

/-! ### The copy from one descriptor to another -/

/-- What a copy came to over its calls, after `total` bytes. -/
structure Relayed (srcFd dstFd : Word) (total : Nat) (calls : List HandleCall) (r : Word) :
    Prop where
  some : calls ≠ []
  failed : Failed calls → r = -1
  count : ¬ Failed calls → r = .ofNat 32 (total + (passed dstFd calls).length)
  short : (passed dstFd calls).length ≤ (received srcFd calls).length
  whole : ¬ Failed calls → (∀ c ∈ calls, c.Whole) → passed dstFd calls = received srcFd calls
  exact : ¬ Failed calls → (received srcFd calls).length ≤ (passed dstFd calls).length →
    ∀ c ∈ calls, c.Whole

theorem received_read (fd : Word) (bytes : List Byte) {waits : List HandleCall}
    (hw : OnlyWaited fd waits) : received fd (.read fd bytes :: waits) = bytes := by
  rw [← List.singleton_append, received_append, (hw.silent (d := fd)).1, List.nil_append]
  simp only [received, List.reverse_singleton, List.flatMap_singleton, HandleCall.bytesRead, if_true]

/-- A copy that failed. -/
theorem Relayed.ofFailed {srcFd dstFd fd' : Word} {total : Nat} {before : List HandleCall}
    (hpassed : passed dstFd before = []) : Relayed srcFd dstFd total (.refused fd' :: before) (-1) := by
  have hsame : passed dstFd (.refused fd' :: before) = [] := by
    rw [← List.singleton_append, passed_append, hpassed]
    rfl
  refine ⟨List.cons_ne_nil _ _, fun _ => rfl, fun hnot => absurd trivial hnot, ?_,
    fun hnot => absurd trivial hnot, fun hnot => absurd trivial hnot⟩
  rw [hsame]
  exact Nat.zero_le _

/-- A copy after a chunk was read and `n` bytes of it accepted. -/
theorem Relayed.chunk {srcFd dstFd : Word} {total n : Nat} {bytes : List Byte}
    {later waits : List HandleCall} {r : Word} (hw : OnlyWaited srcFd waits) (hn : n ≤ bytes.length)
    (hr : Relayed srcFd dstFd (total + n) later r) :
    Relayed srcFd dstFd total (later ++ .wrote dstFd bytes n :: .read srcFd bytes :: waits) r := by
  have hfailed : Failed (later ++ .wrote dstFd bytes n :: .read srcFd bytes :: waits) ↔
      Failed later := by
    cases hlater : later with
    | nil => exact absurd hlater hr.some
    | cons c rest => cases c <;> exact Iff.rfl
  have hreceived : received srcFd (later ++ .wrote dstFd bytes n :: .read srcFd bytes :: waits) =
      bytes ++ received srcFd later := by
    rw [received_append, ← List.singleton_append, received_append, received_read srcFd bytes hw]
    simp only [received, List.reverse_singleton, List.flatMap_singleton, HandleCall.bytesRead,
      List.append_nil]
  have hpassed : passed dstFd (later ++ .wrote dstFd bytes n :: .read srcFd bytes :: waits) =
      bytes.take n ++ passed dstFd later := by
    rw [passed_append, ← List.singleton_append, passed_append, ← List.singleton_append,
      passed_append, hw.silent.2.1]
    simp only [passed, List.reverse_singleton, List.flatMap_singleton, HandleCall.bytesPassed,
      if_true, List.nil_append]
  have htake : (bytes.take n).length = n := by rw [List.length_take, Nat.min_eq_left hn]
  have hshort := hr.short
  refine ⟨List.append_ne_nil_of_left_ne_nil hr.some _, fun h => hr.failed (hfailed.mp h),
    fun hnot => ?_, ?_, fun hnot hall => ?_, fun hnot hlong c hc => ?_⟩
  · rw [hr.count fun h => hnot (hfailed.mpr h), hpassed, List.length_append, htake, Nat.add_assoc]
  · rw [hpassed, hreceived, List.length_append, List.length_append, htake]
    exact Nat.add_le_add hn hshort
  · have hnAll : n = bytes.length := hall (.wrote dstFd bytes n)
      (List.mem_append_right _ List.mem_cons_self)
    rw [hpassed, hreceived, hnAll, List.take_length,
      hr.whole (fun h => hnot (hfailed.mpr h)) fun c hc => hall c (List.mem_append_left _ hc)]
  · rw [hpassed, hreceived, List.length_append, List.length_append, htake] at hlong
    rcases List.mem_append.mp hc with hlater | hchunk
    · exact hr.exact (fun h => hnot (hfailed.mpr h)) (by omega) c hlater
    · rcases List.mem_cons.mp hchunk with rfl | hchunk
      · change n = bytes.length
        omega
      · rcases List.mem_cons.mp hchunk with rfl | hwait
        · trivial
        · exact (hw.silent (d := dstFd)).2.2 c hwait

variable {srcFd dstFd : Word} {bufsiz total : Nat} {r : Word}

theorem streamLoop_done (h : streamLoop handles srcFd dstFd bufsiz fuel total s = .ok r t) :
    ∃ calls, t.calls = calls ++ s.calls ∧ Relayed srcFd dstFd total calls r := by
  induction fuel generalizing s total with
  | zero => cases h
  | succ fuel ih =>
      unfold streamLoop at h
      obtain ⟨answer, u, hread, h⟩ := bind_eq_ok.mp h
      obtain ⟨waits, hwaits, hcalls⟩ := (readFd_done hread).calls
      match answer, h with
      | .ok [], h =>
          cases h
          refine ⟨.read srcFd [] :: waits, hcalls, ?_⟩
          have hpassed : passed dstFd (.read srcFd [] :: waits) = [] := by
            rw [← List.singleton_append, passed_append, hwaits.silent.2.1]
            rfl
          refine ⟨List.cons_ne_nil _ _, nofun, fun _ => ?_, ?_, fun _ _ => ?_, fun _ _ c hc => ?_⟩
          · rw [hpassed]
            rfl
          · rw [hpassed]
            exact Nat.zero_le _
          · rw [hpassed, received_read srcFd [] hwaits]
          · rcases List.mem_cons.mp hc with rfl | hwait
            · trivial
            · exact (hwaits.silent (d := dstFd)).2.2 c hwait
      | .ok (b :: bs), h =>
          obtain ⟨written, v, hwrite, h⟩ := bind_eq_ok.mp h
          unfold filesWrite at hwrite
          cases hwrite
          cases hresult : (handles.write dstFd (b :: bs) u.host).1 with
          | ok n =>
              rw [hresult] at h
              obtain ⟨calls, hlater, hr⟩ := ih h
              refine ⟨_, ?_, hr.chunk hwaits (handles.write_le hresult)⟩
              rw [hlater, hcalls, List.append_assoc]
              rfl
          | error e =>
              rw [hresult] at h
              cases h
              refine ⟨.refused dstFd :: .read srcFd (b :: bs) :: waits, ?_, .ofFailed ?_⟩
              · change HandleCall.refused dstFd :: u.calls = _
                rw [hcalls]
                rfl
              · rw [← List.singleton_append, passed_append, hwaits.silent.2.1]
                rfl
      | .error e, h =>
          cases h
          exact ⟨.refused srcFd :: waits, hcalls, .ofFailed hwaits.silent.2.1⟩

/-! ### The read that fills its buffer -/

/-- What a read in parts came to over its calls. -/
structure Gathered (handles : Handles σ) (fd : Word) (count : Nat) (got got' : List Byte)
    (result : Word) (s t : Transfer σ) : Prop where
  calls : ∃ calls, t.calls = calls ++ s.calls ∧ got' = got ++ received fd calls ∧
    (got'.length ≠ 0 ∨ result = 0 ∨ Failed calls ∧ result = -1)
  room : got.length ≤ count → got'.length ≤ count
  heap : ∀ P, handles.Keep P → P s.vm.heap → P t.vm.heap

theorem readnLoop_done {count : Nat} {got got' : List Byte} {result : Word}
    (h : readnLoop handles fd count fuel got s = .ok (got', result) t) :
    Gathered handles fd count got got' result s t := by
  induction fuel generalizing s got with
  | zero => cases h
  | succ fuel ih =>
      unfold readnLoop at h
      split at h
      · next hmore =>
          obtain ⟨answer, u, hread, h⟩ := bind_eq_ok.mp h
          have hdone := readFd_done hread
          obtain ⟨waits, hwaits, hcalls⟩ := hdone.calls
          match answer, h with
          | .ok [], h =>
              cases h
              refine ⟨⟨.read fd [] :: waits, hcalls, ?_, .inr (.inl rfl)⟩, fun hle => hle, hdone.heap⟩
              rw [received_read fd [] hwaits, List.append_nil]
          | .ok (b :: bs), h =>
              obtain ⟨⟨calls, hlater, hgot, hresult⟩, hroom, hheap⟩ := ih h
              have hall : received fd (calls ++ .read fd (b :: bs) :: waits) =
                  (b :: bs) ++ received fd calls := by
                rw [received_append, received_read fd (b :: bs) hwaits]
              refine ⟨⟨calls ++ .read fd (b :: bs) :: waits, ?_, ?_, ?_⟩, fun _ => hroom ?_,
                fun P hkeep hP => hheap P hkeep (hdone.heap P hkeep hP)⟩
              · rw [hlater, hcalls, List.append_assoc]
                rfl
              · rw [hgot, hall, List.append_assoc]
              · refine .inl ?_
                rw [hgot, List.length_append, List.length_append, List.length_cons]
                omega
              · have := hdone.length (b :: bs) rfl
                rw [List.length_append]
                omega
          | .error e, h =>
              cases h
              refine ⟨⟨.refused fd :: waits, hcalls, ?_, ?_⟩, fun hle => hle, hdone.heap⟩
              · rw [hwaits.cons.silent.1, List.append_nil]
              · by_cases hzero : got'.length = 0
                · exact .inr (.inr ⟨trivial, if_pos hzero⟩)
                · exact .inl hzero
      · cases h
        exact ⟨⟨[], rfl, (List.append_nil _).symm, .inr (.inl rfl)⟩, fun hle => hle, fun _ _ hP => hP⟩

theorem toInt_ofNat {n : Nat} (h : n < 2 ^ 31) : (BitVec.ofNat 32 n).toInt = n := by
  have hn : (BitVec.ofNat 32 n).toNat = n := by
    rw [BitVec.toNat_ofNat]
    omega
  rw [BitVec.toInt_eq_toNat_of_lt (by omega), hn]

/-- The number of bytes asked for is positive as a word. -/
theorem clampCount_lt {vm : VmState} {bufId : HeapId} {count : Word} {n : Nat}
    (h : clampCount vm bufId count = some n) : n < 2 ^ 31 := by
  unfold clampCount at h
  obtain ⟨len, -, h⟩ := Option.bind_eq_some_iff.mp h
  obtain ⟨m, hm, h⟩ := Option.bind_eq_some_iff.mp h
  cases h
  unfold Word.toUsize? at hm
  split at hm
  · cases hm
  · next hmsb =>
      cases hm
      have := BitVec.msb_eq_false_iff_two_mul_lt.mp (Bool.not_eq_true _ ▸ hmsb)
      omega

theorem clampCount_le {vm : VmState} {bufId root : HeapId} {count : Word} {start length elemSize n : Nat}
    {data : List Byte} (hp : vm.heap.Part bufId root start length elemSize data)
    (h : clampCount vm bufId count = some n) : n ≤ length * elemSize := by
  unfold clampCount at h
  obtain ⟨len, hlen, h⟩ := Option.bind_eq_some_iff.mp h
  rw [hp.arrayByteLen_eq] at hlen
  cases hlen
  obtain ⟨m, -, hmin⟩ := Option.bind_eq_some_iff.mp h
  cases hmin
  exact Nat.min_le_right _ _

theorem reply_frames {base : Nat} {w : Word} (h : reply base w s = .ok () t) :
    t.vm.frames.data = writeWord s.vm.frames.data base w ∧ t.calls = s.calls ∧
      t.vm.heap = s.vm.heap := by
  cases h
  exact ⟨rfl, rfl, rfl⟩

/-- A read that got nothing stores nothing. -/
theorem Heap.Part.stored {heap : Heap} {id root : HeapId} {start n elemSize : Nat}
    {data got : List Byte} (hp : heap.Part id root start n elemSize data)
    (hfit : got.length ≤ n * elemSize) :
    (if 0 < got.length then heap.arrayWrite id 0 got else heap).Part id root start n elemSize
      (splice data (start * elemSize) got) := by
  split
  · have hinside := hp.inside
    rw [Nat.add_mul] at hinside
    rw [hp.arrayWrite_eq, Nat.add_zero, overlay_of_le (by omega)]
    exact hp.update (length_splice (by omega)) fun obj _ => rfl
  · next hnot =>
      have hempty : got = [] := List.eq_nil_of_length_eq_zero (by omega)
      rwa [hempty, splice_nil]

/-- The number of a read that fills its buffer, and what the buffer holds then. -/
theorem sysReadn_done (hcalls : s.calls = []) (h : sysReadn handles fuel s = .ok () t) :
    (∃ r frame, t.vm.frames.data = writeWord frame s.vm.frames.currentDataOffset r ∧
      (r.toInt = (received (getFdNum s.vm (argWord s.vm 0)) t.calls).length ∨
        Failed t.calls ∧ received (getFdNum s.vm (argWord s.vm 0)) t.calls = [] ∧ r = -1)) ∧
    ∀ root start n elemSize data,
      s.vm.heap.Part (argWord s.vm 1) root start n elemSize data →
      handles.Keep (fun heap => ∃ data', data'.length = data.length ∧
        heap.Part (argWord s.vm 1) root start n elemSize data') →
      (received (getFdNum s.vm (argWord s.vm 0)) t.calls).length ≤ n * elemSize ∧
      ∃ data', data'.length = data.length ∧
        t.vm.heap.Part (argWord s.vm 1) root start n elemSize (splice data' (start * elemSize)
          (received (getFdNum s.vm (argWord s.vm 0)) t.calls)) := by
  unfold sysReadn at h
  rw [bind_ok (get_apply s)] at h
  dsimp only at h
  cases hclamp : clampCount s.vm (argWord s.vm 1) (argWord s.vm 2) with
  | none =>
      rw [hclamp] at h
      cases h
      have hnone : received (getFdNum s.vm (argWord s.vm 0)) s.calls = [] := by
        rw [hcalls]
        rfl
      refine ⟨⟨0, _, rfl, .inl ?_⟩, fun root start n elemSize data hp _ => ⟨?_, data, rfl, ?_⟩⟩
      · change (0 : Word).toInt = (received _ s.calls).length
        rw [hnone]
        rfl
      · change (received _ s.calls).length ≤ _
        rw [hnone]
        exact Nat.zero_le _
      · change s.vm.heap.Part _ _ _ _ _ (splice data _ (received _ s.calls))
        rwa [hnone, splice_nil]
  | some count =>
      rw [hclamp] at h
      obtain ⟨⟨got, result⟩, u, hloop, h⟩ := bind_eq_ok.mp h
      obtain ⟨⟨calls, hall, hgot, hresult⟩, hroom, hheap⟩ := readnLoop_done hloop
      rw [hcalls, List.append_nil] at hall
      rw [List.nil_append] at hgot
      have hcount : got.length ≤ count := hroom (Nat.zero_le _)
      -- the bytes stored and the number given back
      have hend : ∃ r, t.vm.frames.data = writeWord u.vm.frames.data s.vm.frames.currentDataOffset r ∧
          t.calls = u.calls ∧
          t.vm.heap = (if 0 < got.length then u.vm.heap.arrayWrite (argWord s.vm 1) 0 got
            else u.vm.heap) ∧ r = if 0 < got.length then .ofNat 32 got.length else result := by
        dsimp only at h
        split at h
        · next hpos =>
            obtain ⟨_, v, hstore, h⟩ := bind_eq_ok.mp h
            cases hstore
            cases h
            exact ⟨_, rfl, rfl, (if_pos hpos).symm, (if_pos hpos).symm⟩
        · next hnot =>
            cases h
            exact ⟨_, rfl, rfl, (if_neg hnot).symm, (if_neg hnot).symm⟩
      obtain ⟨r, hframes, hsame, hstored, hr⟩ := hend
      rw [hsame, hall, ← hgot]
      refine ⟨⟨r, _, hframes, ?_⟩, fun root start n elemSize data hp hkeep => ?_⟩
      · by_cases hpos : 0 < got.length
        · rw [hr, if_pos hpos]
          exact .inl (toInt_ofNat (Nat.lt_of_le_of_lt hcount (clampCount_lt hclamp)))
        · have hempty : got = [] := List.eq_nil_of_length_eq_zero (by omega)
          rw [hr, if_neg hpos]
          rcases hresult with hne | hzero | hfailed
          · exact absurd (Nat.pos_of_ne_zero hne) hpos
          · exact .inl (by rw [hzero, hempty]; rfl)
          · exact .inr ⟨hfailed.1, hempty, hfailed.2⟩
      · obtain ⟨data', hlength, hp'⟩ := hheap _ hkeep ⟨data, rfl, hp⟩
        have hfit := hcount.trans (clampCount_le hp hclamp)
        refine ⟨hfit, data', hlength, ?_⟩
        rw [hstored]
        exact hp'.stored hfit

/-- The number of a copy, exact or not. -/
theorem sysStream_done (hcalls : s.calls = []) (h : sysStream handles fuel s = .ok () t) :
    ∃ r frame, t.vm.frames.data = writeWord frame s.vm.frames.currentDataOffset r ∧
      Relayed (getFdNum s.vm (argWord s.vm 0)) (getFdNum s.vm (argWord s.vm 1)) 0 t.calls r := by
  unfold sysStream at h
  rw [bind_ok (get_apply s)] at h
  obtain ⟨r, u, hloop, h⟩ := bind_eq_ok.mp h
  obtain ⟨calls, hall, hr⟩ := streamLoop_done hloop
  rw [hcalls, List.append_nil] at hall
  obtain ⟨hframes, hsame, -⟩ := reply_frames h
  refine ⟨r, _, hframes, ?_⟩
  rw [hsame, hall]
  exact hr

end

/-- Whatever the handles answer, a copy that ends has failed and says so, or has passed on just
what it read and gives the number of bytes, exactly if it failed or every write took all it was
given and there were fewer bytes than a word counts. A read that fills its buffer stores what it
read at the start of the buffer and gives the number of bytes, or failed at once and says so. -/
theorem transfers_lossless {σ : Type} (handles : Handles σ) (fuel : Nat) (s t : Transfer σ)
    (hcalls : s.calls = []) :
    (sysStream handles fuel s = .ok () t →
      let src := received (getFdNum s.vm (argWord s.vm 0)) t.calls
      let dst := passed (getFdNum s.vm (argWord s.vm 1)) t.calls
      ∃ r frame, t.vm.frames.data = writeWord frame s.vm.frames.currentDataOffset r ∧
        ((Failed t.calls ∧ r = -1 ∨ dst = src ∧ r.toInt = src.length) ↔
          (Failed t.calls ∨ (∀ c ∈ t.calls, c.Whole) ∧ src.length < 2 ^ 31))) ∧
    (sysReadn handles fuel s = .ok () t →
      let got := received (getFdNum s.vm (argWord s.vm 0)) t.calls
      (∃ r frame, t.vm.frames.data = writeWord frame s.vm.frames.currentDataOffset r ∧
        (r.toInt = got.length ∨ Failed t.calls ∧ got = [] ∧ r = -1)) ∧
      ∀ root start n elemSize data,
        s.vm.heap.Part (argWord s.vm 1) root start n elemSize data →
        handles.Keep (fun heap => ∃ data', data'.length = data.length ∧
          heap.Part (argWord s.vm 1) root start n elemSize data') →
        got.length ≤ n * elemSize ∧ ∃ data', data'.length = data.length ∧
          t.vm.heap.Part (argWord s.vm 1) root start n elemSize
            (splice data' (start * elemSize) got)) := by
  refine ⟨fun h => ?_, fun h => sysReadn_done hcalls h⟩
  obtain ⟨r, frame, hframes, hr⟩ := sysStream_done hcalls h
  refine ⟨r, frame, hframes, ?_, ?_⟩
  · rintro (⟨hfailed, -⟩ | ⟨hpassed, hnumber⟩)
    · exact .inl hfailed
    · by_cases hfailed : Failed t.calls
      · exact .inl hfailed
      · refine .inr ⟨hr.exact hfailed (by rw [hpassed]), ?_⟩
        have := BitVec.toInt_lt (x := r)
        omega
  · rintro (hfailed | ⟨hwhole, hfew⟩)
    · exact .inl ⟨hfailed, hr.failed hfailed⟩
    · by_cases hfailed : Failed t.calls
      · exact .inl ⟨hfailed, hr.failed hfailed⟩
      · have hpassed := hr.whole hfailed hwhole
        refine .inr ⟨hpassed, ?_⟩
        rw [hr.count hfailed, Nat.zero_add, hpassed]
        exact toInt_ofNat hfew

/-! ### Handles that follow a script -/

/-- Chunks to be read, then the end; how much of each write is taken, then all. -/
def scripted : Handles (List (List Byte) × List Nat) where
  read _ len
    | (chunk :: chunks, taken) => (.ok (chunk.take len), chunks, taken)
    | ([], taken) => (.ok [], [], taken)
  write _ buf
    | (chunks, n :: taken) => (.ok (min n buf.length), chunks, taken)
    | (chunks, []) => (.ok buf.length, chunks, [])
  waitsOnHost _ _ := false
  isWaitFile _ _ := false
  runOtherVmThread s := .ok false s
  read_le {_ len s bytes} h := by
    obtain ⟨_ | ⟨chunk, chunks⟩, taken⟩ := s
    · cases h
      exact Nat.zero_le len
    · cases h
      rw [List.length_take]
      exact Nat.min_le_left _ _
  write_le {_ buf s n} h := by
    obtain ⟨chunks, _ | ⟨m, taken⟩⟩ := s
    · cases h
      exact Nat.le_refl _
    · cases h
      exact Nat.min_le_right _ _

/-- A call with the records of descriptors 0 and 1 as its first arguments. -/
def transferring (script : List (List Byte) × List Nat) :
    Option (Transfer (List (List Byte) × List Nat)) :=
  (machineWith [⟨1, 0, none, .record [1, 0, 0, 0]⟩, ⟨1, 0, none, .record [0, 0, 0, 0]⟩] fun vm =>
    let args := vm.frames.currentDataOffset + argsAt
    { vm with frames := { vm.frames with
        data := writeWord (writeWord vm.frames.data args 0x10000000) (args + 4) 0x10000001 } }).map
      (⟨·, script, []⟩)

/-- A transfer found by computation. -/
theorem exists_transfer {σ : Type} (start : Option (Transfer σ)) (op : TransferM σ Unit)
    (p : Transfer σ → Transfer σ → Prop) [∀ s t, Decidable (p s t)]
    (h : (start.any fun s => match op s with
      | .ok () t => decide (p s t)
      | _ => false) = true) : ∃ s t, op s = .ok () t ∧ p s t := by
  rw [Option.any_eq_true] at h
  obtain ⟨s, -, h⟩ := h
  cases hrun : op s with
  | ok a t =>
      rw [hrun] at h
      exact ⟨s, t, hrun, of_decide_eq_true h⟩
  | error | panic | diverge =>
      rw [hrun] at h
      cases h

/-- Two chunks that are written whole. -/
theorem whole_writes_pass : ∃ s t : Transfer (List (List Byte) × List Nat),
    sysStream scripted 9 s = .ok () t ∧
      received (getFdNum s.vm (argWord s.vm 0)) t.calls = [7, 8, 9] ∧
      passed (getFdNum s.vm (argWord s.vm 1)) t.calls = [7, 8, 9] := by
  obtain ⟨s, t, hrun, hcalls, hsrc, hfailed, hwhole⟩ := exists_transfer
    (transferring ([[7, 8], [9]], [])) (sysStream scripted 9) (fun s t => s.calls = [] ∧
      received (getFdNum s.vm (argWord s.vm 0)) t.calls = [7, 8, 9] ∧ ¬ Failed t.calls ∧
        ∀ c ∈ t.calls, c.Whole) (by decide +kernel)
  obtain ⟨r, frame, -, hexact⟩ := (transfers_lossless scripted 9 s t hcalls).1 hrun
  rw [hsrc] at hexact
  obtain ⟨hno, -⟩ | ⟨hpassed, -⟩ := hexact.mpr (.inr ⟨hwhole, by decide⟩)
  · exact absurd hno hfailed
  · exact ⟨s, t, hrun, hsrc, hpassed⟩

/-- A write that takes one byte of two: the other is lost, and no error is reported. -/
theorem short_write_lost : ∃ s t : Transfer (List (List Byte) × List Nat),
    sysStream scripted 9 s = .ok () t ∧ s.calls = [] ∧
      received (getFdNum s.vm (argWord s.vm 0)) t.calls = [7, 8] ∧
      passed (getFdNum s.vm (argWord s.vm 1)) t.calls = [7] ∧
      readWord t.vm.frames.data s.vm.frames.currentDataOffset = 1 :=
  exists_transfer (transferring ([[7, 8]], [1])) (sysStream scripted 9) (fun s t => _ ∧ _)
    (by decide +kernel)

end RiceVM
