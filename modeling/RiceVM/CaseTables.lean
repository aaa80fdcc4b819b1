import Mathlib.Data.String.Basic
import RiceVM.Ops.CaseTables
import RiceVM.Views

/-!
The case instructions against their tables. The search finds the entry whose range has the value
in it, or none, and looks at the table only.
-/
namespace RiceVM
open Exec Memory Ops RangeSearch

/-- The bounds and the destination of an entry; the bounds of a string are ids. -/
structure CaseEntry (α : Type) where
  lo : α
  hi : α
  pc : Word
  deriving DecidableEq, Repr

/-- The destination of an entry that has the value, and the default where none has. -/
structure Selects {E : Type} (contains : E → Prop) (pc : E → Word) (entries : List E)
    (default target : Word) : Prop where
  entry : ∀ e ∈ entries, contains e → target = pc e
  default : (∀ e ∈ entries, ¬ contains e) → target = default

section
variable {m : Type → Type} [Monad m] [LawfulMonad m] {read : Nat → m Word}

theorem caseTarget_selects {E : Type} {probe : Nat → m Ordering} {first stride pcField : Nat}
    {entries : List E} {pc : E → Word} {default : Word} {contains : E → Prop}
    (side : E → Ordering) (hdefault : read (first + entries.length * stride) = pure default)
    (hpc : ∀ k e, entries[k]? = some e → read (first + k * stride + pcField) = pure (pc e))
    (hprobe : ∀ k e, entries[k]? = some e → probe (first + k * stride) = pure (side e))
    (hsides : entries.Pairwise fun a b => side a = .gt ∨ side b = .lt)
    (heq : ∀ e ∈ entries, side e = .eq ↔ contains e) :
    ∃ target, caseTarget read probe first stride pcField entries.length = pure target ∧
      Selects contains pc entries default target := by
  let sideAt (k : Nat) : Ordering := (entries[k]?.map side).getD .lt
  have hsideAt {k : Nat} {e : E} (he : entries[k]? = some e) : sideAt k = side e := by
    simp only [sideAt, he, Option.map_some, Option.getD_some]
  have hget {k : Nat} (hk : k < entries.length) : entries[k]? = some entries[k] :=
    List.getElem?_eq_getElem hk
  have hread : ∀ k, 0 ≤ k → k < 0 + entries.length →
      probe (first + k * stride) = pure (sideAt k) := by
    intro k _ hk
    have he := hget (k := k) (by omega)
    rw [hprobe k _ he, hsideAt he]
  have hturn : ∀ i j, 0 ≤ i → i < j → j < 0 + entries.length →
      sideAt i = .gt ∨ sideAt j = .lt := by
    intro i j _ hij hj
    have hj' : j < entries.length := by omega
    rw [hsideAt (hget (hij.trans hj')), hsideAt (hget hj')]
    exact List.pairwise_iff_getElem.mp hsides i j (hij.trans hj') hj' hij
  obtain ⟨found, hrun, hfound⟩ := rangeSearch_answers 0 entries.length hread hturn
  rw [Nat.zero_mul, Nat.add_zero] at hrun
  unfold caseTarget
  rw [hdefault, pure_bind, hrun, pure_bind]
  cases found with
  | none =>
      refine ⟨default, rfl, fun e he hin => ?_, fun _ => rfl⟩
      obtain ⟨k, hk, rfl⟩ := List.getElem_of_mem he
      exact absurd (hsideAt (hget hk) ▸ (heq _ he).mpr hin) (hfound k (Nat.zero_le _) (by omega))
  | some entry =>
      obtain ⟨k, -, hk, rfl, hside⟩ := hfound
      have hk : k < entries.length := by omega
      rw [hsideAt (hget hk)] at hside
      refine ⟨_, hpc k _ (hget hk), fun e he hin => ?_, fun hnone => ?_⟩
      · obtain ⟨i, hi, rfl⟩ := List.getElem_of_mem he
        have hi' := (heq _ he).mpr hin
        obtain hlt | rfl | hgt := Nat.lt_trichotomy i k
        · have := List.pairwise_iff_getElem.mp hsides i k hi hk hlt
          rw [hi', hside] at this
          exact this.elim nofun nofun
        · rfl
        · have := List.pairwise_iff_getElem.mp hsides k i hk hi hgt
          rw [hi', hside] at this
          exact this.elim nofun nofun
      · exact absurd ((heq _ (List.getElem_mem hk)).mp hside) (hnone _ (List.getElem_mem hk))

end

/-! ### The ranges -/

section
variable {w : Nat} {v : BitVec w} {e : CaseEntry (BitVec w)}

def CaseEntry.lower (e : CaseEntry (BitVec w)) : Int := e.lo.toInt

/-- The upper bound of a number is not in the range. -/
def CaseEntry.Contains (e : CaseEntry (BitVec w)) (v : Int) : Prop := e.lo.toInt ≤ v ∧ v < e.hi.toInt

theorem isRange_numbers : IsRange (CaseEntry.lower (w := w)) CaseEntry.Contains where
  lower_le _ _ h := h.1
  no_gap _ _ _ h hle hle' := ⟨hle, Int.lt_of_le_of_lt hle' h.2⟩

/-- What the probe of an entry of numbers says. -/
def CaseEntry.side (v : BitVec w) (e : CaseEntry (BitVec w)) : Ordering :=
  if v.slt e.lo then .lt else if e.hi.sle v then .gt else .eq

theorem side_numbers : (e.side v = .lt ↔ v.toInt < e.lower) ∧
    (e.side v = .eq ↔ e.Contains v.toInt) := by
  unfold CaseEntry.side CaseEntry.lower CaseEntry.Contains
  rw [BitVec.slt_eq_decide, BitVec.sle_eq_decide]
  by_cases hlo : v.toInt < e.lo.toInt
  · simp [hlo]
  · by_cases hhi : e.hi.toInt ≤ v.toInt
    · simp [hlo, hhi]
    · simp [hlo, hhi]
      omega

end

section
variable (h : Heap)

def lowerText (e : CaseEntry HeapId) : String := h.text e.lo

/-- The bounds of a string are both in the range; a range without an upper bound is one string. -/
def ContainsText (e : CaseEntry HeapId) (v : String) : Prop :=
  if e.hi = nil then v = h.text e.lo else h.text e.lo ≤ v ∧ v ≤ h.text e.hi

theorem isRange_texts : IsRange (lowerText h) (ContainsText h) where
  lower_le e v hv := by
    unfold ContainsText at hv
    split at hv
    · exact hv.ge
    · exact hv.1
  no_gap e u v hv hle hle' := by
    by_cases hnil : e.hi = nil
    · rw [ContainsText, if_pos hnil] at hv ⊢
      exact le_antisymm (hle'.trans hv.le) hle
    · rw [ContainsText, if_neg hnil] at hv ⊢
      exact ⟨hle, hle'.trans hv.2⟩

def sideText (v : String) (e : CaseEntry HeapId) : Ordering :=
  if v = h.text e.lo then .eq else if v < h.text e.lo then .lt
  else if e.hi = nil ∨ h.text e.hi < v then .gt else .eq

theorem side_texts {v : String} {e : CaseEntry HeapId} (hne : ∃ u, ContainsText h e u) :
    (sideText h v e = .lt ↔ v < lowerText h e) ∧ (sideText h v e = .eq ↔ ContainsText h e v) := by
  obtain ⟨u, hu⟩ := hne
  have hbounds : e.hi ≠ nil → h.text e.lo ≤ h.text e.hi := by
    intro hhi
    rw [ContainsText, if_neg hhi] at hu
    exact hu.1.trans hu.2
  unfold sideText lowerText ContainsText
  by_cases heq : v = h.text e.lo
  · subst heq
    by_cases hhi : e.hi = nil
    · simp [hhi]
    · simp [hhi, hbounds hhi]
  by_cases hlt : v < h.text e.lo
  · simp [heq, hlt, not_le.mpr hlt]
  · by_cases hhi : e.hi = nil
    · simp [heq, hlt, hhi]
    · by_cases hup : h.text e.hi < v
      · rw [if_neg heq, if_neg hlt, if_pos (.inr hup), if_neg hhi]
        exact ⟨iff_of_false nofun hlt, iff_of_false nofun fun hin => not_lt.mpr hin.2 hup⟩
      · rw [if_neg heq, if_neg hlt, if_neg (not_or.mpr ⟨hhi, hup⟩), if_neg hhi]
        exact ⟨iff_of_false nofun hlt, iff_of_true rfl ⟨not_lt.mp hlt, not_lt.mp hup⟩⟩

end

/-! ### The tables -/

section
variable {m : Type → Type} [Monad m] [LawfulMonad m] {read : Nat → m Word} {default : Word}

theorem caseWord_selects {entries : List (CaseEntry Word)} (value : Word)
    (hentry : ∀ k e, entries[k]? = some e → read (1 + k * 3) = pure e.lo ∧
      read (1 + k * 3 + 1) = pure e.hi ∧ read (1 + k * 3 + 2) = pure e.pc)
    (hdefault : read (1 + entries.length * 3) = pure default)
    (hs : Sorted CaseEntry.lower CaseEntry.Contains entries) :
    ∃ target, caseWord read value entries.length = pure target ∧
      Selects (·.Contains value.toInt) (·.pc) entries default target := by
  refine caseTarget_selects (CaseEntry.side value) hdefault
    (fun k e he => (hentry k e he).2.2) (fun k e he => ?_)
    (hs.sides isRange_numbers fun _ _ => side_numbers) fun _ _ => side_numbers.2
  obtain ⟨hlo, hhi, -⟩ := hentry k e he
  rw [probeWord, hlo, pure_bind, hhi, pure_bind]
  rfl

theorem caseText_selects (h : Heap) {entries : List (CaseEntry HeapId)} (value : String)
    (hentry : ∀ k e, entries[k]? = some e → read (1 + k * 3) = pure e.lo ∧
      read (1 + k * 3 + 1) = pure e.hi ∧ read (1 + k * 3 + 2) = pure e.pc)
    (hdefault : read (1 + entries.length * 3) = pure default)
    (hs : Sorted (lowerText h) (ContainsText h) entries) :
    ∃ target, caseText h.text read value entries.length = pure target ∧
      Selects (ContainsText h · value) (·.pc) entries default target := by
  have hside {e : CaseEntry HeapId} (he : e ∈ entries) :=
    side_texts h (v := value) (hs.nonempty e he)
  refine caseTarget_selects (sideText h value) hdefault
    (fun k e he => (hentry k e he).2.2) (fun k e he => ?_)
    (hs.sides (isRange_texts h) fun _ he => hside he) fun _ he => (hside he).2
  obtain ⟨hlo, hhi, -⟩ := hentry k e he
  rw [probeText, hlo, pure_bind, hhi]
  unfold sideText
  dsimp only
  by_cases heq : value = h.text e.lo
  · rw [if_pos heq, if_pos heq]
  by_cases hlt : value < h.text e.lo
  · rw [if_neg heq, if_neg heq, if_pos hlt, if_pos hlt]
  · rw [if_neg heq, if_neg heq, if_neg hlt, if_neg hlt, pure_bind]

theorem caseBig_selects {readBig : Nat → m Big} {entries : List (CaseEntry Big)} (value : Big)
    (hentry : ∀ k e, entries[k]? = some e → readBig (8 + k * 24) = pure e.lo ∧
      readBig (8 + k * 24 + 8) = pure e.hi ∧ read (8 + k * 24 + 16) = pure e.pc)
    (hdefault : read (8 + entries.length * 24) = pure default)
    (hs : Sorted CaseEntry.lower CaseEntry.Contains entries) :
    ∃ target, caseBig read readBig value entries.length = pure target ∧
      Selects (·.Contains value.toInt) (·.pc) entries default target := by
  refine caseTarget_selects (CaseEntry.side value) hdefault
    (fun k e he => (hentry k e he).2.2) (fun k e he => ?_)
    (hs.sides isRange_numbers fun _ _ => side_numbers) fun _ _ => side_numbers.2
  obtain ⟨hlo, hhi, -⟩ := hentry k e he
  rw [probeBig, hlo, pure_bind, hhi, pure_bind]
  rfl

end

/-- The frame or module data that a table begins in, and where. -/
def VmState.tableBuffer? (vm : VmState) : Option (List Byte × Nat) :=
  match vm.dst with
  | .frame off => some (vm.frames.data, off)
  | .mp off => some (vm.mp, off)
  | _ => none

/-- A table: the count, the entries from the byte `first` on, each `stride` bytes long, and the
default destination after them. -/
structure HoldsTable {α : Type} (read : List Byte → Nat → α) (first stride hiField pcField : Nat)
    (buf : List Byte) (off : Nat) (entries : List (CaseEntry α)) (default : Word) : Prop where
  count : readWord buf off = .ofUsize entries.length
  countFits : entries.length < 2 ^ 31
  entry : ∀ k e, entries[k]? = some e → read buf (off + (first + k * stride)) = e.lo ∧
    read buf (off + (first + k * stride + hiField)) = e.hi ∧
    readWord buf (off + (first + k * stride + pcField)) = e.pc
  default : readWord buf (off + (first + entries.length * stride)) = default

abbrev HoldsWords := HoldsTable readWord 4 12 4 8
abbrev HoldsBigs := HoldsTable readBig 8 24 8 16

/-- A read of a table of `size` bytes that fails outside the table. -/
def readInside {α : Type} (read : List Byte → Nat → α) (width size : Nat) (buf : List Byte)
    (off offset : Nat) : Option α :=
  if offset + width ≤ size then some (read buf (off + offset)) else none

def wordInside (n : Nat) (buf : List Byte) (off idx : Nat) : Option Word :=
  readInside readWord 4 (4 + n * 12 + 4) buf off (idx * 4)

theorem Selects.unique {E : Type} {contains : E → Prop} {pc : E → Word} {entries : List E}
    {default target target' : Word} (h : Selects contains pc entries default target)
    (h' : Selects contains pc entries default target') : target = target' := by
  by_cases hin : ∃ e ∈ entries, contains e
  · obtain ⟨e, he, hin⟩ := hin
    rw [h.entry e he hin, h'.entry e he hin]
  · have hout : ∀ e ∈ entries, ¬ contains e := fun e he hin' => hin ⟨e, he, hin'⟩
    rw [h.default hout, h'.default hout]

section
variable {vm : VmState} {buf : List Byte} {off : Nat} {default : Word}

theorem readTable_eq {α : Type} (hbuf : vm.tableBuffer? = some (buf, off))
    (read : List Byte → Nat → α) (zero : α) (offset : Nat) :
    readTable read zero vm vm.dst offset = .ok (read buf (off + offset)) := by
  unfold VmState.tableBuffer? at hbuf
  unfold readTable
  cases hdst : vm.dst with
  | frame o | mp o =>
      rw [hdst] at hbuf
      cases hbuf
      rfl
  | moduleMp | immediate | none | heapArray =>
      rw [hdst] at hbuf
      cases hbuf

theorem readWordAt_table (hbuf : vm.tableBuffer? = some (buf, off)) :
    vm.readWordAt vm.dst vm.immDst = readWord buf off := by
  unfold VmState.tableBuffer? at hbuf
  cases hdst : vm.dst with
  | frame o | mp o =>
      rw [hdst] at hbuf
      cases hbuf
      rfl
  | moduleMp | immediate | none | heapArray =>
      rw [hdst] at hbuf
      cases hbuf

theorem jumpTo_ok {count : Word} {n : Nat} {target : Word} {f : Nat → Except ExecError Word}
    (hcount : count = .ofUsize n) (hn : n < 2 ^ 31) (hf : f n = .ok target) :
    jumpTo count f vm = .ok () { vm with nextPc := target.asUsize } := by
  unfold jumpTo
  rw [hcount, Word.msb_ofUsize hn, if_neg Bool.false_ne_true, Word.asUsize_ofUsize hn, hf]
  rfl

/-- The dispatch of the machine, and the same dispatch when it may read its table only. -/
theorem jumpTo_selects {E : Type} {contains : E → Prop} {pc : E → Word} {entries : List E}
    {count : Word} {f : Nat → Except ExecError Word} {inside : Option Word}
    (hcount : count = .ofUsize entries.length) (hn : entries.length < 2 ^ 31)
    (hrun : ∃ target, f entries.length = pure target ∧ Selects contains pc entries default target)
    (hinside : ∃ target, inside = pure target ∧ Selects contains pc entries default target) :
    ∃ target, jumpTo count f vm = .ok () { vm with nextPc := target.asUsize } ∧
      Selects contains pc entries default target ∧ inside = some target := by
  obtain ⟨target, hrun, hsel⟩ := hrun
  obtain ⟨target', hinside, hsel'⟩ := hinside
  obtain rfl := hsel.unique hsel'
  exact ⟨target, jumpTo_ok hcount hn hrun, hsel, hinside⟩

/-- A table of words or of strings, through whatever reads its words. -/
theorem HoldsTable.words {m : Type → Type} [Monad m] {entries : List (CaseEntry Word)}
    (ht : HoldsWords buf off entries default) (read : Nat → m Word)
    (hread : ∀ idx, idx < 3 * entries.length + 2 → read idx = pure (readWord buf (off + idx * 4))) :
    (∀ k e, entries[k]? = some e → read (1 + k * 3) = pure e.lo ∧
      read (1 + k * 3 + 1) = pure e.hi ∧ read (1 + k * 3 + 2) = pure e.pc) ∧
    read (1 + entries.length * 3) = pure default := by
  refine ⟨fun k e he => ?_, ?_⟩
  · obtain ⟨hlo, hhi, hdest⟩ := ht.entry k e he
    have hk := (List.getElem?_eq_some_iff.mp he).1
    have hoff : (1 + k * 3) * 4 = 4 + k * 12 := by omega
    have hoff' : (1 + k * 3 + 1) * 4 = 4 + k * 12 + 4 := by omega
    have hoff'' : (1 + k * 3 + 2) * 4 = 4 + k * 12 + 8 := by omega
    rw [hread _ (by omega), hread _ (by omega), hread _ (by omega), ← hlo, ← hhi, ← hdest, hoff,
      hoff', hoff'']
    exact ⟨rfl, rfl, rfl⟩
  · have hoff : (1 + entries.length * 3) * 4 = 4 + entries.length * 12 := by omega
    rw [hread _ (by omega), hoff, ht.default]

theorem wordInside_eq {n idx : Nat} (h : idx < 3 * n + 2) :
    wordInside n buf off idx = pure (readWord buf (off + idx * 4)) := if_pos (by omega)

/-- The reads of a table of bigs. -/
theorem HoldsTable.bigs {m : Type → Type} [Monad m] {entries : List (CaseEntry Big)}
    (ht : HoldsBigs buf off entries default) (readW : Nat → m Word) (readB : Nat → m Big)
    (hword : ∀ i, i ≤ 8 + entries.length * 24 → readW i = pure (readWord buf (off + i)))
    (hbig : ∀ i, i ≤ entries.length * 24 → readB i = pure (readBig buf (off + i))) :
    (∀ k e, entries[k]? = some e → readB (8 + k * 24) = pure e.lo ∧
      readB (8 + k * 24 + 8) = pure e.hi ∧ readW (8 + k * 24 + 16) = pure e.pc) ∧
    readW (8 + entries.length * 24) = pure default := by
  refine ⟨fun k e he => ?_, ?_⟩
  · obtain ⟨hlo, hhi, hdest⟩ := ht.entry k e he
    have hk := (List.getElem?_eq_some_iff.mp he).1
    rw [hbig _ (by omega), hbig _ (by omega), hword _ (by omega), hlo, hhi, hdest]
    exact ⟨rfl, rfl, rfl⟩
  · rw [hword _ (by omega), ht.default]

end

/-- A case jumps to the entry that has the value or to the default, and reads its table only. -/
theorem cases_select {vm : VmState} {buf : List Byte} {off : Nat}
    (hbuf : vm.tableBuffer? = some (buf, off)) :
    (∀ (entries : List (CaseEntry Word)) default, HoldsWords buf off entries default →
      Sorted CaseEntry.lower CaseEntry.Contains entries →
      let value := vm.readWordAt vm.src vm.immSrc
      ∃ target, opCasew vm = .ok () { vm with nextPc := target.asUsize } ∧
        Selects (·.Contains value.toInt) (·.pc) entries default target ∧
        caseWord (wordInside entries.length buf off) value entries.length = some target) ∧
    (∀ (entries : List (CaseEntry HeapId)) default, HoldsWords buf off entries default →
      Sorted (lowerText vm.heap) (ContainsText vm.heap) entries →
      let value := vm.heap.text (vm.readWordAt vm.src vm.immSrc)
      ∃ target, opCasec vm = .ok () { vm with nextPc := target.asUsize } ∧
        Selects (ContainsText vm.heap · value) (·.pc) entries default target ∧
        caseText vm.heap.text (wordInside entries.length buf off) value entries.length =
          some target) ∧
    ∀ (entries : List (CaseEntry Big)) default, HoldsBigs buf off entries default →
      Sorted CaseEntry.lower CaseEntry.Contains entries →
      let value := vm.readBigAt vm.src vm.immSrc
      let size := 8 + entries.length * 24 + 4
      ∃ target, opCasel vm = .ok () { vm with nextPc := target.asUsize } ∧
        Selects (·.Contains value.toInt) (·.pc) entries default target ∧
        caseBig (readInside readWord 4 size buf off) (readInside readBig 8 size buf off) value
          entries.length = some target := by
  have hcount := readWordAt_table hbuf
  have hwords : ∀ idx, tableWord vm vm.dst idx = pure (readWord buf (off + idx * 4)) :=
    fun idx => readTable_eq hbuf readWord 0 (idx * 4)
  refine ⟨fun entries default ht hs => ?_, fun entries default ht hs => ?_,
    fun entries default ht hs => ?_⟩
  · have hrun := ht.words _ fun idx _ => hwords idx
    have hinside := ht.words (wordInside entries.length buf off) fun _ => wordInside_eq
    exact jumpTo_selects (hcount.trans ht.count) ht.countFits (caseWord_selects _ hrun.1 hrun.2 hs)
      (caseWord_selects _ hinside.1 hinside.2 hs)
  · have hrun := ht.words _ fun idx _ => hwords idx
    have hinside := ht.words (wordInside entries.length buf off) fun _ => wordInside_eq
    exact jumpTo_selects (hcount.trans ht.count) ht.countFits
      (caseText_selects vm.heap _ hrun.1 hrun.2 hs) (caseText_selects vm.heap _ hinside.1 hinside.2 hs)
  · have hrun := ht.bigs _ _ (fun i _ => readTable_eq hbuf readWord 0 i)
      fun i _ => readTable_eq hbuf readBig 0 i
    have hinside := ht.bigs (readInside readWord 4 (8 + entries.length * 24 + 4) buf off)
      (readInside readBig 8 (8 + entries.length * 24 + 4) buf off)
      (fun i hi => if_pos (by omega)) fun i hi => if_pos (by omega)
    exact jumpTo_selects (hcount.trans ht.count) ht.countFits (caseBig_selects _ hrun.1 hrun.2 hs)
      (caseBig_selects _ hinside.1 hinside.2 hs)

/-- A table of one entry. -/
theorem HoldsTable.single {α : Type} {read : List Byte → Nat → α} {first stride hiField pcField : Nat}
    {buf : List Byte} {off : Nat} {e : CaseEntry α} {default : Word}
    (hcount : readWord buf off = 1) (hlo : read buf (off + first) = e.lo)
    (hhi : read buf (off + (first + hiField)) = e.hi)
    (hpc : readWord buf (off + (first + pcField)) = e.pc)
    (hdefault : readWord buf (off + (first + stride)) = default) :
    HoldsTable read first stride hiField pcField buf off [e] default where
  count := hcount
  countFits := by simp
  entry k e' he := by
    obtain ⟨rfl, rfl⟩ : k = 0 ∧ e' = e := by
      cases k with
      | zero => exact ⟨rfl, (Option.some.inj he).symm⟩
      | succ k => cases he
    rw [Nat.zero_mul, Nat.add_zero]
    exact ⟨hlo, hhi, hpc⟩
  default := by rwa [List.length_singleton, Nat.one_mul]

/-- A machine whose `case` is over a value and a table at the start of its data. -/
def casing (value : Word) (mp : List Byte) (vm : VmState) : VmState :=
  { vm with mp := mp, dst := .mp 0, src := .immediate, immSrc := value }

/-- One entry of each kind, and a value in its range. -/
theorem cases_select_one : ∃ vm vm' vm'' : VmState,
    opCasew vm = .ok () { vm with nextPc := 7 } ∧
    opCasec vm' = .ok () { vm' with nextPc := 7 } ∧
    opCasel vm'' = .ok () { vm'' with nextPc := 7 } := by
  obtain ⟨vm, -, -, hbuf, hsrc⟩ := exists_run []
    (casing 8 [1, 0, 0, 0, 2, 0, 0, 0, 9, 0, 0, 0, 7, 0, 0, 0, 5, 0, 0, 0]) (pure ())
    (fun vm _ => vm.tableBuffer? =
        some ([1, 0, 0, 0, 2, 0, 0, 0, 9, 0, 0, 0, 7, 0, 0, 0, 5, 0, 0, 0], 0) ∧
      vm.readWordAt vm.src vm.immSrc = 8) (by decide +kernel)
  obtain ⟨vm', -, -, hbuf', hsrc'⟩ := exists_run [⟨1, 0, none, .str "b"⟩]
    (casing 0x10000000 [1, 0, 0, 0, 0, 0, 0, 0x10, 0, 0, 0, 0, 7, 0, 0, 0, 5, 0, 0, 0]) (pure ())
    (fun vm _ => vm.tableBuffer? =
        some ([1, 0, 0, 0, 0, 0, 0, 0x10, 0, 0, 0, 0, 7, 0, 0, 0, 5, 0, 0, 0], 0) ∧
      vm.readWordAt vm.src vm.immSrc = 0x10000000) (by decide +kernel)
  obtain ⟨vm'', -, -, hbuf'', hsrc''⟩ := exists_run []
    (casing 8 [1, 0, 0, 0, 0, 0, 0, 0, 2, 0, 0, 0, 0, 0, 0, 0, 9, 0, 0, 0, 0, 0, 0, 0,
      7, 0, 0, 0, 0, 0, 0, 0, 5, 0, 0, 0]) (pure ())
    (fun vm _ => vm.tableBuffer? =
        some ([1, 0, 0, 0, 0, 0, 0, 0, 2, 0, 0, 0, 0, 0, 0, 0, 9, 0, 0, 0, 0, 0, 0, 0,
          7, 0, 0, 0, 0, 0, 0, 0, 5, 0, 0, 0], 0) ∧
      vm.readBigAt vm.src vm.immSrc = 8) (by decide +kernel)
  have hword : (CaseEntry.mk (2 : Word) 9 7).Contains 8 := by
    constructor <;> decide
  have hbig : (CaseEntry.mk (2 : Big) 9 7).Contains 8 := by
    constructor <;> decide
  have htext : ContainsText vm'.heap ⟨0x10000000, 0, 7⟩ (vm'.heap.text 0x10000000) := by
    rw [ContainsText, if_pos (show (0 : HeapId) = nil from rfl)]
  obtain ⟨_, hrun, hsel, -⟩ := (cases_select hbuf).1 [⟨2, 9, 7⟩] 5
    (.single (by decide) (by decide) (by decide) (by decide) (by decide)) (.single hword)
  obtain ⟨_, hrun', hsel', -⟩ := (cases_select hbuf').2.1 [⟨0x10000000, 0, 7⟩] 5
    (.single (by decide) (by decide) (by decide) (by decide) (by decide)) (.single htext)
  obtain ⟨_, hrun'', hsel'', -⟩ := (cases_select hbuf'').2.2 [⟨2, 9, 7⟩] 5
    (.single (by decide) (by decide) (by decide) (by decide) (by decide)) (.single hbig)
  rw [hsrc] at hsel
  rw [hsrc'] at hsel'
  rw [hsrc''] at hsel''
  obtain rfl := hsel.entry _ (List.mem_singleton_self _) hword
  obtain rfl := hsel'.entry _ (List.mem_singleton_self _) htext
  obtain rfl := hsel''.entry _ (List.mem_singleton_self _) hbig
  exact ⟨vm, vm', vm'', hrun, hrun', hrun''⟩

/-- A table in an array reads as zeros, and a range without values hides the one before it. -/
theorem cases_miss :
    (∃ (vm : VmState) (obj : HeapObject) (buf : List Byte), vm.dst = .heapArray 0x10000000 0 ∧
      vm.heap.get 0x10000000 = some obj ∧ obj.data.buffer? = some buf ∧
      HoldsWords buf 0 [⟨0, 10, 7⟩] 9 ∧ (vm.readWordAt vm.src vm.immSrc).toInt = 5 ∧
      opCasew vm = .ok () { vm with nextPc := 0 }) ∧
    ∃ (vm : VmState) (e e' : CaseEntry Word), vm.tableBuffer? = some (vm.mp, 0) ∧
      HoldsWords vm.mp 0 [e, e'] 99 ∧ e.lower ≤ e'.lower ∧
      (∀ v, ¬ (e.Contains v ∧ e'.Contains v)) ∧ e.pc = 10 ∧
      e.Contains (vm.readWordAt vm.src vm.immSrc).toInt ∧
      opCasew vm = .ok () { vm with nextPc := 99 } := by
  constructor
  · obtain ⟨vm, -, -, hdst, hget, hcount, hsrc⟩ := exists_run
      [⟨1, 0, none, .array 0 1 [1, 0, 0, 0, 0, 0, 0, 0, 10, 0, 0, 0, 7, 0, 0, 0, 9, 0, 0, 0] 20⟩]
      (fun vm => { vm with
        dst := .heapArray 0x10000000 0, src := .immediate, immSrc := 5 }) (pure ())
      (fun vm _ => vm.dst = .heapArray 0x10000000 0 ∧
        vm.heap.get 0x10000000 = some ⟨1, 0, none,
          .array 0 1 [1, 0, 0, 0, 0, 0, 0, 0, 10, 0, 0, 0, 7, 0, 0, 0, 9, 0, 0, 0] 20⟩ ∧
        vm.readWordAt vm.dst vm.immDst = 1 ∧ vm.readWordAt vm.src vm.immSrc = 5)
      (by decide +kernel)
    have hzero : ∀ idx, tableWord vm vm.dst idx = .ok 0 := by
      intro idx
      rw [hdst]
      rfl
    have hfound : caseWord (tableWord vm vm.dst) (vm.readWordAt vm.src vm.immSrc) 1 = .ok 0 := by
      rw [hsrc]
      simp [caseWord, caseTarget, rangeSearch, probeWord, hzero, bind, Except.bind, pure,
        Except.pure]
    refine ⟨vm, _, _, hdst, hget, rfl, ?_, by rw [hsrc]; rfl, jumpTo_ok hcount (by decide) hfound⟩
    exact .single (by decide) (by decide) (by decide) (by decide) (by decide)
  · obtain ⟨vm, -, -, hbuf, hcount, hsrc, hdefault, hlo, hhi, hpc, hlo', hhi', hpc'⟩ := exists_run []
      (casing 5 [2, 0, 0, 0, 2, 0, 0, 0, 9, 0, 0, 0, 10, 0, 0, 0, 5, 0, 0, 0, 5, 0, 0, 0,
        20, 0, 0, 0, 99, 0, 0, 0]) (pure ())
      (fun vm _ => vm.tableBuffer? = some (vm.mp, 0) ∧ readWord vm.mp 0 = 2 ∧
        vm.readWordAt vm.src vm.immSrc = 5 ∧ readWord vm.mp 28 = 99 ∧
        readWord vm.mp 4 = 2 ∧ readWord vm.mp 8 = 9 ∧ readWord vm.mp 12 = 10 ∧
        readWord vm.mp 16 = 5 ∧ readWord vm.mp 20 = 5 ∧ readWord vm.mp 24 = 20)
      (by decide +kernel)
    have hread (idx : Nat) : tableWord vm vm.dst idx = .ok (readWord vm.mp (0 + idx * 4)) :=
      readTable_eq hbuf readWord 0 (idx * 4)
    have hfound : caseWord (tableWord vm vm.dst) (vm.readWordAt vm.src vm.immSrc) 2 = .ok 99 := by
      rw [hsrc]
      simp [caseWord, caseTarget, rangeSearch, probeWord, hread, hdefault, hlo', hhi', bind,
        Except.bind, pure, Except.pure]
    refine ⟨vm, ⟨2, 9, 10⟩, ⟨5, 5, 20⟩, hbuf, ⟨hcount, by decide, fun k e he => ?_, hdefault⟩,
      by decide, fun v hv => ?_, rfl, ?_, ?_⟩
    · rcases k with _ | _ | k
      · cases he
        exact ⟨hlo, hhi, hpc⟩
      · cases he
        exact ⟨hlo', hhi', hpc'⟩
      · cases he
    · have hlow : (5 : Int) ≤ v := hv.2.1
      have hhigh : v < (5 : Int) := hv.2.2
      omega
    · rw [hsrc]
      constructor <;> decide
    · exact jumpTo_ok ((readWordAt_table hbuf).trans hcount) (by decide) hfound

end RiceVM
