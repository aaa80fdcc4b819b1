import Mathlib.Data.List.Basic

/-!
Code emitted in order, whose jumps may be given their targets later. A stretch of it is described
by the stretch's own jumps: each lands inside it, or is one of the holes still to be patched.
-/

/-- Where an instruction may go besides the next one. -/
inductive Jump where
  | none
  /-- A place that is not known yet. -/
  | hole
  | target (pc : Nat)
  deriving DecidableEq, Repr

/-- Instructions whose jump can be given a target. -/
class Patchable (ι : Type) where
  jump : ι → Jump
  /-- May control go on to the next instruction? -/
  falls : ι → Bool
  setTarget : Nat → ι → ι
  jump_setTarget (pc : Nat) (i : ι) :
    jump (setTarget pc i) = match jump i with | .none => .none | _ => .target pc
  falls_setTarget (pc : Nat) (i : ι) : falls (setTarget pc i) = falls i

namespace Backpatch

open Patchable

variable {ι : Type} [Patchable ι]

def patch (code : List ι) (idx pc : Nat) : List ι := code.modify idx (setTarget pc)

theorem getElem?_patch (code : List ι) (idx pc j : Nat) :
    (patch code idx pc)[j]? = if j = idx then code[j]?.map (setTarget pc) else code[j]? := by
  rw [patch, List.getElem?_modify]
  by_cases h : j = idx
  · simp [h]
  · simp [h, Ne.symm h]

def patchAll (code : List ι) (idxs : List Nat) (pc : Nat) : List ι :=
  idxs.foldl (fun code idx => patch code idx pc) code

@[simp] theorem length_patch (code : List ι) (idx pc : Nat) :
    (patch code idx pc).length = code.length := by simp [patch]

@[simp] theorem length_patchAll (code : List ι) (idxs : List Nat) (pc : Nat) :
    (patchAll code idxs pc).length = code.length := by
  induction idxs generalizing code with
  | nil => rfl
  | cons idx idxs ih => exact (ih _).trans (length_patch code idx pc)

theorem getElem?_patchAll (code : List ι) {idxs : List Nat} (hnodup : idxs.Nodup) (pc j : Nat) :
    (patchAll code idxs pc)[j]? =
      if j ∈ idxs then code[j]?.map (setTarget pc) else code[j]? := by
  induction idxs generalizing code with
  | nil => rfl
  | cons idx idxs ih =>
      obtain ⟨hnot, hnodup⟩ := List.nodup_cons.mp hnodup
      refine (ih (patch code idx pc) hnodup).trans ?_
      rw [getElem?_patch]
      by_cases heq : j = idx
      · rw [if_neg (heq ▸ hnot), if_pos heq, if_pos (heq ▸ List.mem_cons_self)]
      · simp [heq]

/-- A jump of a stretch from `lo` to `hi`, at a place that may be a hole if `hole`. -/
def Settled (lo hi : Nat) (hole : Prop) : Jump → Prop
  | .none => True
  | .hole => hole
  | .target pc => lo ≤ pc ∧ pc ≤ hi

theorem Settled.mono {lo lo' hi hi' : Nat} {hole hole' : Prop} {j : Jump}
    (h : Settled lo hi hole j) (hlo : lo' ≤ lo) (hhi : hi ≤ hi') (hh : hole → hole') :
    Settled lo' hi' hole' j := by
  cases j with
  | none => trivial
  | hole => exact hh h
  | target pc => exact ⟨Nat.le_trans hlo h.1, Nat.le_trans h.2 hhi⟩

/-- `code` is `base` and what was emitted after it, whose jumps land in it or are among `holes`. -/
def Region (base code : List ι) (holes : Nat → Prop) : Prop :=
  base <+: code ∧ ∀ j i, base.length ≤ j → code[j]? = some i →
    Settled base.length code.length (holes j) (jump i)

namespace Region

variable {base mid code : List ι} {holes holes' : Nat → Prop}

theorem refl (base : List ι) (holes : Nat → Prop) : Region base base holes := by
  refine ⟨List.prefix_rfl, fun j i hj hi => ?_⟩
  rw [List.getElem?_eq_none hj] at hi
  cases hi

theorem length_le (h : Region base code holes) : base.length ≤ code.length := h.1.length_le

theorem mono (h : Region base code holes)
    (hh : ∀ j, base.length ≤ j → j < code.length → holes j → holes' j) :
    Region base code holes' :=
  ⟨h.1, fun j i hj hi => (h.2 j i hj hi).mono (Nat.le_refl _) (Nat.le_refl _)
    (hh j hj (List.getElem?_eq_some_iff.mp hi).1)⟩

/-- One instruction more. -/
theorem emit (h : Region base code holes) {i : ι}
    (hi : Settled base.length (code.length + 1) (holes code.length) (jump i)) :
    Region base (code ++ [i]) holes := by
  refine ⟨h.1.trans (List.prefix_append _ _), fun j k hj hk => ?_⟩
  rw [List.length_append, List.length_singleton]
  rcases Nat.lt_or_ge j code.length with hlt | hge
  · rw [List.getElem?_append_left hlt] at hk
    exact (h.2 j k hj hk).mono (Nat.le_refl _) (Nat.le_succ _) id
  · rw [List.getElem?_append_right hge] at hk
    obtain ⟨hzero, rfl⟩ : j - code.length = 0 ∧ i = k := by
      cases hsub : j - code.length with
      | zero => simpa [hsub] using hk
      | succ n => simp [hsub] at hk
    rwa [show j = code.length by omega]

/-- A jump whose target is left open. -/
theorem emit_hole (h : Region base code holes) {i : ι} (hi : jump i = .hole) :
    Region base (code ++ [i]) fun j => holes j ∨ j = code.length :=
  (h.mono fun _ _ _ => .inl).emit (by rw [hi]; exact .inr rfl)

theorem patch (h : Region base code holes) {idx pc : Nat} (hidx : base.length ≤ idx)
    (hlo : base.length ≤ pc) (hhi : pc ≤ code.length) :
    Region base (patch code idx pc) fun j => holes j ∧ j ≠ idx := by
  refine ⟨?_, fun j i hj hi => ?_⟩
  · rw [List.prefix_iff_getElem?]
    intro j hj
    rw [getElem?_patch, if_neg (by omega)]
    exact List.prefix_iff_getElem?.mp h.1 j hj
  · rw [length_patch]
    rw [getElem?_patch] at hi
    split at hi
    · obtain ⟨k, -, rfl⟩ := Option.map_eq_some_iff.mp hi
      rw [jump_setTarget]
      cases jump k with
      | none => trivial
      | hole | target _ => exact ⟨hlo, hhi⟩
    · next hne =>
        exact (h.2 j i hj hi).mono (Nat.le_refl _) (Nat.le_refl _) fun hh => ⟨hh, hne⟩

theorem patchAll (h : Region base code holes) {idxs : List Nat} {pc : Nat}
    (hidxs : ∀ idx ∈ idxs, base.length ≤ idx) (hlo : base.length ≤ pc) (hhi : pc ≤ code.length) :
    Region base (patchAll code idxs pc) fun j => holes j ∧ j ∉ idxs := by
  induction idxs generalizing code holes with
  | nil => exact h.mono fun _ _ _ hh => ⟨hh, List.not_mem_nil⟩
  | cons idx idxs ih =>
      have hone := h.patch (hidxs idx List.mem_cons_self) hlo hhi
      refine (ih hone (fun k hk => hidxs k (List.mem_cons_of_mem _ hk)) (by simpa)).mono ?_
      rintro j - - ⟨⟨hh, hne⟩, hnot⟩
      exact ⟨hh, by simp [hne, hnot]⟩

/-- A stretch emitted after another. -/
theorem trans (h : Region base mid holes) (h' : Region mid code holes') :
    Region base code fun j => j < mid.length ∧ holes j ∨ mid.length ≤ j ∧ holes' j := by
  refine ⟨h.1.trans h'.1, fun j i hj hi => ?_⟩
  rcases Nat.lt_or_ge j mid.length with hlt | hge
  · have hmid : mid[j]? = some i := by
      have := List.prefix_iff_getElem?.mp h'.1 j hlt
      rw [hi] at this
      rw [List.getElem?_eq_getElem hlt]
      exact this.symm
    exact (h.2 j i hj hmid).mono (Nat.le_refl _) h'.length_le fun hh => .inl ⟨hlt, hh⟩
  · exact (h'.2 j i hge hi).mono h.length_le (Nat.le_refl _) fun hh => .inr ⟨hge, hh⟩

end Region

/-- The pcs control can reach from `entry`. -/
inductive Reach (code : List ι) (entry : Nat) : Nat → Prop
  | entry : Reach code entry entry
  | next {pc : Nat} {i : ι} (h : Reach code entry pc) (hi : code[pc]? = some i)
      (hf : falls i = true) : Reach code entry (pc + 1)
  | jump {pc target : Nat} {i : ι} (h : Reach code entry pc) (hi : code[pc]? = some i)
      (hj : jump i = .target target) : Reach code entry target

/-- The stretch of code from `lo` to `hi` is closed: no hole is left in it, every jump goes to one
of its instructions, and control that enters it at the top never leaves it. -/
structure Closed (code : List ι) (lo hi : Nat) : Prop where
  patched : ∀ j i, lo ≤ j → j < hi → code[j]? = some i → jump i ≠ .hole
  target : ∀ j i pc, lo ≤ j → j < hi → code[j]? = some i → jump i = .target pc → lo ≤ pc ∧ pc < hi
  reach : ∀ pc, Reach code lo pc → lo ≤ pc ∧ pc < hi

/-- Where control may go from an instruction. -/
def flow (i : ι) : Jump × Bool := (jump i, falls i)

/-- Being closed depends only on where the instructions of the stretch let control go. -/
theorem Closed.congr {code code' : List ι} {lo hi : Nat} (h : Closed code lo hi)
    (hflow : (code'.take hi).map flow = (code.take hi).map flow) : Closed code' lo hi := by
  have hsame : ∀ j i', j < hi → code'[j]? = some i' →
      ∃ i, code[j]? = some i ∧ jump i = jump i' ∧ falls i = falls i' := by
    intro j i' hj hi'
    have hget := congrArg (·[j]?) hflow
    simp only [List.getElem?_map, List.getElem?_take_of_lt hj, hi', Option.map_some] at hget
    obtain ⟨i, hi, heq⟩ := Option.map_eq_some_iff.mp hget.symm
    exact ⟨i, hi, congrArg Prod.fst heq, congrArg Prod.snd heq⟩
  have hreach : ∀ pc, Reach code' lo pc → Reach code lo pc := by
    intro pc hpc
    induction hpc with
    | entry => exact .entry
    | next _ hi' hf ih =>
        obtain ⟨i, hi, -, heq⟩ := hsame _ _ (h.reach _ ih).2 hi'
        exact .next ih hi (heq.trans hf)
    | jump _ hi' hj ih =>
        obtain ⟨i, hi, heq, -⟩ := hsame _ _ (h.reach _ ih).2 hi'
        exact .jump ih hi (heq.trans hj)
  refine ⟨fun j i' hlo hj hi' => ?_, fun j i' pc hlo hj hi' htarget => ?_, fun pc hpc =>
    h.reach pc (hreach pc hpc)⟩
  · obtain ⟨i, hi, heq, -⟩ := hsame j i' hj hi'
    exact heq ▸ h.patched j i hlo hj hi
  · obtain ⟨i, hi, heq, -⟩ := hsame j i' hj hi'
    exact h.target j i pc hlo hj hi (heq.trans htarget)

theorem Closed.congr_iff {code code' : List ι} {lo hi : Nat}
    (hflow : (code'.take hi).map flow = (code.take hi).map flow) :
    Closed code' lo hi ↔ Closed code lo hi :=
  ⟨fun h => h.congr hflow.symm, fun h => h.congr hflow⟩

/-- A stretch whose jumps stay inside and whose last instruction does not fall is closed. -/
theorem closed_of_last {code : List ι} {lo hi : Nat} {last : ι}
    (hpatched : ∀ j i, lo ≤ j → j < hi → code[j]? = some i → jump i ≠ .hole)
    (htarget : ∀ j i pc, lo ≤ j → j < hi → code[j]? = some i → jump i = .target pc →
      lo ≤ pc ∧ pc < hi)
    (hlo : lo < hi) (hlast : code[hi - 1]? = some last) (hfalls : falls last = false) :
    Closed code lo hi := by
  refine ⟨hpatched, htarget, fun pc hpc => ?_⟩
  induction hpc with
  | entry => exact ⟨Nat.le_refl _, hlo⟩
  | @next pc i _ hi' hf ih =>
      have hne : pc ≠ hi - 1 := by
        rintro rfl
        rw [hlast] at hi'
        cases hi'
        rw [hfalls] at hf
        cases hf
      omega
  | @jump pc target i _ hi' hj ih => exact htarget pc i target ih.1 ih.2 hi' hj

end Backpatch
