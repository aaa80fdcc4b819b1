import RiceVM.Lib.Backpatch

/-!
Machine code in a larger program: where a block of it is, what a machine that runs it comes to, and
what patching does to code that is put together from blocks.
-/
namespace Assembly

variable {ι σ : Type}

/-- The block is at `pc` in the code. -/
def At (code : List ι) (pc : Nat) (block : List ι) : Prop :=
  ∃ pre post, code = pre ++ (block ++ post) ∧ pre.length = pc

namespace At

variable {code block block' : List ι} {pc : Nat} {i : ι}

theorem self (code : List ι) : At code 0 code := ⟨[], [], by simp, rfl⟩

theorem left (h : At code pc (block ++ block')) : At code pc block := by
  obtain ⟨pre, post, rfl, rfl⟩ := h
  exact ⟨pre, block' ++ post, by simp, rfl⟩

theorem right (h : At code pc (block ++ block')) : At code (pc + block.length) block' := by
  obtain ⟨pre, post, rfl, rfl⟩ := h
  exact ⟨pre ++ block, post, by simp, by simp⟩

theorem head (h : At code pc (i :: block)) : code[pc]? = some i := by
  obtain ⟨pre, post, rfl, rfl⟩ := h
  simp

theorem tail (h : At code pc (i :: block)) : At code (pc + 1) block :=
  (show At code pc ([i] ++ block) from h).right

end At

/-- Executing an instruction at `pc` gives the next pc and state. -/
inductive Runs (exec : ι → Nat → σ → Nat × σ) (code : List ι) :
    Nat → σ → Nat → σ → Prop
  | refl (pc : Nat) (s : σ) : Runs exec code pc s pc s
  | step {pc pc' : Nat} {s s' : σ} {i : ι} (hi : code[pc]? = some i)
      (h : Runs exec code (exec i pc s).1 (exec i pc s).2 pc' s') : Runs exec code pc s pc' s'

namespace Runs

variable {exec : ι → Nat → σ → Nat × σ} {code : List ι} {pc pc₁ pc₂ : Nat} {s s₁ s₂ : σ}

theorem trans (h : Runs exec code pc s pc₁ s₁) (h' : Runs exec code pc₁ s₁ pc₂ s₂) :
    Runs exec code pc s pc₂ s₂ := by
  induction h with
  | refl _ _ => exact h'
  | step hi _ ih => exact .step hi (ih h')

theorem one {i : ι} (hi : code[pc]? = some i) (hexec : exec i pc s = (pc₁, s₁)) :
    Runs exec code pc s pc₁ s₁ :=
  .step hi (by rw [hexec]; exact .refl _ _)

/-- A machine that comes to a halt does so in one way. -/
theorem unique (h : Runs exec code pc s pc₁ s₁) (h' : Runs exec code pc s pc₂ s₂)
    (hhalt : code[pc₁]? = none) (hhalt' : code[pc₂]? = none) : pc₁ = pc₂ ∧ s₁ = s₂ := by
  induction h with
  | refl pc s =>
      cases h' with
      | refl => exact ⟨rfl, rfl⟩
      | step hi _ => cases hi.symm.trans hhalt
  | step hi _ ih =>
      cases h' with
      | refl => cases hi.symm.trans hhalt'
      | step hi' h' =>
          cases Option.some.inj (hi.symm.trans hi')
          exact ih h' hhalt

end Runs

/-! ### Patching -/

open Backpatch Patchable

variable [Patchable ι]

theorem patch_append (pre post : List ι) (i : ι) (pc : Nat) :
    patch (pre ++ i :: post) pre.length pc = pre ++ setTarget pc i :: post := by
  rw [patch, List.modify_eq_take_cons_drop (by simp)]
  simp

/-- What is after a block does not matter to its patches. -/
theorem patch_append_left {pre : List ι} (post : List ι) {idx : Nat} (pc : Nat)
    (hidx : idx < pre.length) : patch (pre ++ post) idx pc = patch pre idx pc ++ post := by
  refine List.ext_getElem? fun j => ?_
  rw [getElem?_patch]
  rcases Nat.lt_or_ge j pre.length with hlt | hge
  · rw [List.getElem?_append_left hlt, List.getElem?_append_left (by simpa using hlt),
      getElem?_patch]
  · rw [List.getElem?_append_right hge, List.getElem?_append_right (by simpa using hge),
      if_neg (by omega), length_patch]

theorem patchAll_append_left {pre : List ι} (post : List ι) {idxs : List Nat} (pc : Nat)
    (hidxs : ∀ idx ∈ idxs, idx < pre.length) :
    patchAll (pre ++ post) idxs pc = patchAll pre idxs pc ++ post := by
  induction idxs generalizing pre with
  | nil => rfl
  | cons idx idxs ih =>
      have hrest := List.forall_mem_cons.mp hidxs
      refine (congrArg (patchAll · idxs pc) (patch_append_left post pc hrest.1)).trans ?_
      exact ih fun k hk => by simpa using hrest.2 k hk

/-- Patches in one place and in another can be made in any order. -/
theorem patch_comm (code : List ι) {i j : Nat} (hij : i ≠ j) (p q : Nat) :
    patch (patch code i p) j q = patch (patch code j q) i p := by
  refine List.ext_getElem? fun k => ?_
  simp only [getElem?_patch]
  by_cases hk : k = i
  · rw [if_pos hk, if_neg (hk ▸ hij), if_pos hk, if_neg (hk ▸ hij)]
  · rw [if_neg hk, if_neg hk]

theorem patchAll_patch (code : List ι) {idxs : List Nat} {i : Nat} (hi : i ∉ idxs) (p q : Nat) :
    patchAll (patch code i p) idxs q = patch (patchAll code idxs q) i p := by
  induction idxs generalizing code with
  | nil => rfl
  | cons idx idxs ih =>
      have hne : i ≠ idx := fun heq => hi (heq ▸ List.mem_cons_self)
      have hi : i ∉ idxs := fun hmem => hi (List.mem_cons_of_mem _ hmem)
      refine (congrArg (patchAll · idxs q) (patch_comm code hne p q)).trans ?_
      exact ih _ hi

/-- A hole in a block, and those in what follows it. -/
theorem patchAll_cons {code code' post post' : List ι} {idx pc : Nat} {idxs : List Nat}
    (hidx : idx < code.length) (hnot : idx ∉ idxs) (hcode : patch code idx pc = code')
    (hpost : patchAll (code ++ post) idxs pc = code ++ post') :
    patchAll (code ++ post) (idx :: idxs) pc = code' ++ post' := by
  refine (patchAll_patch _ hnot pc pc).trans ?_
  rw [hpost, patch_append_left _ _ hidx, hcode]

end Assembly
