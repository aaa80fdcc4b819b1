import Mathlib.Algebra.Order.Ring.Int
import Mathlib.Order.Basic

/-!
Binary search in a table of ranges. A probe tells whether the value that is looked for lies
before, in or after the range of an entry. The search is the same program in every monad the
table may be read in.
-/

namespace RangeSearch

/-- The offset of the entry whose range the value lies in, among `remaining` entries from the
offset `first` on. -/
def rangeSearch {m : Type → Type} [Monad m] (probe : Nat → m Ordering) (stride first remaining : Nat) :
    m (Option Nat) :=
  if _ : remaining = 0 then pure none
  else do
    let half := remaining / 2
    let entry := first + half * stride
    match ← probe entry with
    | .lt => rangeSearch probe stride first half
    | .gt => rangeSearch probe stride (entry + stride) (remaining - (half + 1))
    | .eq => return some entry
termination_by remaining
decreasing_by all_goals omega

section
variable {m : Type → Type} [Monad m] [LawfulMonad m] {probe : Nat → m Ordering}
variable {side : Nat → Ordering} {stride base : Nat}

/-- What the search answers about the entries from the `t`-th on. -/
def Answers (side : Nat → Ordering) (stride base t remaining : Nat) : Option Nat → Prop
  | some entry => ∃ k, t ≤ k ∧ k < t + remaining ∧ entry = base + k * stride ∧ side k = .eq
  | none => ∀ k, t ≤ k → k < t + remaining → side k ≠ .eq

/-- The entries before one the value lies in or before lie before the value. -/
theorem rangeSearch_answers (t remaining : Nat)
    (hprobe : ∀ k, t ≤ k → k < t + remaining → probe (base + k * stride) = pure (side k))
    (hsides : ∀ i j, t ≤ i → i < j → j < t + remaining → side i = .gt ∨ side j = .lt) :
    ∃ found, rangeSearch probe stride (base + t * stride) remaining = pure found ∧
      Answers side stride base t remaining found := by
  induction remaining using Nat.strongRecOn generalizing t with
  | ind remaining ih =>
      rw [rangeSearch]
      by_cases hnone : remaining = 0
      · rw [dif_pos hnone]
        exact ⟨none, rfl, fun k _ _ => by omega⟩
      have hentry : base + t * stride + remaining / 2 * stride =
          base + (t + remaining / 2) * stride := by rw [Nat.add_mul, Nat.add_assoc]
      have hread := hprobe (t + remaining / 2) (by omega) (by omega)
      rw [dif_neg hnone]
      dsimp only
      rw [hentry, hread, pure_bind]
      cases hside : side (t + remaining / 2) with
      | eq => exact ⟨_, rfl, t + remaining / 2, by omega, by omega, rfl, hside⟩
      | lt =>
          obtain ⟨found, hrun, hfound⟩ := ih (remaining / 2) (by omega) t
            (fun k hk hlt => hprobe k hk (by omega)) fun i j hi hij hj => hsides i j hi hij (by omega)
          refine ⟨found, hrun, ?_⟩
          cases found with
          | some entry =>
              obtain ⟨k, hk, hlt, hfound⟩ := hfound
              exact ⟨k, hk, by omega, hfound⟩
          | none =>
              intro k hk hlt heq
              -- the entries after one that the value lies before
              obtain hbefore | hmid | hafter := Nat.lt_trichotomy k (t + remaining / 2)
              · exact hfound k hk (by omega) heq
              · rw [hmid, hside] at heq
                cases heq
              · have := hsides _ k (by omega) hafter hlt
                rw [hside, heq] at this
                exact this.elim nofun nofun
      | gt =>
          have hnext : base + (t + remaining / 2) * stride + stride =
              base + (t + remaining / 2 + 1) * stride := by rw [Nat.succ_mul, Nat.add_assoc]
          obtain ⟨found, hrun, hfound⟩ := ih (remaining - (remaining / 2 + 1)) (by omega)
            (t + remaining / 2 + 1) (fun k hk hlt => hprobe k (by omega) (by omega))
            fun i j hi hij hj => hsides i j (by omega) hij (by omega)
          refine ⟨found, hnext ▸ hrun, ?_⟩
          cases found with
          | some entry =>
              obtain ⟨k, hk, hlt, hfound⟩ := hfound
              exact ⟨k, by omega, by omega, hfound⟩
          | none =>
              intro k hk hlt heq
              obtain hbefore | hmid | hafter := Nat.lt_trichotomy k (t + remaining / 2)
              · have := hsides k _ hk hbefore (by omega)
                rw [hside, heq] at this
                exact this.elim nofun nofun
              · rw [hmid, hside] at heq
                cases heq
              · exact hfound k (by omega) (by omega) heq

end

/-! ### Tables of ranges -/

section
variable {E α : Type} [LinearOrder α] {lower : E → α} {contains : E → α → Prop}

/-- Each range begins at its lower bound and has no gaps. -/
structure IsRange (lower : E → α) (contains : E → α → Prop) : Prop where
  lower_le : ∀ e v, contains e v → lower e ≤ v
  no_gap : ∀ e u v, contains e v → lower e ≤ u → u ≤ v → contains e u

/-- Entries that are sorted by their lower bounds, of which no two have a value in common and
each has one. -/
structure Sorted (lower : E → α) (contains : E → α → Prop) (entries : List E) : Prop where
  sorted : entries.Pairwise fun a b => lower a ≤ lower b
  disjoint : entries.Pairwise fun a b => ∀ v, ¬ (contains a v ∧ contains b v)
  nonempty : ∀ e ∈ entries, ∃ v, contains e v

/-- The probes of the entries of a table turn from after over in to before. -/
theorem Sorted.sides {entries : List E} {v : α} {side : E → Ordering} (hr : IsRange lower contains)
    (hs : Sorted lower contains entries) (hside : ∀ e ∈ entries, (side e = .lt ↔ v < lower e) ∧
      (side e = .eq ↔ contains e v)) :
    entries.Pairwise fun a b => side a = .gt ∨ side b = .lt := by
  refine (hs.sorted.and hs.disjoint).imp_of_mem fun {a b} ha hb ⟨hle, hdisjoint⟩ => ?_
  by_cases hlt : v < lower b
  · exact .inr ((hside b hb).1.mpr hlt)
  · rw [not_lt] at hlt
    obtain ⟨u, hu⟩ := hs.nonempty b hb
    have hb' : contains b (lower b) := hr.no_gap b (lower b) u hu le_rfl (hr.lower_le b u hu)
    have hnot : ¬ contains a v := fun hv => hdisjoint _ ⟨hr.no_gap a (lower b) v hv hle hlt, hb'⟩
    cases ha' : side a with
    | gt => exact .inl rfl
    | eq => exact absurd ((hside a ha).2.mp ha') hnot
    | lt => exact absurd ((hside a ha).1.mp ha') (not_lt.mpr (hle.trans hlt))

theorem Sorted.single {e : E} {v : α} (hv : contains e v) : Sorted lower contains [e] where
  sorted := List.pairwise_singleton _ _
  disjoint := List.pairwise_singleton _ _
  nonempty e' he := by
    rw [List.mem_singleton.mp he]
    exact ⟨v, hv⟩

end

end RangeSearch
