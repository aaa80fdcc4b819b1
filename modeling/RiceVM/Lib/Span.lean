import Mathlib.Data.List.Basic

/-!
Spans of consecutive units, laid out one after the other.
-/

structure Span where
  off : Nat
  size : Nat
  deriving DecidableEq, Repr

namespace Span

/-- The unit after a span's last. -/
def stop (s : Span) : Nat := s.off + s.size

/-- The spans stand in order between `base` and `last`, none reaching into the next. -/
def Chained (base last : Nat) : List Span → Prop
  | [] => base ≤ last
  | s :: spans => base ≤ s.off ∧ Chained s.stop last spans

namespace Chained

variable {a b c : Nat} {s : Span} {spans rest : List Span}

theorem le (h : Chained a b spans) : a ≤ b := by
  induction spans generalizing a with
  | nil => exact h
  | cons s spans ih =>
      have := ih h.2
      have := h.1
      unfold stop at *
      omega

theorem mono_left {a' : Nat} (h : Chained a b spans) (ha : a' ≤ a) : Chained a' b spans := by
  cases spans with
  | nil => exact Nat.le_trans ha h
  | cons s spans => exact ⟨Nat.le_trans ha h.1, h.2⟩

theorem append (h : Chained a b spans) (hrest : Chained b c rest) :
    Chained a c (spans ++ rest) := by
  induction spans generalizing a with
  | nil => exact hrest.mono_left h
  | cons s spans ih => exact ⟨h.1, ih h.2⟩

theorem within (h : Chained a b spans) (hs : s ∈ spans) : a ≤ s.off ∧ s.stop ≤ b := by
  induction spans generalizing a with
  | nil => cases hs
  | cons t spans ih =>
      rcases List.mem_cons.mp hs with rfl | hs
      · exact ⟨h.1, h.2.le⟩
      · have := ih h.2 hs
        have := h.1
        unfold stop at *
        omega

/-- Spans laid out in order are pairwise disjoint. -/
theorem apart (h : Chained a b spans) : spans.Pairwise fun s t => s.stop ≤ t.off := by
  induction spans generalizing a with
  | nil => exact .nil
  | cons s spans ih => exact .cons (fun t ht => (h.2.within ht).1) (ih h.2)

end Chained
end Span
