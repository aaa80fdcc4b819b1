import RiceVM.Lib.Exec

/-!
Programs that are given fuel: what it means that one ends well however much more fuel than enough
it has, with one rule for a step that spends fuel and one for sequencing.
-/
namespace Exec
variable {σ ε α β : Type}

/-- From some fuel on, the program ends with `a` in the state `t`. -/
def Returns (m : Nat → Exec σ ε α) (s : σ) (a : α) (t : σ) : Prop :=
  ∃ enough, ∀ n, enough ≤ n → m n s = .ok a t

namespace Returns

variable {m : Nat → Exec σ ε α} {s t u : σ} {a : α} {b : β}

theorem of_eq (h : ∀ n, m n s = .ok a t) : Returns m s a t := ⟨0, fun n _ => h n⟩

/-- A program that spends a unit of fuel and then goes on as another does. -/
theorem step {k : Nat → Exec σ ε α} {s' : σ} (hstep : ∀ n, m (n + 1) s = k n s')
    (h : Returns k s' a t) : Returns m s a t := by
  obtain ⟨enough, h⟩ := h
  refine ⟨enough + 1, fun n hn => ?_⟩
  obtain ⟨n, rfl⟩ := Nat.exists_eq_add_one_of_ne_zero (Nat.ne_of_gt (Nat.lt_of_lt_of_le
    (Nat.succ_pos enough) hn))
  rw [hstep, h n (Nat.le_of_succ_le_succ hn)]

/-- A program that goes on as another does. -/
theorem congr {k : Nat → Exec σ ε α} {s' : σ} (hm : ∀ n, m n s = k n s')
    (h : Returns k s' a t) : Returns m s a t := by
  obtain ⟨enough, h⟩ := h
  exact ⟨enough, fun n hn => (hm n).trans (h n hn)⟩

theorem bind {f : Nat → α → Exec σ ε β} (hm : Returns m s a u)
    (hf : Returns (fun n => f n a) u b t) : Returns (fun n => m n >>= f n) s b t := by
  obtain ⟨enough₁, hm⟩ := hm
  obtain ⟨enough₂, hf⟩ := hf
  refine ⟨max enough₁ enough₂, fun n hn => ?_⟩
  have hfirst := hm n (Nat.le_trans (Nat.le_max_left ..) hn)
  exact (bind_ok hfirst).trans (hf n (Nat.le_trans (Nat.le_max_right ..) hn))

/-- A last step that spends no fuel. -/
theorem map {f : α → Exec σ ε β} (hm : Returns m s a u) (hf : f a u = .ok b t) :
    Returns (fun n => m n >>= f) s b t :=
  bind hm (of_eq fun _ => hf)

/-- Enough fuel leaves one outcome. -/
theorem unique {a' : α} {t' : σ} (h : Returns m s a t) (h' : Returns m s a' t') :
    a = a' ∧ t = t' := by
  obtain ⟨enough, h⟩ := h
  obtain ⟨enough', h'⟩ := h'
  have heq := (h _ (Nat.le_max_left enough enough')).symm.trans (h' _ (Nat.le_max_right ..))
  injection heq with ha ht
  exact ⟨ha, ht⟩

end Returns

end Exec
