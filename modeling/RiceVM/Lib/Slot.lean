/-!
A buffer that holds at most one value, and the values that pass through it.
Nothing is overwritten and nothing is read twice, so what was taken out is what
was put in, up to the value that is still inside.
-/
namespace Slot
variable {α : Type}

inductive Act (α : Type) where
  | put (v : α)
  | take (v : α)

/-- A put needs an empty slot, and a take gets the value in a full one. -/
inductive Step : Option α → Act α → Option α → Prop
  | put (v : α) : Step none (.put v) (some v)
  | take (v : α) : Step (some v) (.take v) none

/-- The acts on a slot that was empty at first, most recent first, and what it holds. -/
inductive Run : List (Act α) → Option α → Prop
  | start : Run [] none
  | act {acts : List (Act α)} {s t : Option α} {a : Act α} :
      Run acts s → Step s a t → Run (a :: acts) t

def Act.put? : Act α → Option α
  | .put v => some v
  | .take _ => none

def Act.take? : Act α → Option α
  | .put _ => none
  | .take v => some v

/-- The values put in, first to last. -/
def puts (acts : List (Act α)) : List α := acts.reverse.filterMap Act.put?

/-- The values taken out, first to last. -/
def takes (acts : List (Act α)) : List α := acts.reverse.filterMap Act.take?

theorem puts_cons (a : Act α) (acts : List (Act α)) :
    puts (a :: acts) = puts acts ++ a.put?.toList := by
  rw [puts, List.reverse_cons, List.filterMap_append]
  cases a <;> rfl

theorem takes_cons (a : Act α) (acts : List (Act α)) :
    takes (a :: acts) = takes acts ++ a.take?.toList := by
  rw [takes, List.reverse_cons, List.filterMap_append]
  cases a <;> rfl

/-- What was put in has been taken out or is in the slot. -/
theorem Run.balance {acts : List (Act α)} {s : Option α} (h : Run acts s) :
    puts acts = takes acts ++ s.toList := by
  induction h with
  | start => rfl
  | act _ step ih =>
      rw [puts_cons, takes_cons, ih]
      cases step <;> rfl

theorem Run.takes_prefix {acts : List (Act α)} {s : Option α} (h : Run acts s) :
    takes acts <+: puts acts := ⟨s.toList, h.balance.symm⟩

theorem Run.in_flight {acts : List (Act α)} {s : Option α} (h : Run acts s) :
    (puts acts).length ≤ (takes acts).length + 1 := by
  rw [h.balance, List.length_append]
  cases s <;> simp

theorem Run.nil {s : Option α} (h : Run [] s) : s = none := by
  cases h
  rfl

end Slot
