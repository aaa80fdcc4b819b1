/-!
Programs over a mutable state that may fail, panic or run out of fuel. An error
keeps the state it was raised in, as a `Result` returned from a method that
takes its receiver by mutable reference does. `wp` is partial correctness: a
panic and an exhausted fuel satisfy every postcondition.
-/

namespace Exec
variable {σ ε α β : Type}

/-- How a program ends. -/
inductive Res (σ ε α : Type) where
  | ok (a : α) (s : σ)
  | error (e : ε) (s : σ)
  | panic
  | diverge

end Exec

open Exec in
/-- A program that may change a state of type `σ` and fail with an `ε`. -/
def Exec (σ ε α : Type) : Type := σ → Res σ ε α

namespace Exec
variable {σ ε α β : Type}

protected def pure (a : α) : Exec σ ε α := fun s => .ok a s

protected def bind (m : Exec σ ε α) (f : α → Exec σ ε β) : Exec σ ε β := fun s =>
  match m s with
  | .ok a s => f a s
  | .error e s => .error e s
  | .panic => .panic
  | .diverge => .diverge

instance : Monad (Exec σ ε) where
  pure := Exec.pure
  bind := Exec.bind

def get : Exec σ ε σ := fun s => .ok s s
def set (s : σ) : Exec σ ε Unit := fun _ => .ok () s
def modify (f : σ → σ) : Exec σ ε Unit := fun s => .ok () (f s)
def throw (e : ε) : Exec σ ε α := fun s => .error e s
def panic : Exec σ ε α := fun _ => .panic
def diverge : Exec σ ε α := fun _ => .diverge

/-- Run a program and hand its error to the caller as a value. -/
def attempt (m : Exec σ ε α) : Exec σ ε (Except ε α) := fun s =>
  match m s with
  | .ok a s => .ok (.ok a) s
  | .error e s => .ok (.error e) s
  | .panic => .panic
  | .diverge => .diverge

/-- Run a program and restore part of the state on every exit, errors included. -/
def restoring (m : Exec σ ε α) (restore : σ → σ) : Exec σ ε α := fun s =>
  match m s with
  | .ok a s => .ok a (restore s)
  | .error e s => .error e (restore s)
  | .panic => .panic
  | .diverge => .diverge

def ofExcept : Except ε α → Exec σ ε α
  | .ok a => pure a
  | .error e => throw e

def ofOption (e : ε) : Option α → Exec σ ε α
  | some a => pure a
  | none => throw e

/-- The value of an option the host indexes without a check. -/
def unwrap : Option α → Exec σ ε α
  | some a => pure a
  | none => panic

@[simp] theorem pure_apply (a : α) (s : σ) :
    (Pure.pure a : Exec σ ε α) s = .ok a s := rfl

theorem bind_apply (m : Exec σ ε α) (f : α → Exec σ ε β) (s : σ) :
    (m >>= f) s = match m s with
      | .ok a s => f a s
      | .error e s => .error e s
      | .panic => .panic
      | .diverge => .diverge := rfl

theorem bind_assoc {γ : Type} (m : Exec σ ε α) (f : α → Exec σ ε β) (g : β → Exec σ ε γ) :
    (m >>= f) >>= g = m >>= fun a => f a >>= g := by
  funext s
  simp only [bind_apply]
  cases m s <;> rfl

/-- A bind ends well exactly when both halves do. -/
theorem bind_eq_ok {m : Exec σ ε α} {f : α → Exec σ ε β} {s t : σ} {b : β} :
    (m >>= f) s = .ok b t ↔ ∃ a u, m s = .ok a u ∧ f a u = .ok b t := by
  rw [bind_apply]
  cases m s with
  | ok a u => exact ⟨fun h => ⟨a, u, rfl, h⟩, fun ⟨_, _, hm, h⟩ => by cases hm; exact h⟩
  | error e u => simp
  | panic | diverge => simp

@[simp] theorem get_apply (s : σ) : (get : Exec σ ε σ) s = .ok s s := rfl
@[simp] theorem set_apply (s t : σ) : (set t : Exec σ ε Unit) s = .ok () t := rfl
@[simp] theorem modify_apply (f : σ → σ) (s : σ) :
    (modify f : Exec σ ε Unit) s = .ok () (f s) := rfl
@[simp] theorem throw_apply (e : ε) (s : σ) : (throw e : Exec σ ε α) s = .error e s := rfl
@[simp] theorem panic_apply (s : σ) : (panic : Exec σ ε α) s = .panic := rfl
@[simp] theorem diverge_apply (s : σ) : (diverge : Exec σ ε α) s = .diverge := rfl

@[simp] theorem ofExcept_ok (a : α) (s : σ) : (ofExcept (.ok a) : Exec σ ε α) s = .ok a s := rfl
@[simp] theorem ofExcept_error (e : ε) (s : σ) :
    (ofExcept (.error e) : Exec σ ε α) s = .error e s := rfl

@[simp] theorem unwrap_some (a : α) (s : σ) : (unwrap (some a) : Exec σ ε α) s = .ok a s := rfl

/-- What runs after a program that ended well. -/
theorem bind_ok {m : Exec σ ε α} {f : α → Exec σ ε β} {s t : σ} {a : α} (h : m s = .ok a t) :
    (m >>= f) s = f a t := by
  rw [bind_apply, h]

theorem attempt_ok {m : Exec σ ε α} {s t : σ} {a : α} (h : m s = .ok a t) :
    attempt m s = .ok (.ok a) t := by
  rw [attempt, h]

/-- Weakest precondition for a normal postcondition `Q` and an error one `E`. -/
def wp (m : Exec σ ε α) (Q : α → σ → Prop) (E : ε → σ → Prop) (s : σ) : Prop :=
  match m s with
  | .ok a s => Q a s
  | .error e s => E e s
  | .panic | .diverge => True

section rules
variable {Q : α → σ → Prop} {E : ε → σ → Prop} {s : σ}

@[simp] theorem wp_pure (a : α) : wp (Pure.pure a) Q E s ↔ Q a s := Iff.rfl
@[simp] theorem wp_pure' (a : α) : wp (Exec.pure a) Q E s ↔ Q a s := Iff.rfl
@[simp] theorem wp_throw (e : ε) : wp (throw e) Q E s ↔ E e s := Iff.rfl
@[simp] theorem wp_panic : wp panic Q E s ↔ True := Iff.rfl
@[simp] theorem wp_diverge : wp diverge Q E s ↔ True := Iff.rfl
@[simp] theorem wp_get {Q : σ → σ → Prop} : wp get Q E s ↔ Q s s := Iff.rfl
@[simp] theorem wp_set {Q : Unit → σ → Prop} (t : σ) : wp (set t) Q E s ↔ Q () t := Iff.rfl
@[simp] theorem wp_modify {Q : Unit → σ → Prop} (f : σ → σ) :
    wp (modify f) Q E s ↔ Q () (f s) := Iff.rfl

@[simp] theorem wp_ofExcept_ok (a : α) : wp (ofExcept (.ok a)) Q E s ↔ Q a s := Iff.rfl
@[simp] theorem wp_ofExcept_error (e : ε) : wp (ofExcept (.error e)) Q E s ↔ E e s := Iff.rfl

@[simp] theorem wp_bind {m : Exec σ ε β} {f : β → Exec σ ε α} :
    wp (m >>= f) Q E s ↔ wp m (fun b t => wp (f b) Q E t) E s := by
  simp only [wp, bind_apply]
  cases m s <;> rfl

@[simp] theorem wp_attempt {m : Exec σ ε β} {Q : Except ε β → σ → Prop} :
    wp (attempt m) Q E s ↔ wp m (fun b t => Q (.ok b) t) (fun e t => Q (.error e) t) s := by
  simp only [wp, attempt]
  cases m s <;> rfl

@[simp] theorem wp_restoring {m : Exec σ ε α} {restore : σ → σ} :
    wp (restoring m restore) Q E s ↔
      wp m (fun a t => Q a (restore t)) (fun e t => E e (restore t)) s := by
  simp only [wp, restoring]
  cases m s <;> rfl

theorem wp_mono {m : Exec σ ε α} {Q' : α → σ → Prop} {E' : ε → σ → Prop}
    (h : wp m Q E s) (hQ : ∀ a t, Q a t → Q' a t) (hE : ∀ e t, E e t → E' e t) :
    wp m Q' E' s := by
  unfold wp at h ⊢
  cases hm : m s with
  | ok a t => rw [hm] at h; exact hQ a t h
  | error e t => rw [hm] at h; exact hE e t h
  | panic | diverge => trivial

theorem wp_and {m : Exec σ ε α} {Q' : α → σ → Prop} {E' : ε → σ → Prop} (h : wp m Q E s)
    (h' : wp m Q' E' s) :
    wp m (fun a t => Q a t ∧ Q' a t) (fun e t => E e t ∧ E' e t) s := by
  unfold wp at h h' ⊢
  cases hm : m s with
  | ok a t => rw [hm] at h h'; exact ⟨h, h'⟩
  | error e t => rw [hm] at h h'; exact ⟨h, h'⟩
  | panic | diverge => trivial

theorem wp_ok {m : Exec σ ε α} {a : α} {t : σ} (h : wp m Q E s) (hm : m s = .ok a t) :
    Q a t := by
  simpa only [wp, hm] using h

theorem wp_error {m : Exec σ ε α} {e : ε} {t : σ} (h : wp m Q E s) (hm : m s = .error e t) :
    E e t := by
  simpa only [wp, hm] using h

/-- What holds after a program that ends well, given the run itself. -/
theorem wp_of_ok {m : Exec σ ε α} {Q' : α → σ → Prop} {E' : ε → σ → Prop} (h : wp m Q' E' s)
    (hE : ∀ e t, E' e t → E e t) (hQ : ∀ a t, m s = .ok a t → Q' a t → Q a t) : wp m Q E s := by
  unfold wp at h ⊢
  cases hm : m s with
  | ok a t => rw [hm] at h; exact hQ a t hm h
  | error e t => rw [hm] at h; exact hE e t h
  | panic | diverge => trivial

/-- Postconditions that agree wherever the program can end well. -/
theorem wp_iff_of {m : Exec σ ε α} {P Q' : α → σ → Prop} {E' : ε → σ → Prop} (h : wp m P E' s)
    (hQ : ∀ a t, P a t → (Q a t ↔ Q' a t)) : wp m Q E s ↔ wp m Q' E s := by
  unfold wp at h ⊢
  cases hm : m s with
  | ok a t => rw [hm] at h; exact hQ a t h
  | error e t => exact Iff.rfl
  | panic | diverge => exact Iff.rfl

theorem wp_ite {c : Prop} [Decidable c] {m n : Exec σ ε α}
    (hm : c → wp m Q E s) (hn : ¬ c → wp n Q E s) : wp (if c then m else n) Q E s := by
  by_cases h : c
  · rw [if_pos h]; exact hm h
  · rw [if_neg h]; exact hn h

theorem wp_unwrap {o : Option α} (h : ∀ a, o = some a → Q a s) : wp (unwrap o) Q E s := by
  cases o with
  | some a => exact h a rfl
  | none => trivial

theorem wp_ofOption {o : Option α} {e : ε} (hs : ∀ a, o = some a → Q a s)
    (hn : o = none → E e s) : wp (ofOption e o) Q E s := by
  cases o with
  | some a => exact hs a rfl
  | none => exact hn rfl

theorem wp_ofExcept {x : Except ε α} (ho : ∀ a, x = .ok a → Q a s)
    (he : ∀ e, x = .error e → E e s) : wp (ofExcept x) Q E s := by
  cases x with
  | ok a => exact ho a rfl
  | error e => exact he e rfl

end rules

/-! Programs all of whose outcomes stay related to the state they started in. -/

/-- Every outcome of `m` with a state has one related to the initial state by `R`, and
every error satisfies `F`. -/
def Within (R : σ → σ → Prop) (F : ε → Prop) (m : Exec σ ε α) : Prop :=
  ∀ s, wp m (fun _ t => R s t) (fun e t => R s t ∧ F e) s

section within
variable {R : σ → σ → Prop} {F : ε → Prop}

theorem Within.mono {R' : σ → σ → Prop} {m : Exec σ ε α} (h : Within R F m)
    (hR : ∀ s t, R s t → R' s t) : Within R' F m :=
  fun s => wp_mono (h s) (fun _ t => hR s t) (fun _ t h => ⟨hR s t h.1, h.2⟩)

/-- Continue from a program that stays within a transitive relation. -/
theorem Within.then (trans : ∀ s t u, R s t → R t u → R s u) {m : Exec σ ε α}
    {Q : α → σ → Prop} {s₀ s : σ} (hm : Within R F m) (h₀ : R s₀ s)
    (hQ : ∀ a t, R s₀ t → Q a t) :
    wp m Q (fun e t => R s₀ t ∧ F e) s :=
  wp_mono (hm s) (fun a t h => hQ a t (trans _ _ _ h₀ h))
    (fun _ _ h => ⟨trans _ _ _ h₀ h.1, h.2⟩)

theorem Within.bind (trans : ∀ s t u, R s t → R t u → R s u) {m : Exec σ ε α}
    {f : α → Exec σ ε β} (hm : Within R F m) (hf : ∀ a, Within R F (f a)) :
    Within R F (m >>= f) := by
  intro s
  rw [wp_bind]
  refine wp_mono (hm s) (fun a t h => ?_) (fun _ _ h => h)
  exact wp_mono (hf a t) (fun _ _ h' => trans _ _ _ h h')
    (fun _ _ h' => ⟨trans _ _ _ h h'.1, h'.2⟩)

theorem Within.pure (refl : ∀ s, R s s) (a : α) : Within R F (Pure.pure a : Exec σ ε α) := refl

theorem Within.modify {f : σ → σ} (h : ∀ s, R s (f s)) : Within R F (modify f) := h

theorem Within.throw (refl : ∀ s, R s s) {e : ε} (he : F e) :
    Within R F (throw e : Exec σ ε α) := fun s => ⟨refl s, he⟩

/-- A program that reads the state and goes on with a program chosen from it. -/
theorem Within.get {f : σ → Exec σ ε α}
    (h : ∀ s, wp (f s) (fun _ t => R s t) (fun e t => R s t ∧ F e) s) :
    Within R F (get >>= f) := fun s => by
  rw [wp_bind]
  exact h s

theorem Within.ok {m : Exec σ ε α} {s t : σ} {a : α} (h : Within R F m)
    (hm : m s = .ok a t) : R s t :=
  wp_ok (Q := fun _ t => R s t) (h s) hm

theorem Within.error {m : Exec σ ε α} {s t : σ} {e : ε} (h : Within R F m)
    (hm : m s = .error e t) : R s t ∧ F e :=
  wp_error (E := fun e t => R s t ∧ F e) (h s) hm

end within

/-- The program ends, and in `Q` when it ends well: it neither panics nor runs out of fuel. -/
def Ends (m : Exec σ ε α) (Q : α → σ → Prop) (s : σ) : Prop :=
  match m s with
  | .ok a s => Q a s
  | .error _ _ => True
  | .panic | .diverge => False

section ends
variable {Q : α → σ → Prop} {s : σ}

theorem Ends.pure {a : α} (h : Q a s) : Ends (Pure.pure a : Exec σ ε α) Q s := h

theorem Ends.throw (e : ε) : Ends (throw e : Exec σ ε α) Q s := trivial

theorem Ends.get_bind {f : σ → Exec σ ε α} (h : Ends (f s) Q s) : Ends (get >>= f) Q s := h

theorem Ends.set {Q : Unit → σ → Prop} {t : σ} (h : Q () t) : Ends (set t : Exec σ ε Unit) Q s := h

theorem Ends.modify {Q : Unit → σ → Prop} {f : σ → σ} (h : Q () (f s)) :
    Ends (modify f : Exec σ ε Unit) Q s := h

theorem Ends.mono {m : Exec σ ε α} {Q' : α → σ → Prop} (h : Ends m Q s)
    (hQ : ∀ a t, Q a t → Q' a t) : Ends m Q' s := by
  unfold Ends at h ⊢
  cases hm : m s with
  | ok a t => rw [hm] at h; exact hQ a t h
  | error e t => trivial
  | panic | diverge => rw [hm] at h; exact h

theorem Ends.bind {m : Exec σ ε α} {f : α → Exec σ ε β} {Q' : β → σ → Prop} (h : Ends m Q s)
    (hf : ∀ a t, Q a t → Ends (f a) Q' t) : Ends (m >>= f) Q' s := by
  unfold Ends at h ⊢
  rw [bind_apply]
  cases hm : m s with
  | ok a t => rw [hm] at h; exact hf a t h
  | error e t => trivial
  | panic | diverge => rw [hm] at h; exact h

theorem Ends.of_bind {m : Exec σ ε α} {f : α → Exec σ ε β} {Q' : β → σ → Prop}
    (h : Ends (m >>= f) Q' s) : Ends m (fun _ _ => True) s := by
  unfold Ends at h ⊢
  rw [bind_apply] at h
  cases hm : m s with
  | ok | error => trivial
  | panic | diverge =>
      rw [hm] at h
      exact h

theorem ends_bind_ok {m : Exec σ ε α} {f : α → Exec σ ε β} {Q' : β → σ → Prop} {t : σ} {a : α}
    (h : m s = .ok a t) : Ends (m >>= f) Q' s ↔ Ends (f a) Q' t := by
  unfold Ends
  rw [bind_ok h]

/-- Go on whatever the first program returned. -/
theorem Ends.andThen {m : Exec σ ε α} {f : α → Exec σ ε β} {Q' : β → σ → Prop}
    (h : Ends m (fun _ _ => True) s) (hf : ∀ a t, Ends (f a) Q' t) : Ends (m >>= f) Q' s :=
  h.bind fun a t _ => hf a t

theorem Ends.ofOption {o : Option α} {e : ε} (h : ∀ a, o = some a → Q a s) :
    Ends (ofOption e o) Q s := by
  cases o with
  | some a => exact h a rfl
  | none => exact Ends.throw e

theorem Ends.ofExcept {x : Except ε α} (h : ∀ a, x = .ok a → Q a s) :
    Ends (ofExcept x) Q s := by
  cases x with
  | ok a => exact h a rfl
  | error e => exact Ends.throw e

theorem Ends.unwrap {o : Option α} {a : α} (ho : o = some a) (h : Q a s) :
    Ends (unwrap o : Exec σ ε α) Q s := by
  rw [ho]
  exact h

/-- What a program that ends ends in. -/
theorem Ends.cases {m : Exec σ ε α} (h : Ends m Q s) :
    (∃ a t, m s = .ok a t ∧ Q a t) ∨ ∃ e t, m s = .error e t := by
  unfold Ends at h
  cases hm : m s with
  | ok a t => rw [hm] at h; exact .inl ⟨a, t, rfl, h⟩
  | error e t => exact .inr ⟨e, t, rfl⟩
  | panic | diverge => rw [hm] at h; exact h.elim

end ends

/-- The program ends, in `Q` when it ends well and in `E` when it fails. -/
def Finishes (m : Exec σ ε α) (Q : α → σ → Prop) (E : ε → σ → Prop) (s : σ) : Prop :=
  match m s with
  | .ok a t => Q a t
  | .error e t => E e t
  | .panic | .diverge => False

section finishes
variable {Q : α → σ → Prop} {E : ε → σ → Prop} {s : σ}

@[simp] theorem finishes_pure {a : α} : Finishes (Pure.pure a) Q E s ↔ Q a s := Iff.rfl
@[simp] theorem finishes_throw {e : ε} : Finishes (throw e) Q E s ↔ E e s := Iff.rfl
@[simp] theorem finishes_get {Q : σ → σ → Prop} : Finishes get Q E s ↔ Q s s := Iff.rfl
@[simp] theorem finishes_modify {Q : Unit → σ → Prop} {f : σ → σ} :
    Finishes (modify f) Q E s ↔ Q () (f s) := Iff.rfl

@[simp] theorem finishes_bind {m : Exec σ ε β} {f : β → Exec σ ε α} :
    Finishes (m >>= f) Q E s ↔ Finishes m (fun b t => Finishes (f b) Q E t) E s := by
  simp only [Finishes, bind_apply]
  cases m s <;> rfl

@[simp] theorem finishes_restoring {m : Exec σ ε α} {restore : σ → σ} :
    Finishes (restoring m restore) Q E s ↔
      Finishes m (fun a t => Q a (restore t)) (fun e t => E e (restore t)) s := by
  simp only [Finishes, restoring]
  cases m s <;> rfl

theorem Finishes.mono {m : Exec σ ε α} {Q' : α → σ → Prop} {E' : ε → σ → Prop}
    (h : Finishes m Q E s) (hQ : ∀ a t, Q a t → Q' a t) (hE : ∀ e t, E e t → E' e t) :
    Finishes m Q' E' s := by
  unfold Finishes at h ⊢
  cases hm : m s with
  | ok a t => rw [hm] at h; exact hQ a t h
  | error e t => rw [hm] at h; exact hE e t h
  | panic | diverge => rw [hm] at h; exact h

end finishes
end Exec
