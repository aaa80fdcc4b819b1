import RiceVM.Lib.Exec

/-!
Readers that consume a list of tokens from the front and writers that append to one, and what
it means that a reader reads back what a writer writes. Both may fail; a reader's state is
what is left of its input, a writer's what it has written.
-/
namespace Exec
variable {τ ε ε' α β : Type}

/-- The next token, or an error where there is none. -/
def next (e : ε) : Exec (List τ) ε τ
  | [] => .error e []
  | t :: rest => .ok t rest

/-- The next `n` tokens, or an error where there are fewer. -/
def take (n : Nat) (e : ε) : Exec (List τ) ε (List τ) := fun input =>
  if n ≤ input.length then .ok (input.take n) (input.drop n) else .error e input

/-- Run a reader `n` times and collect what it reads. -/
def times (p : Exec (List τ) ε α) : Nat → Exec (List τ) ε (List α)
  | 0 => pure []
  | n + 1 => do
    let a ← p
    let as ← times p n
    return a :: as

def emit (ts : List τ) : Exec (List τ) ε Unit := modify (· ++ ts)

/-- Write the elements of a list one after the other. -/
def each (w : α → Exec (List τ) ε Unit) : List α → Exec (List τ) ε Unit
  | [] => pure ()
  | a :: as => do
    w a
    each w as

/-- The reader ends on every input, and leaves no more of it than there was. -/
def Shrinks (p : Exec (List τ) ε α) : Prop :=
  ∀ input, Ends p (fun _ rest => rest.length ≤ input.length) input

/-- The reader consumes just these tokens, whatever follows them. -/
def Reads (p : Exec (List τ) ε α) (ts : List τ) (a : α) : Prop :=
  ∀ rest, p (ts ++ rest) = .ok a rest

/-- Whenever the writer succeeds, the reader consumes what it wrote and gives `a`. -/
def Codes (w : Exec (List τ) ε' Unit) (p : Exec (List τ) ε α) (a : α) : Prop :=
  ∀ buf buf', w buf = .ok () buf' → ∃ ts, buf' = buf ++ ts ∧ Reads p ts a

/-- The writer succeeds whatever was written before. -/
def Writes (w : Exec (List τ) ε' Unit) : Prop := ∀ buf, ∃ buf', w buf = .ok () buf'

theorem Shrinks.pure (a : α) : Shrinks (pure a : Exec (List τ) ε α) :=
  fun _ => Ends.pure (Nat.le_refl _)

theorem Shrinks.throw (e : ε) : Shrinks (throw e : Exec (List τ) ε α) := fun _ => Ends.throw e

theorem Shrinks.bind {p : Exec (List τ) ε α} {f : α → Exec (List τ) ε β} (hp : Shrinks p)
    (hf : ∀ a, Shrinks (f a)) : Shrinks (p >>= f) := by
  intro input
  refine (hp input).bind fun a rest hrest => (hf a rest).mono fun _ rest' hrest' => ?_
  exact Nat.le_trans hrest' hrest

theorem Shrinks.next (e : ε) : Shrinks (next e : Exec (List τ) ε τ)
  | [] => trivial
  | _ :: _ => Nat.le_succ _

theorem Shrinks.take (n : Nat) (e : ε) : Shrinks (take n e : Exec (List τ) ε (List τ)) := by
  intro input
  unfold Ends Exec.take
  split
  · next h =>
      split at h <;> cases h
      rw [List.length_drop]
      omega
  · trivial
  all_goals (next h => split at h <;> cases h)

theorem Shrinks.times {p : Exec (List τ) ε α} (hp : Shrinks p) (n : Nat) : Shrinks (times p n) := by
  induction n with
  | zero => exact .pure []
  | succ n ih => exact hp.bind fun a => ih.bind fun as => .pure (a :: as)

theorem Shrinks.ofOption (e : ε) (o : Option α) : Shrinks (ofOption e o : Exec (List τ) ε α) := by
  cases o with
  | some a => exact .pure a
  | none => exact .throw e

theorem Shrinks.ofExcept (x : Except ε α) : Shrinks (ofExcept x : Exec (List τ) ε α) := by
  cases x with
  | ok a => exact .pure a
  | error e => exact .throw e

/-- As many elements are read as are asked for. -/
theorem length_times {p : Exec (List τ) ε α} {n : Nat} {input rest : List τ} {as : List α}
    (h : times p n input = .ok as rest) : as.length = n := by
  induction n generalizing input rest as with
  | zero => cases h; rfl
  | succ n ih =>
      obtain ⟨_, _, _, h⟩ := bind_eq_ok.mp h
      obtain ⟨_, _, htail, h⟩ := bind_eq_ok.mp h
      cases h
      rw [List.length_cons, ih htail]

theorem Reads.pure (a : α) : Reads (pure a : Exec (List τ) ε α) [] a := fun _ => rfl

theorem Reads.bind {p : Exec (List τ) ε α} {f : α → Exec (List τ) ε β} {ts ts' : List τ} {a : α}
    {b : β} (hp : Reads p ts a) (hf : Reads (f a) ts' b) : Reads (p >>= f) (ts ++ ts') b := by
  intro rest
  rw [List.append_assoc, bind_ok (hp _)]
  exact hf rest

theorem Reads.next (e : ε) (t : τ) : Reads (next e) [t] t := fun _ => rfl

theorem Reads.take (e : ε) (ts : List τ) : Reads (take ts.length e) ts ts := by
  intro rest
  unfold Exec.take
  rw [if_pos (by simp only [List.length_append]; omega), List.take_left, List.drop_left]

theorem Codes.pure (a : α) : Codes (pure () : Exec (List τ) ε' Unit) (pure a : Exec (List τ) ε α) a := by
  intro buf buf' h
  cases h
  exact ⟨[], (List.append_nil _).symm, .pure a⟩

theorem Codes.emit {p : Exec (List τ) ε α} {ts : List τ} {a : α} (h : Reads p ts a) :
    Codes (emit ts : Exec (List τ) ε' Unit) p a := by
  intro buf buf' hw
  cases hw
  exact ⟨ts, rfl, h⟩

/-- A writer that fails codes anything. -/
theorem Codes.throw (e : ε') (p : Exec (List τ) ε α) (a : α) :
    Codes (throw e : Exec (List τ) ε' Unit) p a :=
  fun _ _ h => nomatch h

theorem Codes.bind {w w' : Exec (List τ) ε' Unit} {p : Exec (List τ) ε α}
    {f : α → Exec (List τ) ε β} {a : α} {b : β} (hp : Codes w p a) (hf : Codes w' (f a) b) :
    Codes (w >>= fun _ => w') (p >>= f) b := by
  intro buf buf' h
  obtain ⟨_, u, hw, hw'⟩ := bind_eq_ok.mp h
  obtain ⟨ts, rfl, hreads⟩ := hp buf u hw
  obtain ⟨ts', rfl, hreads'⟩ := hf _ buf' hw'
  exact ⟨ts ++ ts', List.append_assoc _ _ _, hreads.bind hreads'⟩

/-- What a reader does without input of its own leaves the correspondence alone. -/
theorem Codes.andThen {w : Exec (List τ) ε' Unit} {p : Exec (List τ) ε α}
    {f : α → Exec (List τ) ε β} {a : α} {b : β} (hp : Codes w p a) (hf : Reads (f a) [] b) :
    Codes w (p >>= f) b := by
  intro buf buf' h
  obtain ⟨ts, rfl, hreads⟩ := hp buf buf' h
  refine ⟨ts, rfl, ?_⟩
  have hboth := hreads.bind hf
  rwa [List.append_nil] at hboth

/-- What a reader does first without input of its own leaves the correspondence alone. -/
theorem Codes.before {w : Exec (List τ) ε' Unit} {p : Exec (List τ) ε α}
    {f : α → Exec (List τ) ε β} {a : α} {b : β} (hp : Reads p [] a) (hf : Codes w (f a) b) :
    Codes w (p >>= f) b := by
  intro buf buf' h
  obtain ⟨ts, rfl, hreads⟩ := hf buf buf' h
  exact ⟨ts, rfl, hp.bind hreads⟩

/-- A list written element by element is read back by as many runs of the reader. -/
theorem Codes.each {w : α → Exec (List τ) ε' Unit} {p : Exec (List τ) ε β} {g : α → β}
    {as : List α} (h : ∀ a ∈ as, Codes (w a) p (g a)) :
    Codes (each w as) (times p as.length) (as.map g) := by
  induction as with
  | nil => exact .pure []
  | cons a as ih =>
      obtain ⟨hfirst, hrest⟩ := List.forall_mem_cons.mp h
      exact hfirst.bind ((ih hrest).andThen (.pure _))

theorem Writes.pure : Writes (pure () : Exec (List τ) ε' Unit) := fun buf => ⟨buf, rfl⟩

theorem Writes.emit (ts : List τ) : Writes (emit ts : Exec (List τ) ε' Unit) :=
  fun buf => ⟨buf ++ ts, rfl⟩

theorem Writes.bind {w w' : Exec (List τ) ε' Unit} (hw : Writes w) (hw' : Writes w') :
    Writes (w >>= fun _ => w') := by
  intro buf
  obtain ⟨u, hfirst⟩ := hw buf
  rw [bind_ok hfirst]
  exact hw' u

theorem Writes.each {w : α → Exec (List τ) ε' Unit} {as : List α} (h : ∀ a ∈ as, Writes (w a)) :
    Writes (each w as) := by
  induction as with
  | nil => exact .pure
  | cons a as ih =>
      obtain ⟨hfirst, hrest⟩ := List.forall_mem_cons.mp h
      exact hfirst.bind (ih hrest)

/-- A writer that succeeds is read back, whatever follows what it wrote. -/
theorem Codes.inverts {w : Exec (List τ) ε' Unit} {p : Exec (List τ) ε α} {a : α}
    (h : Codes w p a) (hw : Writes w) :
    ∃ ts, w [] = .ok () ts ∧ ∀ rest, p (ts ++ rest) = .ok a rest := by
  obtain ⟨buf, hbuf⟩ := hw []
  obtain ⟨ts, hts, hreads⟩ := h [] buf hbuf
  rw [List.nil_append] at hts
  exact ⟨ts, hts ▸ hbuf, hreads⟩

/-- Whenever the writer succeeds, the reader finds `a` at the front of what it wrote. -/
def Leads (w : Exec (List τ) ε' Unit) (p : Exec (List τ) ε α) (a : α) : Prop :=
  ∀ buf buf', w buf = .ok () buf' → ∃ ts rest, buf' = buf ++ (ts ++ rest) ∧ Reads p ts a

theorem Codes.leads {w : Exec (List τ) ε' Unit} {p : Exec (List τ) ε α} {a : α}
    (h : Codes w p a) : Leads w p a := by
  intro buf buf' hw
  obtain ⟨ts, rfl, hreads⟩ := h buf buf' hw
  exact ⟨ts, [], by rw [List.append_nil], hreads⟩

theorem Leads.bind {w w' : Exec (List τ) ε' Unit} {p : Exec (List τ) ε α}
    {f : α → Exec (List τ) ε β} {a : α} {b : β} (hp : Codes w p a) (hf : Leads w' (f a) b) :
    Leads (w >>= fun _ => w') (p >>= f) b := by
  intro buf buf' h
  obtain ⟨_, u, hw, hw'⟩ := bind_eq_ok.mp h
  obtain ⟨ts, rfl, hreads⟩ := hp buf u hw
  obtain ⟨ts', rest, rfl, hreads'⟩ := hf _ buf' hw'
  exact ⟨ts ++ ts', rest, by simp only [List.append_assoc], hreads.bind hreads'⟩

/-- A reader that needs no input ignores what is written. -/
theorem Leads.emit {p : Exec (List τ) ε α} {a : α} (h : Reads p [] a) (ts : List τ) :
    Leads (emit ts : Exec (List τ) ε' Unit) p a := by
  intro buf buf' hw
  cases hw
  exact ⟨[], ts, rfl, h⟩

end Exec
