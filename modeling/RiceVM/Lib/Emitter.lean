import RiceVM.Lib.Assembly

/-!
A generator's state, and what the code that it emits does when it is run: rules for straight code
and for jumps that are patched once their target is known.
-/

/-- The code so far, and where the frame is free. -/
structure Emitter (ι : Type) where
  code : List ι := []
  nextLocal : Nat

namespace Emitter

open Assembly Backpatch Patchable

variable {ι σ : Type}

def pc (g : Emitter ι) : Nat := g.code.length

def emit (g : Emitter ι) (i : ι) : Emitter ι := { g with code := g.code ++ [i] }

def alloc (g : Emitter ι) (bytes : Nat) : Emitter ι := { g with nextLocal := g.nextLocal + bytes }

@[simp] theorem pc_emit (g : Emitter ι) (i : ι) : (g.emit i).pc = g.pc + 1 := by simp [pc, emit]

@[simp] theorem pc_alloc (g : Emitter ι) (bytes : Nat) : (g.alloc bytes).pc = g.pc := rfl

@[simp] theorem nextLocal_emit (g : Emitter ι) (i : ι) : (g.emit i).nextLocal = g.nextLocal := rfl

@[simp] theorem nextLocal_alloc (g : Emitter ι) (bytes : Nat) :
    (g.alloc bytes).nextLocal = g.nextLocal + bytes := rfl

theorem le_alloc (g : Emitter ι) (bytes : Nat) : g.nextLocal ≤ (g.alloc bytes).nextLocal :=
  Nat.le_add_right _ _

theorem pc_append (code block : List ι) (next : Nat) :
    (⟨code ++ block, next⟩ : Emitter ι).pc = code.length + block.length := List.length_append

section Patching

variable [Patchable ι]

def patch (g : Emitter ι) (idx pc : Nat) : Emitter ι :=
  { g with code := Backpatch.patch g.code idx pc }

def patchAll (g : Emitter ι) (idxs : List Nat) (pc : Nat) : Emitter ι :=
  { g with code := Backpatch.patchAll g.code idxs pc }

@[simp] theorem pc_patch (g : Emitter ι) (idx pc : Nat) : (g.patch idx pc).pc = g.pc :=
  length_patch g.code idx pc

@[simp] theorem nextLocal_patch (g : Emitter ι) (idx pc : Nat) :
    (g.patch idx pc).nextLocal = g.nextLocal := rfl

end Patching

/-! ### What emitted code does -/

variable (exec : ι → Nat → σ → Nat × σ)

/-- A run through the code between `g` and `g'`, wherever it is a part of, relates the states before
and after it so. -/
def Does (g g' : Emitter ι) (post : σ → σ → Prop) : Prop :=
  ∃ block, g'.code = g.code ++ block ∧
    ∀ code s, At code g.pc block → ∃ s', Runs exec code g.pc s g'.pc s' ∧ post s s'

namespace Does

variable {exec} {g g₁ g₂ : Emitter ι} {post post₁ post₂ : σ → σ → Prop}

theorem pc_eq {block : List ι} (h : g₁.code = g.code ++ block) : g₁.pc = g.pc + block.length := by
  rw [pc, h, List.length_append]
  rfl

theorem mono (h : Does exec g g₁ post) (himp : ∀ s s', post s s' → post₁ s s') :
    Does exec g g₁ post₁ := by
  obtain ⟨block, hcode, hruns⟩ := h
  refine ⟨block, hcode, fun code s hat => ?_⟩
  obtain ⟨s', hrun, hpost⟩ := hruns code s hat
  exact ⟨s', hrun, himp s s' hpost⟩

theorem alloc (g : Emitter ι) (bytes : Nat) : Does exec g (g.alloc bytes) fun s s' => s' = s :=
  ⟨[], (List.append_nil _).symm, fun _ s _ => ⟨s, .refl _ _, rfl⟩⟩

theorem trans (h₁ : Does exec g g₁ post₁) (h₂ : Does exec g₁ g₂ post₂) :
    Does exec g g₂ fun s s₂ => ∃ s₁, post₁ s s₁ ∧ post₂ s₁ s₂ := by
  obtain ⟨block₁, hcode₁, hruns₁⟩ := h₁
  obtain ⟨block₂, hcode₂, hruns₂⟩ := h₂
  refine ⟨block₁ ++ block₂, by rw [hcode₂, hcode₁, List.append_assoc], fun code s hat => ?_⟩
  obtain ⟨s₁, hrun₁, hpost₁⟩ := hruns₁ code s hat.left
  obtain ⟨s₂, hrun₂, hpost₂⟩ := hruns₂ code s₁ (pc_eq hcode₁ ▸ hat.right)
  exact ⟨s₂, hrun₁.trans hrun₂, s₁, hpost₁, hpost₂⟩

/-- An instruction that goes on to the next one. -/
theorem emit {i : ι} {f : σ → σ} (hexec : ∀ pc s, exec i pc s = (pc + 1, f s)) :
    Does exec g (g.emit i) fun s s' => s' = f s :=
  ⟨[i], rfl, fun _ s hat => ⟨f s, by rw [pc_emit]; exact .one hat.head (hexec _ s), rfl⟩⟩

/-- With nothing behind it, the code does only that. -/
theorem whole (h : Does exec g g₁ post) (s : σ) :
    ∃ s', Runs exec g₁.code g.pc s g₁.pc s' ∧ post s s' ∧
      ∀ s₂, Runs exec g₁.code g.pc s g₁.pc s₂ → s₂ = s' := by
  obtain ⟨block, hcode, hruns⟩ := h
  obtain ⟨s', hrun, hpost⟩ :=
    hruns g₁.code s ⟨g.code, [], by rw [hcode, List.append_nil], rfl⟩
  have hhalt : g₁.code[g₁.pc]? = none := List.getElem?_eq_none (Nat.le_refl _)
  exact ⟨s', hrun, hpost, fun s₂ hrun₂ => (hrun₂.unique hrun hhalt hhalt).2⟩

variable [Patchable ι] {i j : ι} {c : σ → Prop} [DecidablePred c]

/-- A branch over what is emitted next. -/
theorem skip (hi : ∀ target pc s, exec (setTarget target i) pc s =
      (if c s then target else pc + 1, s)) (h : Does exec (g.emit i) g₁ post) :
    Does exec g (g₁.patch g.pc g₁.pc) fun s s' => if c s then s' = s else post s s' := by
  obtain ⟨block, hcode, hruns⟩ := h
  refine ⟨setTarget g₁.pc i :: block, ?_, fun code s hat => ?_⟩
  · rw [patch, hcode, pc]
    simpa [Emitter.emit] using patch_append g.code block i g₁.pc
  · rw [pc_patch]
    by_cases hc : c s
    · exact ⟨s, .one hat.head (by rw [hi, if_pos hc]), by simp [hc]⟩
    · obtain ⟨s', hrun, hpost⟩ := hruns code s (by rw [pc_emit]; exact hat.tail)
      rw [pc_emit] at hrun
      exact ⟨s', .step hat.head (by rw [hi, if_neg hc]; exact hrun), by simpa [hc] using hpost⟩

/-- A branch to what is emitted second, over what is emitted first, from which a jump goes over the
second. -/
theorem either (hi : ∀ target pc s, exec (setTarget target i) pc s =
      (if c s then target else pc + 1, s))
    (hj : ∀ target pc s, exec (setTarget target j) pc s = (target, s))
    (h₁ : Does exec (g.emit i) g₁ post₁)
    (h₂ : Does exec ((g₁.emit j).patch g.pc (g₁.emit j).pc) g₂ post₂) :
    Does exec g (g₂.patch g₁.pc g₂.pc) fun s s' => if c s then post₂ s s' else post₁ s s' := by
  obtain ⟨block₁, hcode₁, hruns₁⟩ := h₁
  obtain ⟨block₂, hcode₂, hruns₂⟩ := h₂
  rw [pc_emit] at hcode₂ hruns₂
  have hshort : ((g₁.emit j).patch g.pc (g₁.pc + 1)).code =
      g.code ++ setTarget (g₁.pc + 1) i :: (block₁ ++ [j]) := by
    rw [patch, Emitter.emit, hcode₁, pc]
    simpa [Emitter.emit] using patch_append g.code (block₁ ++ [j]) i (g₁.pc + 1)
  have hpc₁ : g₁.pc = (g.code ++ setTarget (g₁.pc + 1) i :: block₁).length := by
    rw [pc, hcode₁]
    simp [Emitter.emit]
  have hend := patch_append (g.code ++ setTarget (g₁.pc + 1) i :: block₁) block₂ j g₂.pc
  rw [← hpc₁] at hend
  refine ⟨setTarget (g₁.pc + 1) i :: (block₁ ++ setTarget g₂.pc j :: block₂), ?_,
    fun code s hat => ?_⟩
  · rw [patch, hcode₂, hshort]
    simpa using hend
  · rw [pc_patch]
    have hjump : At code g₁.pc (setTarget g₂.pc j :: block₂) := by
      have := hat.tail.right
      rw [pc_eq hcode₁, pc_emit]
      exact this
    by_cases hc : c s
    · obtain ⟨s', hrun, hpost⟩ := hruns₂ code s (by simpa using hjump.tail)
      rw [pc_patch, pc_emit] at hrun
      exact ⟨s', .step hat.head (by rw [hi, if_pos hc]; exact hrun), by simpa [hc] using hpost⟩
    · obtain ⟨s', hrun, hpost⟩ := hruns₁ code s (by rw [pc_emit]; exact hat.tail.left)
      rw [pc_emit] at hrun
      have hrun := hrun.trans (.one hjump.head (hj _ _ _))
      exact ⟨s', .step hat.head (by rw [hi, if_neg hc]; exact hrun), by simpa [hc] using hpost⟩

end Does

end Emitter
