import RiceVM.Limbo.ControlFlow

/-!
What a run of the generator does to the code: it appends instructions whose jumps land among
themselves, or are holes recorded with an enclosing construct.
-/
namespace RiceVM.Limbo.Flow

open Backpatch

/-- The jumps recorded with a construct that is still open. -/
def Pending (frames : List LoopFrame) (j : Nat) : Prop :=
  ∃ frame ∈ frames, j ∈ frame.breaks ∨ j ∈ frame.continues

/-- A construct's records only grow, by jumps from `lo` on. -/
structure FrameGrown (lo : Nat) (a b : LoopFrame) : Prop where
  breaks : a.breaks ⊆ b.breaks
  continues : a.continues ⊆ b.continues
  newBreaks : ∀ j ∈ b.breaks, j ∈ a.breaks ∨ lo ≤ j
  newContinues : ∀ j ∈ b.continues, j ∈ a.continues ∨ lo ≤ j

abbrev Grown (lo : Nat) : List LoopFrame → List LoopFrame → Prop := List.Forall₂ (FrameGrown lo)

theorem FrameGrown.refl (lo : Nat) (a : LoopFrame) : FrameGrown lo a a :=
  ⟨fun _ => id, fun _ => id, fun _ => .inl, fun _ => .inl⟩

theorem FrameGrown.trans {lo mid : Nat} {a b c : LoopFrame} (hlo : lo ≤ mid)
    (h : FrameGrown lo a b) (h' : FrameGrown mid b c) : FrameGrown lo a c where
  breaks := fun _ hj => h'.breaks (h.breaks hj)
  continues := fun _ hj => h'.continues (h.continues hj)
  newBreaks j hj := by
    rcases h'.newBreaks j hj with hb | hge
    · exact h.newBreaks j hb
    · exact .inr (Nat.le_trans hlo hge)
  newContinues j hj := by
    rcases h'.newContinues j hj with hb | hge
    · exact h.newContinues j hb
    · exact .inr (Nat.le_trans hlo hge)

namespace Grown

variable {lo mid : Nat} {frames frames' frames'' : List LoopFrame}

theorem refl (lo : Nat) (frames : List LoopFrame) : Grown lo frames frames := by
  induction frames with
  | nil => exact .nil
  | cons frame frames ih => exact .cons (FrameGrown.refl lo frame) ih

theorem trans (hlo : lo ≤ mid) (h : Grown lo frames frames') (h' : Grown mid frames' frames'') :
    Grown lo frames frames'' := by
  induction h generalizing frames'' with
  | nil =>
      cases h'
      exact .nil
  | cons hf _ ih =>
      cases h' with
      | cons hf' hrest => exact .cons (hf.trans hlo hf') (ih hrest)

theorem pending (h : Grown lo frames frames') {j : Nat} (hj : Pending frames j) :
    Pending frames' j := by
  induction h with
  | nil => exact hj
  | @cons a b _ _ hf _ ih =>
      obtain ⟨frame, hmem, hin⟩ := hj
      rcases List.mem_cons.mp hmem with rfl | hmem
      · exact ⟨b, List.mem_cons_self, hin.imp (fun h => hf.breaks h) (fun h => hf.continues h)⟩
      · obtain ⟨frame', hmem', hin'⟩ := ih ⟨frame, hmem, hin⟩
        exact ⟨frame', List.mem_cons_of_mem _ hmem', hin'⟩

end Grown

theorem recordJump_grown {label : Option String} {continues : Bool} {at_ : Nat}
    {frames frames' : List LoopFrame} (h : recordJump label continues at_ frames = some frames') :
    Grown at_ frames frames' ∧ Pending frames' at_ := by
  induction frames generalizing frames' with
  | nil => cases h
  | cons frame frames ih =>
      rw [recordJump] at h
      split at h
      · cases h
        cases continues with
        | true =>
            refine ⟨.cons ⟨fun _ => id, List.subset_append_left _ _, fun _ => .inl, fun j hj => ?_⟩
              (Grown.refl _ _), _, List.mem_cons_self, .inr (by simp)⟩
            simp only [if_true, List.mem_append, List.mem_singleton] at hj
            exact hj.imp_right fun heq => Nat.le_of_eq heq.symm
        | false =>
            refine ⟨.cons ⟨List.subset_append_left _ _, fun _ => id, fun j hj => ?_, fun _ => .inl⟩
              (Grown.refl _ _), _, List.mem_cons_self, .inl (by simp)⟩
            simp only [Bool.false_eq_true, if_false, List.mem_append, List.mem_singleton] at hj
            exact hj.imp_right fun heq => Nat.le_of_eq heq.symm
      · obtain ⟨rest, hrest, rfl⟩ := Option.map_eq_some_iff.mp h
        obtain ⟨hgrown, frame', hmem, hin⟩ := ih hrest
        exact ⟨.cons (FrameGrown.refl _ _) hgrown, frame', List.mem_cons_of_mem _ hmem, hin⟩

/-! ### Calls -/

/-- Every call that is not patched is recorded, and what is recorded is a call. -/
structure CallsRecorded (g : Gen) : Prop where
  isCall : ∀ idx name, (idx, name) ∈ g.pendingCallFixups →
    ∃ callee, g.code[idx]? = some (.call callee)
  recorded : ∀ idx : Nat, g.code[idx]? = some (.call none) →
    ∃ name, (idx, name) ∈ g.pendingCallFixups

def Instr.isCall : Instr → Bool
  | .call _ => true
  | _ => false

namespace CallsRecorded

variable {g : Gen}

theorem emit (h : CallsRecorded g) {i : Instr} (hi : i.isCall = false) :
    CallsRecorded (g.emit i) where
  isCall idx name hmem := by
    obtain ⟨callee, hcallee⟩ := h.isCall idx name hmem
    have hlt := (List.getElem?_eq_some_iff.mp hcallee).1
    exact ⟨callee, by rw [Gen.emit, List.getElem?_append_left hlt, hcallee]⟩
  recorded idx hidx := by
    rcases Nat.lt_or_ge idx g.code.length with hlt | hge
    · rw [Gen.emit, List.getElem?_append_left hlt] at hidx
      exact h.recorded idx hidx
    · rw [Gen.emit, List.getElem?_append_right hge] at hidx
      cases hsub : idx - g.code.length with
      | zero =>
          simp only [hsub, List.getElem?_cons_zero, Option.some.injEq] at hidx
          subst hidx
          cases hi
      | succ n => simp [hsub] at hidx

theorem patch (h : CallsRecorded g) (at_ pc : Nat) : CallsRecorded (g.patch at_ pc) where
  isCall idx name hmem := by
    obtain ⟨callee, hcallee⟩ := h.isCall idx name hmem
    rw [Gen.patch, getElem?_patch, hcallee]
    split
    · exact ⟨some pc, rfl⟩
    · exact ⟨callee, rfl⟩
  recorded idx hidx := by
    rw [Gen.patch, getElem?_patch] at hidx
    split at hidx
    · obtain ⟨i, -, hi⟩ := Option.map_eq_some_iff.mp hidx
      cases i <;> cases hi
    · exact h.recorded idx hidx

theorem patchAll (h : CallsRecorded g) (idxs : List Nat) (pc : Nat) :
    CallsRecorded (g.patchAll idxs pc) := by
  induction idxs generalizing g with
  | nil => exact h
  | cons idx idxs ih => exact ih (h.patch idx pc)

theorem congr {g' : Gen} (h : CallsRecorded g) (hcode : g'.code = g.code)
    (hfixups : g'.pendingCallFixups = g.pendingCallFixups) : CallsRecorded g' where
  isCall idx name hmem := by
    rw [hfixups] at hmem
    rw [hcode]
    exact h.isCall idx name hmem
  recorded idx hidx := by
    rw [hcode] at hidx
    rw [hfixups]
    exact h.recorded idx hidx

end CallsRecorded

/-! ### The generator's steps -/

/-- From `g` to `g'` instructions were appended. Their jumps land among them, except the holes `P`
and those recorded with a construct that is open. -/
structure Emits (g g' : Gen) (P : Nat → Prop) : Prop where
  region : Region g.code g'.code fun j => P j ∨ Pending g'.loopStack j
  frames : Grown g.pc g.loopStack g'.loopStack
  calls : CallsRecorded g → CallsRecorded g'

namespace Emits

variable {g g₁ g₂ : Gen} {P Q : Nat → Prop}

theorem refl (g : Gen) (P : Nat → Prop) : Emits g g P :=
  ⟨Region.refl _ _, Grown.refl _ _, id⟩

theorem le (h : Emits g g₁ P) : g.pc ≤ g₁.pc := h.region.length_le

theorem mono (h : Emits g g₁ P) (hPQ : ∀ j, P j → Q j) : Emits g g₁ Q :=
  ⟨h.region.mono fun j _ _ => Or.imp_left (hPQ j), h.frames, h.calls⟩

theorem trans (h : Emits g g₁ P) (h' : Emits g₁ g₂ Q) : Emits g g₂ fun j => P j ∨ Q j := by
  refine ⟨(h.region.trans h'.region).mono ?_, h.frames.trans h.le h'.frames, h'.calls ∘ h.calls⟩
  rintro j - - (⟨-, hP | hpend⟩ | ⟨-, hQ | hpend⟩)
  · exact .inl (.inl hP)
  · exact .inr (h'.frames.pending hpend)
  · exact .inl (.inr hQ)
  · exact .inr hpend

/-- An instruction that has no hole. -/
theorem emit (h : Emits g g₁ P) {i : Instr}
    (hi : Settled g.pc (g₁.pc + 1) False i.jump) (hcall : i.isCall = false) :
    Emits g (g₁.emit i) P :=
  ⟨h.region.emit (hi.mono (Nat.le_refl _) (Nat.le_refl _) False.elim), h.frames,
    fun hg => (h.calls hg).emit hcall⟩

theorem hole (h : Emits g g₁ P) {i : Instr} (hi : i.jump = .hole) :
    Emits g (g₁.emit i) fun j => P j ∨ j = g₁.pc := by
  refine ⟨(h.region.emit_hole hi).mono ?_, h.frames, fun hg => (h.calls hg).emit ?_⟩
  · rintro j - - ((hP | hpend) | heq)
    · exact .inl (.inl hP)
    · exact .inr hpend
    · exact .inl (.inr heq)
  · cases i with
    | call callee => cases hi
    | _ => rfl

theorem patch (h : Emits g g₁ P) {k p : Nat} (hidx : g.pc ≤ k) (hlo : g.pc ≤ p)
    (hhi : p ≤ g₁.pc) : Emits g (g₁.patch k p) fun j => P j ∧ j ≠ k := by
  refine ⟨(h.region.patch hidx hlo hhi).mono ?_, h.frames, fun hg => (h.calls hg).patch k p⟩
  rintro j - - ⟨hP | hpend, hne⟩
  · exact .inl ⟨hP, hne⟩
  · exact .inr hpend

theorem patchAll (h : Emits g g₁ P) {ks : List Nat} {p : Nat} (hidxs : ∀ k ∈ ks, g.pc ≤ k)
    (hlo : g.pc ≤ p) (hhi : p ≤ g₁.pc) :
    Emits g (g₁.patchAll ks p) fun j => P j ∧ j ∉ ks := by
  induction ks generalizing g₁ P with
  | nil => exact h.mono fun j hP => ⟨hP, List.not_mem_nil⟩
  | cons k ks ih =>
      have hone := h.patch (hidxs k List.mem_cons_self) hlo hhi
      refine (ih hone (fun k hk => hidxs k (List.mem_cons_of_mem _ hk)) ?_).mono ?_
      · simpa [Gen.pc, Gen.patch] using hhi
      · rintro j ⟨⟨hP, hne⟩, hnot⟩
        exact ⟨hP, by simp [hne, hnot]⟩

/-- A construct that was entered and is left again. -/
theorem loop {continuable : Bool} {exitPc continuePc : Nat}
    (h : Emits (g.pushLoop continuable) g₁ P) (hexit : g.pc ≤ exitPc) (hexit' : exitPc ≤ g₁.pc)
    (hcont : g.pc ≤ continuePc) (hcont' : continuePc ≤ g₁.pc) :
    Emits g (g₁.popLoop exitPc continuePc) P := by
  obtain ⟨hregion, hframes, hcalls⟩ := h
  obtain ⟨code, frames, label, table, fixups⟩ := g₁
  have hframes' : Grown g.pc
    ({ label := g.pendingLabel, continuable } :: g.loopStack) frames := hframes
  cases hframes' with
  | @cons _ frame _ rest hframe hrest =>
      have hbreaks : ∀ j ∈ frame.breaks, g.pc ≤ j := fun j hj =>
        (hframe.newBreaks j hj).resolve_left List.not_mem_nil
      have hcontinues : ∀ j ∈ frame.continues, g.pc ≤ j := fun j hj =>
        (hframe.newContinues j hj).resolve_left List.not_mem_nil
      refine ⟨((hregion.patchAll hbreaks hexit hexit').patchAll hcontinues hcont ?_).mono ?_,
        hrest, fun hg => ?_⟩
      · rw [length_patchAll]
        exact hcont'
      · rintro j - - ⟨⟨hP | ⟨frame', hmem, hin⟩, hnb⟩, hnc⟩
        · exact .inl hP
        · rcases List.mem_cons.mp hmem with rfl | hmem
          · exact absurd hin (by tauto)
          · exact .inr ⟨frame', hmem, hin⟩
      · have hopen := hcalls (hg.congr rfl rfl)
        have hleft : CallsRecorded
            { code, loopStack := rest, pendingLabel := label, funcTable := table,
              pendingCallFixups := fixups } := hopen.congr rfl rfl
        exact (hleft.patchAll _ _).patchAll _ _

theorem ofLabel {name : Option String} (h : Emits { g with pendingLabel := name } g₁ P) :
    Emits g g₁ P := ⟨h.1, h.2, fun hg => h.3 (hg.congr rfl rfl)⟩

theorem setLabel {name : Option String} (h : Emits g g₁ P) :
    Emits g { g₁ with pendingLabel := name } P :=
  ⟨h.1, h.2, fun hg => (h.3 hg).congr rfl rfl⟩

/-- A whole construct after what was emitted so far. -/
theorem andThen (h : Emits g g₁ P) (h' : Emits g₁ g₂ fun _ => False) : Emits g g₂ P :=
  (h.trans h').mono fun _ => Or.rec id False.elim

end Emits

@[simp] theorem pc_emit (g : Gen) (i : Instr) : (g.emit i).pc = g.pc + 1 := by
  simp [Gen.pc, Gen.emit]

@[simp] theorem pc_patch (g : Gen) (idx pc : Nat) : (g.patch idx pc).pc = g.pc :=
  length_patch _ _ _

@[simp] theorem pc_patchAll (g : Gen) (idxs : List Nat) (pc : Nat) :
    (g.patchAll idxs pc).pc = g.pc := length_patchAll _ _ _

@[simp] theorem pc_pushLoop (g : Gen) (continuable : Bool) : (g.pushLoop continuable).pc = g.pc :=
  rfl

@[simp] theorem pc_popLoop (g : Gen) (exitPc continuePc : Nat) :
    (g.popLoop exitPc continuePc).pc = g.pc := by
  rw [Gen.popLoop]
  split
  · rfl
  · exact (pc_patchAll _ _ _).trans (pc_patchAll _ _ _)

/-- The stretch from `g` to `g'` has no hole but those recorded with an open construct. -/
abbrev Whole (g g' : Gen) : Prop := Emits g g' fun _ => False

theorem bind_eq_ok {α β : Type} {x : Except String α} {k : α → Except String β} {b : β} :
    (x >>= k) = .ok b ↔ ∃ a, x = .ok a ∧ k a = .ok b := by
  cases x <;> simp [bind, Except.bind]

/-! ### Expressions -/

theorem genCall_whole {name : String} {g g' : Gen} (h : genCall name g = .ok g') : Whole g g' := by
  have hregion (callee : Option Nat) : Region g.code (g.code ++ [Instr.call callee])
      fun j => False ∨ Pending g.loopStack j := (Region.refl g.code _).emit trivial
  rw [genCall] at h
  split at h
  · cases h
  · cases h
    refine ⟨hregion _, Grown.refl _ _, fun hg => ⟨fun idx name hmem => ?_, fun idx hidx => ?_⟩⟩
    · obtain ⟨callee, hcallee⟩ := hg.isCall idx name hmem
      have hlt := (List.getElem?_eq_some_iff.mp hcallee).1
      exact ⟨callee, by rw [Gen.emit, List.getElem?_append_left hlt, hcallee]⟩
    · rcases Nat.lt_or_ge idx g.code.length with hlt | hge
      · rw [Gen.emit, List.getElem?_append_left hlt] at hidx
        exact hg.recorded idx hidx
      · rw [Gen.emit, List.getElem?_append_right hge] at hidx
        cases hsub : idx - g.code.length with
        | zero => simp [hsub] at hidx
        | succ n => simp [hsub] at hidx
  · cases h
    refine ⟨hregion _, Grown.refl _ _, fun hg => ⟨fun idx name hmem => ?_, fun idx hidx => ?_⟩⟩
    · rcases List.mem_append.mp hmem with hmem | hmem
      · obtain ⟨callee, hcallee⟩ := hg.isCall idx name hmem
        have hlt := (List.getElem?_eq_some_iff.mp hcallee).1
        exact ⟨callee, by rw [Gen.emit, List.getElem?_append_left hlt, hcallee]⟩
      · cases List.mem_singleton.mp hmem
        exact ⟨none, by simp [Gen.emit, Gen.pc]⟩
    · rcases Nat.lt_or_ge idx g.code.length with hlt | hge
      · rw [Gen.emit, List.getElem?_append_left hlt] at hidx
        obtain ⟨name', hmem⟩ := hg.recorded idx hidx
        exact ⟨name', List.mem_append_left _ hmem⟩
      · rw [Gen.emit, List.getElem?_append_right hge] at hidx
        have hsub : idx = g.pc := by
          cases hsub : idx - g.code.length with
          | zero => exact Nat.le_antisymm (Nat.le_of_sub_eq_zero hsub) hge
          | succ n => simp [hsub] at hidx
        exact ⟨name, List.mem_append_right _ (List.mem_singleton.mpr (by rw [hsub]))⟩

theorem genShape_whole {e : Shape} {g g' : Gen} (h : genShape e g = .ok g') : Whole g g' := by
  induction e generalizing g g' with
  | nil =>
      cases h
      exact Emits.refl g _
  | step =>
      cases h
      exact (Emits.refl g _).emit trivial rfl
  | call name => exact genCall_whole h
  | seq a b iha ihb =>
      obtain ⟨g₁, h₁, h₂⟩ := bind_eq_ok.mp h
      exact (iha h₁).andThen (ihb h₂)
  | test =>
      cases h
      have h₁ := (Emits.refl g fun _ => False).emit (i := .step) trivial rfl
      have h₂ := (h₁.hole (i := .branch none) rfl).emit (i := .step) trivial rfl
      exact (h₂.patch (by simp) (by simp; omega) (by simp)).mono (by tauto)
  | not e ih =>
      obtain ⟨g₁, h₁, h₂⟩ := bind_eq_ok.mp h
      cases h₂
      have hle := (ih h₁).le
      have hskip := ((ih h₁).hole (i := .branch none) rfl).emit (i := .step) trivial rfl
      have hdone := hskip.hole (i := .jmp none) rfl
      have hthen := (hdone.patch (k := g₁.pc) (p := g₁.pc + 1 + 1 + 1) hle (by omega)
        (by simp)).emit (i := .step) trivial rfl
      simp only [pc_emit, pc_patch]
      refine (hthen.patch (by omega) (by omega) (by simp)).mono ?_
      simp only [pc_emit]
      tauto
  | logical l r ihl ihr =>
      obtain ⟨g₁, h₁, hrest⟩ := bind_eq_ok.mp h
      obtain ⟨g₂, h₂, hdone⟩ := bind_eq_ok.mp hrest
      cases hdone
      have hle := (ihl h₁).le
      have hle' := (ihr h₂).le
      rw [pc_emit] at hle'
      have hdone := (((ihl h₁).hole (i := .branch none) rfl).andThen (ihr h₂)).hole
        (i := .jmp none) rfl
      have hshort := (hdone.patch (k := g₁.pc) (p := g₂.pc + 1) hle (by omega)
        (by simp)).emit (i := .step) trivial rfl
      simp only [pc_emit, pc_patch]
      refine (hshort.patch (by omega) (by omega) (by simp)).mono ?_
      tauto
  | fill value ih =>
      obtain ⟨g₁, h₁, h₂⟩ := bind_eq_ok.mp h
      cases h₂
      have hle := (ih h₁).le
      have hstart := ((ih h₁).emit (i := .step) trivial rfl).hole (i := .branch none) rfl
      have hbody := ((hstart.emit (i := .step) trivial rfl).emit (i := .step) trivial rfl).emit
        (i := .step) trivial rfl
      have hback := hbody.emit (i := .jmp (some (g₁.pc + 1)))
        ⟨by omega, by simp⟩ rfl
      simp only [pc_emit]
      refine (hback.patch (by omega) (by omega) (by simp)).mono ?_
      simp only [pc_emit]
      tauto

/-! ### Statements, one construct at a time -/

section Constructs

variable {g g₁ g₂ g₃ g₄ : Gen} {P : Nat → Prop}

theorem ifThen_whole (hc : Whole g g₁) (ht : Whole (g₁.emit (.branch none)) g₂) :
    Whole g (g₂.patch g₁.pc g₂.pc) := by
  have hle := hc.le
  have hle' := ht.le
  rw [pc_emit] at hle'
  have hthen := (hc.hole (i := .branch none) rfl).andThen ht
  exact (hthen.patch hle (by omega) (Nat.le_refl _)).mono (by tauto)

theorem ifElse_whole (hc : Whole g g₁) (ht : Whole (g₁.emit (.branch none)) g₂)
    (he : Whole ((g₂.emit (.jmp none)).patch g₁.pc (g₂.pc + 1)) g₃) :
    Whole g (g₃.patch g₂.pc g₃.pc) := by
  have hle := hc.le
  have hle' := ht.le
  have hle'' := he.le
  rw [pc_emit] at hle'
  rw [pc_patch, pc_emit] at hle''
  have hthen := ((hc.hole (i := .branch none) rfl).andThen ht).hole (i := .jmp none) rfl
  have helse := (hthen.patch (k := g₁.pc) (p := g₂.pc + 1) hle (by omega) (by simp)).andThen he
  exact (helse.patch (by omega) (by omega) (Nat.le_refl _)).mono (by tauto)

theorem while_whole (hc : Whole (g.pushLoop true) g₁) (hb : Whole (g₁.emit (.branch none)) g₂) :
    Whole g (((g₂.emit (.jmp (some g.pc))).patch g₁.pc (g₂.pc + 1)).popLoop (g₂.pc + 1) g.pc) := by
  have hle := hc.le
  have hle' := hb.le
  rw [pc_emit] at hle'
  rw [pc_pushLoop] at hle
  have hbody := ((hc.hole (i := .branch none) rfl).andThen hb).emit (i := .jmp (some g.pc))
    ⟨Nat.le_refl _, by omega⟩ rfl
  refine (Emits.loop (hbody.patch (k := g₁.pc) (p := g₂.pc + 1) hle ?_ ?_) ?_ ?_ ?_ ?_).mono ?_
  · rw [pc_pushLoop]
    omega
  · simp
  · omega
  · simp
  · exact Nat.le_refl _
  · simp only [pc_patch, pc_emit]
    omega
  · tauto

theorem for_whole (hi : Whole (g.pushLoop true) g₁) (hc : Whole g₁ g₂)
    (hb : Whole (g₂.emit (.branch none)) g₃) (hp : Whole g₃ g₄) :
    Whole g (((g₄.emit (.jmp (some g₁.pc))).patch g₂.pc (g₄.pc + 1)).popLoop (g₄.pc + 1)
      g₃.pc) := by
  have h₁ := hi.le
  have h₂ := hc.le
  have h₃ := hb.le
  have h₄ := hp.le
  rw [pc_pushLoop] at h₁
  rw [pc_emit] at h₃
  have hbody := (((hi.andThen hc).hole (i := .branch none) rfl).andThen hb).andThen hp
  have hback := hbody.emit (i := .jmp (some g₁.pc)) ⟨h₁, by omega⟩ rfl
  refine (Emits.loop (hback.patch (k := g₂.pc) (p := g₄.pc + 1) ?_ ?_ ?_) ?_ ?_ ?_ ?_).mono ?_
  · rw [pc_pushLoop]
    omega
  · rw [pc_pushLoop]
    omega
  · simp
  · omega
  · simp
  · omega
  · simp only [pc_patch, pc_emit]
    omega
  · tauto

theorem forever_whole (hi : Whole (g.pushLoop true) g₁) (hb : Whole g₁ g₂) (hp : Whole g₂ g₃) :
    Whole g ((g₃.emit (.jmp (some g₁.pc))).popLoop (g₃.pc + 1) g₂.pc) := by
  have h₁ := hi.le
  have h₂ := hb.le
  have h₃ := hp.le
  rw [pc_pushLoop] at h₁
  have hback := ((hi.andThen hb).andThen hp).emit (i := .jmp (some g₁.pc)) ⟨h₁, by omega⟩ rfl
  exact hback.loop (by omega) (by simp) (by omega) (by rw [pc_emit]; omega)

theorem doWhile_whole (hb : Whole (g.pushLoop true) g₁) (hc : Whole g₁ g₂) :
    Whole g ((g₂.emit (.branch (some g.pc))).popLoop (g₂.pc + 1) g₁.pc) := by
  have h₁ := hb.le
  have h₂ := hc.le
  rw [pc_pushLoop] at h₁
  have hback := (hb.andThen hc).emit (i := .branch (some g.pc)) ⟨Nat.le_refl _, by omega⟩ rfl
  exact hback.loop (by omega) (by simp) (by omega) (by rw [pc_emit]; omega)

/-- A jump out of the code so far, recorded with the construct it refers to. -/
theorem recordJump_whole {label : Option String} {continues : Bool} {frames : List LoopFrame}
    (h : recordJump label continues g.pc g.loopStack = some frames) :
    Whole g { (g.emit (.jmp none)) with loopStack := frames } := by
  obtain ⟨hgrown, hpending⟩ := recordJump_grown h
  have hhole := (Emits.refl g fun _ => False).hole (i := .jmp none) rfl
  refine ⟨hhole.region.mono ?_, hgrown, fun hg => (hhole.calls hg).congr rfl rfl⟩
  rintro j - - ((hf | rfl) | hp)
  · exact hf.elim
  · exact .inr hpending
  · exact .inr (hgrown.pending hp)

theorem genBreak_whole {label : Option String} (h : genBreak label g = .ok g₁) : Whole g g₁ := by
  unfold genBreak at h
  split at h
  · next hframes =>
      cases h
      exact recordJump_whole hframes
  · cases h

theorem genContinue_whole {label : Option String} (h : genContinue label g = .ok g₁) :
    Whole g g₁ := by
  unfold genContinue at h
  split at h
  · next hframes =>
      cases h
      exact recordJump_whole hframes
  · cases h

theorem genPatterns_emits {patterns : List Pattern} {jumps : List Nat}
    (h : genPatterns patterns g = .ok (g₁, jumps)) :
    Emits g g₁ (· ∈ jumps) ∧ ∀ j ∈ jumps, g.pc ≤ j := by
  induction patterns generalizing g jumps with
  | nil =>
      cases h
      exact ⟨Emits.refl _ _, by simp⟩
  | cons pattern patterns ih =>
      cases pattern with
      | expr e =>
          obtain ⟨g₂, he, hrest⟩ := bind_eq_ok.mp h
          obtain ⟨⟨g₃, js⟩, hps, hok⟩ := bind_eq_ok.mp hrest
          cases hok
          have hhole := (genShape_whole he).hole (i := .branch none) rfl
          obtain ⟨hrest, hge⟩ := ih hps
          have hle := (genShape_whole he).le
          refine ⟨(hhole.trans hrest).mono (by simp), ?_⟩
          rw [pc_emit] at hge
          simp only [List.mem_cons, forall_eq_or_imp]
          exact ⟨hle, fun j hj => by have := hge j hj; omega⟩
      | range lo hi =>
          obtain ⟨g₂, hlo, hrest⟩ := bind_eq_ok.mp h
          obtain ⟨g₃, hhi, hrest⟩ := bind_eq_ok.mp hrest
          obtain ⟨⟨g₄, js⟩, hps, hok⟩ := bind_eq_ok.mp hrest
          cases hok
          have hle := (genShape_whole hlo).le
          have hle' := (genShape_whole hhi).le
          have hholes := (((genShape_whole hlo).andThen (genShape_whole hhi)).hole
            (i := .branch none) rfl).hole (i := .branch none) rfl
          obtain ⟨hemits, hge⟩ := ih hps
          simp only [pc_patch, pc_emit] at hge hholes hemits ⊢
          have hpatched := hholes.patch (k := g₃.pc) (p := g₃.pc + 1 + 1) (by omega) (by omega)
            (by simp)
          refine ⟨(hpatched.trans hemits).mono ?_, ?_⟩
          · intro j
            simp only [List.mem_cons]
            tauto
          · simp only [List.mem_cons, forall_eq_or_imp]
            exact ⟨by omega, fun j hj => by have := hge j hj; omega⟩
      | wildcard =>
          obtain ⟨⟨g₃, js⟩, hps, hok⟩ := bind_eq_ok.mp h
          cases hok
          have hhole := (Emits.refl g fun _ => False).hole (i := .jmp none) rfl
          obtain ⟨hrest, hge⟩ := ih hps
          refine ⟨(hhole.trans hrest).mono (by simp), ?_⟩
          rw [pc_emit] at hge
          simp only [List.mem_cons, forall_eq_or_imp]
          exact ⟨Nat.le_refl _, fun j hj => by have := hge j hj; omega⟩

theorem genSetups_whole {entries : List AltEntry} (h : genSetups entries g = .ok g₁) :
    Whole g g₁ := by
  induction entries generalizing g with
  | nil =>
      cases h
      exact Emits.refl _ _
  | cons e entries ih =>
      obtain ⟨g₂, he, hrest⟩ := bind_eq_ok.mp h
      exact ((genShape_whole he).emit (i := .step) trivial rfl).andThen (ih hrest)

theorem emitAll_emits (n : Nat) (h : Emits g g₁ P) :
    Emits g (emitAll (.branch none) n g₁) (fun j => P j ∨ g₁.pc ≤ j ∧ j < g₁.pc + n) ∧
      (emitAll (.branch none) n g₁).pc = g₁.pc + n := by
  induction n generalizing g₁ P with
  | zero => exact ⟨h.mono fun _ => .inl, rfl⟩
  | succ n ih =>
      obtain ⟨hall, hpc⟩ := ih (h.hole (i := .branch none) rfl)
      rw [pc_emit] at hall hpc
      refine ⟨hall.mono fun j hj => ?_, by rw [emitAll, hpc]; omega⟩
      rcases hj with (hP | rfl) | hj
      · exact .inl hP
      · exact .inr ⟨Nat.le_refl _, by omega⟩
      · exact .inr (by omega)

/-- The landing pads of an arm's guards, patched as the arm is generated. -/
theorem genPads_emits {pads : Nat} {wild : Bool} {entries : List AltEntry} {jumps : List Nat}
    (h : genPads pads wild entries g₁ = .ok (g₂, jumps)) (hbase : Emits g g₁ P)
    (hpads : g.pc ≤ pads) :
    Emits g g₂ (fun j => (P j ∧ ∀ e ∈ entries, j ≠ pads + e.index) ∨ j ∈ jumps) ∧
      (∀ j ∈ jumps, g.pc ≤ j) ∧ g₁.pc ≤ g₂.pc := by
  induction entries generalizing g₁ P jumps with
  | nil =>
      cases h
      exact ⟨hbase.mono fun j hj => .inl ⟨hj, by simp⟩, by simp, Nat.le_refl _⟩
  | cons e entries ih =>
      have hle := hbase.le
      rw [genPads] at h
      obtain ⟨g₃, he, hrest⟩ := bind_eq_ok.mp h
      have hpad := (hbase.patch (k := pads + e.index) (p := g₁.pc) (by omega) hle
        (Nat.le_refl _)).andThen (genShape_whole he)
      have hle' := (genShape_whole he).le
      rw [pc_patch] at hle'
      split at hrest
      · obtain ⟨⟨g₄, js⟩, hps, hok⟩ := bind_eq_ok.mp hrest
        cases hok
        obtain ⟨hall, hge, hmono⟩ := ih hps (hpad.hole (i := .jmp none) rfl)
        rw [pc_emit] at hmono
        refine ⟨hall.mono ?_, ?_, by omega⟩
        · intro j
          simp only [List.mem_cons, forall_eq_or_imp]
          tauto
        · simp only [List.mem_cons, forall_eq_or_imp]
          exact ⟨by omega, hge⟩
      · obtain ⟨hall, hge, hmono⟩ := ih hrest hpad
        refine ⟨hall.mono ?_, hge, by omega⟩
        intro j
        simp only [List.mem_cons, forall_eq_or_imp]
        tauto

/-- The jump for the `*` arm, patched where that arm is generated. -/
theorem wildcard_patched {c : Prop} [Decidable c] {k : Nat} (h : Emits g g₁ P) (hk : g.pc ≤ k) :
    Emits g (if c then g₁.patch k g₁.pc else g₁) fun j => P j ∧ (c → j ≠ k) := by
  split
  · exact (h.patch hk h.le (Nat.le_refl _)).mono fun j hj => ⟨hj.1, fun _ => hj.2⟩
  · next hc => exact h.mono fun j hj => ⟨hj, fun h => absurd h hc⟩

theorem wildcard_pad {c : Prop} [Decidable c] (h : Emits g g₁ P) :
    Emits g (if c then g₁ else g₁.emit (.branch none)) fun j => P j ∨ ¬ c ∧ j = g₁.pc := by
  split
  · exact h.mono fun _ => .inl
  · next hc => exact (h.hole (i := .branch none) rfl).mono fun _ => Or.imp_right fun hj => ⟨hc, hj⟩

end Constructs

/-! ### The table of an `alt` -/

theorem altEntries_next (nsend arm : Nat) (guards : List AltGuard) (ns nr : Nat) :
    (altEntries nsend arm guards ns nr).2 =
      (ns + guards.countP (·.isSend), nr + guards.countP (·.isRecv)) := by
  induction guards generalizing ns nr with
  | nil => rfl
  | cons guard guards ih =>
      cases guard <;>
        simp [altEntries, ih, List.countP_cons, Nat.add_assoc, Nat.add_comm 1]

/-- Every index in the range of an arm's guards is one of its entries'. -/
theorem altEntries_covers {nsend k : Nat} (arm : Nat) (guards : List AltGuard) (ns nr : Nat)
    (hk : ns ≤ k ∧ k < ns + guards.countP (·.isSend) ∨
      nsend + nr ≤ k ∧ k < nsend + nr + guards.countP (·.isRecv)) :
    ∃ e ∈ (altEntries nsend arm guards ns nr).1, e.index = k ∧ e.arm = arm := by
  induction guards generalizing ns nr with
  | nil =>
      simp only [List.countP_nil] at hk
      omega
  | cons guard guards ih =>
      cases guard with
      | send setup =>
          simp only [List.countP_cons, AltGuard.isSend_send, AltGuard.isRecv_send, if_true,
            Bool.false_eq_true, if_false, Nat.add_zero] at hk
          by_cases heq : k = ns
          · exact ⟨_, List.mem_cons_self, heq.symm, rfl⟩
          · obtain ⟨e, he, hidx⟩ := ih (ns + 1) nr (by omega)
            exact ⟨e, List.mem_cons_of_mem _ he, hidx⟩
      | recv setup prologue =>
          simp only [List.countP_cons, AltGuard.isSend_recv, AltGuard.isRecv_recv, if_true,
            Bool.false_eq_true, if_false, Nat.add_zero] at hk
          by_cases heq : k = nsend + nr
          · exact ⟨_, List.mem_cons_self, heq.symm, rfl⟩
          · obtain ⟨e, he, hidx⟩ := ih ns (nr + 1) (by omega)
            exact ⟨e, List.mem_cons_of_mem _ he, hidx⟩
      | wildcard =>
          simp only [List.countP_cons, AltGuard.isSend_wildcard, AltGuard.isRecv_wildcard,
            Bool.false_eq_true, if_false, Nat.add_zero] at hk
          exact ih ns nr hk

theorem altTable_covers {nsend k : Nat} (arms : List AltArm) (n ns nr : Nat)
    (hk : ns ≤ k ∧ k < ns + (arms.flatMap (·.guards)).countP (·.isSend) ∨
      nsend + nr ≤ k ∧ k < nsend + nr + (arms.flatMap (·.guards)).countP (·.isRecv)) :
    ∃ e ∈ altTable nsend arms n ns nr, e.index = k ∧ n ≤ e.arm ∧ e.arm < n + arms.length := by
  induction arms generalizing n ns nr with
  | nil =>
      simp only [List.flatMap_nil, List.countP_nil] at hk
      omega
  | cons arm arms ih =>
      simp only [List.flatMap_cons, List.countP_append] at hk
      simp only [altTable, altEntries_next]
      by_cases hhere : ns ≤ k ∧ k < ns + arm.guards.countP (·.isSend) ∨
          nsend + nr ≤ k ∧ k < nsend + nr + arm.guards.countP (·.isRecv)
      · obtain ⟨e, he, hidx, harm⟩ := altEntries_covers n arm.guards ns nr hhere
        exact ⟨e, List.mem_append_left _ he, hidx, by omega, by simp; omega⟩
      · obtain ⟨e, he, hidx, hge, hlt⟩ := ih (n + 1)
          (ns + arm.guards.countP (·.isSend)) (nr + arm.guards.countP (·.isRecv)) (by omega)
        exact ⟨e, List.mem_append_right _ he, hidx, by omega, by simp; omega⟩

theorem wildcardArms_head {arms : List AltArm} (h : wildcardArms arms ≠ []) :
    ∃ w, (wildcardArms arms).head? = some w ∧ w < arms.length := by
  cases hw : wildcardArms arms with
  | nil => exact absurd hw h
  | cons w rest =>
      have hmem : w ∈ wildcardArms arms := hw ▸ List.mem_cons_self
      simp only [wildcardArms, List.mem_flatMap, List.mem_map] at hmem
      obtain ⟨a, ha, -, -, rfl⟩ := hmem
      exact ⟨a.2, rfl, by simpa using List.snd_lt_of_mem_zipIdx ha⟩

theorem pickTags_range {arms : List PickArm} {n : Nat} {p : String × Nat}
    (h : p ∈ pickTags arms n) : n ≤ p.2 ∧ p.2 < n + arms.length := by
  induction arms generalizing n with
  | nil => cases h
  | cons arm arms ih =>
      rw [List.length_cons]
      rcases List.mem_append.mp h with h | h
      · obtain ⟨tag, -, rfl⟩ := List.mem_map.mp h
        exact ⟨Nat.le_refl _, by simp⟩
      · have := ih h
        omega

/-! ### Whole statements -/

/-- The arms of a case leave their jumps to the end. -/
def CaseArmsEmit (arms : List CaseArm) : Prop :=
  ∀ {g g' : Gen} {ends : List Nat}, genCaseArms arms g = .ok (g', ends) →
    Emits g g' (· ∈ ends) ∧ ∀ j ∈ ends, g.pc ≤ j

theorem case_whole {e : Shape} {arms : List CaseArm} (hrec : CaseArmsEmit arms) {g g' : Gen}
    (h : genStmt (.case e arms) g = .ok g') : Whole g g' := by
  rw [genStmt] at h
  obtain ⟨g₁, he, hrest⟩ := bind_eq_ok.mp h
  obtain ⟨⟨g₂, ends⟩, ha, hok⟩ := bind_eq_ok.mp hrest
  cases hok
  have hle := (genShape_whole he).le
  obtain ⟨hemits, hge⟩ := hrec ha
  have hle' := hemits.le
  rw [pc_pushLoop] at hle
  have hpatched := ((genShape_whole he).trans hemits).patchAll (p := g₂.pc)
    (fun k hk => Nat.le_trans hle (hge k hk)) (by rw [pc_pushLoop]; omega) (Nat.le_refl _)
  simp only [pc_patchAll]
  exact (hpatched.loop (by omega) (by simp) (by omega) (by simp)).mono (by tauto)

/-- The arms of an alt patch the pads of their guards and leave their jumps to the end. -/
def AltArmsEmit (arms : List AltArm) : Prop :=
  ∀ {entries : List AltEntry} {pads wildcardPad : Nat} {wild : Option Nat} {n : Nat}
    {g₀ g g' : Gen} {ends : List Nat} {P : Nat → Prop},
    genAltArms entries pads wildcardPad wild arms n g = .ok (g', ends) →
    Emits g₀ g P → g₀.pc ≤ pads → g₀.pc ≤ wildcardPad →
    Emits g₀ g' (fun j => (P j ∧
      (∀ e ∈ entries, n ≤ e.arm → e.arm < n + arms.length → j ≠ pads + e.index) ∧
      ∀ w, wild = some w → n ≤ w → w < n + arms.length → j ≠ wildcardPad) ∨ j ∈ ends) ∧
      ∀ j ∈ ends, g₀.pc ≤ j

theorem alt_whole {arms : List AltArm} (hrec : AltArmsEmit arms) {g g' : Gen}
    (h : genStmt (.alt arms) g = .ok g') : Whole g g' := by
  rw [genStmt] at h
  simp only at h
  split at h
  · cases h
  · obtain ⟨g₁, hs, hrest⟩ := bind_eq_ok.mp h
    obtain ⟨⟨g₂, ends⟩, ha, hok⟩ := bind_eq_ok.mp hrest
    cases hok
    have hset := genSetups_whole hs
    have hle := hset.le
    rw [pc_pushLoop] at hle
    have hhead := ((hset.emit (i := .step) trivial rfl).emit (i := .step) trivial rfl).emit
      (i := .step) trivial rfl
    obtain ⟨hpads, hpc⟩ := emitAll_emits ((arms.flatMap (·.guards)).countP (·.isSend) +
      (arms.flatMap (·.guards)).countP (·.isRecv)) hhead
    simp only [pc_emit] at hpads hpc ha ⊢
    have hno := (wildcard_pad (c := wildcardArms arms = []) hpads).hole (i := .jmp none) rfl
    obtain ⟨harms, hge⟩ := hrec ha hno
      (by rw [pc_pushLoop]; omega) (by rw [pc_pushLoop]; omega)
    have hnoge := (wildcard_pad (c := wildcardArms arms = []) hpads).le
    have hall := harms.patchAll (p := g₂.pc) (List.forall_mem_cons.mpr ⟨hnoge, hge⟩)
      harms.le (Nat.le_refl _)
    simp only [pc_patchAll]
    have hle' := harms.le
    rw [pc_pushLoop] at hle'
    refine (hall.loop hle' (by simp) hle' (by simp)).mono ?_
    rintro j ⟨⟨((⟨-, hlo, hhi⟩ | ⟨hw, rfl⟩) | rfl), hes, hws⟩ | hj, hnot⟩
    · obtain ⟨e, he, hidx, hlo', hhi'⟩ := altTable_covers arms 0 0 0
        (k := j - (g₁.pc + 1 + 1 + 1)) (show _ ∨
          (arms.flatMap (·.guards)).countP (·.isSend) + 0 ≤ j - (g₁.pc + 1 + 1 + 1) ∧ _ by
          omega)
      exact hes e he hlo' hhi' (by omega)
    · obtain ⟨w, hw', hlt⟩ := wildcardArms_head hw
      exact hws w hw' (Nat.zero_le _) (by omega) (by rw [hpc])
    · exact hnot List.mem_cons_self
    · exact hnot (List.mem_cons_of_mem _ hj)

/-- The arms of a pick patch the pads of their tags and leave their jumps to the end. -/
def PickArmsEmit (arms : List PickArm) : Prop :=
  ∀ {pads : List (Nat × Nat)} {default : Nat} {wild : Option Nat} {n : Nat}
    {g₀ g g' : Gen} {ends : List Nat} {P : Nat → Prop},
    genPickArms pads default wild arms n g = .ok (g', ends) →
    Emits g₀ g P → (∀ p ∈ pads, g₀.pc ≤ p.2) → g₀.pc ≤ default →
    Emits g₀ g' (fun j => (P j ∧
      (∀ p ∈ pads, n ≤ p.1 → p.1 < n + arms.length → j ≠ p.2) ∧
      ∀ w, wild = some w → n ≤ w → w < n + arms.length → j ≠ default) ∨ j ∈ ends) ∧
      ∀ j ∈ ends, g₀.pc ≤ j

theorem pick_whole {e : Shape} {arms : List PickArm} (hrec : PickArmsEmit arms) {g g' : Gen}
    (h : genStmt (.pick e arms) g = .ok g') : Whole g g' := by
  rw [genStmt] at h
  obtain ⟨g₁, he, hrest⟩ := bind_eq_ok.mp h
  simp only at hrest
  split at hrest
  · cases hrest
  · obtain ⟨⟨g₂, ends⟩, ha, hok⟩ := bind_eq_ok.mp hrest
    cases hok
    have hle := (genShape_whole he).le
    rw [pc_pushLoop] at hle
    have htag := (genShape_whole he).emit (i := .step) trivial rfl
    obtain ⟨hpads, hpc⟩ := emitAll_emits
      (((pickTags arms 0).filter (·.1 ≠ "*")).map (·.2)).length htag
    have hdefault := hpads.hole (i := .jmp none) rfl
    simp only [pc_emit, hpc] at hpads hpc ha hdefault ⊢
    obtain ⟨harms, hge⟩ := hrec ha hdefault
      (fun p hp => by
        have := List.le_snd_of_mem_zipIdx hp
        rw [pc_pushLoop]
        omega)
      (by rw [pc_pushLoop]; omega)
    have hle' := harms.le
    rw [pc_pushLoop] at hle'
    have hstar := wildcard_patched (c := (pickTags arms 0).filter (·.1 = "*") = []) harms
      (k := g₁.pc + 1 + (((pickTags arms 0).filter (·.1 ≠ "*")).map (·.2)).length)
      (by rw [pc_pushLoop]; omega)
    have hle'' := hstar.le
    rw [pc_pushLoop] at hle''
    have hall := hstar.patchAll hge hle'' (Nat.le_refl _)
    simp only [pc_patchAll]
    refine (hall.loop hle'' (by simp) hle'' (by simp)).mono ?_
    rintro j ⟨⟨⟨((hf | ⟨hlo, hhi⟩) | rfl), hps, hws⟩ | hj, hw⟩, hnot⟩
    · exact hf.elim
    · have hlt : j - (g₁.pc + 1) <
          (((pickTags arms 0).filter (·.1 ≠ "*")).map (·.2)).length := by omega
      have hmem := List.getElem_mem hlt
      obtain ⟨tag, htag, harm⟩ := List.mem_map.mp hmem
      have hrange := pickTags_range (List.mem_filter.mp htag).1
      refine hps (_, j) (List.mk_mem_zipIdx_iff_le_and_getElem?_sub.mpr
        ⟨hlo, List.getElem?_eq_getElem hlt⟩) (Nat.zero_le _) ?_ rfl
      rw [← harm]
      exact hrange.2
    · cases hstars : (pickTags arms 0).filter (·.1 = "*") with
      | nil => exact hw hstars rfl
      | cons tag rest =>
          have hmem : tag ∈ (pickTags arms 0).filter (·.1 = "*") :=
            hstars ▸ List.mem_cons_self
          have hrange := pickTags_range (List.mem_filter.mp hmem).1
          exact hws tag.2 (by rw [hstars]; rfl) (Nat.zero_le _) hrange.2 rfl
    · exact hnot hj

mutual

theorem genStmt_whole : ∀ (stmt : Stmt) {g g' : Gen}, genStmt stmt g = .ok g' → Whole g g'
  | .expr e, g, g', h => genShape_whole (by simpa only [genStmt] using h)
  | .ret e, g, g', h => by
      rw [genStmt] at h
      obtain ⟨g₁, he, hok⟩ := bind_eq_ok.mp h
      cases hok
      exact (genShape_whole he).emit trivial rfl
  | .exit, g, g', h => by
      rw [genStmt] at h
      cases h
      exact (Emits.refl g _).emit trivial rfl
  | .raise e, g, g', h => by
      rw [genStmt] at h
      obtain ⟨g₁, he, hok⟩ := bind_eq_ok.mp h
      cases hok
      exact (genShape_whole he).emit trivial rfl
  | .block stmts, g, g', h => genStmts_whole stmts (by simpa only [genStmt] using h)
  | .ifThen cond then_, g, g', h => by
      rw [genStmt] at h
      obtain ⟨g₁, hc, hrest⟩ := bind_eq_ok.mp h
      obtain ⟨g₂, ht, hok⟩ := bind_eq_ok.mp hrest
      cases hok
      exact ifThen_whole (genShape_whole hc) (genStmt_whole then_ ht)
  | .ifElse cond then_ else_, g, g', h => by
      rw [genStmt] at h
      obtain ⟨g₁, hc, hrest⟩ := bind_eq_ok.mp h
      obtain ⟨g₂, ht, hrest'⟩ := bind_eq_ok.mp hrest
      obtain ⟨g₃, he, hok⟩ := bind_eq_ok.mp hrest'
      cases hok
      have helse := genStmt_whole else_ he
      rw [pc_emit] at helse
      exact ifElse_whole (genShape_whole hc) (genStmt_whole then_ ht) helse
  | .while cond body, g, g', h => by
      rw [genStmt] at h
      obtain ⟨g₁, hc, hrest⟩ := bind_eq_ok.mp h
      obtain ⟨g₂, hb, hok⟩ := bind_eq_ok.mp hrest
      cases hok
      have hwhile := while_whole (genShape_whole hc) (genStmt_whole body hb)
      simpa only [pc_emit, pc_patch, pc_pushLoop] using hwhile
  | .for init (some cond) body post, g, g', h => by
      rw [genStmt] at h
      obtain ⟨g₁, hi, hrest⟩ := bind_eq_ok.mp h
      obtain ⟨g₂, hc, hrest'⟩ := bind_eq_ok.mp hrest
      obtain ⟨g₃, hb, hrest''⟩ := bind_eq_ok.mp hrest'
      obtain ⟨g₄, hp, hok⟩ := bind_eq_ok.mp hrest''
      cases hok
      have hfor := for_whole (genStmt_whole init hi) (genShape_whole hc) (genStmt_whole body hb)
        (genStmt_whole post hp)
      simpa only [pc_emit, pc_patch] using hfor
  | .for init none body post, g, g', h => by
      rw [genStmt] at h
      obtain ⟨g₁, hi, hrest⟩ := bind_eq_ok.mp h
      obtain ⟨g₂, hb, hrest'⟩ := bind_eq_ok.mp hrest
      obtain ⟨g₃, hp, hok⟩ := bind_eq_ok.mp hrest'
      cases hok
      have hfor := forever_whole (genStmt_whole init hi) (genStmt_whole body hb)
        (genStmt_whole post hp)
      simpa only [pc_emit] using hfor
  | .doWhile body cond, g, g', h => by
      rw [genStmt] at h
      obtain ⟨g₁, hb, hrest⟩ := bind_eq_ok.mp h
      obtain ⟨g₂, hc, hok⟩ := bind_eq_ok.mp hrest
      cases hok
      have hdo := doWhile_whole (genStmt_whole body hb) (genShape_whole hc)
      simpa only [pc_emit, pc_pushLoop] using hdo
  | .case e arms, g, g', h => case_whole (genCaseArms_emits arms) h
  | .alt arms, g, g', h => alt_whole (genAltArms_emits _ _ _ _ arms _) h
  | .pick e arms, g, g', h => pick_whole (genPickArms_emits _ _ _ arms _) h
  | .break label, g, g', h => genBreak_whole (by simpa only [genStmt] using h)
  | .continue label, g, g', h => genContinue_whole (by simpa only [genStmt] using h)
  | .label name stmt, g, g', h => by
      rw [genStmt] at h
      obtain ⟨g₁, hs, hok⟩ := bind_eq_ok.mp h
      cases hok
      exact (genStmt_whole stmt hs).ofLabel.setLabel
  | .empty, g, g', h => by
      rw [genStmt] at h
      cases h
      exact Emits.refl g _

theorem genStmts_whole :
    ∀ (stmts : List Stmt) {g g' : Gen}, genStmts stmts g = .ok g' → Whole g g'
  | [], g, g', h => by
      rw [genStmts] at h
      cases h
      exact Emits.refl g _
  | stmt :: stmts, g, g', h => by
      rw [genStmts] at h
      obtain ⟨g₁, hs, hrest⟩ := bind_eq_ok.mp h
      exact (genStmt_whole stmt hs).andThen (genStmts_whole stmts hrest)

theorem genCaseArms_emits :
    ∀ (arms : List CaseArm) {g g' : Gen} {ends : List Nat}, genCaseArms arms g = .ok (g', ends) →
      Emits g g' (· ∈ ends) ∧ ∀ j ∈ ends, g.pc ≤ j
  | [], g, g', ends, h => by
      rw [genCaseArms] at h
      cases h
      exact ⟨Emits.refl g _, by simp⟩
  | .mk patterns body :: arms, g, g', ends, h => by
      rw [genCaseArms] at h
      obtain ⟨⟨g₁, jumps⟩, hp, hrest⟩ := bind_eq_ok.mp h
      obtain ⟨g₂, hb, hrest'⟩ := bind_eq_ok.mp hrest
      obtain ⟨⟨g₃, js⟩, ha, hok⟩ := bind_eq_ok.mp hrest'
      cases hok
      obtain ⟨hpats, hpge⟩ := genPatterns_emits hp
      have hle := hpats.le
      have hskip := (hpats.hole (i := .jmp none) rfl).patchAll (p := g₁.pc + 1) hpge
        (by omega) (by simp)
      have hbody := genStmts_whole body hb
      have hle' := hbody.le
      simp only [pc_emit, pc_patchAll] at hbody hle'
      have hdone := (hskip.andThen hbody).hole (i := .jmp none) rfl
      obtain ⟨harms, hge⟩ := genCaseArms_emits arms ha
      simp only [pc_emit, pc_patch] at harms hge
      have hnext := hdone.patch (k := g₁.pc) (p := g₂.pc + 1) hle (by omega) (by simp)
      refine ⟨(hnext.trans harms).mono ?_, ?_⟩
      · intro j
        simp only [List.mem_cons]
        tauto
      · simp only [List.mem_cons, forall_eq_or_imp]
        exact ⟨by omega, fun j hj => by have := hge j hj; omega⟩

theorem genAltArms_emits (entries : List AltEntry) (pads wildcardPad : Nat) (wild : Option Nat) :
    ∀ (arms : List AltArm) (n : Nat) {g₀ g g' : Gen} {ends : List Nat} {P : Nat → Prop},
      genAltArms entries pads wildcardPad wild arms n g = .ok (g', ends) →
      Emits g₀ g P → g₀.pc ≤ pads → g₀.pc ≤ wildcardPad →
      Emits g₀ g' (fun j => (P j ∧
        (∀ e ∈ entries, n ≤ e.arm → e.arm < n + arms.length → j ≠ pads + e.index) ∧
        ∀ w, wild = some w → n ≤ w → w < n + arms.length → j ≠ wildcardPad) ∨ j ∈ ends) ∧
        ∀ j ∈ ends, g₀.pc ≤ j
  | [], n, g₀, g, g', ends, P, h, hbase, _, _ => by
      rw [genAltArms] at h
      cases h
      refine ⟨hbase.mono fun j hj => .inl ⟨hj, ?_, ?_⟩, by simp⟩
      · intro e _ hge hlt
        simp only [List.length_nil] at hlt
        omega
      · intro w _ hge hlt
        simp only [List.length_nil] at hlt
        omega
  | .mk guards body :: arms, n, g₀, g, g', ends, P, h, hbase, hpads, hwild => by
      rw [genAltArms] at h
      obtain ⟨⟨g₁, toBody⟩, hp, hrest⟩ := bind_eq_ok.mp h
      obtain ⟨g₂, hb, hrest'⟩ := bind_eq_ok.mp hrest
      obtain ⟨⟨g₃, js⟩, ha, hok⟩ := bind_eq_ok.mp hrest'
      cases hok
      obtain ⟨hpad, hge, -⟩ := genPads_emits hp hbase hpads
      have hstar := wildcard_patched (c := wild = some n) hpad hwild
      have hle := hstar.le
      have hstart := hstar.patchAll hge hle (Nat.le_refl _)
      have hdone := (hstart.andThen (genStmts_whole body hb)).hole (i := .jmp none) rfl
      have hle' := (hstart.andThen (genStmts_whole body hb)).le
      obtain ⟨harms, hge'⟩ := genAltArms_emits entries pads wildcardPad wild arms (n + 1) ha hdone
        hpads hwild
      refine ⟨harms.mono ?_, ?_⟩
      · rintro j (⟨((⟨⟨hj | hj, hw⟩, hnot⟩ | rfl)), hes, hws⟩ | hj)
        · refine .inl ⟨hj.1, fun e he hlo hhi => ?_, fun w hw' hlo hhi => ?_⟩
          · by_cases heq : e.arm = n
            · exact hj.2 e (List.mem_filter.mpr ⟨he, by simpa using heq⟩)
            · exact hes e he (by omega) (by simp only [List.length_cons] at hhi; omega)
          · by_cases heq : w = n
            · exact hw (heq ▸ hw')
            · exact hws w hw' (by omega) (by simp only [List.length_cons] at hhi; omega)
        · exact absurd hj hnot
        · exact .inr List.mem_cons_self
        · exact .inr (List.mem_cons_of_mem _ hj)
      · simp only [List.mem_cons, forall_eq_or_imp]
        exact ⟨hle', hge'⟩

theorem genPickArms_emits (pads : List (Nat × Nat)) (default : Nat) (wild : Option Nat) :
    ∀ (arms : List PickArm) (n : Nat) {g₀ g g' : Gen} {ends : List Nat} {P : Nat → Prop},
      genPickArms pads default wild arms n g = .ok (g', ends) →
      Emits g₀ g P → (∀ p ∈ pads, g₀.pc ≤ p.2) → g₀.pc ≤ default →
      Emits g₀ g' (fun j => (P j ∧
        (∀ p ∈ pads, n ≤ p.1 → p.1 < n + arms.length → j ≠ p.2) ∧
        ∀ w, wild = some w → n ≤ w → w < n + arms.length → j ≠ default) ∨ j ∈ ends) ∧
        ∀ j ∈ ends, g₀.pc ≤ j
  | [], n, g₀, g, g', ends, P, h, hbase, _, _ => by
      rw [genPickArms] at h
      cases h
      refine ⟨hbase.mono fun j hj => .inl ⟨hj, ?_, ?_⟩, by simp⟩
      · intro p _ hge hlt
        simp only [List.length_nil] at hlt
        omega
      · intro w _ hge hlt
        simp only [List.length_nil] at hlt
        omega
  | .mk tags body :: arms, n, g₀, g, g', ends, P, h, hbase, hpads, hdefault => by
      rw [genPickArms] at h
      obtain ⟨g₂, hb, hrest⟩ := bind_eq_ok.mp h
      obtain ⟨⟨g₃, js⟩, ha, hok⟩ := bind_eq_ok.mp hrest
      cases hok
      have hmine : ∀ k ∈ (pads.filter (·.1 = n)).map (·.2), g₀.pc ≤ k := by
        intro k hk
        obtain ⟨p, hp, rfl⟩ := List.mem_map.mp hk
        exact hpads p (List.mem_filter.mp hp).1
      have hpad := hbase.patchAll (p := g.pc) hmine hbase.le (Nat.le_refl _)
      have hstar := wildcard_patched (c := wild = some n) hpad hdefault
      have hbody := hstar.andThen (genStmts_whole body hb)
      obtain ⟨harms, hge'⟩ := genPickArms_emits pads default wild arms (n + 1) ha
        (hbody.hole (i := .jmp none) rfl) hpads hdefault
      refine ⟨harms.mono ?_, ?_⟩
      · rintro j (⟨((⟨⟨hj, hnot⟩, hw⟩ | rfl)), hes, hws⟩ | hj)
        · refine .inl ⟨hj, fun p hp hlo hhi => ?_, fun w hw' hlo hhi => ?_⟩
          · by_cases heq : p.1 = n
            · rintro rfl
              exact hnot (List.mem_map.mpr ⟨p, List.mem_filter.mpr ⟨hp, by simpa using heq⟩, rfl⟩)
            · exact hes p hp (by omega) (by simp only [List.length_cons] at hhi; omega)
          · by_cases heq : w = n
            · exact hw (heq ▸ hw')
            · exact hws w hw' (by omega) (by simp only [List.length_cons] at hhi; omega)
        · exact .inr List.mem_cons_self
        · exact .inr (List.mem_cons_of_mem _ hj)
      · simp only [List.mem_cons, forall_eq_or_imp]
        exact ⟨hbody.le, hge'⟩

end

end RiceVM.Limbo.Flow
