import RiceVM.Limbo.Lowered

/-!
Every `break` leaves the construct that it refers to and every `continue` goes on with it. The stack
of open constructs is balanced after each statement, and where one cannot be generated it holds the
loops and `case`s around the fault.
-/
namespace RiceVM.Limbo.Flow

open Exec Lower

section

variable {Q : Unit → Lowering → Prop} {E : String → Lowering → Prop} {l : Lowering}

@[simp] theorem finishes_emit {i : Instr} : Finishes (emit i) Q E l ↔ Q () (l.emit i) := Iff.rfl

@[simp] theorem finishes_here {Q : Nat → Lowering → Prop} : Finishes here Q E l ↔ Q l.pc l := Iff.rfl

@[simp] theorem finishes_patch {idx pc : Nat} : Finishes (patch idx pc) Q E l ↔ Q () (l.patch idx pc) :=
  Iff.rfl

@[simp] theorem finishes_patchAll {idxs : List Nat} {pc : Nat} :
    Finishes (patchAll idxs pc) Q E l ↔ Q () (l.patchAll idxs pc) := Iff.rfl

@[simp] theorem finishes_pushLoop {continuable : Bool} :
    Finishes (pushLoop continuable) Q E l ↔ Q () (l.pushLoop continuable) := Iff.rfl

@[simp] theorem finishes_popLoop {exitPc continuePc : Nat} :
    Finishes (popLoop exitPc continuePc) Q E l ↔ Q () (l.popLoop exitPc continuePc) := Iff.rfl

@[simp] theorem finishes_setLabel {label : Option String} :
    Finishes (setLabel label) Q E l ↔ Q () (l.setLabel label) := Iff.rfl

@[simp] theorem finishes_orElseChange {m : Lower Unit} {f : Lowering → Lowering} :
    Finishes (m.orElseChange f) Q E l ↔ Finishes m Q (fun e l' => E e (f l')) l := by
  simp only [Finishes, orElseChange]
  cases m l <;> rfl

end

/-! ### Where the generator is -/

/-- The next instruction is at `pc`, and what comes next is generated in `sc`. -/
structure At (pc : Nat) (sc : Scope) (l : Lowering) : Prop where
  pc : l.pc = pc
  scope : l.scope = sc

/-- The generator failed with this many more constructs open than there are in `sc`. -/
def Fails (fault : Option Nat) (sc : Scope) (l : Lowering) : Prop :=
  ∃ left, kinds l.loopStack = left ++ sc.frames ∧ fault = some left.length

namespace At

variable {pc : Nat} {sc : Scope} {l l₁ : Lowering} {us : List Use}

theorem emit (h : At pc sc l) (i : Instr) : At (pc + 1) sc (l.emit i) := by
  refine ⟨?_, h.scope⟩
  rw [Lowering.toGen_emit, pc_emit, h.pc]

theorem patch (h : At pc sc l) (idx p : Nat) : At pc sc (l.patch idx p) :=
  ⟨(pc_patch _ _ _).trans h.pc, h.scope⟩

theorem patchAll (h : At pc sc l) (idxs : List Nat) (p : Nat) : At pc sc (l.patchAll idxs p) :=
  ⟨(pc_patchAll _ _ _).trans h.pc, h.scope⟩

theorem pushLoop (h : At pc sc l) (continuable : Bool) :
    At pc (sc.enter continuable) (l.pushLoop continuable) := by
  refine ⟨h.pc, ?_⟩
  rw [← h.scope]
  rfl

theorem popLoop {continuable : Bool} (h : At pc (sc.enter continuable) l) (exitPc continuePc : Nat) :
    At pc { sc with label := none } (l.popLoop exitPc continuePc) := by
  refine ⟨(pc_popLoop _ _ _).trans h.pc, ?_⟩
  have hscope := h.scope
  obtain ⟨⟨code, frames, label, table, fixups⟩, patched⟩ := l
  simp only [Gen.scope, Scope.enter, Scope.mk.injEq] at hscope
  cases frames with
  | nil => cases hscope.1
  | cons frame frames =>
      simp only [Lowering.toGen_popLoop, Gen.popLoop, Gen.scope, Gen.patchAll, Scope.mk.injEq]
      exact ⟨(List.cons.inj hscope.1).2, hscope.2.1, hscope.2.2⟩

end At

namespace Fails

variable {a b : Option Nat} {sc : Scope} {l : Lowering}

theorem left (h : Fails a sc l) (b : Option Nat) : Fails (a.or b) sc l := by
  obtain ⟨left, hkinds, rfl⟩ := h
  exact ⟨left, hkinds, rfl⟩

theorem right (h : Fails b sc l) (ha : a = none) : Fails (a.or b) sc l := by
  rwa [ha, Option.none_or]

/-- The frame of a loop or a `case` is left over. -/
theorem enter {continuable : Bool} (h : Fails a (sc.enter continuable) l) :
    Fails (a.map (· + 1)) sc l := by
  obtain ⟨left, hkinds, rfl⟩ := h
  exact ⟨left ++ [(sc.label, continuable)], by simpa [Scope.enter] using hkinds, by simp⟩

/-- That of an `alt` or a `pick` is dropped, or one left over in it. -/
theorem drop {c : Bool} (h : Fails a (sc.enter c) l) :
    Fails a sc l.dropLoop := by
  obtain ⟨left, hkinds, rfl⟩ := h
  have htail : kinds l.dropLoop.loopStack = (left ++ (sc.enter c).frames).tail := by
    rw [← hkinds]
    exact List.map_tail
  cases left with
  | nil => exact ⟨[], htail, rfl⟩
  | cons kind left =>
      refine ⟨left ++ [(sc.label, c)], ?_, by simp⟩
      rw [htail]
      simp [Scope.enter]

end Fails

/-! ### Expressions and patterns -/

theorem lowerCall_finishes (name : String) {l : Lowering} {pc : Nat} {sc : Scope} (h : At pc sc l) :
    Finishes (lowerCall name)
      (fun _ l' => Lowered [] l l' ∧ At (pc + 1) sc l' ∧ name ∈ sc.defined)
      (fun _ l' => kinds l'.loopStack = sc.frames ∧ name ∉ sc.defined) l := by
  have hemit := (Lowered.refl l).emit
  have hdefined : sc.defined = l.funcTable.map (·.1) := by rw [← h.scope]; rfl
  rw [lowerCall, finishes_bind, finishes_get, genCall, hdefined]
  cases hfind : l.funcTable.find? (·.1 = name) with
  | none =>
      refine ⟨congrArg Scope.frames h.scope, fun hmem => ?_⟩
      obtain ⟨f, hf, rfl⟩ := List.mem_map.mp hmem
      simpa using List.find?_eq_none.mp hfind f hf
  | some f =>
      have hmem : name ∈ l.funcTable.map (·.1) := by
        have heq : f.1 = name := by simpa using List.find?_some hfind
        exact heq ▸ List.mem_map_of_mem (List.mem_of_find?_eq_some hfind)
      obtain ⟨n, entry⟩ := f
      have hat := h.emit (.call entry)
      have hlow := hemit (.call entry)
      cases entry with
      | some callee => exact ⟨hlow, hat, hmem⟩
      | none =>
          exact ⟨⟨hlow.1, hlow.2, hlow.3, hlow.4, hlow.5, hlow.6, hlow.7, hlow.8⟩,
            ⟨hat.1, hat.2⟩, hmem⟩

theorem lowerShape_finishes (e : Shape) {l : Lowering} {pc : Nat} {sc : Scope} (h : At pc sc l) :
    Finishes (lowerShape e)
      (fun _ l' => Lowered [] l l' ∧ At (pc + e.size) sc l' ∧ e.calls ⊆ sc.defined)
      (fun _ l' => kinds l'.loopStack = sc.frames ∧ ¬ e.calls ⊆ sc.defined) l := by
  have hrefl := Lowered.refl l
  induction e generalizing l pc with
  | nil => exact ⟨hrefl, h, List.nil_subset _⟩
  | step => exact ⟨hrefl.emit _, h.emit _, List.nil_subset _⟩
  | call name =>
      refine (lowerCall_finishes name h).mono (fun _ l' h' => ⟨h'.1, h'.2.1, ?_⟩)
        (fun _ l' h' => ⟨h'.1, fun hsub => h'.2 (hsub List.mem_cons_self)⟩)
      exact List.cons_subset.mpr ⟨h'.2.2, List.nil_subset _⟩
  | seq a b iha ihb =>
      rw [lowerShape, finishes_bind, Shape.calls, List.append_subset]
      refine (iha h hrefl).mono (fun _ l₁ h₁ => ?_) (fun _ l₁ h₁ => ⟨h₁.1, fun hs => h₁.2 hs.1⟩)
      refine (ihb h₁.2.1 (Lowered.refl l₁)).mono (fun _ l₂ h₂ => ?_)
        (fun _ l₂ h₂ => ⟨h₂.1, fun hs => h₂.2 hs.2⟩)
      exact ⟨h₁.1.andThen h₂.1, by rw [Shape.size, ← Nat.add_assoc]; exact h₂.2.1, h₁.2.2, h₂.2.2⟩
  | test =>
      simp only [lowerShape, finishes_bind, finishes_emit, finishes_here, finishes_patch]
      have hstep := hrefl.emit .step
      have hskip := (Free.last hstep (.branch none)).emit .step
      exact ⟨((hstep.emit _).emit _).patch hskip _, (((h.emit _).emit _).emit _).patch _ _,
        List.nil_subset _⟩
  | not e ih =>
      simp only [lowerShape, finishes_bind, finishes_emit, finishes_here, finishes_patch, Shape.calls]
      refine (ih h hrefl).mono (fun _ l₁ h₁ => ?_) (fun _ _ h => h)
      obtain ⟨hlow, hat, hcalls⟩ := h₁
      have hskip := ((Free.last hlow (.branch none)).emit .step).emit (.jmp none)
      have hbranch := (hlow.emit (.branch none)).emit .step
      have hdone := (((Free.last hbranch (.jmp none)).patch l₁.pc
        ((((l₁.emit (.branch none)).emit .step).emit (.jmp none)).pc)).emit .step)
      exact ⟨((((hbranch.emit _).patch hskip _).emit _).patch hdone _),
        (((((hat.emit _).emit _).emit _).patch _ _).emit _).patch _ _, hcalls⟩
  | logical a b iha ihb =>
      simp only [lowerShape, finishes_bind, finishes_emit, finishes_here, finishes_patch, Shape.calls,
        List.append_subset]
      refine (iha h hrefl).mono (fun _ l₁ h₁ => ?_) (fun _ l₁ h₁ => ⟨h₁.1, fun hs => h₁.2 hs.1⟩)
      obtain ⟨hlow, hat, hcalls⟩ := h₁
      refine (ihb (hat.emit (.branch none)) (Lowered.refl _)).mono (fun _ l₂ h₂ => ?_)
        (fun _ l₂ h₂ => ⟨h₂.1, fun hs => h₂.2 hs.2⟩)
      obtain ⟨hlow', hat', hcalls'⟩ := h₂
      have hboth := (hlow.emit (.branch none)).andThen hlow'
      have hshort := ((Free.last hlow (.branch none)).andThen hlow').emit (.jmp none)
      have hdone := ((Free.last hboth (.jmp none)).patch l₁.pc (l₂.emit (.jmp none)).pc).emit .step
      refine ⟨((((hboth.emit _).patch hshort _).emit _).patch hdone _), ?_, hcalls, hcalls'⟩
      have hend := (((hat'.emit (.jmp none)).patch l₁.pc (l₂.emit (.jmp none)).pc).emit .step).patch
        l₂.pc (((l₂.emit (.jmp none)).patch l₁.pc (l₂.emit (.jmp none)).pc).emit .step).pc
      rwa [show pc + (Shape.logical a b).size = pc + a.size + 1 + b.size + 1 + 1 by
        simp only [Shape.size]
        omega]
  | fill value ih =>
      simp only [lowerShape, finishes_bind, finishes_emit, finishes_here, finishes_patch, Shape.calls]
      refine (ih h hrefl).mono (fun _ l₁ h₁ => ?_) (fun _ _ h => h)
      obtain ⟨hlow, hat, hcalls⟩ := h₁
      have hstart := ((((Free.last (hlow.emit .step) (.branch none)).emit .step).emit .step).emit
        .step).emit (.jmp (some (l₁.emit .step).pc))
      exact ⟨((((((hlow.emit _).emit _).emit _).emit _).emit _).emit _).patch hstart _,
        ((((((hat.emit _).emit _).emit _).emit _).emit _).emit _).patch _ _, hcalls⟩

/-- An expression is generated, or is the fault. -/
theorem lowerExpr_finishes (e : Shape) {l : Lowering} {pc : Nat} {sc : Scope} (h : At pc sc l) :
    Finishes (lowerShape e)
      (fun _ l' => Lowered [] l l' ∧ At (pc + e.size) sc l' ∧ e.fault sc = none)
      (fun _ l' => Fails (e.fault sc) sc l') l :=
  (lowerShape_finishes e h).mono (fun _ _ h' => ⟨h'.1, h'.2.1, if_pos h'.2.2⟩)
    (fun _ _ h' => ⟨[], h'.1, if_neg h'.2⟩)

theorem lowerPatterns_finishes (patterns : List Pattern) {l : Lowering} {pc : Nat} {sc : Scope}
    (h : At pc sc l) :
    Finishes (lowerPatterns patterns)
      (fun js l' => Lowered [] l l' ∧ At (pc + patternsSize patterns) sc l' ∧
        (∀ j ∈ js, Free [] l l' j) ∧ patternsFault patterns sc = none)
      (fun _ l' => Fails (patternsFault patterns sc) sc l') l := by
  induction patterns generalizing l pc with
  | nil => exact ⟨Lowered.refl l, h, fun _ h => (nomatch h), rfl⟩
  | cons pattern patterns ih =>
      cases pattern with
      | expr e =>
          simp only [lowerPatterns, finishes_bind, finishes_emit, finishes_here, finishes_pure, patternsFault]
          refine (lowerExpr_finishes e h).mono (fun _ l₁ h₁ => ?_) (fun _ l₁ h₁ => h₁.left _)
          obtain ⟨hlow, hat, hfault⟩ := h₁
          refine (ih (hat.emit (.branch none))).mono (fun js l₂ h₂ => ?_)
            (fun _ l₂ h₂ => h₂.right hfault)
          obtain ⟨hlow', hat', hjs, hfault'⟩ := h₂
          have hbranch := hlow.emit (.branch none)
          refine ⟨hbranch.andThen hlow', ?_, List.forall_mem_cons.mpr
            ⟨(Free.last hlow _).andThen hlow', fun j hj => Free.after hbranch (hjs j hj)⟩, ?_⟩
          · rwa [patternsSize, ← Nat.add_assoc, ← Nat.add_assoc]
          · rw [hfault, hfault']
            rfl
      | range lo hi =>
          simp only [lowerPatterns, finishes_bind, finishes_emit, finishes_here, finishes_patch, finishes_pure,
            patternsFault]
          refine (lowerExpr_finishes lo h).mono (fun _ l₁ h₁ => ?_) (fun _ l₁ h₁ => h₁.left _)
          obtain ⟨hlo, hat₁, hfault₁⟩ := h₁
          refine (lowerExpr_finishes hi hat₁).mono (fun _ l₂ h₂ => ?_)
            (fun _ l₂ h₂ => (h₂.left _).right hfault₁)
          obtain ⟨hhi, hat₂, hfault₂⟩ := h₂
          have hboth := (hlo.andThen hhi)
          have hbelow := (Free.last hboth (.branch none)).emit (.branch none)
          have hidx := Free.last (hboth.emit (.branch none)) (.branch none)
          have hpatched := ((hboth.emit (.branch none)).emit (.branch none)).patch hbelow
            ((l₂.emit (.branch none)).emit (.branch none)).pc
          refine (ih (((hat₂.emit (.branch none)).emit (.branch none)).patch l₂.pc
            ((l₂.emit (.branch none)).emit (.branch none)).pc)).mono (fun js l₃ h₃ => ?_)
            (fun _ l₃ h₃ => (h₃.right hfault₂).right hfault₁)
          obtain ⟨hlow', hat', hjs, hfault'⟩ := h₃
          refine ⟨hpatched.andThen hlow', ?_, List.forall_mem_cons.mpr
            ⟨(hidx.patch _ _).andThen hlow', fun j hj => Free.after hpatched (hjs j hj)⟩, ?_⟩
          · rwa [patternsSize, ← Nat.add_assoc, ← Nat.add_assoc, ← Nat.add_assoc]
          · rw [hfault₁, hfault₂, hfault']
            rfl
      | wildcard =>
          simp only [lowerPatterns, finishes_bind, finishes_emit, finishes_here, finishes_pure, patternsFault]
          refine (ih (h.emit (.jmp none))).mono (fun js l₂ h₂ => ?_) (fun _ l₂ h₂ => h₂)
          obtain ⟨hlow', hat', hjs, hfault'⟩ := h₂
          have hjump := (Lowered.refl l).emit (.jmp none)
          refine ⟨hjump.andThen hlow', ?_, List.forall_mem_cons.mpr
            ⟨(Free.last (Lowered.refl l) _).andThen hlow',
              fun j hj => Free.after hjump (hjs j hj)⟩, hfault'⟩
          rwa [patternsSize, ← Nat.add_assoc]

/-! ### The tables of `alt` and `pick` -/

theorem lowerSetups_finishes (entries : List AltEntry) {l : Lowering} {pc : Nat} {sc : Scope}
    (h : At pc sc l) :
    Finishes (lowerSetups entries)
      (fun _ l' => Lowered [] l l' ∧ At (pc + setupsSize entries) sc l' ∧
        setupsFault entries sc = none)
      (fun _ l' => Fails (setupsFault entries sc) sc l') l := by
  induction entries generalizing l pc with
  | nil => exact ⟨Lowered.refl l, h, rfl⟩
  | cons e entries ih =>
      simp only [lowerSetups, finishes_bind, finishes_emit, setupsFault]
      refine (lowerExpr_finishes e.setup h).mono (fun _ l₁ h₁ => ?_) (fun _ l₁ h₁ => h₁.left _)
      obtain ⟨hlow, hat, hfault⟩ := h₁
      refine (ih (hat.emit .step)).mono (fun _ l₂ h₂ => ?_) (fun _ l₂ h₂ => h₂.right hfault)
      obtain ⟨hlow', hat', hfault'⟩ := h₂
      refine ⟨(hlow.emit _).andThen hlow', ?_, ?_⟩
      · rwa [setupsSize, ← Nat.add_assoc, ← Nat.add_assoc]
      · rw [hfault, hfault']
        rfl

theorem lowerEmitAll_finishes (i : Instr) (n : Nat) {l₀ l : Lowering} {pc : Nat} {sc : Scope}
    {us : List Use} (hlow : Lowered us l₀ l) (h : At pc sc l) :
    Finishes (lowerEmitAll i n)
      (fun _ l' => Lowered us l₀ l' ∧ At (pc + n) sc l' ∧
        ∀ k, pc ≤ k → k < pc + n → Free us l₀ l' k)
      (fun _ _ => False) l := by
  induction n generalizing l pc with
  | zero => exact ⟨hlow, h, fun k _ _ => by omega⟩
  | succ n ih =>
      rw [lowerEmitAll, finishes_bind, finishes_emit]
      refine (ih (hlow.emit i) (h.emit i)).mono (fun _ l' h' => ?_) (fun _ _ => id)
      obtain ⟨hlow', hat, hfree⟩ := h'
      refine ⟨hlow', by rwa [← Nat.add_assoc, Nat.add_right_comm], fun k hge hlt => ?_⟩
      rcases Nat.eq_or_lt_of_le hge with rfl | hgt
      · rw [← h.pc]
        refine (Free.last hlow i).mono ?_
        rw [hat.pc, (h.emit i).pc]
        exact Nat.le_add_right _ _
      · exact hfree k hgt (by omega)

/-- The pads of an arm's guards. -/
theorem lowerPads_finishes {pads : Nat} {wild : Bool} (entries : List AltEntry) {l₀ l : Lowering}
    {pc : Nat} {sc : Scope} {us : List Use} (hlow : Lowered us l₀ l) (h : At pc sc l)
    (hpads : ∀ e ∈ entries, Free us l₀ l (pads + e.index)) :
    Finishes (lowerPads pads wild entries)
      (fun js l' => Lowered us l₀ l' ∧ At (pc + padsSize wild entries) sc l' ∧
        (∀ j ∈ js, Free us l₀ l' j) ∧ padsFault entries sc = none)
      (fun _ l' => Fails (padsFault entries sc) sc l') l := by
  induction entries generalizing l pc with
  | nil => exact ⟨hlow, h, fun _ h => (nomatch h), rfl⟩
  | cons e entries ih =>
      simp only [lowerPads, finishes_bind, finishes_here, finishes_patch, padsFault]
      have hpad := hpads e List.mem_cons_self
      refine (lowerExpr_finishes e.prologue (h.patch (pads + e.index) l.pc)).mono (fun _ l₁ h₁ => ?_)
        (fun _ l₁ h₁ => h₁.left _)
      obtain ⟨hlow₁, hat, hfault⟩ := h₁
      have hall := (hlow.patch hpad l.pc).andThen hlow₁
      have hrest : ∀ e' ∈ entries, Free us l₀ l₁ (pads + e'.index) := fun e' he' =>
        ((hpads e' (List.mem_cons_of_mem _ he')).patch _ _).andThen hlow₁
      by_cases hc : entries ≠ [] ∨ wild
      · simp only [if_pos hc, finishes_bind, finishes_here, finishes_emit, finishes_pure, padsSize]
        refine (ih (hall.emit (.jmp none)) (hat.emit (.jmp none))
          fun e' he' => (hrest e' he').emit _).mono (fun js l₂ h₂ => ?_)
          (fun _ l₂ h₂ => h₂.right hfault)
        obtain ⟨hlow₂, hat₂, hjs, hfault₂⟩ := h₂
        refine ⟨hlow₂, ?_, List.forall_mem_cons.mpr ⟨?_, hjs⟩, ?_⟩
        · rwa [← Nat.add_assoc, ← Nat.add_assoc]
        · refine (Free.last hall (.jmp none)).mono ?_
          rw [hat₂.pc, (hat.emit _).pc]
          exact Nat.le_add_right _ _
        · rw [hfault, hfault₂]
          rfl
      · simp only [if_neg hc, padsSize]
        refine (ih hall hat hrest).mono (fun js l₂ h₂ => ?_) (fun _ l₂ h₂ => h₂.right hfault)
        obtain ⟨hlow₂, hat₂, hjs, hfault₂⟩ := h₂
        refine ⟨hlow₂, ?_, hjs, ?_⟩
        · rwa [Nat.add_zero, ← Nat.add_assoc]
        · rw [hfault, hfault₂]
          rfl

theorem lowerTags_finishes (tags : List (String × Nat)) (wild : Option Nat) {l₀ l : Lowering}
    {pc : Nat} {sc : Scope} (hlow : Lowered [] l₀ l) (h : At pc sc l) :
    Finishes (lowerTags tags wild)
      (fun r l' => Lowered [] l₀ l' ∧ At (pc + (tags.filter (·.1 ≠ "*")).length) sc l' ∧
        (∀ p ∈ r.1, Free [] l₀ l' p.2) ∧
        wild.toList.length + (tags.filter (·.1 = "*")).length ≤ 1)
      (fun _ l' => kinds l'.loopStack = sc.frames ∧
        1 < wild.toList.length + (tags.filter (·.1 = "*")).length) l := by
  induction tags generalizing l pc wild with
  | nil =>
      refine ⟨hlow, h, fun _ h => (nomatch h), ?_⟩
      cases wild <;> simp
  | cons tag tags ih =>
      obtain ⟨name, arm⟩ := tag
      rw [lowerTags]
      by_cases hname : name = "*"
      · rw [if_pos hname]
        cases wild with
        | some w =>
            refine ⟨congrArg Scope.frames h.scope, ?_⟩
            simp [hname]
        | none =>
            simpa [hname, Nat.add_comm] using ih (some arm) hlow h
      · simp only [if_neg hname, finishes_bind, finishes_here, finishes_emit, finishes_pure]
        refine (ih wild (hlow.emit (.branch none)) (h.emit _)).mono (fun r l' h' => ?_)
          (fun _ l' h' => ?_)
        · obtain ⟨hlow', hat, hfree, hone⟩ := h'
          refine ⟨hlow', ?_, List.forall_mem_cons.mpr ⟨?_, hfree⟩, ?_⟩
          · simpa [hname, Nat.add_assoc, Nat.add_comm 1] using hat
          · refine (Free.last hlow (.branch none)).mono ?_
            rw [hat.pc, (h.emit _).pc]
            exact Nat.le_add_right _ _
          · simpa [hname] using hone
        · simpa [hname] using h'

/-! ### Statements, one construct at a time -/

/-- The program emits the code of an outline, or fails at a fault. -/
def Generates (m : Lower Unit) (outline : Nat → Option String → Outline) (takes : Bool)
    (fault : Scope → Option Nat) : Prop :=
  ∀ {l : Lowering} {pc : Nat} {sc : Scope}, At pc sc l →
    Finishes m
      (fun _ l' => Lowered (outline pc sc.label).uses l l' ∧
        At (outline pc sc.label).pc { sc with label := if takes then none else sc.label } l' ∧
        fault sc = none)
      (fun _ l' => Fails (fault sc) sc l') l

abbrev GeneratesStmt (stmt : Stmt) : Prop :=
  Generates (lowerStmt stmt) stmt.outline stmt.takesLabel stmt.fault

abbrev GeneratesStmts (stmts : List Stmt) : Prop :=
  Generates (lowerStmts stmts) (outlines stmts) (stmtsTakeLabel stmts) (stmtsFault stmts)

/-- In a construct that was just entered no label is left to take. -/
theorem Generates.inside {m : Lower Unit} {outline : Nat → Option String → Outline} {takes : Bool}
    {fault : Scope → Option Nat} (hm : Generates m outline takes fault) {l : Lowering} {pc : Nat}
    {sc : Scope} {continuable : Bool} (h : At pc (sc.enter continuable) l) :
    Finishes m
      (fun _ l' => Lowered (outline pc none).uses l l' ∧
        At (outline pc none).pc (sc.enter continuable) l' ∧ fault (sc.enter continuable) = none)
      (fun _ l' => Fails (fault (sc.enter continuable)) (sc.enter continuable) l') l := by
  refine (hm h).mono (fun _ l' h' => ?_) (fun _ _ h' => h')
  have hnone : ({ sc.enter continuable with
      label := if takes then none else (sc.enter continuable).label } : Scope) =
      sc.enter continuable := by
    simp [Scope.enter]
  rwa [hnone] at h'

/-- Leave a construct that was entered at `l`. -/
theorem At.leave {l l₁ : Lowering} {pc endPc : Nat} {sc : Scope} {us : List Use}
    {continuable : Bool} (h : At pc sc l) (hlow : Lowered us (l.pushLoop continuable) l₁)
    (hat : At endPc (sc.enter continuable) l₁) (exitPc continuePc : Nat) :
    Lowered (us.map (·.close sc.label continuable exitPc continuePc)) l
      (l₁.popLoop exitPc continuePc) ∧
      At endPc { sc with label := none } (l₁.popLoop exitPc continuePc) := by
  have hlabel : l.pendingLabel = sc.label := congrArg Scope.label h.scope
  rw [← hlabel]
  exact ⟨hlow.loop exitPc continuePc, hat.popLoop exitPc continuePc⟩

section Constructs

variable {cond : Shape} {then_ else_ init body post : Stmt}

theorem ifThen_generates (hthen : GeneratesStmt then_) : GeneratesStmt (.ifThen cond then_) := by
  intro l pc sc h
  simp only [lowerStmt, finishes_bind, finishes_here, finishes_emit, finishes_patch, Stmt.fault]
  refine (lowerExpr_finishes cond h).mono (fun _ l₁ h₁ => ?_) (fun _ l₁ h₁ => h₁.left _)
  obtain ⟨hcond, hat, hfault⟩ := h₁
  refine (hthen (hat.emit (.branch none))).mono (fun _ l₂ h₂ => ?_)
    (fun _ l₂ h₂ => h₂.right hfault)
  obtain ⟨hlow, hat', hfault'⟩ := h₂
  have hjump := (Free.last hcond (.branch none)).trans hlow
  rw [hfault, hfault']
  exact ⟨((hcond.emit _).trans hlow).patch hjump _, hat'.patch _ _, rfl⟩

theorem ifElse_generates (hthen : GeneratesStmt then_) (helse : GeneratesStmt else_) :
    GeneratesStmt (.ifElse cond then_ else_) := by
  intro l pc sc h
  simp only [lowerStmt, finishes_bind, finishes_here, finishes_emit, finishes_patch, Stmt.fault]
  refine (lowerExpr_finishes cond h).mono (fun _ l₁ h₁ => ?_) (fun _ l₁ h₁ => h₁.left _)
  obtain ⟨hcond, hat₁, hfault₁⟩ := h₁
  refine (hthen (hat₁.emit (.branch none))).mono (fun _ l₂ h₂ => ?_)
    (fun _ l₂ h₂ => (h₂.left _).right hfault₁)
  obtain ⟨hlow, hat₂, hfault₂⟩ := h₂
  have hone := ((hcond.emit (.branch none)).trans hlow)
  have hskip := (Free.last hone (.jmp none)).patch l₁.pc (l₂.emit (.jmp none)).pc
  have hjump := ((Free.last hcond (.branch none)).trans hlow).emit (.jmp none)
  have hpatched := (hone.emit (.jmp none)).patch hjump (l₂.emit (.jmp none)).pc
  refine (helse ((hat₂.emit (.jmp none)).patch l₁.pc (l₂.emit (.jmp none)).pc)).mono
    (fun _ l₃ h₃ => ?_) (fun _ l₃ h₃ => (h₃.right hfault₂).right hfault₁)
  obtain ⟨hlow', hat₃, hfault₃⟩ := h₃
  refine ⟨(hpatched.trans hlow').patch (hskip.trans hlow') _, ?_, ?_⟩
  · have hend := hat₃.patch l₂.pc l₃.pc
    refine ⟨hend.pc, hend.scope.trans ?_⟩
    cases hthen : then_.takesLabel <;> cases helse : else_.takesLabel <;>
      simp [Stmt.takesLabel, hthen, helse]
  · rw [hfault₁, hfault₂]
    exact hfault₃

theorem while_generates (hbody : GeneratesStmt body) : GeneratesStmt (.while cond body) := by
  intro l pc sc h
  simp only [lowerStmt, finishes_bind, finishes_here, finishes_emit, finishes_patch, finishes_pushLoop,
    finishes_popLoop, Stmt.fault]
  refine (lowerExpr_finishes cond (h.pushLoop true)).mono (fun _ l₁ h₁ => ?_)
    (fun _ l₁ h₁ => (h₁.left _).enter)
  obtain ⟨hcond, hat₁, hfault₁⟩ := h₁
  refine (hbody.inside (hat₁.emit (.branch none))).mono (fun _ l₂ h₂ => ?_)
    (fun _ l₂ h₂ => (h₂.right hfault₁).enter)
  obtain ⟨hlow, hat₂, hfault₂⟩ := h₂
  have hback := (hcond.emit (.branch none)).trans hlow |>.emit (.jmp (some (l.pushLoop true).pc))
  have hjump := ((Free.last hcond (.branch none)).trans hlow).emit
    (.jmp (some (l.pushLoop true).pc))
  have hexit := (hat₂.emit (.jmp (some (l.pushLoop true).pc))).pc
  have hstart := (h.pushLoop true).pc
  rw [hfault₁, hfault₂]
  rw [hstart] at hback hjump hexit ⊢
  rw [hexit]
  obtain ⟨hlow, hat⟩ := h.leave (hback.patch hjump _) ((hat₂.emit _).patch _ _) _ pc
  exact ⟨hlow, hat, rfl⟩

theorem for_generates (hinit : GeneratesStmt init) (hbody : GeneratesStmt body)
    (hpost : GeneratesStmt post) : GeneratesStmt (.for init (some cond) body post) := by
  intro l pc sc h
  simp only [lowerStmt, finishes_bind, finishes_here, finishes_emit, finishes_patch, finishes_pushLoop,
    finishes_popLoop, Stmt.fault]
  refine (hinit.inside (h.pushLoop true)).mono (fun _ l₁ h₁ => ?_)
    (fun _ l₁ h₁ => (h₁.left _).enter)
  obtain ⟨hlow₁, hat₁, hfault₁⟩ := h₁
  refine (lowerExpr_finishes cond hat₁).mono (fun _ l₂ h₂ => ?_)
    (fun _ l₂ h₂ => ((h₂.left _).right hfault₁).enter)
  obtain ⟨hlow₂, hat₂, hfault₂⟩ := h₂
  refine (hbody.inside (hat₂.emit (.branch none))).mono (fun _ l₃ h₃ => ?_)
    (fun _ l₃ h₃ => (((h₃.left _).right hfault₂).right hfault₁).enter)
  obtain ⟨hlow₃, hat₃, hfault₃⟩ := h₃
  refine (hpost.inside hat₃).mono (fun _ l₄ h₄ => ?_)
    (fun _ l₄ h₄ => (((h₄.right hfault₃).right hfault₂).right hfault₁).enter)
  obtain ⟨hlow₄, hat₄, hfault₄⟩ := h₄
  have hcond := hlow₁.andThen hlow₂
  have hback := (((hcond.emit (.branch none)).trans hlow₃).trans hlow₄).emit (.jmp (some l₁.pc))
  have hjump := (((Free.last hcond (.branch none)).trans hlow₃).trans hlow₄).emit
    (.jmp (some l₁.pc))
  have hexit := (hat₄.emit (.jmp (some l₁.pc))).pc
  rw [Option.elim_some, hfault₁, hfault₂, hfault₃, hfault₄, hexit, hat₃.pc]
  obtain ⟨hlow, hat⟩ := h.leave (hback.patch hjump _) ((hat₄.emit _).patch _ _) _ _
  exact ⟨hlow, hat, rfl⟩

theorem forever_generates (hinit : GeneratesStmt init) (hbody : GeneratesStmt body)
    (hpost : GeneratesStmt post) : GeneratesStmt (.for init none body post) := by
  intro l pc sc h
  simp only [lowerStmt, finishes_bind, finishes_here, finishes_emit, finishes_pushLoop, finishes_popLoop,
    Stmt.fault]
  refine (hinit.inside (h.pushLoop true)).mono (fun _ l₁ h₁ => ?_)
    (fun _ l₁ h₁ => (h₁.left _).enter)
  obtain ⟨hlow₁, hat₁, hfault₁⟩ := h₁
  refine (hbody.inside hat₁).mono (fun _ l₃ h₃ => ?_)
    (fun _ l₃ h₃ => (((h₃.left _).right rfl).right hfault₁).enter)
  obtain ⟨hlow₃, hat₃, hfault₃⟩ := h₃
  refine (hpost.inside hat₃).mono (fun _ l₄ h₄ => ?_)
    (fun _ l₄ h₄ => (((h₄.right hfault₃).right rfl).right hfault₁).enter)
  obtain ⟨hlow₄, hat₄, hfault₄⟩ := h₄
  have hback := ((hlow₁.trans hlow₃).trans hlow₄).emit (.jmp (some l₁.pc))
  have hexit := (hat₄.emit (.jmp (some l₁.pc))).pc
  rw [Option.elim_none, hfault₁, hfault₃, hfault₄, hexit, hat₃.pc]
  obtain ⟨hlow, hat⟩ := h.leave hback (hat₄.emit _) _ _
  exact ⟨hlow, hat, rfl⟩

theorem doWhile_generates (hbody : GeneratesStmt body) : GeneratesStmt (.doWhile body cond) := by
  intro l pc sc h
  simp only [lowerStmt, finishes_bind, finishes_here, finishes_emit, finishes_pushLoop, finishes_popLoop,
    Stmt.fault]
  refine (hbody.inside (h.pushLoop true)).mono (fun _ l₁ h₁ => ?_)
    (fun _ l₁ h₁ => (h₁.left _).enter)
  obtain ⟨hlow₁, hat₁, hfault₁⟩ := h₁
  refine (lowerExpr_finishes cond hat₁).mono (fun _ l₂ h₂ => ?_)
    (fun _ l₂ h₂ => (h₂.right hfault₁).enter)
  obtain ⟨hlow₂, hat₂, hfault₂⟩ := h₂
  have hback := (hlow₁.andThen hlow₂).emit (.branch (some (l.pushLoop true).pc))
  have hexit := (hat₂.emit (.branch (some (l.pushLoop true).pc))).pc
  rw [hfault₁, hfault₂, hexit, hat₁.pc]
  obtain ⟨hlow, hat⟩ := h.leave hback (hat₂.emit _) _ _
  exact ⟨hlow, hat, rfl⟩

/-- A `break` or a `continue`. -/
theorem lowerJump_finishes (label : Option String) (continues : Bool) (error : String)
    {l : Lowering} {pc : Nat} {sc : Scope} (h : At pc sc l) :
    Finishes (lowerJump label continues error)
      (fun _ l' => Lowered [⟨pc, .outside label continues⟩] l l' ∧ At (pc + 1) sc l' ∧
        (if sc.refers label continues then none else some 0) = (none : Option Nat))
      (fun _ l' => Fails (if sc.refers label continues then none else some 0) sc l') l := by
  have hrefers : sc.refers label continues =
      (recordJump label continues l.pc l.loopStack).isSome := by
    rw [recordJump_isSome, ← h.scope, Scope.refers, Gen.scope, kinds, List.any_map]
    rfl
  rw [lowerJump, finishes_bind, finishes_get, hrefers]
  cases hrecord : recordJump label continues l.pc l.loopStack with
  | none => exact ⟨[], congrArg Scope.frames h.scope, rfl⟩
  | some frames =>
      refine ⟨h.pc ▸ Lowered.jump hrecord, ⟨(h.emit (.jmp none)).pc, ?_⟩, rfl⟩
      rw [← h.scope]
      exact congrArg (Scope.mk · l.pendingLabel _) (recordJump_kinds hrecord)

theorem label_generates {name : String} (hbody : GeneratesStmt body) :
    GeneratesStmt (.label name body) := by
  intro l pc sc h
  have hlabel : At pc { sc with label := some name } (l.setLabel (some name)) := by
    refine ⟨h.pc, ?_⟩
    rw [← h.scope]
    rfl
  simp only [lowerStmt, finishes_bind, finishes_setLabel, finishes_restoring, Stmt.fault]
  refine (hbody hlabel).mono (fun _ l' h' => ?_) (fun _ l' h' => h')
  obtain ⟨hlow, hat, hfault⟩ := h'
  have hscope := hat.scope
  refine ⟨(hlow.setLabel none).ofLabel, ⟨hat.pc, ?_⟩, hfault⟩
  simp only [Gen.scope, Scope.mk.injEq] at hscope ⊢
  exact ⟨hscope.1, rfl, hscope.2.2⟩

end Constructs

/-! ### Arms -/

/-- Arms from `pc` on were emitted, after the jumps `us`; they leave by `js`. -/
structure ArmsDone (us : List Use) (o : Outline) (pc : Nat) (l₀ l : Lowering) (js : List Nat) :
    Prop where
  lowered : Lowered (us ++ o.uses) l₀ l
  ends : ∀ j ∈ js, Free (us ++ o.uses) l₀ l j
  le : pc ≤ l.pc
  later : ∀ u ∈ o.uses, pc ≤ u.at_

abbrev GeneratesArms (m : Lower (List Nat)) (o : Outline) (fault : Option Nat) (us : List Use)
    (l₀ l : Lowering) (sc : Scope) : Prop :=
  Finishes m
    (fun js l' => ArmsDone us o l.pc l₀ l' js ∧ At o.pc sc l' ∧ fault = none)
    (fun _ l' => Fails fault sc l') l

section Arms

variable {l₀ l l₁ l₂ : Lowering} {pc : Nat} {sc : Scope} {us : List Use} {continuable : Bool}
variable {body : List Stmt}

theorem ArmsDone.nil (hlow : Lowered us l₀ l) : ArmsDone us ⟨[], pc⟩ l.pc l₀ l [] := by
  refine ⟨?_, fun _ h => (nomatch h), Nat.le_refl _, fun _ h => (nomatch h)⟩
  rw [List.append_nil]
  exact hlow

/-- An arm's body from `l` to `l₁`, its jump to the end, and the arms after it. -/
theorem ArmsDone.cons {b o : Outline} {js : List Nat} (hlow : Lowered us l₀ l)
    (hpc : pc ≤ l.pc) (hbody : Lowered b.uses l l₁)
    (hrest : ArmsDone (us ++ b.uses) o (l₁.pc + 1) l₀ l₂ js) :
    ArmsDone us ⟨b.uses ++ o.uses, o.pc⟩ pc l₀ l₂ (l₁.pc :: js) := by
  obtain ⟨hrest, hends, hle, hlater⟩ := hrest
  rw [List.append_assoc] at hrest hends
  have := hlow.le
  have := hbody.le
  refine ⟨hrest, List.forall_mem_cons.mpr ⟨⟨by omega, hle, fun u hu => ?_⟩, hends⟩, by omega,
    fun u hu => ?_⟩
  · rcases List.mem_append.mp hu with hu | hu
    · have := hlow.within u hu
      omega
    · rcases List.mem_append.mp hu with hu | hu
      · have := hbody.within u hu
        omega
      · have := hlater u hu
        omega
  · rcases List.mem_append.mp hu with hu | hu
    · have := hbody.within u hu
      omega
    · have := hlater u hu
      omega

/-- The jump just before the arms. -/
theorem ArmsDone.before {o : Outline} {js : List Nat} {i : Instr} (hlow : Lowered [] l₀ l)
    (hdone : ArmsDone [] o (l.emit i).pc l₀ l₁ js) : Free o.uses l₀ l₁ l.pc := by
  have hpc : (l.emit i).pc = l.pc + 1 := pc_emit _ _
  have hle := hdone.le
  refine ⟨hlow.le, by omega, fun u hu => ?_⟩
  have := hdone.later u hu
  omega

theorem caseArms_cons {patterns : List Pattern} {arms : List CaseArm} (hbody : GeneratesStmts body)
    (harms : ∀ {us : List Use} {l : Lowering} {pc : Nat}, Lowered us l₀ l →
      At pc (sc.enter continuable) l → GeneratesArms (lowerCaseArms arms) (caseOutline arms pc)
        (caseFault arms (sc.enter continuable)) us l₀ l (sc.enter continuable))
    (hlow : Lowered us l₀ l) (h : At pc (sc.enter continuable) l) :
    GeneratesArms (lowerCaseArms (.mk patterns body :: arms))
      (caseOutline (.mk patterns body :: arms) pc)
      (caseFault (.mk patterns body :: arms) (sc.enter continuable)) us l₀ l
      (sc.enter continuable) := by
  simp only [lowerCaseArms, finishes_bind, finishes_here, finishes_emit, finishes_patch,
    finishes_patchAll, finishes_pure, caseFault]
  refine (lowerPatterns_finishes patterns h).mono (fun js l₁ h₁ => ?_)
    (fun _ l₁ h₁ => h₁.left _)
  obtain ⟨hpats, hat₁, hjs, hfault₁⟩ := h₁
  have hhead := hlow.andThen hpats
  have hskip := (Free.last hhead (.jmp none)).patchAll js (l₁.emit (.jmp none)).pc
  have hstart := (hhead.emit (.jmp none)).patchAll
    (fun j hj => (Free.later hlow (hjs j hj)).emit _) (l₁.emit (.jmp none)).pc
  have hat := (hat₁.emit (.jmp none)).patchAll js (l₁.emit (.jmp none)).pc
  refine (hbody.inside hat).mono (fun _ l₂ h₂ => ?_)
    (fun _ l₂ h₂ => (h₂.left _).right hfault₁)
  obtain ⟨hlow₂, hat₂, hfault₂⟩ := h₂
  have hnext := ((hstart.trans hlow₂).emit (.jmp none)).patch ((hskip.trans hlow₂).emit _)
    (l₂.emit (.jmp none)).pc
  refine (harms hnext ((hat₂.emit (.jmp none)).patch _ _)).mono (fun js' l₃ h₃ => ?_)
    (fun _ l₃ h₃ => (h₃.right hfault₂).right hfault₁)
  obtain ⟨hrest, hat₃, hfault₃⟩ := h₃
  rw [Lowering.toGen_patch, pc_patch, Lowering.toGen_emit, pc_emit] at hrest
  have hle := (hpats.emit (.jmp none)).le
  rw [hfault₁, hfault₂]
  exact ⟨ArmsDone.cons hstart (by simpa using hle) hlow₂ hrest, hat₃, hfault₃⟩

/-- The patch of the `*` arm, where the arm is that one. -/
theorem finishes_patchIf {c : Prop} [Decidable c] {idx p : Nat} {Q : Unit → Lowering → Prop}
    {E : String → Lowering → Prop} :
    Finishes (patchIf c idx p) Q E l ↔ Q () (if c then l.patch idx p else l) := by
  unfold patchIf
  split <;> rfl

theorem finishes_emitIf {c : Prop} [Decidable c] {i : Instr} {Q : Unit → Lowering → Prop}
    {E : String → Lowering → Prop} :
    Finishes (emitIf c i) Q E l ↔ Q () (if c then l.emit i else l) := by
  unfold emitIf
  split <;> rfl

theorem At.emitIf {c : Prop} [Decidable c] (h : At pc sc l) (i : Instr) :
    At (pc + if c then 1 else 0) sc (if c then l.emit i else l) := by
  split
  · exact h.emit i
  · exact h

theorem Lowered.emitIf {c : Prop} [Decidable c] (h : Lowered us l₀ l) (i : Instr) :
    Lowered us l₀ (if c then l.emit i else l) := by
  split
  · exact h.emit i
  · exact h

theorem At.patchIf {c : Prop} [Decidable c] (h : At pc sc l) (idx p : Nat) :
    At pc sc (if c then l.patch idx p else l) := by
  split
  · exact h.patch idx p
  · exact h

theorem Lowered.patchIf {c : Prop} [Decidable c] {idx : Nat} (h : Lowered us l₀ l)
    (hidx : c → Free us l₀ l idx) (p : Nat) :
    Lowered us l₀ (if c then l.patch idx p else l) := by
  split
  · next hc => exact h.patch (hidx hc) p
  · exact h

theorem Free.patchIf {c : Prop} [Decidable c] {k : Nat} (h : Free us l₀ l k) (idx p : Nat) :
    Free us l₀ (if c then l.patch idx p else l) k := by
  split
  · exact h.patch idx p
  · exact h

theorem altArms_cons {entries : List AltEntry} {pads wildcardPad n : Nat} {wild : Option Nat}
    {guards : List AltGuard} {arms : List AltArm} (hbody : GeneratesStmts body)
    (harms : ∀ {us : List Use} {l : Lowering} {pc : Nat}, Lowered us l₀ l →
      At pc (sc.enter continuable) l → (∀ e ∈ entries, Free us l₀ l (pads + e.index)) →
      (wild ≠ none → Free us l₀ l wildcardPad) →
      GeneratesArms (lowerAltArms entries pads wildcardPad wild arms (n + 1))
        (altOutline entries wild arms (n + 1) pc)
        (altFault entries arms (n + 1) (sc.enter continuable)) us l₀ l (sc.enter continuable))
    (hlow : Lowered us l₀ l) (h : At pc (sc.enter continuable) l)
    (hpads : ∀ e ∈ entries, Free us l₀ l (pads + e.index))
    (hwild : wild ≠ none → Free us l₀ l wildcardPad) :
    GeneratesArms (lowerAltArms entries pads wildcardPad wild (.mk guards body :: arms) n)
      (altOutline entries wild (.mk guards body :: arms) n pc)
      (altFault entries (.mk guards body :: arms) n (sc.enter continuable)) us l₀ l
      (sc.enter continuable) := by
  simp only [lowerAltArms, finishes_bind, finishes_here, finishes_emit, finishes_patchIf,
    finishes_patchAll, finishes_pure, altFault]
  refine (lowerPads_finishes _ hlow h fun e he => hpads e (List.mem_filter.mp he).1).mono
    (fun js l₁ h₁ => ?_) (fun _ l₁ h₁ => h₁.left _)
  obtain ⟨hlow₁, hat₁, hjs, hfault₁⟩ := h₁
  have hle : l.pc ≤ l₁.pc := by
    rw [h.pc, hat₁.pc]
    exact Nat.le_add_right _ _
  have hstar (hc : wild = some n) : Free us l₀ l₁ wildcardPad :=
    (hwild (by simp [hc])).mono hle
  have hpatched := hlow₁.patchIf hstar l₁.pc
  have hstart := hpatched.patchAll (fun j hj => (hjs j hj).patchIf _ _)
    (if wild = some n then l₁.patch wildcardPad l₁.pc else l₁).pc
  have hat := (hat₁.patchIf (c := wild = some n) wildcardPad l₁.pc).patchAll js
    (if wild = some n then l₁.patch wildcardPad l₁.pc else l₁).pc
  refine (hbody.inside hat).mono (fun _ l₂ h₂ => ?_)
    (fun _ l₂ h₂ => (h₂.left _).right hfault₁)
  obtain ⟨hlow₂, hat₂, hfault₂⟩ := h₂
  have hkeep {k : Nat} (hk : Free us l₀ l k) : Free (us ++ _) l₀ (l₂.emit (.jmp none)) k :=
    ((((hk.mono hle).patchIf (c := wild = some n) wildcardPad l₁.pc).patchAll js
      (if wild = some n then l₁.patch wildcardPad l₁.pc else l₁).pc).trans hlow₂).emit _
  refine (harms ((hstart.trans hlow₂).emit (.jmp none)) (hat₂.emit _)
    (fun e he => hkeep (hpads e he)) (fun hw => hkeep (hwild hw))).mono (fun js' l₃ h₃ => ?_)
    (fun _ l₃ h₃ => (h₃.right hfault₂).right hfault₁)
  obtain ⟨hrest, hat₃, hfault₃⟩ := h₃
  rw [Lowering.toGen_emit, pc_emit] at hrest
  rw [hfault₁, hfault₂]
  refine ⟨ArmsDone.cons hstart ?_ hlow₂ hrest, hat₃, hfault₃⟩
  rw [h.pc, hat.pc]
  exact Nat.le_add_right _ _

theorem pickArms_cons {pads : List (Nat × Nat)} {default n : Nat} {wild : Option Nat}
    {tags : List String} {arms : List PickArm} (hbody : GeneratesStmts body)
    (harms : ∀ {us : List Use} {l : Lowering} {pc : Nat}, Lowered us l₀ l →
      At pc (sc.enter continuable) l → (∀ p ∈ pads, Free us l₀ l p.2) → Free us l₀ l default →
      GeneratesArms (lowerPickArms pads default wild arms (n + 1)) (pickOutline arms pc)
        (pickFault arms (sc.enter continuable)) us l₀ l (sc.enter continuable))
    (hlow : Lowered us l₀ l) (h : At pc (sc.enter continuable) l)
    (hpads : ∀ p ∈ pads, Free us l₀ l p.2) (hdefault : Free us l₀ l default) :
    GeneratesArms (lowerPickArms pads default wild (.mk tags body :: arms) n)
      (pickOutline (.mk tags body :: arms) pc)
      (pickFault (.mk tags body :: arms) (sc.enter continuable)) us l₀ l
      (sc.enter continuable) := by
  simp only [lowerPickArms, finishes_bind, finishes_here, finishes_emit, finishes_patchIf,
    finishes_patchAll, finishes_pure, pickFault]
  have hmine : ∀ k ∈ (pads.filter (·.1 = n)).map (·.2), Free us l₀ l k := fun k hk => by
    obtain ⟨p, hp, rfl⟩ := List.mem_map.mp hk
    exact hpads p (List.mem_filter.mp hp).1
  have hstart := (hlow.patchAll hmine l.pc).patchIf (c := wild = some n)
    (fun _ => hdefault.patchAll _ _) l.pc
  have hat := (h.patchAll ((pads.filter (·.1 = n)).map (·.2)) l.pc).patchIf (c := wild = some n)
    default l.pc
  refine (hbody.inside hat).mono (fun _ l₂ h₂ => ?_) (fun _ l₂ h₂ => h₂.left _)
  obtain ⟨hlow₂, hat₂, hfault₂⟩ := h₂
  have hkeep {k : Nat} (hk : Free us l₀ l k) : Free (us ++ _) l₀ (l₂.emit (.jmp none)) k :=
    (((hk.patchAll ((pads.filter (·.1 = n)).map (·.2)) l.pc).patchIf (c := wild = some n) default
      l.pc).trans hlow₂).emit _
  refine (harms ((hstart.trans hlow₂).emit (.jmp none)) (hat₂.emit _)
    (fun p hp => hkeep (hpads p hp)) (hkeep hdefault)).mono (fun js' l₃ h₃ => ?_)
    (fun _ l₃ h₃ => h₃.right hfault₂)
  obtain ⟨hrest, hat₃, hfault₃⟩ := h₃
  rw [Lowering.toGen_emit, pc_emit] at hrest
  rw [hfault₂]
  exact ⟨ArmsDone.cons hstart (Nat.le_of_eq (h.pc.trans hat.pc.symm)) hlow₂ hrest, hat₃, hfault₃⟩

end Arms

/-! ### Statements with arms -/

abbrev GeneratesCase (arms : List CaseArm) : Prop :=
  ∀ {l₀ l : Lowering} {pc : Nat} {sc : Scope} {us : List Use} {continuable : Bool},
    Lowered us l₀ l → At pc (sc.enter continuable) l →
    GeneratesArms (lowerCaseArms arms) (caseOutline arms pc)
      (caseFault arms (sc.enter continuable)) us l₀ l (sc.enter continuable)

abbrev GeneratesAlt (arms : List AltArm) : Prop :=
  ∀ {entries : List AltEntry} {pads wildcardPad n : Nat} {wild : Option Nat} {l₀ l : Lowering}
    {pc : Nat} {sc : Scope} {us : List Use} {continuable : Bool},
    Lowered us l₀ l → At pc (sc.enter continuable) l →
    (∀ e ∈ entries, Free us l₀ l (pads + e.index)) → (wild ≠ none → Free us l₀ l wildcardPad) →
    GeneratesArms (lowerAltArms entries pads wildcardPad wild arms n)
      (altOutline entries wild arms n pc) (altFault entries arms n (sc.enter continuable)) us l₀ l
      (sc.enter continuable)

abbrev GeneratesPick (arms : List PickArm) : Prop :=
  ∀ {pads : List (Nat × Nat)} {default n : Nat} {wild : Option Nat} {l₀ l : Lowering} {pc : Nat}
    {sc : Scope} {us : List Use} {continuable : Bool},
    Lowered us l₀ l → At pc (sc.enter continuable) l →
    (∀ p ∈ pads, Free us l₀ l p.2) → Free us l₀ l default →
    GeneratesArms (lowerPickArms pads default wild arms n) (pickOutline arms pc)
      (pickFault arms (sc.enter continuable)) us l₀ l (sc.enter continuable)

theorem altEntries_index {nsend arm : Nat} {e : AltEntry} (guards : List AltGuard) (ns nr : Nat)
    (he : e ∈ (altEntries nsend arm guards ns nr).1) :
    e.index < ns + guards.countP (·.isSend) ∨
      e.index < nsend + nr + guards.countP (·.isRecv) := by
  induction guards generalizing ns nr with
  | nil => cases he
  | cons guard guards ih =>
      cases guard with
      | send setup =>
          simp only [List.countP_cons, AltGuard.isSend_send, AltGuard.isRecv_send, if_true,
            Bool.false_eq_true, if_false, Nat.add_zero]
          rcases List.mem_cons.mp he with rfl | he
          · exact .inl (by simp only; omega)
          · have := ih _ _ he
            omega
      | recv setup prologue =>
          simp only [List.countP_cons, AltGuard.isSend_recv, AltGuard.isRecv_recv, if_true,
            Bool.false_eq_true, if_false, Nat.add_zero]
          rcases List.mem_cons.mp he with rfl | he
          · exact .inr (by simp only; omega)
          · have := ih _ _ he
            omega
      | wildcard =>
          simp only [List.countP_cons, AltGuard.isSend_wildcard, AltGuard.isRecv_wildcard,
            Bool.false_eq_true, if_false, Nat.add_zero]
          exact ih _ _ he

/-- The index of an entry is in the table. -/
theorem altTable_index {nsend : Nat} {e : AltEntry} (arms : List AltArm) (n ns nr : Nat)
    (he : e ∈ altTable nsend arms n ns nr) :
    e.index < ns + (arms.flatMap (·.guards)).countP (·.isSend) ∨
      e.index < nsend + nr + (arms.flatMap (·.guards)).countP (·.isRecv) := by
  induction arms generalizing n ns nr with
  | nil => cases he
  | cons arm arms ih =>
      simp only [List.flatMap_cons, List.countP_append]
      simp only [altTable, altEntries_next] at he
      rcases List.mem_append.mp he with he | he
      · have := altEntries_index arm.guards ns nr he
        omega
      · have := ih _ _ _ he
        omega

theorem case_generates {e : Shape} {arms : List CaseArm} (harms : GeneratesCase arms) :
    GeneratesStmt (.case e arms) := by
  intro l pc sc h
  simp only [lowerStmt, finishes_bind, finishes_here, finishes_patchAll, finishes_pushLoop,
    finishes_popLoop, Stmt.fault]
  refine (lowerExpr_finishes e (h.pushLoop false)).mono (fun _ l₁ h₁ => ?_)
    (fun _ l₁ h₁ => (h₁.left _).enter)
  obtain ⟨hlow₁, hat₁, hfault₁⟩ := h₁
  refine (harms hlow₁ hat₁).mono (fun js l₂ h₂ => ?_) (fun _ l₂ h₂ => (h₂.right hfault₁).enter)
  obtain ⟨hdone, hat₂, hfault₂⟩ := h₂
  rw [hfault₁, hfault₂, hat₂.pc]
  obtain ⟨hlow, hat⟩ := h.leave (hdone.lowered.patchAll hdone.ends _) (hat₂.patchAll js _)
    (caseOutline arms (pc + e.size)).pc (caseOutline arms (pc + e.size)).pc
  exact ⟨hlow, hat, rfl⟩

theorem alt_generates {arms : List AltArm} (harms : GeneratesAlt arms) :
    GeneratesStmt (.alt arms) := by
  intro l pc sc h
  simp only [lowerStmt, finishes_bind, finishes_pushLoop, finishes_orElseChange, Stmt.fault,
    lowerAlt]
  have henter := h.pushLoop false
  by_cases htwo : (wildcardArms arms).length > 1
  · rw [if_pos htwo, if_pos htwo]
    exact Fails.drop (c := false) ⟨[], congrArg Scope.frames henter.scope, rfl⟩
  · simp only [if_neg htwo, finishes_bind, finishes_here, finishes_emit, finishes_emitIf,
      finishes_patchAll, finishes_popLoop]
    refine (lowerSetups_finishes _ henter).mono (fun _ l₁ h₁ => ?_)
      (fun _ l₁ h₁ => (h₁.left _).drop)
    obtain ⟨hlow₁, hat₁, hfault₁⟩ := h₁
    have hhead := ((hlow₁.emit .step).emit .step).emit .step
    have hatHead := ((hat₁.emit .step).emit .step).emit .step
    refine (lowerEmitAll_finishes _ _ hhead hatHead).mono (fun _ l₂ h₂ => ?_) (fun _ _ => False.elim)
    obtain ⟨hlow₂, hat₂, hfree⟩ := h₂
    have hlow₃ := hlow₂.emitIf (c := wildcardArms arms ≠ []) (.branch none)
    have hat₃ := hat₂.emitIf (c := wildcardArms arms ≠ []) (.branch none)
    have hpc : l₂.pc ≤ ((if wildcardArms arms ≠ [] then l₂.emit (.branch none)
        else l₂).emit (.jmp none)).pc := by
      rw [hat₂.pc, (hat₃.emit (.jmp none)).pc]
      omega
    have hpads : ∀ e ∈ altTable ((arms.flatMap (·.guards)).countP (·.isSend)) arms 0 0 0,
        Free [] (l.pushLoop false) ((if wildcardArms arms ≠ [] then l₂.emit (.branch none)
          else l₂).emit (.jmp none))
          ((((l₁.emit .step).emit .step).emit .step).pc + e.index) := fun e he => by
      have hindex := altTable_index arms 0 0 0 he
      rw [hatHead.pc]
      exact (hfree _ (by omega) (by omega)).mono hpc
    have hstar : (wildcardArms arms).head? ≠ none → Free [] (l.pushLoop false)
        ((if wildcardArms arms ≠ [] then l₂.emit (.branch none) else l₂).emit (.jmp none))
        ((((l₁.emit .step).emit .step).emit .step).pc +
          ((arms.flatMap (·.guards)).countP (·.isSend) +
            (arms.flatMap (·.guards)).countP (·.isRecv))) := fun hne => by
      have hwild : wildcardArms arms ≠ [] := by simpa using hne
      rw [if_pos hwild, hatHead.pc, ← hat₂.pc]
      exact (Free.last hlow₂ (.branch none)).emit _
    refine (harms (hlow₃.emit (.jmp none)) (hat₃.emit (.jmp none)) hpads hstar).mono
      (fun js l₃ h₃ => ?_) (fun _ l₃ h₃ => (h₃.right hfault₁).drop)
    obtain ⟨hdone, hat₄, hfault₄⟩ := h₃
    rw [hfault₁, hfault₄, hat₄.pc]
    obtain ⟨hlow, hat⟩ := h.leave (hdone.lowered.patchAll
      (List.forall_mem_cons.mpr ⟨ArmsDone.before hlow₃ hdone, hdone.ends⟩) _) (hat₄.patchAll _ _) _ _
    exact ⟨hlow, hat, rfl⟩

theorem pick_generates {e : Shape} {arms : List PickArm} (harms : GeneratesPick arms) :
    GeneratesStmt (.pick e arms) := by
  intro l pc sc h
  simp only [lowerStmt, finishes_bind, finishes_pushLoop, finishes_orElseChange, Stmt.fault,
    lowerPick, finishes_here, finishes_emit, finishes_patchIf, finishes_patchAll, finishes_popLoop]
  refine (lowerExpr_finishes e (h.pushLoop false)).mono (fun _ l₁ h₁ => ?_)
    (fun _ l₁ h₁ => (h₁.left _).drop)
  obtain ⟨hlow₁, hat₁, hfault₁⟩ := h₁
  refine (lowerTags_finishes (pickTags arms 0) none (hlow₁.emit .step) (hat₁.emit .step)).mono
    (fun r l₂ h₂ => ?_) (fun _ l₂ h₂ => ?_)
  · obtain ⟨hlow₂, hat₂, hpads, hone⟩ := h₂
    have htwo : ¬ ((pickTags arms 0).filter (·.1 = "*")).length > 1 := by
      simpa using hone
    rw [if_neg htwo]
    obtain ⟨pads, wild⟩ := r
    refine (harms (hlow₂.emit (.jmp none)) (hat₂.emit (.jmp none))
      (fun p hp => (hpads p hp).emit _) (Free.last hlow₂ _)).mono (fun js l₃ h₃ => ?_)
      (fun _ l₃ h₃ => (h₃.right hfault₁).drop)
    obtain ⟨hdone, hat₃, hfault₃⟩ := h₃
    rw [hfault₁, hfault₃, hat₃.pc]
    have hpatched (endPc : Nat) := hdone.lowered.patchIf (c := wild = none)
      (fun _ => ArmsDone.before hlow₂ hdone) endPc
    obtain ⟨hlow, hat⟩ := h.leave ((hpatched _).patchAll (fun j hj => (hdone.ends j hj).patchIf _ _) _)
      ((hat₃.patchIf _ _).patchAll _ _) _ _
    exact ⟨hlow, hat, rfl⟩
  · obtain ⟨hkinds, htwo⟩ := h₂
    have htwo : ((pickTags arms 0).filter (·.1 = "*")).length > 1 := by
      simpa using htwo
    rw [if_pos htwo]
    exact Fails.drop (Fails.right ⟨[], hkinds, rfl⟩ hfault₁)

/-! ### Whole statements -/

theorem stmts_generate_nil : GeneratesStmts [] := by
  intro l pc sc h
  exact ⟨Lowered.refl l, h, rfl⟩

theorem stmts_generate_cons {stmt : Stmt} {stmts : List Stmt} (hstmt : GeneratesStmt stmt)
    (hstmts : GeneratesStmts stmts) : GeneratesStmts (stmt :: stmts) := by
  intro l pc sc h
  simp only [lowerStmts, finishes_bind, stmtsFault]
  refine (hstmt h).mono (fun _ l₁ h₁ => ?_) (fun _ l₁ h₁ => h₁.left _)
  obtain ⟨hlow₁, hat₁, hfault₁⟩ := h₁
  refine (hstmts hat₁).mono (fun _ l₂ h₂ => ?_) (fun _ l₂ h₂ => h₂.right hfault₁)
  obtain ⟨hlow₂, hat₂, hfault₂⟩ := h₂
  rw [hfault₁]
  refine ⟨hlow₁.trans hlow₂, ⟨hat₂.pc, hat₂.scope.trans ?_⟩, hfault₂⟩
  cases hone : stmt.takesLabel <;> cases htwo : stmtsTakeLabel stmts <;>
    simp [stmtsTakeLabel, hone, htwo]

mutual

theorem stmt_generates : ∀ stmt : Stmt, GeneratesStmt stmt
  | .expr e => fun h => by
      rw [lowerStmt]
      exact lowerExpr_finishes e h
  | .ret e => fun h => by
      simp only [lowerStmt, finishes_bind, finishes_emit, Stmt.fault]
      exact (lowerExpr_finishes e h).mono (fun _ _ h₁ => ⟨h₁.1.emit _, h₁.2.1.emit _, h₁.2.2⟩)
        (fun _ _ h₁ => h₁)
  | .raise e => fun h => by
      simp only [lowerStmt, finishes_bind, finishes_emit, Stmt.fault]
      exact (lowerExpr_finishes e h).mono (fun _ _ h₁ => ⟨h₁.1.emit _, h₁.2.1.emit _, h₁.2.2⟩)
        (fun _ _ h₁ => h₁)
  | .exit => fun h => by
      rw [lowerStmt]
      exact ⟨(Lowered.refl _).emit _, h.emit _, rfl⟩
  | .empty => fun h => by
      rw [lowerStmt]
      exact ⟨Lowered.refl _, h, rfl⟩
  | .block stmts => fun h => by
      rw [lowerStmt_block, Stmt.fault_block]
      exact stmts_generate stmts h
  | .ifThen _ then_ => ifThen_generates (stmt_generates then_)
  | .ifElse _ then_ else_ => ifElse_generates (stmt_generates then_) (stmt_generates else_)
  | .while _ body => while_generates (stmt_generates body)
  | .for init (some _) body post =>
      for_generates (stmt_generates init) (stmt_generates body) (stmt_generates post)
  | .for init none body post =>
      forever_generates (stmt_generates init) (stmt_generates body) (stmt_generates post)
  | .doWhile body _ => doWhile_generates (stmt_generates body)
  | .case _ arms => case_generates (caseArms_generate arms)
  | .alt arms => alt_generates (altArms_generate arms)
  | .pick _ arms => pick_generates (pickArms_generate arms)
  | .break label => fun h => by
      rw [lowerStmt]
      exact lowerJump_finishes label false _ h
  | .continue label => fun h => by
      rw [lowerStmt]
      exact lowerJump_finishes label true _ h
  | .label _ stmt => label_generates (stmt_generates stmt)

theorem stmts_generate : ∀ stmts : List Stmt, GeneratesStmts stmts
  | [] => stmts_generate_nil
  | stmt :: stmts => stmts_generate_cons (stmt_generates stmt) (stmts_generate stmts)

theorem caseArms_generate : ∀ arms : List CaseArm, GeneratesCase arms
  | [] => fun hlow h => by
      rw [lowerCaseArms]
      exact ⟨ArmsDone.nil hlow, h, rfl⟩
  | .mk _ body :: arms => fun hlow h =>
      caseArms_cons (stmts_generate body) (fun hlow h => caseArms_generate arms hlow h) hlow h

theorem altArms_generate : ∀ arms : List AltArm, GeneratesAlt arms
  | [] => fun hlow h _ _ => by
      rw [lowerAltArms]
      exact ⟨ArmsDone.nil hlow, h, rfl⟩
  | .mk _ body :: arms => fun hlow h hpads hwild =>
      altArms_cons (stmts_generate body) (fun hlow h => altArms_generate arms hlow h) hlow h hpads
        hwild

theorem pickArms_generate : ∀ arms : List PickArm, GeneratesPick arms
  | [] => fun hlow h _ _ => by
      rw [lowerPickArms]
      exact ⟨ArmsDone.nil hlow, h, rfl⟩
  | .mk _ body :: arms => fun hlow h hpads hdefault =>
      pickArms_cons (stmts_generate body) (fun hlow h => pickArms_generate arms hlow h) hlow h
        hpads hdefault

end

/-- Each `break` and `continue` of the statement reaches its construct: one of the statement is
patched once, to the construct's end or to where it goes on, and one outside it holds the jump. The
constructs open after the statement are those before it, whether or not it could be generated. -/
def Faithful (stmt : Stmt) (l : Lowering) : Prop :=
  match lowerStmt stmt l with
  | .ok _ l' =>
    Lowered (stmt.outline l.pc l.pendingLabel).uses l l' ∧
      (l.loopStack = [] → ∀ u ∈ (stmt.outline l.pc l.pendingLabel).uses, u.isOutside = false) ∧
      kinds l'.loopStack = kinds l.loopStack
  | .error _ l' => kinds l'.loopStack = kinds l.loopStack
  | .panic | .diverge => False

theorem Lowered.isOutside_of_nil {us : List Use} {l l' : Lowering} (h : Lowered us l l')
    (hnil : l.loopStack = []) : ∀ u ∈ us, u.isOutside = false := by
  have hrecords := h.records
  rw [hnil] at hrecords
  clear h hnil
  induction us with
  | nil => exact fun _ h => (nomatch h)
  | cons u us ih =>
      obtain ⟨at_, dest⟩ := u
      cases dest with
      | outside label continues => cases hrecords
      | pc target => exact List.forall_mem_cons.mpr ⟨rfl, ih hrecords⟩

/-- The generator is faithful to a statement unless what cannot be generated is in a loop or a
`case` of it. -/
theorem faithful_iff (stmt : Stmt) (l : Lowering) :
    Faithful stmt l ↔ ∀ n, stmt.fault l.scope = some n → n = 0 := by
  have hrun := stmt_generates stmt (l := l) ⟨rfl, rfl⟩
  unfold Finishes at hrun
  unfold Faithful
  cases hm : lowerStmt stmt l with
  | ok a l' =>
      rw [hm] at hrun
      obtain ⟨hlow, -, hfault⟩ := hrun
      constructor
      · intro _ n hn
        rw [hfault] at hn
        cases hn
      · exact fun _ => ⟨hlow, hlow.isOutside_of_nil, recordAll_kinds hlow.records⟩
  | error e l' =>
      rw [hm] at hrun
      obtain ⟨left, hkinds, hfault⟩ := hrun
      have hnil : kinds l'.loopStack = kinds l.loopStack ↔ left = [] := by
        rw [hkinds]
        exact List.append_left_eq_self
      simp only [hnil, hfault, Option.some.injEq, forall_eq', List.length_eq_zero_iff]
  | panic | diverge =>
      rw [hm] at hrun
      exact hrun.elim

/-- A `while` whose body breaks out of a construct that is not there leaves its own frame. -/
theorem while_left_open :
    ¬ Faithful (.while .step (.break (some "outer"))) {} := fun h => by
  have hkinds : [((none : Option String), true)] = [] := h
  cases hkinds

end RiceVM.Limbo.Flow
