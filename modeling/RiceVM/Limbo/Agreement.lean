import RiceVM.Limbo.Breaks

/-!
The generator that keeps what it leaves behind agrees with the one that does not: both fail alike,
and where they do not they leave the same code.
-/
namespace RiceVM.Limbo.Flow

open Exec Lower

/-- A run that ends as a result says. -/
def Agrees {α β : Type} (m : Lower α) (l : Lowering) (r : Except String β) (value : α → Gen → β) :
    Prop :=
  Finishes m (fun a l' => r = .ok (value a l'.toGen)) (fun e _ => r = .error e) l

abbrev AgreesUnit (m : Lower Unit) (l : Lowering) (r : Except String Gen) : Prop :=
  Agrees m l r fun _ g => g

abbrev AgreesJumps (m : Lower (List Nat)) (l : Lowering) (r : Except String (Gen × List Nat)) :
    Prop :=
  Agrees m l r fun js g => (g, js)

namespace Agrees

variable {α β γ δ : Type} {m : Lower α} {f : α → Lower γ} {l l' : Lowering} {a : α}

/-- A step that cannot fail, whose result is that of what follows it. -/
theorem step {r : Except String δ} {value : γ → Gen → δ} (hm : m l = .ok a l')
    (h : Agrees (f a) l' r value) : Agrees (m >>= f) l r value := by
  rw [Agrees, finishes_bind, Finishes, hm]
  exact h

theorem bind {r : Except String β} {k : β → Except String δ} {value : α → Gen → β}
    {value' : γ → Gen → δ} (hm : Agrees m l r value)
    (hf : ∀ a l', Agrees (f a) l' (k (value a l'.toGen)) value') :
    Agrees (m >>= f) l (r >>= k) value' := by
  rw [Agrees, finishes_bind]
  refine hm.mono (fun a l' h => ?_) (fun e _ h => ?_)
  · rw [h]
    exact hf a l'
  · rw [h]
    rfl

end Agrees

theorem lowerCall_agrees (name : String) (l : Lowering) :
    AgreesUnit (lowerCall name) l (genCall name l.toGen) := by
  refine .step rfl ?_
  cases genCall name l.toGen <;> rfl

theorem lowerShape_agrees (e : Shape) (l : Lowering) :
    AgreesUnit (lowerShape e) l (genShape e l.toGen) := by
  induction e generalizing l with
  | nil | step | test => rfl
  | call name => exact lowerCall_agrees name l
  | seq a b iha ihb => exact (iha l).bind fun _ l₁ => ihb l₁
  | not e ih => exact (ih l).bind fun _ _ => rfl
  | logical a b iha ihb =>
      exact (iha l).bind fun _ l₁ => .step rfl (.step rfl ((ihb _).bind fun _ _ => rfl))
  | fill value ih => exact (ih l).bind fun _ _ => rfl

theorem lowerPatterns_agrees (patterns : List Pattern) (l : Lowering) :
    AgreesJumps (lowerPatterns patterns) l (genPatterns patterns l.toGen) := by
  induction patterns generalizing l with
  | nil => rfl
  | cons pattern patterns ih =>
      cases pattern with
      | expr e =>
          exact (lowerShape_agrees e l).bind fun _ l₁ =>
            .step rfl (.step rfl ((ih _).bind fun _ _ => rfl))
      | range lo hi =>
          exact (lowerShape_agrees lo l).bind fun _ l₁ => (lowerShape_agrees hi l₁).bind fun _ l₂ =>
            .step rfl (.step rfl (.step rfl (.step rfl (.step rfl (.step rfl
              ((ih _).bind fun _ _ => rfl))))))
      | wildcard => exact .step rfl (.step rfl ((ih _).bind fun _ _ => rfl))

theorem lowerSetups_agrees (entries : List AltEntry) (l : Lowering) :
    AgreesUnit (lowerSetups entries) l (genSetups entries l.toGen) := by
  induction entries generalizing l with
  | nil => rfl
  | cons e entries ih =>
      exact (lowerShape_agrees e.setup l).bind fun _ l₁ => .step rfl (ih _)

theorem lowerEmitAll_eq (i : Instr) (n : Nat) (l : Lowering) :
    ∃ l', lowerEmitAll i n l = .ok () l' ∧ l'.toGen = emitAll i n l.toGen := by
  induction n generalizing l with
  | zero => exact ⟨l, rfl, rfl⟩
  | succ n ih => exact ih (l.emit i)

theorem lowerPads_agrees (pads : Nat) (wild : Bool) (entries : List AltEntry) (l : Lowering) :
    AgreesJumps (lowerPads pads wild entries) l (genPads pads wild entries l.toGen) := by
  induction entries generalizing l with
  | nil => rfl
  | cons e entries ih =>
      rw [lowerPads, genPads]
      refine .step rfl (.step rfl ((lowerShape_agrees e.prologue _).bind fun _ l₁ => ?_))
      by_cases hc : entries ≠ [] ∨ wild
      · rw [if_pos hc, if_pos hc]
        exact .step rfl (.step rfl ((ih _).bind fun _ _ => rfl))
      · rw [if_neg hc, if_neg hc]
        exact ih l₁

theorem lowerTags_agrees (tags : List (String × Nat)) (wild : Option Nat) (l : Lowering) :
    Finishes (lowerTags tags wild)
      (fun r l' =>
        l'.toGen = emitAll (.branch none) ((tags.filter (·.1 ≠ "*")).map (·.2)).length l.toGen ∧
        r = (((tags.filter (·.1 ≠ "*")).map (·.2)).zipIdx l.pc,
          wild.or ((tags.filter (·.1 = "*")).head?.map (·.2))) ∧
        wild.toList.length + (tags.filter (·.1 = "*")).length ≤ 1)
      (fun e _ => e = "a `pick` may have only one `*` arm" ∧
        1 < wild.toList.length + (tags.filter (·.1 = "*")).length) l := by
  induction tags generalizing wild l with
  | nil => cases wild <;> exact ⟨rfl, rfl, by simp⟩
  | cons tag tags ih =>
      obtain ⟨name, arm⟩ := tag
      rw [lowerTags]
      by_cases hname : name = "*"
      · rw [if_pos hname]
        cases wild with
        | some w => exact ⟨rfl, by simp [hname]⟩
        | none =>
            simpa [hname, Nat.add_comm] using ih (some arm) l
      · simp only [if_neg hname, finishes_bind, finishes_here, finishes_emit, finishes_pure]
        refine (ih wild (l.emit (.branch none))).mono (fun r l' h => ?_) (fun e l' h => ?_)
        · obtain ⟨hgen, rfl, hone⟩ := h
          refine ⟨?_, ?_, by simpa [hname] using hone⟩
          · simpa [hname, emitAll] using hgen
          · simp [hname]
        · simpa [hname] using h

theorem lowerJump_agrees (label : Option String) (continues : Bool) (error : String)
    (l : Lowering) :
    AgreesUnit (lowerJump label continues error) l
      (match recordJump label continues l.pc l.loopStack with
      | some frames => .ok { (l.toGen.emit (.jmp none)) with loopStack := frames }
      | none => .error error) := by
  refine .step rfl ?_
  cases recordJump label continues l.pc l.loopStack <;> rfl

/-- A construct that is left as the result says. -/
theorem popLoop_agrees {l : Lowering} {r : Except String Gen} {exitPc continuePc : Nat}
    (h : r = .ok (l.toGen.popLoop exitPc continuePc)) :
    AgreesUnit (popLoop exitPc continuePc) l r := h

/-- The body of a construct that is dropped where it fails. -/
theorem orElseChange_agrees {m : Lower Unit} {l : Lowering} {r : Except String Gen}
    {f : Lowering → Lowering} (h : AgreesUnit m l r) : AgreesUnit (m.orElseChange f) l r := by
  rw [AgreesUnit, Agrees, finishes_orElseChange]
  exact h

theorem lowerAlt_agrees {arms : List AltArm}
    {lowerArms : List AltEntry → Nat → Nat → Option Nat → Lower (List Nat)}
    (harms : ∀ entries pads wildcardPad wild l, AgreesJumps (lowerArms entries pads wildcardPad wild)
      l (genAltArms entries pads wildcardPad wild arms 0 l.toGen)) (l : Lowering) :
    AgreesUnit (do pushLoop false; (lowerAlt arms lowerArms).orElseChange (·.dropLoop)) l
      (genStmt (.alt arms) l.toGen) := by
  refine .step rfl (orElseChange_agrees ?_)
  rw [genStmt, lowerAlt]
  by_cases htwo : (wildcardArms arms).length > 1
  · simp only [if_pos htwo]
    rfl
  · simp only [if_neg htwo]
    refine (lowerSetups_agrees _ _).bind fun _ l₁ =>
      .step rfl (.step rfl (.step rfl (.step rfl ?_)))
    obtain ⟨l₂, hl₂, hgen⟩ := lowerEmitAll_eq (.branch none)
      ((arms.flatMap (·.guards)).countP (·.isSend) + (arms.flatMap (·.guards)).countP (·.isRecv))
      (((l₁.emit .step).emit .step).emit .step)
    refine .step hl₂ ?_
    simp only [Lowering.toGen_emit] at hgen
    rw [← hgen]
    obtain ⟨l₃, hl₃, hgen₃⟩ : ∃ l₃, emitIf (wildcardArms arms ≠ []) (.branch none) l₂ = .ok () l₃ ∧
        l₃.toGen = if wildcardArms arms = [] then l₂.toGen else l₂.toGen.emit (.branch none) := by
      unfold emitIf
      by_cases hwild : wildcardArms arms = []
      · exact ⟨l₂, if_neg (not_not.mpr hwild) ▸ rfl, (if_pos hwild).symm⟩
      · exact ⟨l₂.emit (.branch none), if_pos hwild ▸ rfl, (if_neg hwild).symm⟩
    rw [← hgen₃]
    exact .step hl₃ (.step rfl (.step rfl ((harms _ _ _ _ _).bind fun _ _ =>
      .step rfl (.step rfl (popLoop_agrees (by simp))))))

theorem patchIf_eq {c : Prop} [Decidable c] (idx pc : Nat) (l : Lowering) :
    ∃ l', patchIf c idx pc l = .ok () l' ∧
      l'.toGen = if c then l.toGen.patch idx pc else l.toGen := by
  unfold patchIf
  by_cases hc : c
  · exact ⟨l.patch idx pc, if_pos hc ▸ rfl, (if_pos hc).symm⟩
  · exact ⟨l, if_neg hc ▸ rfl, (if_neg hc).symm⟩

theorem lowerPick_agrees {e : Shape} {arms : List PickArm}
    {lowerArms : List (Nat × Nat) → Nat → Option Nat → Lower (List Nat)}
    (harms : ∀ pads default wild l, AgreesJumps (lowerArms pads default wild) l
      (genPickArms pads default wild arms 0 l.toGen)) (l : Lowering) :
    AgreesUnit (do pushLoop false; (lowerPick e arms lowerArms).orElseChange (·.dropLoop)) l
      (genStmt (.pick e arms) l.toGen) := by
  refine .step rfl (orElseChange_agrees ?_)
  rw [genStmt, lowerPick]
  refine (lowerShape_agrees e _).bind fun _ l₁ => .step rfl ?_
  rw [Agrees, finishes_bind]
  refine (lowerTags_agrees (pickTags arms 0) none (l₁.emit .step)).mono (fun r l₂ h₂ => ?_)
    (fun e l₂ h₂ => ?_)
  · obtain ⟨hgen, rfl, hone⟩ := h₂
    have htwo : ¬ ((pickTags arms 0).filter (·.1 = "*")).length > 1 := by
      simpa using hone
    simp only [if_neg htwo, Option.none_or]
    rw [Lowering.toGen_emit] at hgen
    rw [← hgen]
    change AgreesUnit _ l₂ _
    refine .step rfl (.step rfl ((harms _ _ _ _).bind fun js l₃ => .step rfl ?_))
    obtain ⟨l₄, hl₄, hgen₄⟩ := patchIf_eq
      (c := (((pickTags arms 0).filter (·.1 = "*")).head?.map (·.2)) = none) l₂.pc l₃.pc l₃
    simp only [Option.map_eq_none_iff, List.head?_eq_none_iff] at hgen₄
    have hpc : l₄.pc = l₃.pc := by
      rw [hgen₄]
      split
      · exact pc_patch _ _ _
      · rfl
    simp only [← hgen₄]
    exact .step hl₄ (.step rfl (popLoop_agrees (by simp [hpc])))
  · obtain ⟨rfl, htwo⟩ := h₂
    have htwo : ((pickTags arms 0).filter (·.1 = "*")).length > 1 := by
      simpa using htwo
    simp only [if_pos htwo]

mutual

theorem lowerStmt_agrees : ∀ (stmt : Stmt) (l : Lowering),
    AgreesUnit (lowerStmt stmt) l (genStmt stmt l.toGen)
  | .expr e, l => by
      rw [lowerStmt, genStmt]
      exact lowerShape_agrees e l
  | .ret e, l | .raise e, l => by
      rw [lowerStmt, genStmt]
      exact (lowerShape_agrees e l).bind fun _ _ => rfl
  | .exit, _ | .empty, _ => by
      rw [lowerStmt, genStmt]
      rfl
  | .block stmts, l => by
      rw [lowerStmt, genStmt]
      exact lowerStmts_agrees stmts l
  | .ifThen cond then_, l => by
      rw [lowerStmt, genStmt]
      exact (lowerShape_agrees cond l).bind fun _ _ =>
        .step rfl (.step rfl ((lowerStmt_agrees then_ _).bind fun _ _ => rfl))
  | .ifElse cond then_ else_, l => by
      rw [lowerStmt, genStmt]
      exact (lowerShape_agrees cond l).bind fun _ _ =>
        .step rfl (.step rfl ((lowerStmt_agrees then_ _).bind fun _ _ =>
          .step rfl (.step rfl (.step rfl (.step rfl ((lowerStmt_agrees else_ _).bind fun _ _ =>
            rfl))))))
  | .while cond body, l => by
      rw [lowerStmt, genStmt]
      exact .step rfl (.step rfl ((lowerShape_agrees cond _).bind fun _ _ =>
        .step rfl (.step rfl ((lowerStmt_agrees body _).bind fun _ _ =>
          .step rfl (.step rfl (.step rfl (popLoop_agrees (by simp))))))))
  | .for init (some cond) body post, l => by
      rw [lowerStmt, genStmt]
      exact .step rfl ((lowerStmt_agrees init _).bind fun _ _ =>
        .step rfl ((lowerShape_agrees cond _).bind fun _ _ =>
          .step rfl (.step rfl ((lowerStmt_agrees body _).bind fun _ _ =>
            .step rfl ((lowerStmt_agrees post _).bind fun _ _ =>
              .step rfl (.step rfl (.step rfl (popLoop_agrees (by simp)))))))))
  | .for init none body post, l => by
      rw [lowerStmt, genStmt]
      exact .step rfl ((lowerStmt_agrees init _).bind fun _ _ =>
        .step rfl ((lowerStmt_agrees body _).bind fun _ _ =>
          .step rfl ((lowerStmt_agrees post _).bind fun _ _ => rfl)))
  | .doWhile body cond, l => by
      rw [lowerStmt, genStmt]
      exact .step rfl (.step rfl ((lowerStmt_agrees body _).bind fun _ _ =>
        .step rfl ((lowerShape_agrees cond _).bind fun _ _ => rfl)))
  | .case e arms, l => by
      rw [lowerStmt, genStmt]
      exact .step rfl ((lowerShape_agrees e _).bind fun _ _ =>
        (lowerCaseArms_agrees arms _).bind fun _ _ =>
          .step rfl (.step rfl (popLoop_agrees (by simp))))
  | .alt arms, l => by
      rw [lowerStmt]
      exact lowerAlt_agrees (fun entries pads wildcardPad wild l =>
        lowerAltArms_agrees entries pads wildcardPad wild arms 0 l) l
  | .pick e arms, l => by
      rw [lowerStmt]
      exact lowerPick_agrees (fun pads default wild l =>
        lowerPickArms_agrees pads default wild arms 0 l) l
  | .break label, l => by
      rw [lowerStmt, genStmt]
      exact lowerJump_agrees label false _ l
  | .continue label, l => by
      rw [lowerStmt, genStmt]
      exact lowerJump_agrees label true _ l
  | .label name stmt, l => by
      rw [lowerStmt, genStmt]
      refine .step rfl ?_
      rw [Agrees, finishes_restoring]
      exact (lowerStmt_agrees stmt _).mono (fun _ l₁ h₁ => by
        rw [show genStmt stmt { l.toGen with pendingLabel := some name } = _ from h₁]
        rfl) (fun e _ h₁ => by
        rw [show genStmt stmt { l.toGen with pendingLabel := some name } = _ from h₁]
        rfl)

theorem lowerStmts_agrees : ∀ (stmts : List Stmt) (l : Lowering),
    AgreesUnit (lowerStmts stmts) l (genStmts stmts l.toGen)
  | [], _ => by
      rw [lowerStmts, genStmts]
      rfl
  | stmt :: stmts, l => by
      rw [lowerStmts, genStmts]
      exact (lowerStmt_agrees stmt l).bind fun _ l₁ => lowerStmts_agrees stmts l₁

theorem lowerCaseArms_agrees : ∀ (arms : List CaseArm) (l : Lowering),
    AgreesJumps (lowerCaseArms arms) l (genCaseArms arms l.toGen)
  | [], _ => by
      rw [lowerCaseArms, genCaseArms]
      rfl
  | .mk patterns body :: arms, l => by
      rw [lowerCaseArms, genCaseArms]
      exact (lowerPatterns_agrees patterns l).bind fun _ _ =>
        .step rfl (.step rfl (.step rfl (.step rfl ((lowerStmts_agrees body _).bind fun _ _ =>
          .step rfl (.step rfl (.step rfl (.step rfl ((lowerCaseArms_agrees arms _).bind fun _ _ =>
            rfl)))))))) 

theorem lowerAltArms_agrees (entries : List AltEntry) (pads wildcardPad : Nat)
    (wild : Option Nat) : ∀ (arms : List AltArm) (n : Nat) (l : Lowering),
    AgreesJumps (lowerAltArms entries pads wildcardPad wild arms n) l
      (genAltArms entries pads wildcardPad wild arms n l.toGen)
  | [], _, _ => by
      rw [lowerAltArms, genAltArms]
      rfl
  | .mk _ body :: arms, n, l => by
      rw [lowerAltArms, genAltArms]
      refine (lowerPads_agrees _ _ _ l).bind fun js l₁ => .step rfl ?_
      obtain ⟨l₂, hl₂, hgen₂⟩ := patchIf_eq (c := wild = some n) wildcardPad l₁.pc l₁
      simp only [← hgen₂]
      exact .step hl₂ (.step rfl (.step rfl ((lowerStmts_agrees body _).bind fun _ _ =>
        .step rfl (.step rfl ((lowerAltArms_agrees entries pads wildcardPad wild arms _ _).bind
          fun _ _ => rfl)))))

theorem lowerPickArms_agrees (pads : List (Nat × Nat)) (default : Nat) (wild : Option Nat) :
    ∀ (arms : List PickArm) (n : Nat) (l : Lowering),
    AgreesJumps (lowerPickArms pads default wild arms n) l
      (genPickArms pads default wild arms n l.toGen)
  | [], _, _ => by
      rw [lowerPickArms, genPickArms]
      rfl
  | .mk _ body :: arms, n, l => by
      rw [lowerPickArms, genPickArms]
      refine .step rfl (.step rfl ?_)
      obtain ⟨l₂, hl₂, hgen₂⟩ := patchIf_eq (c := wild = some n) default l.pc
        (l.patchAll ((pads.filter (·.1 = n)).map (·.2)) l.pc)
      simp only [Lowering.toGen_patchAll] at hgen₂
      simp only [pc_patchAll, ← hgen₂]
      exact .step hl₂ ((lowerStmts_agrees body _).bind fun _ _ =>
        .step rfl (.step rfl ((lowerPickArms_agrees pads default wild arms _ _).bind
          fun _ _ => rfl)))

end

/-- What a statement's code does with its jumps, for the generator that does not keep a record. -/
theorem genStmt_lowered {stmt : Stmt} {g g' : Gen} (h : genStmt stmt g = .ok g') :
    ∃ patched, Lowered (stmt.outline g.pc g.pendingLabel).uses { toGen := g }
      { toGen := g', patched } := by
  have hrun := stmt_generates stmt (l := { toGen := g }) ⟨rfl, rfl⟩
  have hagree := lowerStmt_agrees stmt { toGen := g }
  unfold Finishes at hrun
  unfold AgreesUnit Agrees Finishes at hagree
  cases hm : lowerStmt stmt { toGen := g } with
  | ok a l' =>
      rw [hm] at hrun hagree
      obtain rfl : g' = l'.toGen := Except.ok.inj (h.symm.trans hagree)
      exact ⟨l'.patched, hrun.1⟩
  | error e l' =>
      rw [hm] at hagree
      cases h.symm.trans hagree
  | panic | diverge =>
      rw [hm] at hrun
      exact hrun.elim

end RiceVM.Limbo.Flow
