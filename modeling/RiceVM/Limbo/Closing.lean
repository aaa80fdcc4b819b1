import RiceVM.Limbo.Patching

/-!
How the code of a function ends. The closing `Ret` is left out when the last instruction of all the
code already leaves the function, whatever was patched to go on after it.
-/
namespace RiceVM.Limbo.Flow

open Backpatch

/-- How the code of a statement ends. -/
inductive Finish where
  /-- It has no code. -/
  | silent
  | goesOn
  /-- Its last instruction leaves the function, and nothing goes on after it. -/
  | leaves
  /-- Its last instruction leaves the function, but some jump goes on after it. -/
  | overruns
  deriving DecidableEq, Repr

namespace Finish

/-- Of one statement after another. -/
def andThen (a : Finish) : Finish → Finish
  | .silent => a
  | b => b

/-- Of the last branch of an `if`, past which the code of the `if` always jumps. -/
def underIf : Finish → Finish
  | .silent | .goesOn => .goesOn
  | .leaves | .overruns => .overruns

@[simp] theorem andThen_silent (a : Finish) : a.andThen .silent = a := rfl

end Finish

def Shape.silent : Shape → Bool
  | .nil => true
  | .seq a b => a.silent && b.silent
  | _ => false

def Shape.finish (e : Shape) : Finish := if e.silent then .silent else .goesOn

mutual

def Stmt.finish : Stmt → Finish
  | .expr e | .case e [] => e.finish
  | .ret _ | .exit => .leaves
  | .block stmts => finishAll stmts
  | .ifThen _ stmt | .ifElse _ _ stmt => stmt.finish.underIf
  | .label _ stmt => stmt.finish
  | .empty => .silent
  | _ => .goesOn

def finishAll : List Stmt → Finish
  | [] => .silent
  | stmt :: stmts => stmt.finish.andThen (finishAll stmts)

end

/-- No jump from `lo` on goes to the end of the code. -/
def Tight (code : List Instr) (lo : Nat) : Prop :=
  ∀ (j : Nat) (i : Instr), lo ≤ j → code[j]? = some i → i.jump ≠ .target code.length

/-- What was emitted from `g` to `g'` ends so. -/
def Ends (g g' : Gen) : Finish → Prop
  | .silent => g'.code = g.code
  | .goesOn => g.pc < g'.pc ∧ endsInExit g'.code = false
  | .leaves => g.pc < g'.pc ∧ endsInExit g'.code = true ∧ Tight g'.code g.pc
  | .overruns => g.pc < g'.pc ∧ endsInExit g'.code = true ∧ ¬ Tight g'.code g.pc

@[simp] theorem endsInExit_append (code : List Instr) (i : Instr) :
    endsInExit (code ++ [i]) = i.isExit := by simp [endsInExit]

@[simp] theorem Instr.isExit_setTarget (pc : Nat) (i : Instr) :
    (i.setTarget pc).isExit = i.isExit := by cases i <;> rfl

@[simp] theorem endsInExit_patch (code : List Instr) (idx pc : Nat) :
    endsInExit (patch code idx pc) = endsInExit code := by
  have hlast : (patch code idx pc).getLast?.map Instr.isExit = code.getLast?.map Instr.isExit := by
    rw [List.getLast?_eq_getElem?, List.getLast?_eq_getElem?, length_patch, getElem?_patch]
    split
    · rw [Option.map_map]
      exact congrFun (congrArg Option.map (funext (Instr.isExit_setTarget pc))) _
    · rfl
  rw [endsInExit, hlast, endsInExit]

@[simp] theorem endsInExit_patchAll (code : List Instr) (idxs : List Nat) (pc : Nat) :
    endsInExit (patchAll code idxs pc) = endsInExit code := by
  induction idxs generalizing code with
  | nil => rfl
  | cons idx idxs ih => exact (ih _).trans (endsInExit_patch code idx pc)

@[simp] theorem endsInExit_popLoop (g : Gen) (exitPc continuePc : Nat) :
    endsInExit (g.popLoop exitPc continuePc).code = endsInExit g.code := by
  rw [Gen.popLoop]
  split
  · rfl
  · exact (endsInExit_patchAll _ _ _).trans (endsInExit_patchAll _ _ _)

namespace Ends

variable {g g₁ g₂ : Gen} {a b : Finish}

theorem emit (hle : g.pc ≤ g₁.pc) {i : Instr} (hi : i.isExit = false) :
    Ends g (g₁.emit i) .goesOn :=
  ⟨by rw [pc_emit]; omega, (endsInExit_append _ _).trans hi⟩

theorem congr {g' g₁' : Gen} (h : Ends g g₁ a) (hcode : g'.code = g.code)
    (hcode₁ : g₁'.code = g₁.code) : Ends g' g₁' a := by
  have hpc : g'.pc = g.pc := congrArg List.length hcode
  have hpc₁ : g₁'.pc = g₁.pc := congrArg List.length hcode₁
  cases a with
  | silent => exact hcode₁.trans (Eq.trans h hcode.symm)
  | goesOn => exact ⟨hpc ▸ hpc₁ ▸ h.1, hcode₁ ▸ h.2⟩
  | leaves | overruns => exact ⟨hpc ▸ hpc₁ ▸ h.1, hcode₁ ▸ h.2.1, hpc ▸ hcode₁ ▸ h.2.2⟩

theorem patch (h : Ends g g₁ .goesOn) (idx pc : Nat) : Ends g (g₁.patch idx pc) .goesOn :=
  ⟨by rw [pc_patch]; exact h.1, (endsInExit_patch _ _ _).trans h.2⟩

theorem patchAll (h : Ends g g₁ .goesOn) (idxs : List Nat) (pc : Nat) :
    Ends g (g₁.patchAll idxs pc) .goesOn :=
  ⟨by rw [pc_patchAll]; exact h.1, (endsInExit_patchAll _ _ _).trans h.2⟩

theorem popLoop (h : Ends g g₁ .goesOn) (exitPc continuePc : Nat) :
    Ends g (g₁.popLoop exitPc continuePc) .goesOn :=
  ⟨by rw [pc_popLoop]; exact h.1, (endsInExit_popLoop _ _ _).trans h.2⟩

/-- The jumps of the first part stay in it, so those that go past the end are the second's. -/
theorem andThen (hw : Whole g g₁) (h : Ends g g₁ a) (hw' : Whole g₁ g₂) (h' : Ends g₁ g₂ b) :
    Ends g g₂ (a.andThen b) := by
  have hle := hw.le
  cases b with
  | silent =>
      have hpc : g₂.pc = g₁.pc := congrArg List.length h'
      have hcode : g₂.code = g₁.code := h'
      cases a with
      | silent => exact hcode.trans h
      | goesOn => exact ⟨hpc ▸ h.1, hcode ▸ h.2⟩
      | leaves | overruns => exact ⟨hpc ▸ h.1, hcode ▸ h.2.1, hcode ▸ h.2.2⟩
  | goesOn => exact ⟨Nat.lt_of_le_of_lt hle h'.1, h'.2⟩
  | leaves =>
      refine ⟨Nat.lt_of_le_of_lt hle h'.1, h'.2.1, fun j i hj hi htarget => ?_⟩
      rcases Nat.lt_or_ge j g₁.pc with hlt | hge
      · have hfirst : g₁.code[j]? = some i := by
          rw [← hi, List.prefix_iff_getElem?.mp hw'.region.1 j hlt, List.getElem?_eq_getElem hlt]
        have hsettled := hw.region.2 j i hj hfirst
        change Settled _ _ _ i.jump at hsettled
        rw [htarget] at hsettled
        exact absurd h'.1 (Nat.not_lt.mpr hsettled.2)
      · exact h'.2.2 j i hge hi htarget
  | overruns =>
      exact ⟨Nat.lt_of_le_of_lt hle h'.1, h'.2.1, fun htight => h'.2.2 fun j i hj =>
        htight j i (Nat.le_trans hle hj)⟩

end Ends

theorem Shape.finish_seq (a b : Shape) :
    (Shape.seq a b).finish = a.finish.andThen b.finish := by
  cases ha : a.silent <;> cases hb : b.silent <;>
    simp [Shape.finish, Shape.silent, Finish.andThen, ha, hb]

theorem genShape_ends {e : Shape} {g g' : Gen} (h : genShape e g = .ok g') :
    Ends g g' e.finish := by
  induction e generalizing g g' with
  | nil =>
      cases h
      rfl
  | step =>
      cases h
      exact Ends.emit (Nat.le_refl _) rfl
  | call name =>
      change genCall name g = .ok g' at h
      rw [genCall] at h
      split at h
      · cases h
      · cases h
        exact Ends.emit (Nat.le_refl _) rfl
      · cases h
        exact Ends.emit (Nat.le_refl _) rfl
  | seq a b iha ihb =>
      obtain ⟨g₁, h₁, h₂⟩ := bind_eq_ok.mp h
      have hends := (iha h₁).andThen (genShape_whole h₁) (genShape_whole h₂) (ihb h₂)
      rwa [Shape.finish_seq]
  | test =>
      cases h
      exact (Ends.emit (by simp; omega) rfl).patch _ _
  | not e ih =>
      obtain ⟨g₁, h₁, hok⟩ := bind_eq_ok.mp h
      cases hok
      have hle := (genShape_whole h₁).le
      exact (Ends.emit (by simp; omega) rfl).patch _ _
  | logical l r ihl ihr =>
      obtain ⟨g₁, h₁, hrest⟩ := bind_eq_ok.mp h
      obtain ⟨g₂, h₂, hok⟩ := bind_eq_ok.mp hrest
      cases hok
      have hle := (genShape_whole h₁).le
      have hle' := (genShape_whole h₂).le
      rw [pc_emit] at hle'
      exact (Ends.emit (by simp; omega) rfl).patch _ _
  | fill value ih =>
      obtain ⟨g₁, h₁, hok⟩ := bind_eq_ok.mp h
      cases hok
      have hle := (genShape_whole h₁).le
      exact (Ends.emit (by simp; omega) rfl).patch _ _

/-! ### Statements -/

section Constructs

variable {g g₁ g₂ g₃ : Gen} {a : Finish}

/-- A jump that was patched to the end of the code goes past it. -/
theorem not_tight_patch {code : List Instr} {lo idx : Nat} {i : Instr} (hlo : lo ≤ idx)
    (hi : code[idx]? = some i) (hjump : i.jump = .hole) :
    ¬ Tight (patch code idx code.length) lo := by
  intro htight
  refine htight idx (i.setTarget code.length) hlo ?_ ?_
  · rw [getElem?_patch, if_pos rfl, hi]
    rfl
  · rw [length_patch]
    cases i <;> first | rfl | cases hjump

/-- The last branch of an `if`, after which the jump past it is patched. -/
theorem Ends.underIf {i : Instr} {idx : Nat} (hi : g₁.code[idx]? = some i)
    (hjump : i.jump = .hole) (hexit : endsInExit g₁.code = false) (hlo : g.pc ≤ idx)
    (hw : Whole g₁ g₂) (h : Ends g₁ g₂ a) : Ends g (g₂.patch idx g₂.pc) a.underIf := by
  have hlt : idx < g₁.pc := (List.getElem?_eq_some_iff.mp hi).1
  have hle := hw.le
  have hi' : g₂.code[idx]? = some i := by
    rw [List.prefix_iff_getElem?.mp hw.region.1 idx hlt, ← List.getElem?_eq_getElem hlt, hi]
  have hpc : g.pc < (g₂.patch idx g₂.pc).pc := by rw [pc_patch]; omega
  have hends : endsInExit (g₂.patch idx g₂.pc).code = endsInExit g₂.code :=
    endsInExit_patch _ _ _
  cases a with
  | silent =>
      have hcode : g₂.code = g₁.code := h
      exact ⟨hpc, by rw [hends, hcode, hexit]⟩
  | goesOn => exact ⟨hpc, hends.trans h.2⟩
  | leaves | overruns => exact ⟨hpc, hends.trans h.2.1, not_tight_patch hlo hi' hjump⟩

theorem genPatterns_le {patterns : List Pattern} {jumps : List Nat}
    (h : genPatterns patterns g = .ok (g₁, jumps)) : g.pc ≤ g₁.pc :=
  (genPatterns_emits h).1.le

theorem genPads_le {pads : Nat} {wild : Bool} {entries : List AltEntry} {jumps : List Nat}
    (h : genPads pads wild entries g = .ok (g₁, jumps)) : g.pc ≤ g₁.pc := by
  induction entries generalizing g jumps with
  | nil =>
      cases h
      exact Nat.le_refl _
  | cons e entries ih =>
      rw [genPads] at h
      obtain ⟨g₂, hs, hrest⟩ := bind_eq_ok.mp h
      have hle := (genShape_whole hs).le
      rw [pc_patch] at hle
      split at hrest
      · obtain ⟨⟨g₃, js⟩, hp, hok⟩ := bind_eq_ok.mp hrest
        cases hok
        have := ih hp
        rw [pc_emit] at this
        omega
      · exact Nat.le_trans hle (ih hrest)

theorem genCaseArms_ends {arms : List CaseArm} {ends : List Nat}
    (h : genCaseArms arms g₁ = .ok (g₂, ends)) (hle : g.pc ≤ g₁.pc) (hne : arms ≠ []) :
    Ends g g₂ .goesOn := by
  induction arms generalizing g₁ ends with
  | nil => exact absurd rfl hne
  | cons arm arms ih =>
      obtain ⟨patterns, body⟩ := arm
      rw [genCaseArms] at h
      obtain ⟨⟨g₃, jumps⟩, hp, hrest⟩ := bind_eq_ok.mp h
      obtain ⟨g₄, hb, hrest'⟩ := bind_eq_ok.mp hrest
      obtain ⟨⟨g₅, js⟩, ha, hok⟩ := bind_eq_ok.mp hrest'
      cases hok
      have hle₁ := genPatterns_le hp
      have hle₂ := (genStmts_whole body hb).le
      rw [pc_patchAll, pc_emit] at hle₂
      cases arms with
      | nil =>
          cases ha
          exact (Ends.emit (by omega) rfl).patch _ _
      | cons arm arms => exact ih ha (by rw [pc_patch, pc_emit]; omega) (List.cons_ne_nil _ _)

theorem genAltArms_ends {entries : List AltEntry} {pads wildcardPad n : Nat} {wild : Option Nat}
    {arms : List AltArm} {ends : List Nat}
    (h : genAltArms entries pads wildcardPad wild arms n g₁ = .ok (g₂, ends))
    (hends : Ends g g₁ .goesOn) : Ends g g₂ .goesOn := by
  induction arms generalizing g₁ n ends with
  | nil =>
      cases h
      exact hends
  | cons arm arms ih =>
      obtain ⟨guards, body⟩ := arm
      rw [genAltArms] at h
      obtain ⟨⟨g₃, toBody⟩, hp, hrest⟩ := bind_eq_ok.mp h
      obtain ⟨g₄, hb, hrest'⟩ := bind_eq_ok.mp hrest
      obtain ⟨⟨g₅, js⟩, ha, hok⟩ := bind_eq_ok.mp hrest'
      cases hok
      have hlt := hends.1
      have hle := genPads_le hp
      have hle' := (genStmts_whole body hb).le
      rw [pc_patchAll, apply_ite Gen.pc, pc_patch, ite_self] at hle'
      exact ih ha (Ends.emit (by omega) rfl)

theorem genPickArms_ends {pads : List (Nat × Nat)} {default n : Nat} {wild : Option Nat}
    {arms : List PickArm} {ends : List Nat}
    (h : genPickArms pads default wild arms n g₁ = .ok (g₂, ends))
    (hends : Ends g g₁ .goesOn) : Ends g g₂ .goesOn := by
  induction arms generalizing g₁ n ends with
  | nil =>
      cases h
      exact hends
  | cons arm arms ih =>
      obtain ⟨tags, body⟩ := arm
      rw [genPickArms] at h
      obtain ⟨g₃, hb, hrest⟩ := bind_eq_ok.mp h
      obtain ⟨⟨g₄, js⟩, ha, hok⟩ := bind_eq_ok.mp hrest
      cases hok
      have hlt := hends.1
      have hle := (genStmts_whole body hb).le
      rw [apply_ite Gen.pc, pc_patch, ite_self, pc_patchAll] at hle
      exact ih ha (Ends.emit (by omega) rfl)

end Constructs

theorem emit_getElem? (g : Gen) (i : Instr) : (g.emit i).code[g.pc]? = some i := by
  simp [Gen.emit, Gen.pc]

/-- An instruction that leaves the function. -/
theorem Ends.exit {g : Gen} {i : Instr} (hi : i.isExit = true) (hjump : i.jump = .none) :
    Ends g (g.emit i) .leaves := by
  refine ⟨by simp, (endsInExit_append _ _).trans hi, fun j k hj hk htarget => ?_⟩
  have hlt := (List.getElem?_eq_some_iff.mp hk).1
  rw [← Gen.pc, pc_emit] at hlt
  obtain rfl : j = g.pc := by omega
  rw [emit_getElem?] at hk
  cases hk
  rw [hjump] at htarget
  cases htarget

theorem genShape_silent {e : Shape} {g g' : Gen} (hs : e.silent = true)
    (h : genShape e g = .ok g') : g' = g := by
  induction e generalizing g g' with
  | nil =>
      cases h
      rfl
  | seq a b iha ihb =>
      obtain ⟨ha, hb⟩ := Bool.and_eq_true_iff.mp hs
      obtain ⟨g₁, h₁, h₂⟩ := bind_eq_ok.mp h
      rw [ihb hb h₂, iha ha h₁]
  | step | call | test | not | logical | fill => cases hs

theorem emitAll_le (n : Nat) (i : Instr) (g : Gen) : g.pc ≤ (emitAll i n g).pc := by
  induction n generalizing g with
  | zero => exact Nat.le_refl _
  | succ n ih =>
      have := ih (g.emit i)
      rw [pc_emit] at this
      exact Nat.le_of_succ_le this

theorem while_ends {cond : Shape} {body : Stmt} {g g' : Gen}
    (h : genStmt (.while cond body) g = .ok g') : Ends g g' (Stmt.while cond body).finish := by
  rw [genStmt] at h
  obtain ⟨g₁, hc, hrest⟩ := bind_eq_ok.mp h
  obtain ⟨g₂, hb, hok⟩ := bind_eq_ok.mp hrest
  cases hok
  have hle := (genShape_whole hc).le
  have hle' := (genStmt_whole _ hb).le
  rw [pc_emit] at hle'
  exact ((Ends.emit (Nat.le_trans hle (by omega)) rfl).patch _ _).popLoop _ _

theorem for_ends {init body post : Stmt} {cond : Shape} {g g' : Gen}
    (h : genStmt (.for init (some cond) body post) g = .ok g') : Ends g g' (Stmt.for init (some cond) body post).finish := by
  rw [genStmt] at h
  obtain ⟨g₁, hi, hrest⟩ := bind_eq_ok.mp h
  obtain ⟨g₂, hc, hrest'⟩ := bind_eq_ok.mp hrest
  obtain ⟨g₃, hb, hrest''⟩ := bind_eq_ok.mp hrest'
  obtain ⟨g₄, hp, hok⟩ := bind_eq_ok.mp hrest''
  cases hok
  have hle₁ := (genStmt_whole _ hi).le
  have hle₂ := (genShape_whole hc).le
  have hle₃ := (genStmt_whole _ hb).le
  have hle₄ := (genStmt_whole _ hp).le
  rw [pc_emit] at hle₃
  exact ((Ends.emit (Nat.le_trans hle₁ (by omega)) rfl).patch _ _).popLoop _ _

theorem forever_ends {init body post : Stmt} {g g' : Gen}
    (h : genStmt (.for init none body post) g = .ok g') : Ends g g' (Stmt.for init none body post).finish := by
  rw [genStmt] at h
  obtain ⟨g₁, hi, hrest⟩ := bind_eq_ok.mp h
  obtain ⟨g₂, hb, hrest'⟩ := bind_eq_ok.mp hrest
  obtain ⟨g₃, hp, hok⟩ := bind_eq_ok.mp hrest'
  cases hok
  have hle₁ := (genStmt_whole _ hi).le
  have hle₂ := (genStmt_whole _ hb).le
  have hle₃ := (genStmt_whole _ hp).le
  exact (Ends.emit (Nat.le_trans hle₁ (by omega)) rfl).popLoop _ _

theorem doWhile_ends {body : Stmt} {cond : Shape} {g g' : Gen}
    (h : genStmt (.doWhile body cond) g = .ok g') : Ends g g' (Stmt.doWhile body cond).finish := by
  rw [genStmt] at h
  obtain ⟨g₁, hb, hrest⟩ := bind_eq_ok.mp h
  obtain ⟨g₂, hc, hok⟩ := bind_eq_ok.mp hrest
  cases hok
  have hle := (genStmt_whole _ hb).le
  have hle' := (genShape_whole hc).le
  exact (Ends.emit (Nat.le_trans hle hle') rfl).popLoop _ _

theorem case_nil_ends {e : Shape} {g g' : Gen}
    (h : genStmt (.case e []) g = .ok g') : Ends g g' (Stmt.case e []).finish := by
  rw [genStmt] at h
  obtain ⟨g₁, he, hrest⟩ := bind_eq_ok.mp h
  cases hrest
  have hends := genShape_ends he
  rw [Stmt.finish]
  rw [Shape.finish] at hends ⊢
  split
  · next hsilent =>
      cases genShape_silent hsilent he
      rfl
  · next hsilent =>
      rw [if_neg hsilent] at hends
      exact ((hends.patchAll [] _).popLoop _ _).congr rfl rfl

theorem case_cons_ends {e : Shape} {arm : CaseArm} {arms : List CaseArm} {g g' : Gen}
    (h : genStmt (.case e (arm :: arms)) g = .ok g') : Ends g g' (Stmt.case e (arm :: arms)).finish := by
  rw [genStmt] at h
  obtain ⟨g₁, he, hrest⟩ := bind_eq_ok.mp h
  obtain ⟨⟨g₂, ends⟩, ha, hok⟩ := bind_eq_ok.mp hrest
  cases hok
  exact ((genCaseArms_ends ha (genShape_whole he).le (List.cons_ne_nil _ _)).patchAll
    _ _).popLoop _ _

theorem alt_ends {arms : List AltArm} {g g' : Gen}
    (h : genStmt (.alt arms) g = .ok g') : Ends g g' (Stmt.alt arms).finish := by
  rw [genStmt] at h
  simp only at h
  split at h
  · cases h
  · obtain ⟨g₁, hs, hrest⟩ := bind_eq_ok.mp h
    obtain ⟨⟨g₂, ends⟩, ha, hok⟩ := bind_eq_ok.mp hrest
    cases hok
    have hle := (genSetups_whole hs).le
    rw [pc_pushLoop] at hle
    have hpads := emitAll_le ((arms.flatMap (·.guards)).countP (·.isSend) +
      (arms.flatMap (·.guards)).countP (·.isRecv)) (.branch none)
      (((g₁.emit .step).emit .step).emit .step)
    simp only [pc_emit] at hpads
    refine ((genAltArms_ends ha (Ends.emit ?_ rfl)).patchAll _ _).popLoop _ _
    split
    · omega
    · rw [pc_emit]
      omega

theorem pick_ends {e : Shape} {arms : List PickArm} {g g' : Gen}
    (h : genStmt (.pick e arms) g = .ok g') : Ends g g' (Stmt.pick e arms).finish := by
  rw [genStmt] at h
  obtain ⟨g₁, he, hrest⟩ := bind_eq_ok.mp h
  simp only at hrest
  split at hrest
  · cases hrest
  · obtain ⟨⟨g₂, ends⟩, ha, hok⟩ := bind_eq_ok.mp hrest
    cases hok
    have hle := (genShape_whole he).le
    rw [pc_pushLoop] at hle
    have hpads := emitAll_le (((pickTags arms 0).filter (·.1 ≠ "*")).map (·.2)).length
      (.branch none) (g₁.emit .step)
    rw [pc_emit] at hpads
    have hends := genPickArms_ends ha (g := g) (Ends.emit (by omega) rfl)
    refine (Ends.patchAll ?_ _ _).popLoop _ _
    split
    · exact hends.patch _ _
    · exact hends

mutual

theorem genStmt_ends : ∀ (stmt : Stmt) {g g' : Gen}, genStmt stmt g = .ok g' →
    Ends g g' stmt.finish
  | .expr e, g, g', h => by
      rw [genStmt] at h
      exact genShape_ends h
  | .ret e, g, g', h => by
      rw [genStmt] at h
      obtain ⟨g₁, h₁, hok⟩ := bind_eq_ok.mp h
      cases hok
      exact (genShape_ends h₁).andThen (genShape_whole h₁)
        ((Emits.refl _ _).emit (i := .ret) trivial rfl) (Ends.exit rfl rfl)
  | .exit, g, g', h => by
      rw [genStmt] at h
      cases h
      exact Ends.exit rfl rfl
  | .raise e, g, g', h => by
      rw [genStmt] at h
      obtain ⟨g₁, h₁, hok⟩ := bind_eq_ok.mp h
      cases hok
      exact Ends.emit (genShape_whole h₁).le rfl
  | .block stmts, g, g', h => by
      rw [genStmt] at h
      exact genStmts_ends stmts h
  | .ifThen cond then_, g, g', h => by
      rw [genStmt] at h
      obtain ⟨g₁, hc, hrest⟩ := bind_eq_ok.mp h
      obtain ⟨g₂, ht, hok⟩ := bind_eq_ok.mp hrest
      cases hok
      exact (genStmt_ends then_ ht).underIf (i := .branch none) (emit_getElem? _ _) rfl
        (endsInExit_append _ _) (genShape_whole hc).le (genStmt_whole then_ ht)
  | .ifElse cond then_ else_, g, g', h => by
      rw [genStmt] at h
      obtain ⟨g₁, hc, hrest⟩ := bind_eq_ok.mp h
      obtain ⟨g₂, ht, hrest'⟩ := bind_eq_ok.mp hrest
      obtain ⟨g₃, he, hok⟩ := bind_eq_ok.mp hrest'
      cases hok
      have hle := (genShape_whole hc).le
      have hle' := (genStmt_whole then_ ht).le
      rw [pc_emit] at hle'
      refine (genStmt_ends else_ he).underIf (i := .jmp none) ?_ rfl
        ((endsInExit_patch _ _ _).trans (endsInExit_append _ _)) (by omega)
        (genStmt_whole else_ he)
      rw [Gen.patch, getElem?_patch, if_neg (by omega), emit_getElem?]
  | .while cond body, g, g', h => while_ends h
  | .for init (some cond) body post, g, g', h => for_ends h
  | .for init none body post, g, g', h => forever_ends h
  | .doWhile body cond, g, g', h => doWhile_ends h
  | .case e [], g, g', h => case_nil_ends h
  | .case e (arm :: arms), g, g', h => case_cons_ends h
  | .alt arms, g, g', h => alt_ends h
  | .pick e arms, g, g', h => pick_ends h
  | .break label, g, g', h => by
      rw [genStmt] at h
      unfold genBreak at h
      split at h
      · cases h
        exact Ends.emit (Nat.le_refl _) rfl
      · cases h
  | .continue label, g, g', h => by
      rw [genStmt] at h
      unfold genContinue at h
      split at h
      · cases h
        exact Ends.emit (Nat.le_refl _) rfl
      · cases h
  | .label name stmt, g, g', h => by
      rw [genStmt] at h
      obtain ⟨g₁, hs, hok⟩ := bind_eq_ok.mp h
      cases hok
      exact (genStmt_ends stmt hs).congr rfl rfl
  | .empty, g, g', h => by
      rw [genStmt] at h
      cases h
      rfl

theorem genStmts_ends :
    ∀ (stmts : List Stmt) {g g' : Gen}, genStmts stmts g = .ok g' → Ends g g' (finishAll stmts)
  | [], g, g', h => by
      rw [genStmts] at h
      cases h
      rfl
  | stmt :: stmts, g, g', h => by
      rw [genStmts] at h
      obtain ⟨g₁, hs, hrest⟩ := bind_eq_ok.mp h
      exact (genStmt_ends stmt hs).andThen (genStmt_whole stmt hs) (genStmts_whole stmts hrest)
        (genStmts_ends stmts hrest)

end

end RiceVM.Limbo.Flow
