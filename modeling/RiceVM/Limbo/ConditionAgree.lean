import RiceVM.Limbo.ConditionCode

/-!
Where the code of a boolean expression agrees, as a value and as a condition, with what the
expression means.
-/
namespace RiceVM.Limbo.Condition

variable {ω : Type} (strings : Strings ω)

/-! ### What an expression means -/

namespace Ref

variable (x : Ref ω) (w : ω)

def word : BitVec 32 := Words.low (x.value w)

def text : String := strings.text (x.effect w) (x.word w)

/-- Is it equal to `nil`: an empty string, or another reference that is nil? -/
def isNil : Bool := if x.isString then x.text strings w == "" else x.word w == 0

/-- Not nil, but without a text. -/
def Blank : Prop := x.word w ≠ 0 ∧ x.text strings w = ""

/-- Is the test of the text, or of the word, the one the reference needs? -/
def Fits (byText : Bool) : Prop := x.isString ≠ byText → ¬ x.Blank strings w

end Ref

/-- Only the comparisons with `nil` have a meaning of their own here. -/
def holds : Expr ω → ω → Result ω Bool
  | .compare op l r, w => compared strings (.term l) op (.term r) w
  | .nilRight x neq, w | .nilLeft neq x, w =>
    ⟨x.isNil strings w ≠ neq, x.effect w, [x.span]⟩
  | .not e, w =>
    let r := holds e w
    { r with value := !r.value }
  | .and l r, w =>
    let a := holds l w
    a.andThen a.value false (holds r)
  | .or l r, w =>
    let a := holds l w
    a.andThen (!a.value) true (holds r)

/-- The tests for `nil` that are made fit. -/
def Sound (cond : Bool) : Expr ω → ω → Prop
  | .compare .., _ => True
  | .nilRight x _, w => x.Fits strings w (!cond && x.valTy = .ptr)
  | .nilLeft neq x, w => x.Fits strings w (!(cond && neq))
  | .not e, w => Sound false e w
  | .and l r, w =>
    Sound true l w ∧ ((holds strings l w).value → Sound true r (holds strings l w).world)
  | .or l r, w =>
    Sound true l w ∧ (¬ (holds strings l w).value → Sound true r (holds strings l w).world)

/-- No word that is tested is left for a value, unless it is 0 or 1. -/
def Flagged (cond : Bool) : Expr ω → ω → Prop
  | .compare .., _ | .not _, _ => True
  | .nilRight x neq, w | .nilLeft neq x, w => cond ∧ neq → x.word w = 0 ∨ x.word w = 1
  | .and l r, w => (holds strings l w).value → Flagged true r (holds strings l w).world
  | .or l r, w => ¬ (holds strings l w).value → Flagged true r (holds strings l w).world

def spans : Expr ω → List Nat
  | .compare _ l r => [l.span, r.span]
  | .nilRight x _ | .nilLeft _ x => [x.span]
  | .not e => spans e
  | .and l r | .or l r => spans l ++ spans r

variable {strings}

@[simp] theorem flag_eq_zero (b : Bool) : flag b = 0#32 ↔ b = false := by cases b <;> simp [flag]

@[simp] theorem text_zero (w : ω) : strings.text w 0#32 = "" :=
  congrArg (Option.getD · "") (strings.nil w)

/-! ### Tests for nil -/

namespace Ref

variable {x : Ref ω} {w : ω}

/-- The outcome of a test. -/
def test (strings : Strings ω) (x : Ref ω) (byText : Bool) (w : ω) : Bool :=
  if byText then x.text strings w == "" else x.word w == 0

theorem text_of_word (h : x.word w = 0) : x.text strings w = "" := by
  rw [text, h]
  exact text_zero _

theorem word_eq_text_iff : (x.word w == 0) = (x.text strings w == "") ↔ ¬ x.Blank strings w := by
  rw [Bool.eq_iff_iff, beq_iff_eq, beq_iff_eq, Blank]
  exact ⟨fun h hblank => hblank.1 (h.mpr hblank.2), fun h => ⟨text_of_word, fun htext =>
    Classical.not_not.mp fun hword => h ⟨hword, htext⟩⟩⟩

theorem fits_iff (byText : Bool) :
    x.Fits strings w byText ↔ x.test strings byText w = x.isNil strings w := by
  rw [Fits, test, isNil]
  cases x.isString <;> cases byText
  · simp
  · simp only [ne_eq, Bool.false_eq_true, not_false_eq_true, forall_const, if_true, if_false]
    exact word_eq_text_iff.symm.trans eq_comm
  · simp only [ne_eq, Bool.true_eq_false, not_false_eq_true, forall_const, if_true,
      Bool.false_eq_true, if_false]
    exact word_eq_text_iff.symm
  · simp

theorem compared_nilRight (neq : Bool) :
    (compared strings (.term x.toTerm) (equality neq) .nil w).value =
      decide (x.test strings (x.valTy = .ptr) w ≠ neq) := by
  by_cases hptr : x.valTy = .ptr
  · cases neq <;>
      simp [compared, Operand.valTy, Operand.effect, Operand.value, equality, test, hptr,
        Comparison.isEquality, text, word, Words.low]
  · cases neq <;>
      simp [compared, Operand.valTy, Operand.value, Operand.wide, equality, test, hptr, x.narrow,
        Comparison.holds, word, Words.low, beq_eq_decide, bne]

theorem compared_nilLeft (neq : Bool) :
    (compared strings .nil (equality neq) (.term x.toTerm) w).value =
      decide (x.test strings true w ≠ neq) := by
  have hcomm : ("" == x.text strings w) = (x.text strings w == "") := Bool.beq_comm
  rw [text, word, Words.low] at hcomm
  cases neq <;>
    simp [compared, Operand.valTy, Operand.effect, Operand.value, equality, test,
      Comparison.isEquality, text, word, Words.low, hcomm]

theorem leaves_nilRight (cond neq : Bool) :
    (leaves strings cond (.nilRight x neq) w).value ≠ 0 ↔
      x.test strings (!cond && x.valTy = .ptr) w ≠ neq := by
  cases cond with
  | true => cases neq <;> simp [leaves, test, word]
  | false => simp [leaves, compared_nilRight]

theorem leaves_nilLeft (cond neq : Bool) :
    (leaves strings cond (.nilLeft neq x) w).value ≠ 0 ↔
      x.test strings (!(cond && neq)) w ≠ neq := by
  by_cases h : cond ∧ neq
  · obtain ⟨rfl, rfl⟩ := h
    simp [leaves, test, word]
  · rw [leaves, if_neg h]
    have hcond : (cond && neq) = false := by simpa using h
    simp [compared_nilLeft, hcond]

end Ref

/-! ### Agreement -/

/-- As a truth value, what is left is what the expression means. -/
structure Right (strings : Strings ω) (cond : Bool) (e : Expr ω) (w : ω) : Prop where
  value : (leaves strings cond e w).value ≠ 0 ↔ (holds strings e w).value
  world : (leaves strings cond e w).world = (holds strings e w).world
  seen : (leaves strings cond e w).seen = (holds strings e w).seen

namespace Right

variable {cond : Bool} {l r : Expr ω} {w : ω}

theorem bne_zero {e : Expr ω} (h : Right strings cond e w) :
    ((leaves strings cond e w).value != 0) = (holds strings e w).value :=
  Bool.eq_iff_iff.mpr (bne_iff_ne.trans h.value)

theorem and (hl : Right strings true l w) (hr : (holds strings l w).value →
    Right strings true r (holds strings l w).world) : Right strings cond (.and l r) w := by
  have hmore := hl.bne_zero
  cases hv : (holds strings l w).value with
  | true =>
      have hr := hr hv
      refine ⟨?_, ?_, ?_⟩ <;> simp only [leaves, holds, hmore, hv, Result.andThen, if_true, hl.world]
      · exact hr.value
      · exact hr.world
      · rw [hl.seen, hr.seen]
  | false =>
      refine ⟨?_, ?_, ?_⟩ <;>
        simp only [leaves, holds, hmore, hv, Result.andThen, Bool.false_eq_true, if_false]
      · simp
      · exact hl.world
      · exact hl.seen

theorem or (hl : Right strings true l w) (hr : ¬ (holds strings l w).value →
    Right strings true r (holds strings l w).world) : Right strings cond (.or l r) w := by
  have hmore : ((leaves strings true l w).value == 0) = !(holds strings l w).value := by
    rw [← hl.bne_zero, bne, Bool.not_not]
  cases hv : (holds strings l w).value with
  | true =>
      refine ⟨?_, ?_, ?_⟩ <;>
        simp only [leaves, holds, hmore, hv, Result.andThen, Bool.not_true, Bool.false_eq_true,
          if_false]
      · simp
      · exact hl.world
      · exact hl.seen
  | false =>
      have hr := hr (by rw [hv]; exact Bool.false_ne_true)
      refine ⟨?_, ?_, ?_⟩ <;>
        simp only [leaves, holds, hmore, hv, Result.andThen, Bool.not_false, if_true, hl.world]
      · exact hr.value
      · exact hr.world
      · rw [hl.seen, hr.seen]

end Right

theorem Sound.right {cond : Bool} {e : Expr ω} {w : ω} (h : Sound strings cond e w) :
    Right strings cond e w := by
  induction e generalizing cond w with
  | compare op l r => exact ⟨by simp [leaves, holds], rfl, rfl⟩
  | nilRight x neq =>
      have htest := (Ref.fits_iff _).mp h
      refine ⟨?_, by cases cond <;> rfl, by cases cond <;> rfl⟩
      rw [Ref.leaves_nilRight, htest, holds, decide_eq_true_iff]
  | nilLeft neq x =>
      have htest := (Ref.fits_iff _).mp h
      refine ⟨?_, by rw [leaves]; split <;> rfl, by rw [leaves]; split <;> rfl⟩
      rw [Ref.leaves_nilLeft, htest, holds, decide_eq_true_iff]
  | not e ih =>
      have he := ih h
      refine ⟨?_, he.world, he.seen⟩
      rw [leaves, holds, Bool.not_eq_true', ← Bool.not_eq_true, ← he.value]
      simp
  | and l r ihl ihr => exact (ihl h.1).and fun hv => ihr (h.2 hv)
  | or l r ihl ihr => exact (ihl h.1).or fun hv => ihr (h.2 hv)

/-! ### Operands apart -/

theorem leaves_seen (cond : Bool) (e : Expr ω) (w : ω) :
    (leaves strings cond e w).seen ⊆ spans e ∧ (leaves strings cond e w).seen ≠ [] := by
  induction e generalizing cond w with
  | compare op l r => exact ⟨by simp [leaves, compared, Operand.seen, spans], by simp [leaves, compared, Operand.seen]⟩
  | nilRight x neq => cases cond <;> simp [leaves, compared, Operand.seen, spans]
  | nilLeft neq x => rw [leaves]; split <;> simp [compared, Operand.seen, spans]
  | not e ih => exact ih false w
  | and l r ihl ihr | or l r ihl ihr =>
      have hl := ihl true w
      have hr := ihr true (leaves strings true l w).world
      simp only [leaves, Result.andThen, spans]
      split
      · exact ⟨List.append_subset.mpr ⟨List.subset_append_of_subset_left _ hl.1,
          List.subset_append_of_subset_right _ hr.1⟩, by simp [hl.2]⟩
      · exact ⟨List.subset_append_of_subset_left _ hl.1, hl.2⟩

theorem holds_seen (e : Expr ω) (w : ω) :
    (holds strings e w).seen ⊆ spans e ∧ (holds strings e w).seen ≠ [] := by
  induction e generalizing w with
  | compare op l r => exact ⟨by simp [holds, compared, Operand.seen, spans], by simp [holds, compared, Operand.seen]⟩
  | nilRight x neq | nilLeft neq x => simp [holds, spans]
  | not e ih => exact ih w
  | and l r ihl ihr | or l r ihl ihr =>
      have hl := ihl w
      have hr := ihr (holds strings l w).world
      simp only [holds, Result.andThen, spans]
      split
      · exact ⟨List.append_subset.mpr ⟨List.subset_append_of_subset_left _ hl.1,
          List.subset_append_of_subset_right _ hr.1⟩, by simp [hl.2]⟩
      · exact ⟨List.subset_append_of_subset_left _ hl.1, hl.2⟩

theorem append_inj_of_disjoint {P Q A B X Y : List Nat} (hdisjoint : P.Disjoint Q) (hA : A ⊆ P)
    (hB : B ⊆ P) (hX : X ⊆ Q) (hY : Y ⊆ Q) (h : A ++ X = B ++ Y) : A = B ∧ X = Y := by
  have hfilter {C Z : List Nat} (hC : C ⊆ P) (hZ : Z ⊆ Q) : (C ++ Z).filter (· ∈ P) = C := by
    have hself : C.filter (· ∈ P) = C :=
      List.filter_eq_self.mpr fun n hn => decide_eq_true (hC hn)
    have hnone : Z.filter (· ∈ P) = [] :=
      List.filter_eq_nil_iff.mpr fun n hn hmem => hdisjoint (of_decide_eq_true hmem) (hZ hn)
    rw [List.filter_append, hself, hnone, List.append_nil]
  have hAB : A = B := (hfilter hA hX).symm.trans ((congrArg (List.filter _) h).trans (hfilter hB hY))
  exact ⟨hAB, List.append_cancel_left (hAB ▸ h)⟩

/-- The operands that are evaluated show what the first operand of `&&` or `||` decides. -/
theorem andThen_seen {P Q : List Nat} {a : Result ω (BitVec 32)} {a' : Result ω Bool}
    {more more' : Bool} {stop : BitVec 32} {stop' : Bool} {f : ω → Result ω (BitVec 32)}
    {f' : ω → Result ω Bool} (hdisjoint : P.Disjoint Q) (ha : a.seen ⊆ P) (ha' : a'.seen ⊆ P)
    (hf : ∀ w, (f w).seen ⊆ Q ∧ (f w).seen ≠ []) (hf' : ∀ w, (f' w).seen ⊆ Q ∧ (f' w).seen ≠ [])
    (h : (a.andThen more stop f).seen = (a'.andThen more' stop' f').seen) :
    a.seen = a'.seen ∧ more = more' ∧ (more → (f a.world).seen = (f' a'.world).seen) := by
  have hseen {α : Type} (r : Result ω α) (m : Bool) (v : α) (k : ω → Result ω α) :
      (r.andThen m v k).seen = r.seen ++ if m then (k r.world).seen else [] := by
    cases m <;> simp [Result.andThen]
  rw [hseen, hseen] at h
  have hsub {m : Bool} {l : List Nat} (hl : l ⊆ Q) : (if m then l else []) ⊆ Q := by
    cases m
    · exact List.nil_subset Q
    · exact hl
  obtain ⟨hfirst, hsecond⟩ :=
    append_inj_of_disjoint hdisjoint ha ha' (hsub (hf _).1) (hsub (hf' _).1) h
  refine ⟨hfirst, ?_⟩
  cases more <;> cases more'
  · exact ⟨rfl, fun hfalse => absurd hfalse Bool.false_ne_true⟩
  · exact absurd hsecond.symm (hf' _).2
  · exact absurd hsecond (hf _).2
  · exact ⟨rfl, fun _ => hsecond⟩

theorem sound_of_leaves {cond : Bool} {e : Expr ω} {w : ω} (hspans : (spans e).Nodup)
    (hvalue : (leaves strings cond e w).value ≠ 0 ↔ (holds strings e w).value)
    (hseen : (leaves strings cond e w).seen = (holds strings e w).seen) :
    Sound strings cond e w := by
  have hnil {a b neq : Bool} (h : a ≠ neq ↔ b ≠ neq) : a = b := by
    cases a <;> cases b <;> cases neq <;> simp_all
  induction e generalizing cond w with
  | compare op l r => trivial
  | nilRight x neq =>
      rw [Ref.leaves_nilRight, holds, decide_eq_true_iff] at hvalue
      exact (Ref.fits_iff _).mpr (hnil hvalue)
  | nilLeft neq x =>
      rw [Ref.leaves_nilLeft, holds, decide_eq_true_iff] at hvalue
      exact (Ref.fits_iff _).mpr (hnil hvalue)
  | not e ih =>
      refine ih hspans ?_ hseen
      rw [leaves, holds, Bool.not_eq_true', ← Bool.not_eq_true] at hvalue
      exact not_iff_not.mp (by simpa using hvalue)
  | and l r ihl ihr =>
      obtain ⟨hl, hr, hdisjoint⟩ := List.nodup_append'.mp hspans
      rw [leaves, holds] at hseen hvalue
      obtain ⟨hfirst, hmore, hsecond⟩ := andThen_seen hdisjoint (leaves_seen _ _ _).1
        (holds_seen _ _).1 (leaves_seen true r) (holds_seen r) hseen
      have hsound : Sound strings true l w := ihl hl (by rw [← hmore]; simp) hfirst
      refine ⟨hsound, fun hv => ?_⟩
      have hrest := hsecond (hmore.trans hv)
      rw [hmore, Result.andThen, Result.andThen, if_pos hv, if_pos hv] at hvalue
      rw [hsound.right.world] at hrest hvalue
      exact ihr hr hvalue hrest
  | or l r ihl ihr =>
      obtain ⟨hl, hr, hdisjoint⟩ := List.nodup_append'.mp hspans
      rw [leaves, holds] at hseen hvalue
      obtain ⟨hfirst, hmore, hsecond⟩ := andThen_seen hdisjoint (leaves_seen _ _ _).1
        (holds_seen _ _).1 (leaves_seen true r) (holds_seen r) hseen
      have hsound : Sound strings true l w := ihl hl
        (by rw [← Bool.not_eq_false', ← hmore]; simp) hfirst
      refine ⟨hsound, fun hv => ?_⟩
      have hnot : (!(holds strings l w).value) = true := by simpa using hv
      have hrest := hsecond (hmore.trans hnot)
      rw [hmore, Result.andThen, Result.andThen, if_pos hnot, if_pos hnot] at hvalue
      rw [hsound.right.world] at hrest hvalue
      exact ihr hr hvalue hrest

theorem flag_cases (b : Bool) : flag b = 0 ∨ flag b = 1 := by cases b <;> simp [flag]

theorem flagged_iff {cond : Bool} {e : Expr ω} {w : ω} (h : Sound strings cond e w) :
    Flagged strings cond e w ↔
      (leaves strings cond e w).value = 0 ∨ (leaves strings cond e w).value = 1 := by
  induction e generalizing cond w with
  | compare op l r => exact iff_of_true trivial (flag_cases _)
  | nilRight x neq =>
      cases cond with
      | true =>
          cases neq with
          | true => exact forall_prop_of_true ⟨rfl, rfl⟩
          | false => exact iff_of_true (fun hneq => nomatch hneq.2) (flag_cases _)
      | false => exact iff_of_true (fun hcond => nomatch hcond.1) (flag_cases _)
  | nilLeft neq x =>
      rw [leaves]
      split
      · next hcond => exact forall_prop_of_true hcond
      · next hcond => exact iff_of_true (fun hc => absurd hc hcond) (flag_cases _)
  | not e ih => exact iff_of_true trivial (flag_cases _)
  | and l r ihl ihr =>
      rw [leaves, Result.andThen, h.1.right.bne_zero, h.1.right.world]
      cases hv : (holds strings l w).value with
      | true => exact (forall_prop_of_true hv).trans (ihr (h.2 hv))
      | false => exact iff_of_true (fun htrue => nomatch hv.symm.trans htrue) (.inl rfl)
  | or l r ihl ihr =>
      have hmore : ((leaves strings true l w).value == 0) = !(holds strings l w).value := by
        rw [← h.1.right.bne_zero, bne, Bool.not_not]
      rw [leaves, Result.andThen, hmore, h.1.right.world]
      cases hv : (holds strings l w).value with
      | true => exact iff_of_true (fun hfalse => absurd hv hfalse) (.inr rfl)
      | false =>
          have hnot : ¬ (holds strings l w).value = true := by rw [hv]; exact Bool.false_ne_true
          exact (forall_prop_of_true hnot).trans (ihr (h.2 hnot))

theorem eq_flag_iff {v : BitVec 32} {b : Bool} (h : v ≠ 0 ↔ b) : v = 0 ∨ v = 1 ↔ v = flag b := by
  cases b with
  | true =>
      have hne : v ≠ 0 := h.mpr rfl
      exact or_iff_right hne
  | false =>
      have heq : v = 0 := Classical.not_not.mp fun hne => Bool.false_ne_true (h.mp hne)
      exact iff_of_true (.inl heq) heq

/-! ### The two statements -/

/-- What an `if` runs. -/
def arms (hasElse : Bool) : Bool → List Event
  | true => [.arm true]
  | false => if hasElse then [.arm false] else []

/-- From `g`, in the state `s`, `if (e)` takes its first branch if `e` holds, and `b := e` leaves 1
in the slot `dst` of `b`, or 0; both evaluate the operands that `e` needs. -/
structure Agrees (strings : Strings ω) (e : Expr ω) (hasElse : Bool) (dst : Nat) (g : Gen ω)
    (s : State ω) : Prop where
  cond : ∃ s', Assembly.Runs (exec strings) (genIf e hasElse g).code g.pc s
      (genIf e hasElse g).pc s' ∧
    s'.trace = s.trace ++ ((holds strings e s.world).seen.map .operand ++
      arms hasElse (holds strings e s.world).value)
  value : ∃ s', Assembly.Runs (exec strings) (genExprTo e dst g).code g.pc s
      (genExprTo e dst g).pc s' ∧
    s'.frame dst = flag (holds strings e s.world).value ∧
    s'.trace = s.trace ++ (holds strings e s.world).seen.map .operand

variable (strings) in
theorem genIf_does (e : Expr ω) (hasElse : Bool) (g : Gen ω) :
    g.Does (exec strings) (genIf e hasElse g) fun s s' =>
      s'.trace = s.trace ++ ((leaves strings true e s.world).seen.map .operand ++
        arms hasElse ((leaves strings true e s.world).value != 0)) := by
  have hcond := (Emitter.Does.alloc g 4).trans
    (gen_does strings true e (show g.nextLocal < (g.alloc 4).nextLocal by simp))
  have harm (taken : Bool) (g : Gen ω) : g.Does (exec strings) (g.emit (.arm taken)) fun s s' =>
      s' = { s with trace := s.trace ++ [.arm taken] } := Emitter.Does.emit fun _ _ => rfl
  have hbranch (target pc : Nat) (s : State ω) :
      exec strings (Patchable.setTarget target (.branchz false g.nextLocal none)) pc s =
        (if s.frame g.nextLocal = 0 then target else pc + 1, s) := by
    simp [Patchable.setTarget, Instr.setTarget, exec]
  cases hasElse with
  | true =>
      refine (hcond.trans (.either hbranch (fun _ _ _ => rfl) (harm true _) (harm false _))).mono
        fun s s' h => ?_
      obtain ⟨s₁, ⟨_, rfl, h₁⟩, h⟩ := h
      rw [h₁.value] at h
      split at h
      · next hzero => rw [h, h₁.trace, hzero, List.append_assoc]; rfl
      · next hzero => rw [h, h₁.trace, bne_iff_ne.mpr hzero, List.append_assoc]; rfl
  | false =>
      refine (hcond.trans (.skip hbranch (harm true _))).mono fun s s' h => ?_
      obtain ⟨s₁, ⟨_, rfl, h₁⟩, h⟩ := h
      rw [h₁.value] at h
      split at h
      · next hzero => rw [h, h₁.trace, hzero]; simp [arms]
      · next hzero => rw [h, h₁.trace, bne_iff_ne.mpr hzero, List.append_assoc]; rfl

def Event.operand? : Event → Option Nat
  | .operand span => some span
  | .arm _ => none

theorem trace_inj {t : List Event} {seen seen' : List Nat} {hasElse b b' : Bool}
    (h : t ++ (seen.map .operand ++ arms hasElse b) = t ++ (seen'.map .operand ++ arms hasElse b')) :
    seen = seen' ∧ b = b' := by
  have hrest := List.append_cancel_left h
  have harms (b : Bool) : (arms hasElse b).filterMap Event.operand? = [] := by
    cases b <;> cases hasElse <;> rfl
  have hspans (l : List Nat) (b : Bool) :
      (l.map Event.operand ++ arms hasElse b).filterMap Event.operand? = l := by
    rw [List.filterMap_append, harms, List.append_nil, List.filterMap_map]
    exact List.filterMap_some
  have hseen : seen = seen' :=
    (hspans seen b).symm.trans ((congrArg (List.filterMap Event.operand?) hrest).trans (hspans seen' b'))
  have hlast := List.append_cancel_left (hseen ▸ hrest)
  refine ⟨hseen, ?_⟩
  cases b <;> cases b' <;> cases hasElse <;> simp_all [arms]

section

variable {e : Expr ω} {hasElse : Bool} {dst : Nat} {g : Gen ω} {s : State ω}

theorem Agrees.sound (h : Agrees strings e hasElse dst g s) (hspans : (spans e).Nodup)
    (hdst : dst < g.nextLocal) :
    Sound strings true e s.world ∧ Sound strings false e s.world ∧
      Flagged strings false e s.world := by
  obtain ⟨sIf, -, hifTrace, hifOnly⟩ := (genIf_does strings e hasElse g).whole s
  obtain ⟨sVal, -, hvalLeaves, hvalOnly⟩ := (gen_does strings false e hdst).whole s
  obtain ⟨⟨s₁, hrun₁, htrace₁⟩, s₂, hrun₂, hvalue₂, htrace₂⟩ := h
  cases hifOnly s₁ hrun₁
  cases hvalOnly s₂ hrun₂
  obtain ⟨hseen, hcond⟩ := trace_inj (hifTrace.symm.trans htrace₁)
  have hsound := sound_of_leaves hspans (bne_iff_ne.symm.trans (Bool.eq_iff_iff.mp hcond)) hseen
  have hvalue := hvalLeaves.value.symm.trans hvalue₂
  have hseenVal := List.map_injective_iff.mpr (fun _ _ h => by cases h; rfl)
    (List.append_cancel_left (hvalLeaves.trace.symm.trans htrace₂))
  have hsoundVal := sound_of_leaves hspans (by rw [hvalue, ne_eq]; simp) hseenVal
  exact ⟨hsound, hsoundVal, (flagged_iff hsoundVal).mpr
    ((eq_flag_iff hsoundVal.right.value).mpr hvalue)⟩

theorem Sound.agrees (h : Sound strings true e s.world) (hval : Sound strings false e s.world)
    (hflagged : Flagged strings false e s.world) (hdst : dst < g.nextLocal) :
    Agrees strings e hasElse dst g s := by
  obtain ⟨sIf, hif, hifTrace, -⟩ := (genIf_does strings e hasElse g).whole s
  obtain ⟨sVal, hrun, hleaves, -⟩ := (gen_does strings false e hdst).whole s
  refine ⟨⟨sIf, hif, ?_⟩, sVal, hrun, ?_, ?_⟩
  · rw [hifTrace, h.right.seen, h.right.bne_zero]
  · rw [hleaves.value]
    exact (eq_flag_iff hval.right.value).mp ((flagged_iff hval).mp hflagged)
  · rw [hleaves.trace, hval.right.seen]

end

/-- The code agrees with the expression, and so as a value and as a condition, exactly when the
tests for `nil` fit that either makes, and the word left for a value is 0 or 1. -/
theorem condition_agrees_iff (strings : Strings ω) (e : Expr ω) (hspans : (spans e).Nodup)
    (hasElse : Bool) (dst : Nat) (g : Gen ω) (hdst : dst < g.nextLocal) (s : State ω) :
    Agrees strings e hasElse dst g s ↔
      Sound strings true e s.world ∧ Sound strings false e s.world ∧
        Flagged strings false e s.world :=
  ⟨fun h => h.sound hspans hdst, fun h => h.1.agrees h.2.1 h.2.2 hdst⟩

def noStrings : Strings Unit := ⟨fun _ _ => none, fun _ => rfl⟩

/-- A list with this word. -/
def list (word : BitVec 64) : Ref Unit :=
  ⟨⟨0, .ptr, false, 0, fun _ => word, id⟩, false, rfl⟩

theorem agrees_nil_list :
    Agrees noStrings (.nilRight (list 0) true) true 0 ⟨[], 4⟩ ⟨fun _ => 0, (), []⟩ :=
  (condition_agrees_iff noStrings _ (by decide) true 0 ⟨[], 4⟩ (by decide) _).mpr
    ⟨fun h => absurd rfl h, fun _ hblank => hblank.1 rfl, fun h => nomatch h.1⟩

/-- For a list that is not nil, `b := l != nil` leaves 0. -/
theorem list_compared_by_text :
    ¬ Agrees noStrings (.nilRight (list 7) true) true 0 ⟨[], 4⟩ ⟨fun _ => 0, (), []⟩ := fun h =>
  (h.sound (by decide) (by decide)).2.1 Bool.false_ne_true ⟨by decide, rfl⟩

end RiceVM.Limbo.Condition
