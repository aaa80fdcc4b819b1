import RiceVM.Limbo.Condition

/-!
What the code of a boolean expression leaves, in both positions.
-/
namespace RiceVM.Limbo.Condition

open Backpatch

variable {ω : Type} (strings : Strings ω)

/-- What an evaluation leaves, and the operands it evaluates. -/
structure Result (ω α : Type) where
  value : α
  world : ω
  seen : List Nat

namespace Operand

def value (w : ω) : Operand ω → BitVec 64
  | .nil => 0
  | .term t => t.value w

def effect (w : ω) : Operand ω → ω
  | .nil => w
  | .term t => t.effect w

def seen : Operand ω → List Nat
  | .nil => []
  | .term t => [t.span]

/-- As a big. -/
def widened (o : Operand ω) (w : ω) : BitVec 64 :=
  if o.wide then o.value w else (Words.low (o.value w)).signExtend 64

end Operand

def flag (b : Bool) : BitVec 32 := if b then 1 else 0

/-- The outcome of a comparison: of texts if the left operand is inferred to be a pointer, and else
of numbers. -/
def compared (l : Operand ω) (op : Comparison) (r : Operand ω) (w : ω) : Result ω Bool :=
  let w₁ := l.effect w
  let w₂ := r.effect w₁
  { value :=
      if l.valTy = .ptr ∧ op.isEquality then
        (strings.text w₂ (Words.low (l.value w)) == strings.text w₂ (Words.low (r.value w₁)))
          ≠ decide (op = .neq)
      else if l.wide || r.wide then op.holds (l.widened w) (r.widened w₁)
      else op.holds (Words.low (l.value w)) (Words.low (r.value w₁))
    world := w₂
    seen := l.seen ++ r.seen }

namespace Result

/-- The second operand of `&&`, or of `||`, is evaluated if the first one does not decide. -/
def andThen {α β : Type} (r : Result ω α) (more : Bool) (stop : β) (f : ω → Result ω β) :
    Result ω β :=
  if more then
    let r' := f r.world
    { r' with seen := r.seen ++ r'.seen }
  else { r with value := stop }

end Result

/-- What is left in the slot. -/
def leaves (cond : Bool) : Expr ω → ω → Result ω (BitVec 32)
  | .compare op l r, w =>
    let c := compared strings (.term l) op (.term r) w
    { c with value := flag c.value }
  | .nilRight x neq, w =>
    if cond then
      let word := Words.low (x.value w)
      ⟨if neq then word else flag (word == 0), x.effect w, [x.span]⟩
    else
      let c := compared strings (.term x.toTerm) (equality neq) .nil w
      { c with value := flag c.value }
  | .nilLeft neq x, w =>
    if cond ∧ neq then ⟨Words.low (x.value w), x.effect w, [x.span]⟩
    else
      let c := compared strings .nil (equality neq) (.term x.toTerm) w
      { c with value := flag c.value }
  | .not e, w =>
    let r := leaves false e w
    { r with value := flag (r.value == 0) }
  | .and l r, w =>
    let a := leaves true l w
    a.andThen (a.value != 0) 0 (leaves true r)
  | .or l r, w =>
    let a := leaves true l w
    a.andThen (a.value == 0) 1 (leaves true r)

/-! ### Operands -/

variable {strings} {g : Gen ω} {dst : Nat} {wide : Bool}

/-- The operand's value is at `dst`, and what is below it is as it was. -/
structure Loaded (o : Operand ω) (dst : Nat) (wide : Bool) (s s' : State ω) : Prop where
  value : if wide then s'.frame.wide dst = o.widened s.world
    else s'.frame dst = Words.low (o.value s.world)
  world : s'.world = o.effect s.world
  trace : s'.trace = s.trace ++ o.seen.map .operand
  below (slot : Nat) (h : slot < dst) : s'.frame slot = s.frame slot

theorem store_below (wide : Bool) (frame : Words) {dst slot : Nat} (h : slot < dst)
    (v : BitVec 64) : store wide frame dst v slot = frame slot := by
  cases wide with
  | true => exact Words.setWide_other _ (by omega) (by omega) v
  | false => exact Words.set_other _ (by omega) _

@[simp] theorem store_self (wide : Bool) (frame : Words) (dst : Nat) (v : BitVec 64) :
    store wide frame dst v dst = Words.low v := by
  cases wide <;> simp [store]

theorem genOperandTo_does (o : Operand ω) (dst : Nat) (g : Gen ω) :
    g.Does (exec strings) (genOperandTo o dst g) fun s s' =>
      s' = ⟨store o.wide s.frame dst (o.value s.world), o.effect s.world, s.trace ++ o.seen.map .operand⟩ := by
  cases o with
  | nil =>
      refine (Emitter.Does.emit (f := fun s => { s with frame := s.frame.set dst 0 })
        fun _ _ => rfl).mono fun s s' h => ?_
      rw [h]
      simp [Operand.seen, Operand.effect, Operand.value, Operand.wide, store, Words.low]
  | term t =>
      refine ((Emitter.Does.alloc g t.temps).trans
        (Emitter.Does.emit fun _ _ => rfl)).mono fun s s' h => ?_
      obtain ⟨_, rfl, h⟩ := h
      exact h

theorem le_genOperandTo (o : Operand ω) (dst : Nat) (g : Gen ω) :
    g.nextLocal ≤ (genOperandTo o dst g).nextLocal := by
  cases o with
  | nil => exact Nat.le_refl _
  | term t => exact Nat.le_add_right _ _

theorem le_genOperandToKind (o : Operand ω) (dst : Nat) (wide : Bool) (g : Gen ω) :
    g.nextLocal ≤ (genOperandToKind o dst wide g).nextLocal := by
  rw [genOperandToKind]
  split
  · exact le_genOperandTo o dst g
  · exact Nat.le_trans (Nat.le_add_right _ _) (le_genOperandTo o g.nextLocal (g.alloc _))

theorem genOperandToKind_does (o : Operand ω) (dst : Nat) (wide : Bool) (hwide : o.wide → wide) (hdst : dst ≤ g.nextLocal) :
    g.Does (exec strings) (genOperandToKind o dst wide g) (Loaded o dst wide) := by
  rw [genOperandToKind]
  by_cases heq : o.wide = wide
  · rw [if_pos heq]
    refine (genOperandTo_does o dst g).mono fun s s' h => ?_
    subst h
    refine ⟨?_, rfl, rfl, fun slot hslot => store_below _ _ hslot _⟩
    subst heq
    cases ho : o.wide <;> simp [store, Operand.widened, ho]
  · have ho : o.wide = false := by
      by_contra hne
      exact heq ((eq_true_of_ne_false hne).trans (hwide (eq_true_of_ne_false hne)).symm)
    have hw : wide = true := by
      by_contra hne
      exact heq (ho.trans (eq_false_of_ne_true hne).symm)
    subst hw
    rw [if_neg heq]
    refine (((Emitter.Does.alloc g _).trans (genOperandTo_does o g.nextLocal _)).trans
      (Emitter.Does.emit fun _ _ => rfl)).mono fun s s' h => ?_
    obtain ⟨_, ⟨_, rfl, rfl⟩, rfl⟩ := h
    refine ⟨?_, rfl, rfl, fun slot hslot => ?_⟩
    · simp [store, ho, Operand.widened]
    · exact (store_below true _ hslot _).trans (store_below _ _ (by omega) _)

/-! ### Comparisons -/

/-- The slot, the world and the trace after an evaluation; what else is in the frame does not
matter. -/
structure Leaves (dst : Nat) (r : ω → Result ω (BitVec 32)) (s s' : State ω) : Prop where
  value : s'.frame dst = (r s.world).value
  world : s'.world = (r s.world).world
  trace : s'.trace = s.trace ++ (r s.world).seen.map .operand

theorem genFlag_does {branch : Instr ω} {c : State ω → Bool}
    (hbranch : ∀ target pc s, exec strings (Patchable.setTarget target branch) pc s =
      (if c s then target else pc + 1, s)) :
    g.Does (exec strings) (genFlag branch dst g) fun s s' =>
      s' = { s with frame := s.frame.set dst (flag (c { s with frame := s.frame.set dst 1 })) } := by
  refine ((Emitter.Does.emit (f := fun s => { s with frame := s.frame.set dst 1 })
    fun _ _ => rfl).trans (.skip hbranch (Emitter.Does.emit
      (f := fun s => { s with frame := s.frame.set dst 0 }) fun _ _ => rfl))).mono fun s s' h => ?_
  obtain ⟨_, rfl, h⟩ := h
  rw [flag]
  split at h
  · next hc => rw [h, if_pos hc]
  · next hc => rw [h, if_neg hc]; simp

theorem genComparison_does (l r : Operand ω) (op : Comparison) (hdst : dst < g.nextLocal) :
    g.Does (exec strings) (genComparison l op r dst g) (Leaves dst fun w =>
      { compared strings l op r w with value := flag (compared strings l op r w).value }) := by
  rw [genComparison]
  split
  · next htext =>
      refine (((((Emitter.Does.alloc g 4).trans (Emitter.Does.alloc _ 4)).trans
        (genOperandTo_does l g.nextLocal _)).trans (genOperandTo_does r (g.nextLocal + 4) _)).trans
        (genFlag_does (c := fun s => (strings.text s.world (s.frame g.nextLocal) ==
          strings.text s.world (s.frame (g.nextLocal + 4))) ≠ decide (op = .neq))
          fun target pc s => by simp [Patchable.setTarget, Instr.setTarget, exec])).mono
        fun s s' h => ?_
      obtain ⟨_, ⟨_, ⟨_, ⟨_, rfl, rfl⟩, rfl⟩, rfl⟩, rfl⟩ := h
      refine ⟨?_, rfl, by simp [compared]⟩
      simp only [Words.set_self, Words.set_other _ (Nat.ne_of_gt hdst),
        Words.set_other _ (Nat.ne_of_gt (Nat.lt_add_right 4 hdst)), store_self,
        store_below _ _ (Nat.lt_add_of_pos_right (n := g.nextLocal) (k := 4) (by omega))]
      rw [compared, if_pos htext]
  · next hnum =>
      refine (((((Emitter.Does.alloc g _).trans (Emitter.Does.alloc _ _)).trans
        (genOperandToKind_does l g.nextLocal (l.wide || r.wide)
          (fun h => by simp [h]) (by simp only [Emitter.nextLocal_alloc]; omega))).trans
        (genOperandToKind_does r (g.nextLocal + byteSize (l.wide || r.wide)) (l.wide || r.wide)
          (fun h => by simp [h]) ?_)).trans
        (genFlag_does (c := fun s => if l.wide || r.wide then op.holds (s.frame.wide g.nextLocal)
          (s.frame.wide (g.nextLocal + byteSize (l.wide || r.wide))) else
          op.holds (s.frame g.nextLocal) (s.frame (g.nextLocal + byteSize (l.wide || r.wide))))
          fun target pc s => rfl)).mono fun s s' h => ?_
      · exact Nat.le_trans (by simp only [Emitter.nextLocal_alloc]; omega)
          (le_genOperandToKind _ _ _ _)
      · obtain ⟨s₂, ⟨s₁, ⟨_, ⟨_, rfl, rfl⟩, hl⟩, hr⟩, rfl⟩ := h
        refine ⟨?_, hr.world.trans (by rw [hl.world]; rfl), ?_⟩
        · have hlv := hl.value
          have hrv := hr.value
          simp only [Words.set_self, compared, if_neg hnum]
          rw [← hl.world]
          generalize (l.wide || r.wide) = wide at *
          cases wide with
          | true =>
              rw [if_pos rfl] at hlv hrv
              have hset {off : Nat} (hoff : dst < off) :
                  (s₂.frame.set dst 1).wide off = s₂.frame.wide off :=
                Words.wide_congr (Words.set_other _ (by omega) _) (Words.set_other _ (by omega) _)
              rw [if_pos rfl, if_pos rfl, hset hdst, hset (Nat.lt_add_right _ hdst), hrv, ← hlv,
                Words.wide_congr (hr.below _ (by simp [byteSize])) (hr.below _ (by simp [byteSize]))]
          | false =>
              rw [if_neg Bool.false_ne_true] at hlv hrv
              rw [if_neg Bool.false_ne_true, if_neg Bool.false_ne_true,
                Words.set_other _ (Nat.ne_of_gt hdst),
                Words.set_other _ (Nat.ne_of_gt (Nat.lt_add_right _ hdst)), hrv, ← hlv,
                hr.below _ (by simp [byteSize])]
        · rw [hr.trace, hl.trace, List.append_assoc, ← List.map_append]
          rfl

theorem le_genComparison (l r : Operand ω) (op : Comparison) (dst : Nat) (g : Gen ω) :
    g.nextLocal ≤ (genComparison l op r dst g).nextLocal := by
  rw [genComparison]
  split
  · exact Nat.le_trans (g.le_alloc 4) (Nat.le_trans (Emitter.le_alloc _ 4)
      (Nat.le_trans (le_genOperandTo l _ _) (le_genOperandTo r _ _)))
  · exact Nat.le_trans (g.le_alloc _) (Nat.le_trans (Emitter.le_alloc _ _)
      (Nat.le_trans (le_genOperandToKind l _ _ _) (le_genOperandToKind r _ _ _)))

theorem le_gen (cond : Bool) (e : Expr ω) (dst : Nat) (g : Gen ω) :
    g.nextLocal ≤ (gen cond e dst g).nextLocal := by
  induction e generalizing cond dst g with
  | compare op l r => exact le_genComparison _ _ _ _ _
  | nilRight x neq =>
      rw [gen]
      split
      · split
        · exact le_genOperandTo _ _ _
        · exact Nat.le_trans (g.le_alloc 4) (le_genOperandTo _ _ _)
      · exact le_genComparison _ _ _ _ _
  | nilLeft neq x =>
      rw [gen]
      split
      · exact le_genOperandTo _ _ _
      · exact le_genComparison _ _ _ _ _
  | not e ih => exact ih false dst g
  | and l r ihl ihr | or l r ihl ihr =>
      refine Nat.le_trans (g.le_alloc 4) (Nat.le_trans (ihl true g.nextLocal _) ?_)
      exact ihr true dst (Emitter.emit _ _)

/-- The second operand is not evaluated. -/
theorem Leaves.stop {tmp : Nat} {a r : ω → Result ω (BitVec 32)} {s s₁ s₂ : State ω}
    {v : BitVec 32} (h : Leaves tmp a s s₁)
    (hr : r s.world = ⟨v, (a s.world).world, (a s.world).seen⟩)
    (hs₂ : s₂ = { s₁ with frame := s₁.frame.set dst v }) : Leaves dst r s s₂ := by
  subst hs₂
  exact ⟨by rw [hr]; exact Words.set_self _ _ _, by rw [hr]; exact h.world,
    by rw [hr]; exact h.trace⟩

/-- The second operand is evaluated. -/
theorem Leaves.andThen {tmp : Nat} {a b r : ω → Result ω (BitVec 32)} {s s₁ s₂ : State ω}
    (h : Leaves tmp a s s₁)
    (hr : r s.world = ⟨(b (a s.world).world).value, (b (a s.world).world).world,
      (a s.world).seen ++ (b (a s.world).world).seen⟩)
    (h₂ : Leaves dst b s₁ s₂) : Leaves dst r s s₂ := by
  have hvalue := h₂.value
  have hworld := h₂.world
  have htrace := h₂.trace
  rw [h.world] at hvalue hworld htrace
  refine ⟨by rw [hr]; exact hvalue, by rw [hr]; exact hworld, ?_⟩
  rw [htrace, h.trace, hr, List.append_assoc, ← List.map_append]

theorem word_does {x : Ref ω} {r : ω → Result ω (BitVec 32)}
    (hr : ∀ w, r w = ⟨Words.low (x.value w), x.effect w, [x.span]⟩) :
    g.Does (exec strings) (genOperandTo (.term x.toTerm) dst g) (Leaves dst r) := by
  refine (genOperandTo_does (.term x.toTerm) dst g).mono fun s s' h => ?_
  subst h
  exact ⟨by rw [hr]; exact store_self _ _ _ _, by rw [hr]; rfl, by rw [hr]; rfl⟩

variable (strings) in
theorem gen_does (cond : Bool) (e : Expr ω) (hdst : dst < g.nextLocal) :
    g.Does (exec strings) (gen cond e dst g) (Leaves dst (leaves strings cond e)) := by
  induction e generalizing cond dst g with
  | compare op l r => exact genComparison_does _ _ _ hdst
  | nilRight x neq =>
      cases cond with
      | true =>
          cases neq with
          | true => exact word_does fun w => rfl
          | false =>
              refine (((Emitter.Does.alloc g 4).trans
                (genOperandTo_does (.term x.toTerm) g.nextLocal _)).trans
                (genFlag_does (c := fun s => s.frame g.nextLocal == 0)
                  fun target pc s => by simp [Patchable.setTarget, Instr.setTarget, exec])).mono
                fun s s' h => ?_
              obtain ⟨_, ⟨_, rfl, rfl⟩, rfl⟩ := h
              refine ⟨?_, rfl, rfl⟩
              simp only [Words.set_self, Words.set_other _ (Nat.ne_of_gt hdst), store_self]
              rfl
      | false => exact genComparison_does _ _ _ hdst
  | nilLeft neq x =>
      rw [gen]
      split
      · next h =>
          exact word_does fun w => by rw [leaves, if_pos h]
      · next h =>
          refine (genComparison_does _ _ _ hdst).mono fun s s' hleaves => ?_
          have heq (w : ω) : leaves strings cond (.nilLeft neq x) w =
              { compared strings .nil (equality neq) (.term x.toTerm) w with
                value := flag (compared strings .nil (equality neq) (.term x.toTerm) w).value } := by
            rw [leaves, if_neg h]
          exact ⟨by rw [heq]; exact hleaves.value, by rw [heq]; exact hleaves.world,
            by rw [heq]; exact hleaves.trace⟩
  | not e ih =>
      refine ((ih false hdst).trans (.either (c := fun s => s.frame dst = 0)
        (fun target pc s => ?_) (fun _ _ _ => rfl)
        (Emitter.Does.emit (f := fun s => { s with frame := s.frame.set dst 0 }) fun _ _ => rfl)
        (Emitter.Does.emit (f := fun s => { s with frame := s.frame.set dst 1 })
          fun _ _ => rfl))).mono fun s s' h => ?_
      · simp [Patchable.setTarget, Instr.setTarget, exec]
      · obtain ⟨s₁, h₁, h⟩ := h
        rw [h₁.value] at h
        split at h
        · next hzero =>
            subst h
            exact ⟨by simp [leaves, flag, hzero], h₁.world, h₁.trace⟩
        · next hzero =>
            subst h
            exact ⟨by simpa [leaves, flag] using hzero, h₁.world, h₁.trace⟩
  | and l r ihl ihr =>
      refine (((Emitter.Does.alloc g 4).trans (ihl true (show g.nextLocal < (g.alloc 4).nextLocal by simp))).trans
        (.either (c := fun s => s.frame g.nextLocal = 0) (fun target pc s => ?_) (fun _ _ _ => rfl)
          (ihr true (Nat.lt_of_lt_of_le hdst ?_))
          (Emitter.Does.emit (f := fun s => { s with frame := s.frame.set dst 0 })
            fun _ _ => rfl))).mono fun s s' h => ?_
      · simp [Patchable.setTarget, Instr.setTarget, exec]
      · exact Nat.le_trans (g.le_alloc 4) (le_gen true l _ _)
      · obtain ⟨s₁, ⟨_, rfl, h₁⟩, h⟩ := h
        rw [h₁.value] at h
        split at h
        · next hzero =>
            refine h₁.stop (by simp [leaves, Result.andThen, hzero]) h
        · next hzero =>
            refine h₁.andThen ?_ h
            rw [leaves, Result.andThen, if_pos (bne_iff_ne.mpr hzero)]
  | or l r ihl ihr =>
      refine (((Emitter.Does.alloc g 4).trans (ihl true (show g.nextLocal < (g.alloc 4).nextLocal by simp))).trans
        (.either (c := fun s => s.frame g.nextLocal ≠ 0) (fun target pc s => ?_) (fun _ _ _ => rfl)
          (ihr true (Nat.lt_of_lt_of_le hdst ?_))
          (Emitter.Does.emit (f := fun s => { s with frame := s.frame.set dst 1 })
            fun _ _ => rfl))).mono fun s s' h => ?_
      · simp [Patchable.setTarget, Instr.setTarget, exec]
      · exact Nat.le_trans (g.le_alloc 4) (le_gen true l _ _)
      · obtain ⟨s₁, ⟨_, rfl, h₁⟩, h⟩ := h
        rw [h₁.value] at h
        split at h
        · next hzero =>
            refine h₁.stop ?_ h
            rw [leaves, Result.andThen, if_neg (by simpa using hzero)]
        · next hzero =>
            exact h₁.andThen (by simp [leaves, Result.andThen, not_not.mp hzero]) h

end RiceVM.Limbo.Condition
