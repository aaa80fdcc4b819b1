import Mathlib.Data.List.Nodup
import RiceVM.Limbo.Jumps

/-!
What a stretch of the generator's run does with the `break`s and `continue`s in it: those that leave
a construct of the stretch are patched, once, and the others are recorded with the construct outside
it that they refer to.
-/
namespace RiceVM.Limbo.Flow

open Backpatch

namespace Lowering

variable (l : Lowering)

@[simp] theorem toGen_emit (i : Instr) : (l.emit i).toGen = l.toGen.emit i := rfl

@[simp] theorem toGen_patch (idx pc : Nat) : (l.patch idx pc).toGen = l.toGen.patch idx pc := rfl

@[simp] theorem toGen_patchAll (idxs : List Nat) (pc : Nat) :
    (l.patchAll idxs pc).toGen = l.toGen.patchAll idxs pc := rfl

@[simp] theorem toGen_pushLoop (continuable : Bool) :
    (l.pushLoop continuable).toGen = l.toGen.pushLoop continuable := rfl

@[simp] theorem toGen_popLoop (exitPc continuePc : Nat) :
    (l.popLoop exitPc continuePc).toGen = l.toGen.popLoop exitPc continuePc := rfl

end Lowering

@[simp] theorem pendingLabel_popLoop (g : Gen) (exitPc continuePc : Nat) :
    (g.popLoop exitPc continuePc).pendingLabel = g.pendingLabel := by
  unfold Gen.popLoop
  split <;> rfl

/-! ### Records -/

/-- The jumps that go outside, recorded in their order. -/
def recordAll : List Use → List LoopFrame → Option (List LoopFrame)
  | [], frames => some frames
  | u :: us, frames =>
    match u.dest with
    | .outside label continues => (recordJump label continues u.at_ frames).bind (recordAll us)
    | .pc _ => recordAll us frames

theorem recordAll_append (us vs : List Use) (frames : List LoopFrame) :
    recordAll (us ++ vs) frames = (recordAll us frames).bind (recordAll vs) := by
  induction us generalizing frames with
  | nil => rfl
  | cons u us ih =>
      obtain ⟨at_, dest⟩ := u
      cases dest with
      | outside label continues =>
          simp only [List.cons_append, recordAll, Option.bind_assoc]
          exact congrArg _ (funext ih)
      | pc target => exact ih frames

theorem recordJump_kinds {label : Option String} {continues : Bool} {at_ : Nat}
    {frames frames' : List LoopFrame} (h : recordJump label continues at_ frames = some frames') :
    kinds frames' = kinds frames := by
  induction frames generalizing frames' with
  | nil => cases h
  | cons frame frames ih =>
      rw [recordJump] at h
      split at h
      · cases h
        cases continues <;> rfl
      · obtain ⟨rest, hrest, rfl⟩ := Option.map_eq_some_iff.mp h
        exact congrArg (frame.kind :: ·) (ih hrest)

theorem recordAll_kinds {us : List Use} {frames frames' : List LoopFrame}
    (h : recordAll us frames = some frames') : kinds frames' = kinds frames := by
  induction us generalizing frames with
  | nil =>
      cases h
      rfl
  | cons u us ih =>
      obtain ⟨at_, dest⟩ := u
      cases dest with
      | outside label continues =>
          obtain ⟨mid, hmid, hrest⟩ := Option.bind_eq_some_iff.mp h
          exact (ih hrest).trans (recordJump_kinds hmid)
      | pc target => exact ih h

/-- A jump can be recorded exactly when it refers to an open construct. -/
theorem recordJump_isSome (label : Option String) (continues : Bool) (at_ : Nat)
    (frames : List LoopFrame) :
    (recordJump label continues at_ frames).isSome = frames.any (·.matches label continues) := by
  induction frames with
  | nil => rfl
  | cons frame frames ih =>
      rw [recordJump, List.any_cons]
      cases hm : frame.matches label continues with
      | true => simp
      | false => simpa using ih

/-- Is this a jump of the kind that refers to the construct? -/
def Use.caught (label : Option String) (continuable continues : Bool) (u : Use) : Bool :=
  match u.dest with
  | .outside l c => ({ label, continuable } : LoopFrame).matches l c && (c == continues)
  | .pc _ => false

/-- The jumps that a construct holds when it is left. -/
def caught (label : Option String) (continuable continues : Bool) (us : List Use) : List Nat :=
  (us.filter (·.caught label continuable continues)).map (·.at_)

/-- Of the jumps recorded while a construct is open, it holds those that refer to it, and those
around it hold the others. -/
theorem recordAll_cons {us : List Use} {frame : LoopFrame} {frames rest : List LoopFrame}
    (h : recordAll us (frame :: frames) = some rest) (exitPc continuePc : Nat) :
    ∃ frames', rest = { frame with
        breaks := frame.breaks ++ caught frame.label frame.continuable false us
        continues := frame.continues ++ caught frame.label frame.continuable true us } :: frames' ∧
      recordAll (us.map (·.close frame.label frame.continuable exitPc continuePc)) frames =
        some frames' := by
  induction us generalizing frame frames with
  | nil =>
      cases h
      exact ⟨frames, by simp [caught], rfl⟩
  | cons u us ih =>
      obtain ⟨at_, dest⟩ := u
      cases dest with
      | pc target => exact ih h
      | outside label continues =>
          obtain ⟨mid, hmid, hrest⟩ := Option.bind_eq_some_iff.mp h
          rw [recordJump] at hmid
          by_cases hm : frame.matches label continues = true
          · have hclose : (⟨at_, .outside label continues⟩ : Use).close frame.label
                frame.continuable exitPc continuePc =
                  ⟨at_, .pc (if continues then continuePc else exitPc)⟩ := if_pos hm
            have hcaught (c : Bool) : (⟨at_, .outside label continues⟩ : Use).caught frame.label
                frame.continuable c = (continues == c) := by
              rw [Use.caught]
              exact (congrArg (· && _) hm).trans (Bool.true_and _)
            rw [if_pos hm] at hmid
            rw [List.map_cons, hclose]
            cases hmid
            cases continues with
            | true =>
                obtain ⟨frames', rfl, hframes⟩ := ih hrest
                refine ⟨frames', ?_, hframes⟩
                simp [caught, hcaught]
            | false =>
                obtain ⟨frames', rfl, hframes⟩ := ih hrest
                refine ⟨frames', ?_, hframes⟩
                simp [caught, hcaught]
          · have hclose : (⟨at_, .outside label continues⟩ : Use).close frame.label
                frame.continuable exitPc continuePc = ⟨at_, .outside label continues⟩ := if_neg hm
            have hcaught (c : Bool) : (⟨at_, .outside label continues⟩ : Use).caught frame.label
                frame.continuable c = false := by
              rw [Use.caught]
              exact (congrArg (· && _) (Bool.eq_false_iff.mpr hm)).trans (Bool.false_and _)
            rw [if_neg hm] at hmid
            obtain ⟨mid', hmid', rfl⟩ := Option.map_eq_some_iff.mp hmid
            obtain ⟨frames', hrest', hframes⟩ := ih hrest
            refine ⟨frames', ?_, ?_⟩
            · rw [hrest']
              simp [caught, hcaught]
            · rw [List.map_cons, hclose]
              exact Option.bind_eq_some_iff.mpr ⟨mid', hmid', hframes⟩

section

variable {us : List Use} {u : Use} {label : Option String} {continuable b : Bool}

theorem mem_caught (hnodup : (us.map (·.at_)).Nodup) (hu : u ∈ us) :
    u.at_ ∈ caught label continuable b us ↔ u.caught label continuable b = true := by
  simp only [caught, List.mem_map, List.mem_filter]
  constructor
  · rintro ⟨v, ⟨hv, hcaught⟩, hat⟩
    rwa [← List.inj_on_of_nodup_map hnodup hv hu hat]
  · exact fun hcaught => ⟨u, ⟨hu, hcaught⟩, rfl⟩

theorem nodup_caught (hnodup : (us.map (·.at_)).Nodup) :
    (caught label continuable b us).Nodup :=
  hnodup.sublist (List.filter_sublist.map _)

theorem count_caught (hnodup : (us.map (·.at_)).Nodup) (hu : u ∈ us) :
    (caught label continuable b us).count u.at_ = if u.caught label continuable b then 1 else 0 := by
  rw [(nodup_caught hnodup).count]
  simp only [mem_caught hnodup hu]

theorem Use.at_close (u : Use) (exitPc continuePc : Nat) :
    (u.close label continuable exitPc continuePc).at_ = u.at_ := by
  unfold Use.close
  split
  · rfl
  · split <;> rfl

end

/-! ### Stretches -/

/-- The instruction of a jump. -/
def Dest.instr : Dest → Instr
  | .outside _ _ => .jmp none
  | .pc target => .jmp (some target)

/-- From `l` to `l'` code was emitted that has the jumps `us`. -/
structure Lowered (us : List Use) (l l' : Lowering) : Prop where
  le : l.pc ≤ l'.pc
  table : l'.funcTable = l.funcTable
  keeps : ∀ k, k < l.pc → l'.code[k]? = l.code[k]?
  within : ∀ u ∈ us, l.pc ≤ u.at_ ∧ u.at_ < l'.pc
  nodup : (us.map (·.at_)).Nodup
  jumps : ∀ u ∈ us, l'.code[u.at_]? = some u.dest.instr
  /-- A jump that goes outside is recorded with the construct it refers to. -/
  records : recordAll us l.loopStack = some l'.loopStack
  /-- One that does not is patched once. -/
  patches : ∃ ks, l'.patched = l.patched ++ ks ∧ (∀ k ∈ ks, l.pc ≤ k ∧ k < l'.pc) ∧
    ∀ u ∈ us, ks.count u.at_ = if u.isOutside then 0 else 1

/-- An instruction of the stretch that is none of its jumps. -/
def Free (us : List Use) (l l' : Lowering) (k : Nat) : Prop :=
  l.pc ≤ k ∧ k < l'.pc ∧ ∀ u ∈ us, u.at_ ≠ k

namespace Free

variable {us vs : List Use} {l l₁ l₂ : Lowering} {k : Nat}

theorem emit (h : Free us l l₁ k) (i : Instr) : Free us l (l₁.emit i) k := by
  have := h.2.1
  refine ⟨h.1, ?_, h.2.2⟩
  simp only [Lowering.toGen_emit, pc_emit]
  omega

theorem patch (h : Free us l l₁ k) (idx p : Nat) : Free us l (l₁.patch idx p) k := by
  simpa [Free] using h

theorem patchAll (h : Free us l l₁ k) (idxs : List Nat) (p : Nat) :
    Free us l (l₁.patchAll idxs p) k := by
  simpa [Free] using h

theorem mono (h : Free us l l₁ k) (hle : l₁.pc ≤ l₂.pc) : Free us l l₂ k :=
  ⟨h.1, Nat.lt_of_lt_of_le h.2.1 hle, h.2.2⟩

/-- The instruction emitted last. -/
theorem last (h : Lowered us l l₁) (i : Instr) : Free us l (l₁.emit i) l₁.pc := by
  refine ⟨h.le, by simp, fun u hu => ?_⟩
  have := h.within u hu
  omega

theorem trans (h : Free us l l₁ k) (h' : Lowered vs l₁ l₂) : Free (us ++ vs) l l₂ k := by
  have := h.2.1
  have := h'.le
  refine ⟨h.1, by omega, fun u hu => ?_⟩
  rcases List.mem_append.mp hu with hu | hu
  · exact h.2.2 u hu
  · have := h'.within u hu
    omega

theorem andThen (h : Free us l l₁ k) (h' : Lowered [] l₁ l₂) : Free us l l₂ k := by
  simpa using h.trans h'

/-- An instruction of a stretch that comes after another. -/
theorem after (h : Lowered us l l₁) (h' : Free vs l₁ l₂ k) : Free (us ++ vs) l l₂ k := by
  have := h.le
  have := h'.1
  refine ⟨by omega, h'.2.1, fun u hu => ?_⟩
  rcases List.mem_append.mp hu with hu | hu
  · have := h.within u hu
    omega
  · exact h'.2.2 u hu

theorem later (h : Lowered us l l₁) (h' : Free [] l₁ l₂ k) : Free us l l₂ k := by
  simpa using after h h'

end Free

namespace Lowered

variable {us vs : List Use} {l l₁ l₂ : Lowering}

theorem refl (l : Lowering) : Lowered [] l l where
  le := Nat.le_refl _
  table := rfl
  keeps _ _ := rfl
  within _ h := nomatch h
  nodup := List.nodup_nil
  jumps _ h := nomatch h
  records := rfl
  patches := ⟨[], by simp, fun _ h => (nomatch h), fun _ h => (nomatch h)⟩

theorem trans (h : Lowered us l l₁) (h' : Lowered vs l₁ l₂) : Lowered (us ++ vs) l l₂ where
  le := Nat.le_trans h.le h'.le
  table := h'.table.trans h.table
  keeps k hk := (h'.keeps k (Nat.lt_of_lt_of_le hk h.le)).trans (h.keeps k hk)
  within u hu := by
    have := h.le
    have := h'.le
    rcases List.mem_append.mp hu with hu | hu
    · have := h.within u hu
      omega
    · have := h'.within u hu
      omega
  nodup := by
    rw [List.map_append, List.nodup_append]
    refine ⟨h.nodup, h'.nodup, fun a ha b hb => ?_⟩
    obtain ⟨u, hu, rfl⟩ := List.mem_map.mp ha
    obtain ⟨v, hv, rfl⟩ := List.mem_map.mp hb
    have := h.within u hu
    have := h'.within v hv
    omega
  jumps u hu := by
    rcases List.mem_append.mp hu with hu | hu
    · rw [h'.keeps _ (h.within u hu).2, h.jumps u hu]
    · exact h'.jumps u hu
  records := by
    rw [recordAll_append, h.records]
    exact h'.records
  patches := by
    obtain ⟨ks, hks, hwithin, hcount⟩ := h.patches
    obtain ⟨ks', hks', hwithin', hcount'⟩ := h'.patches
    refine ⟨ks ++ ks', by rw [hks', hks, List.append_assoc], fun k hk => ?_, fun u hu => ?_⟩
    · have := h.le
      have := h'.le
      rcases List.mem_append.mp hk with hk | hk
      · have := hwithin k hk
        omega
      · have := hwithin' k hk
        omega
    · rw [List.count_append]
      rcases List.mem_append.mp hu with hu | hu
      · have hnot : u.at_ ∉ ks' := fun hk => by
          have := hwithin' _ hk
          have := h.within u hu
          omega
        rw [hcount u hu, List.count_eq_zero_of_not_mem hnot, Nat.add_zero]
      · have hnot : u.at_ ∉ ks := fun hk => by
          have := hwithin _ hk
          have := h'.within u hu
          omega
        rw [hcount' u hu, List.count_eq_zero_of_not_mem hnot, Nat.zero_add]

theorem andThen (h : Lowered us l l₁) (h' : Lowered [] l₁ l₂) : Lowered us l l₂ := by
  simpa using h.trans h'

/-- An instruction that is no `break` or `continue`. -/
theorem emit (h : Lowered us l l₁) (i : Instr) : Lowered us l (l₁.emit i) where
  le := by
    have := h.le
    simp only [Lowering.toGen_emit, pc_emit]
    omega
  table := h.table
  keeps k hk := by
    have hlt : k < l₁.code.length := Nat.lt_of_lt_of_le hk h.le
    exact (List.getElem?_append_left hlt).trans (h.keeps k hk)
  within u hu := by
    have := h.within u hu
    simp only [Lowering.toGen_emit, pc_emit]
    omega
  nodup := h.nodup
  jumps u hu := (List.getElem?_append_left (h.within u hu).2).trans (h.jumps u hu)
  records := h.records
  patches := by
    obtain ⟨ks, hks, hwithin, hcount⟩ := h.patches
    refine ⟨ks, hks, fun k hk => ?_, hcount⟩
    have := hwithin k hk
    simp only [Lowering.toGen_emit, pc_emit]
    omega

/-- A target for a jump that is no `break` or `continue`. -/
theorem patch (h : Lowered us l l₁) {k : Nat} (hk : Free us l l₁ k) (p : Nat) :
    Lowered us l (l₁.patch k p) where
  le := by simpa using h.le
  table := h.table
  keeps j hj := by
    have hlo := hk.1
    rw [Lowering.toGen_patch, Gen.patch, getElem?_patch, if_neg (by omega)]
    exact h.keeps j hj
  within u hu := by simpa using h.within u hu
  nodup := h.nodup
  jumps u hu := by
    rw [Lowering.toGen_patch, Gen.patch, getElem?_patch, if_neg (hk.2.2 u hu)]
    exact h.jumps u hu
  records := h.records
  patches := by
    obtain ⟨ks, hks, hwithin, hcount⟩ := h.patches
    refine ⟨ks ++ [k], by simp [Lowering.patch, hks], fun j hj => ?_, fun u hu => ?_⟩
    · rw [Lowering.toGen_patch, pc_patch]
      rcases List.mem_append.mp hj with hj | hj
      · exact hwithin j hj
      · rw [List.mem_singleton.mp hj]
        exact ⟨hk.1, hk.2.1⟩
    · rw [List.count_append, hcount u hu, List.count_singleton]
      simp [Ne.symm (hk.2.2 u hu)]

theorem patchAll (h : Lowered us l l₁) {ks : List Nat} (hks : ∀ k ∈ ks, Free us l l₁ k)
    (p : Nat) : Lowered us l (l₁.patchAll ks p) := by
  induction ks generalizing l₁ with
  | nil => simpa [Lowering.patchAll, Gen.patchAll, Backpatch.patchAll] using h
  | cons k ks ih =>
      have hrest := ih (h.patch (hks k List.mem_cons_self) p) fun j hj =>
        (hks j (List.mem_cons_of_mem _ hj)).patch k p
      have hsame : (l₁.patch k p).patchAll ks p = l₁.patchAll (k :: ks) p := by
        simp [Lowering.patchAll, Lowering.patch, Gen.patchAll, Gen.patch, Backpatch.patchAll]
      rwa [hsame] at hrest

theorem jump {label : Option String} {continues : Bool} {frames : List LoopFrame}
    (h : recordJump label continues l.pc l.loopStack = some frames) :
    Lowered [⟨l.pc, .outside label continues⟩] l
      { l.emit (.jmp none) with loopStack := frames } where
  le := by simp [Gen.pc, Gen.emit]
  table := rfl
  keeps k hk := List.getElem?_append_left hk
  within u hu := by
    rw [List.mem_singleton.mp hu]
    simp [Gen.pc, Gen.emit]
  nodup := List.nodup_singleton _
  jumps u hu := by
    rw [List.mem_singleton.mp hu]
    simp [Gen.pc, Gen.emit, Dest.instr]
  records := by
    simp only [recordAll, h]
    rfl
  patches := by
    refine ⟨[], by simp [Lowering.emit], fun _ h => absurd h List.not_mem_nil, fun u hu => ?_⟩
    rw [List.mem_singleton.mp hu]
    rfl

/-- A construct that was entered and is left again. -/
theorem loop {continuable : Bool} (h : Lowered us (l.pushLoop continuable) l₁)
    (exitPc continuePc : Nat) :
    Lowered (us.map (·.close l.pendingLabel continuable exitPc continuePc)) l
      (l₁.popLoop exitPc continuePc) := by
  obtain ⟨frames', hframes, hrest⟩ := recordAll_cons h.records exitPc continuePc
  have hpop : (l₁.popLoop exitPc continuePc).code =
      Backpatch.patchAll (Backpatch.patchAll l₁.code
        (caught l.pendingLabel continuable false us) exitPc)
        (caught l.pendingLabel continuable true us) continuePc := by
    rw [Lowering.toGen_popLoop, Gen.popLoop, hframes]
    rfl
  have hpc : (l₁.popLoop exitPc continuePc).pc = l₁.pc := pc_popLoop _ _ _
  have hcode (k : Nat) (b : Bool) (hk : k < l.pc) :
      k ∉ caught l.pendingLabel continuable b us := fun hmem => by
    obtain ⟨u, hu, rfl⟩ := List.mem_map.mp hmem
    exact absurd (h.within u (List.mem_filter.mp hu).1).1 (Nat.not_le.mpr hk)
  refine ⟨?_, ?_, fun k hk => ?_, fun u hu => ?_, ?_, fun u hu => ?_, ?_, ?_⟩
  · rw [hpc]
    exact h.le
  · rw [Lowering.toGen_popLoop, Gen.popLoop, hframes]
    exact h.table
  · rw [hpop, getElem?_patchAll _ (nodup_caught h.nodup), if_neg (hcode k _ hk),
      getElem?_patchAll _ (nodup_caught h.nodup), if_neg (hcode k _ hk)]
    exact h.keeps k hk
  · obtain ⟨v, hv, rfl⟩ := List.mem_map.mp hu
    rw [hpc, Use.at_close]
    exact h.within v hv
  · rw [List.map_map]
    refine (congrArg List.Nodup (List.map_congr_left fun u _ => ?_)).mpr h.nodup
    exact Use.at_close u _ _
  · obtain ⟨v, hv, rfl⟩ := List.mem_map.mp hu
    rw [hpop, Use.at_close, getElem?_patchAll _ (nodup_caught h.nodup),
      getElem?_patchAll _ (nodup_caught h.nodup), h.jumps v hv]
    simp only [mem_caught h.nodup hv]
    obtain ⟨at_, dest⟩ := v
    cases dest with
    | pc target => simp [Use.caught, Use.close]
    | outside label continues =>
        by_cases hm : ({ label := l.pendingLabel, continuable } : LoopFrame).matches label continues
        · cases continues <;> simp [Use.caught, Use.close, hm, Dest.instr, Patchable.setTarget,
            Instr.setTarget]
        · simp [Use.caught, Use.close, hm]
  · rw [Lowering.toGen_popLoop, Gen.popLoop, hframes]
    exact hrest
  · obtain ⟨ks, hks, hwithin, hcount⟩ := h.patches
    refine ⟨ks ++ (caught l.pendingLabel continuable false us ++
      caught l.pendingLabel continuable true us), ?_, fun k hk => ?_, fun u hu => ?_⟩
    · simp [Lowering.popLoop, hframes, hks, Lowering.pushLoop, Gen.pushLoop]
    · rw [hpc]
      rcases List.mem_append.mp hk with hk | hk
      · exact hwithin k hk
      · rcases List.mem_append.mp hk with hk | hk
        all_goals
          obtain ⟨u, hu, rfl⟩ := List.mem_map.mp hk
          exact h.within u (List.mem_filter.mp hu).1
    · obtain ⟨v, hv, rfl⟩ := List.mem_map.mp hu
      rw [Use.at_close, List.count_append, List.count_append, hcount v hv,
        count_caught h.nodup hv, count_caught h.nodup hv]
      obtain ⟨at_, dest⟩ := v
      cases dest with
      | pc target => simp [Use.caught, Use.close, Use.isOutside]
      | outside label continues =>
          by_cases hm :
              ({ label := l.pendingLabel, continuable } : LoopFrame).matches label continues
          · cases continues <;> simp [Use.caught, Use.close, Use.isOutside, hm]
          · simp [Use.caught, Use.close, Use.isOutside, hm]

theorem setLabel (h : Lowered us l l₁) (label : Option String) :
    Lowered us l (l₁.setLabel label) := ⟨h.1, h.2, h.3, h.4, h.5, h.6, h.7, h.8⟩

theorem ofLabel {label : Option String} (h : Lowered us (l.setLabel label) l₁) :
    Lowered us l l₁ := ⟨h.1, h.2, h.3, h.4, h.5, h.6, h.7, h.8⟩

end Lowered

end RiceVM.Limbo.Flow
