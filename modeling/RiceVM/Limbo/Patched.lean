import RiceVM.Limbo.Statements

/-!
Backpatching. The compiler emits a jump before it knows the target, and patches the destination
when it has the target; the jumps out of a loop wait on a stack until the loop is left. Whatever
way the jumps of a program interleave with its loops, the code is the one that is generated with
the targets known.
-/
namespace RiceVM.Limbo.Numbers
open Exec Memory Ops Assembly

/-! ### The draft -/

def retarget (target : Nat) (i : Instruction) : Instruction :=
  { i with destination := (Arg.imm (.ofUsize target)).operand }

/-- The jumps that wait for the end of a loop. -/
structure Waiting where
  breaks : List Nat
  continues : List Nat
  deriving DecidableEq, Repr

/-- The code so far, the first free offset and the loops around, the innermost first. -/
structure Draft where
  code : List Instruction
  next : Nat
  loopStack : List Waiting
  deriving DecidableEq, Repr

def patch (target : Nat) (code : List Instruction) (idx : Nat) : List Instruction :=
  code.modify idx (retarget target)

namespace Draft

def pc (g : Draft) : Nat := g.code.length

def emit (g : Draft) (i : Instruction) : Draft := { g with code := g.code ++ [i] }

/-- A block that was generated for the current offset. -/
def append (g : Draft) (o : List Instruction × Nat) : Draft :=
  { g with code := g.code ++ o.1, next := o.2 }

def patch (g : Draft) (idx target : Nat) : Draft :=
  { g with code := Numbers.patch target g.code idx }

/-- `alloc_temp`, and the condition into it. -/
def genCond (g : Draft) (c : Num) : Option Draft :=
  (c.gen g.next (g.next + 4) g.pc).map g.append

def pushLoop (g : Draft) : Draft := { g with loopStack := ⟨[], []⟩ :: g.loopStack }

def popLoop (g : Draft) (exitPc continuePc : Nat) : Draft :=
  match g.loopStack with
  | [] => g
  | frame :: rest =>
    { g with
      code := frame.continues.foldl (Numbers.patch continuePc)
        (frame.breaks.foldl (Numbers.patch exitPc) g.code)
      loopStack := rest }

def record (g : Draft) (n : Nat) (f : Waiting → Waiting) : Option Draft :=
  if n < g.loopStack.length then
    some { g with code := g.code ++ [jump 0], loopStack := g.loopStack.modify n f }
  else none

end Draft

/-- `gen_stmt` as the compiler runs it: `gen_if`, `gen_while`, `gen_for` after its first statement,
`gen_do`, `gen_break` and `gen_continue`. -/
def NumStmt.emit : NumStmt → Draft → Option Draft
  | .skip, g => some g
  | .assign off kind e, g => (genToKind e.kind kind e.gen off g.next g.pc).map g.append
  | .seq s t, g => (s.emit g).bind t.emit
  | .ifThen c t, g => do
    let condTmp := g.next
    let g ← g.genCond c
    let jumpIdx := g.pc
    let g ← t.emit (g.emit (leaveUnless condTmp 0))
    some (g.patch jumpIdx g.pc)
  | .ifElse c t e, g => do
    let condTmp := g.next
    let g ← g.genCond c
    let jumpIdx := g.pc
    let g ← t.emit (g.emit (leaveUnless condTmp 0))
    let skipIdx := g.pc
    let g := g.emit (jump 0)
    let g ← e.emit (g.patch jumpIdx g.pc)
    some (g.patch skipIdx g.pc)
  | .whileLoop c body, g => do
    let g := g.pushLoop
    let loopStart := g.pc
    let condTmp := g.next
    let g ← g.genCond c
    let jumpIdx := g.pc
    let g ← body.emit (g.emit (leaveUnless condTmp 0))
    let g := g.emit (jump loopStart)
    some ((g.patch jumpIdx g.pc).popLoop g.pc loopStart)
  | .forLoop c post body, g => do
    let g := g.pushLoop
    let loopStart := g.pc
    let condTmp := g.next
    let g ← g.genCond c
    let jumpIdx := g.pc
    let g ← body.emit (g.emit (leaveUnless condTmp 0))
    let continuePc := g.pc
    let g ← post.emit g
    let g := g.emit (jump loopStart)
    some ((g.patch jumpIdx g.pc).popLoop g.pc continuePc)
  | .doLoop body c, g => do
    let g := g.pushLoop
    let loopStart := g.pc
    let g ← body.emit g
    let continuePc := g.pc
    let condTmp := g.next
    let g ← g.genCond c
    let g := g.emit (repeatIf condTmp loopStart)
    some (g.popLoop g.pc continuePc)
  | .brk n, g => g.record n fun frame => { frame with breaks := frame.breaks ++ [g.pc] }
  | .cont n, g => g.record n fun frame => { frame with continues := frame.continues ++ [g.pc] }

/-! ### Settled code -/

variable {fs : List Waiting} {f : Waiting} {ls : List Targets} {l : Targets}
  {code rest : List Instruction} {idx k n t u : Nat}

theorem patchAll_getElem? (ks : List Nat) (code : List Instruction) (k : Nat) :
    (ks.foldl (patch t) code)[k]? = if k ∈ ks then code[k]?.map (retarget t) else code[k]? := by
  induction ks generalizing code with
  | nil => rfl
  | cons j ks ih =>
      rw [List.foldl_cons, ih, patch, List.getElem?_modify]
      cases hi : code[k]? with
      | none => simp
      | some i =>
          by_cases hj : j = k
          · subst hj
            by_cases hks : j ∈ ks
            · simp only [hks, ite_true, List.mem_cons, or_true]
              rfl
            · simp only [hks, ite_true, ite_false, List.mem_cons, or_false]
              rfl
          · have hne : ¬k = j := fun h => hj h.symm
            simp [hj, hne]

/-- The loop patches its continues last. -/
def Waiting.target (f : Waiting) (l : Targets) (k : Nat) : Option Nat :=
  if k ∈ f.continues then some l.again else if k ∈ f.breaks then some l.exit else none

/-- Where a jump will go. The outer loop patches last. -/
def target : List Waiting → List Targets → Nat → Option Nat
  | f :: fs, l :: ls, k => (target fs ls k).or (f.target l k)
  | _, _, _ => none

/-- The code as it will be when all loops around it are left. -/
def settle (fs : List Waiting) (ls : List Targets) (code : List Instruction) : List Instruction :=
  code.mapIdx fun k i => (target fs ls k).elim i (retarget · i)

/-- A jump that waits. -/
def Waits (fs : List Waiting) (k : Nat) : Prop := ∃ f ∈ fs, k ∈ f.breaks ∨ k ∈ f.continues

theorem target_eq_none (h : ¬Waits fs k) : target fs ls k = none := by
  induction fs generalizing ls with
  | nil => rfl
  | cons f fs ih =>
      cases ls with
      | nil => rfl
      | cons l ls =>
          have hrest : ¬Waits fs k := fun hw => by
            obtain ⟨f', hmem, hk⟩ := hw
            exact h ⟨f', List.mem_cons_of_mem f hmem, hk⟩
          have hbreaks : k ∉ f.breaks := fun hk => h ⟨f, List.mem_cons_self, .inl hk⟩
          have hcontinues : k ∉ f.continues := fun hk => h ⟨f, List.mem_cons_self, .inr hk⟩
          rw [target, ih hrest, Option.none_or, Waiting.target, if_neg hcontinues, if_neg hbreaks]

@[simp] theorem settle_length (code : List Instruction) :
    (settle fs ls code).length = code.length := List.length_mapIdx

theorem settle_getElem? (code : List Instruction) (k : Nat) :
    (settle fs ls code)[k]? = code[k]?.map fun i => (target fs ls k).elim i (retarget · i) :=
  List.getElem?_mapIdx

/-- Code that no jump waits in. -/
theorem settle_append (h : ∀ k, Waits fs k → k < code.length) (rest : List Instruction) :
    settle fs ls (code ++ rest) = settle fs ls code ++ rest := by
  refine List.ext_getElem? fun k => ?_
  rw [settle_getElem?]
  by_cases hk : k < code.length
  · rw [List.getElem?_append_left hk, List.getElem?_append_left (by rwa [settle_length]),
      settle_getElem?]
  · rw [List.getElem?_append_right (Nat.le_of_not_lt hk),
      List.getElem?_append_right (by rw [settle_length]; exact Nat.le_of_not_lt hk),
      settle_length, target_eq_none fun hw => hk (h k hw)]
    exact Option.map_id_apply

theorem settle_push (l : Targets) : settle (⟨[], []⟩ :: fs) (l :: ls) code = settle fs ls code := by
  refine List.ext_getElem? fun k => ?_
  have hnone : Waiting.target ⟨[], []⟩ l k = none := rfl
  rw [settle_getElem?, settle_getElem?, target, hnone, Option.or_none]

theorem settle_patch (h : ¬Waits fs idx) :
    settle fs ls (patch t code idx) = patch t (settle fs ls code) idx := by
  refine List.ext_getElem? fun k => ?_
  rw [settle_getElem?, patch, patch, List.getElem?_modify, List.getElem?_modify, settle_getElem?]
  by_cases hk : idx = k
  · subst hk
    rw [target_eq_none h]
    cases code[idx]? with
    | none => rfl
    | some i => simp
  · cases code[k]? with
    | none => rfl
    | some i => simp [hk]

/-- What is patched when a loop is left is what was waiting for its end. -/
theorem settle_popLoop (code : List Instruction) :
    settle fs ls (f.continues.foldl (patch l.again) (f.breaks.foldl (patch l.exit) code)) =
      settle (f :: fs) (l :: ls) code := by
  refine List.ext_getElem? fun k => ?_
  rw [settle_getElem?, settle_getElem?, patchAll_getElem?, patchAll_getElem?, target,
    Waiting.target]
  cases code[k]? with
  | none => simp
  | some i =>
      cases target fs ls k with
      | none => by_cases hc : k ∈ f.continues <;> by_cases hb : k ∈ f.breaks <;> simp [hc, hb]; rfl
      | some v =>
          by_cases hc : k ∈ f.continues <;> by_cases hb : k ∈ f.breaks <;> simp [hc, hb] <;> rfl

/-- A new jump waits for the `n`-th loop. -/
theorem target_modify {add : Waiting → Waiting} (h : ¬Waits fs k) (hlength : ls.length = fs.length)
    (hn : n < fs.length) (hadd : ∀ f ∈ fs, (add f).target (ls.get ⟨n, hlength ▸ hn⟩) k = some t) :
    target (fs.modify n add) ls k = some t := by
  induction fs generalizing n ls with
  | nil => cases hn
  | cons f fs ih =>
      cases ls with
      | nil => cases hlength
      | cons l ls =>
          have hrest : ¬Waits fs k := fun hw => by
            obtain ⟨f', hmem, hk⟩ := hw
            exact h ⟨f', List.mem_cons_of_mem f hmem, hk⟩
          cases n with
          | zero =>
              have hf := hadd f List.mem_cons_self
              change ((target fs ls k).or ((add f).target l k)) = some t
              rw [target_eq_none hrest, Option.none_or]
              exact hf
          | succ n =>
              have htail := ih hrest (Nat.succ.inj hlength) (Nat.lt_of_succ_lt_succ hn)
                fun f' hmem => hadd f' (List.mem_cons_of_mem f hmem)
              change ((target (fs.modify n add) ls k).or (f.target l k)) = some t
              rw [htail]
              rfl

/-- Nothing else changes. -/
theorem target_modify_of_ne {add : Waiting → Waiting}
    (hadd : ∀ f l, (add f).target l k = f.target l k) (n : Nat) :
    target (fs.modify n add) ls k = target fs ls k := by
  induction fs generalizing n ls with
  | nil => rw [List.modify_nil]
  | cons f fs ih =>
      cases ls with
      | nil => cases n <;> rfl
      | cons l ls =>
          cases n with
          | zero =>
              change (target fs ls k).or ((add f).target l k) = _
              rw [hadd]
              rfl
          | succ n =>
              change (target (fs.modify n add) ls k).or (f.target l k) = _
              rw [ih]
              rfl

/-- A jump that was just emitted. -/
theorem settle_record {add : Waiting → Waiting} (h : ∀ k, Waits fs k → k < code.length)
    (hlength : ls.length = fs.length) (hn : n < fs.length)
    (hadd : ∀ f ∈ fs, (add f).target (ls.get ⟨n, hlength ▸ hn⟩) code.length = some t)
    (hother : ∀ k f l, k ≠ code.length → (add f).target l k = f.target l k) :
    settle (fs.modify n add) ls (code ++ [jump 0]) = settle fs ls code ++ [jump t] := by
  refine List.ext_getElem? fun k => ?_
  rw [settle_getElem?]
  rcases Nat.lt_trichotomy k code.length with hk | rfl | hk
  · rw [List.getElem?_append_left hk, List.getElem?_append_left (by rwa [settle_length]),
      settle_getElem?, target_modify_of_ne (fun f l => hother k f l (Nat.ne_of_lt hk))]
  · have hfree : ¬Waits fs code.length := fun hw => Nat.lt_irrefl _ (h _ hw)
    rw [List.getElem?_append_right (Nat.le_refl _),
      List.getElem?_append_right (by rw [settle_length]), settle_length, Nat.sub_self,
      target_modify hfree hlength hn hadd]
    rfl
  · rw [List.getElem?_eq_none (by simp; omega), List.getElem?_eq_none (by simp; omega)]
    rfl

/-! ### What is emitted -/

variable {g g' g'' : Draft} {b b' pre post : List Targets → List Instruction} {i : Instruction}

/-- From one draft to a longer one: what is added to the settled code, by the targets of the loops
around. -/
structure Extends (g g' : Draft) (b : List Targets → List Instruction) : Prop where
  depth : g'.loopStack.length = g.loopStack.length
  below : ∀ k, Waits g'.loopStack k → k < g'.pc
  grown : ∀ k, Waits g'.loopStack k → Waits g.loopStack k ∨ g.pc ≤ k
  settled : ∀ loops : List Targets, loops.length = g.loopStack.length →
    settle g'.loopStack loops g'.code = settle g.loopStack loops g.code ++ b loops

theorem patch_length (code : List Instruction) : (patch t code idx).length = code.length :=
  List.length_modify ..

theorem patchAll_length (ks : List Nat) (code : List Instruction) :
    (ks.foldl (patch t) code).length = code.length := by
  induction ks generalizing code with
  | nil => rfl
  | cons j ks ih => rw [List.foldl_cons, ih, patch_length]

theorem patch_append (pre : List Instruction) (i : Instruction) (post : List Instruction) :
    patch t (pre ++ i :: post) pre.length = pre ++ retarget t i :: post := by
  induction pre with
  | nil => rfl
  | cons j pre ih => exact congrArg (j :: ·) ih

namespace Extends

theorem pc_eq (h : Extends g g' b) {loops : List Targets}
    (hloops : loops.length = g.loopStack.length) : g'.pc = g.pc + (b loops).length := by
  have hlength := congrArg List.length (h.settled loops hloops)
  rw [settle_length, List.length_append, settle_length] at hlength
  exact hlength

theorem le (h : Extends g g' b) : g.pc ≤ g'.pc := by
  have hloops : (List.replicate g.loopStack.length unpatched).length = g.loopStack.length :=
    List.length_replicate
  exact Nat.le.intro (h.pc_eq hloops).symm

theorem append (h : ∀ k, Waits g.loopStack k → k < g.pc) (o : List Instruction × Nat) :
    Extends g (g.append o) fun _ => o.1 where
  depth := rfl
  below k hk := by
    have hlt := h k hk
    have hlength : (g.append o).pc = g.pc + o.1.length := List.length_append
    omega
  grown k hk := .inl hk
  settled loops _ := settle_append h o.1

theorem emit (h : ∀ k, Waits g.loopStack k → k < g.pc) (i : Instruction) :
    Extends g (g.emit i) fun _ => [i] := append h ([i], g.next)

theorem trans (h : Extends g g' b) (h' : Extends g' g'' b') :
    Extends g g'' fun loops => b loops ++ b' loops where
  depth := h'.depth.trans h.depth
  below := h'.below
  grown k hk := by
    rcases h'.grown k hk with hold | hnew
    · exact h.grown k hold
    · exact .inr (Nat.le_trans h.le hnew)
  settled loops hloops := by
    rw [h'.settled loops (hloops.trans h.depth.symm), h.settled loops hloops, List.append_assoc]

/-- What was emitted in between does not wait where a jump was left open. -/
theorem not_waits (h : ∀ k, Waits g.loopStack k → k < g.pc) (h' : Extends (g.emit i) g' b) :
    ¬Waits g'.loopStack g.pc := by
  intro hw
  rcases h'.grown g.pc hw with hold | hnew
  · exact Nat.lt_irrefl _ (h g.pc hold)
  · have hlength : (g.emit i).pc = g.pc + 1 := List.length_append
    omega

theorem patch (h : Extends g g' b) (hidx : ¬Waits g'.loopStack idx) (t : Nat)
    (hb : ∀ loops : List Targets, loops.length = g.loopStack.length →
      b loops = pre loops ++ i :: post loops ∧ idx = g.pc + (pre loops).length) :
    Extends g (g'.patch idx t) fun loops => pre loops ++ retarget t i :: post loops where
  depth := h.depth
  below k hk := by
    have hlength : (g'.patch idx t).pc = g'.pc := patch_length g'.code
    rw [hlength]
    exact h.below k hk
  grown := h.grown
  settled loops hloops := by
    obtain ⟨hblock, hpc⟩ := hb loops hloops
    have hhole : idx = (settle g.loopStack loops g.code ++ pre loops).length := by
      rw [List.length_append, settle_length]
      exact hpc
    change settle g'.loopStack loops (Numbers.patch t g'.code idx) = _
    rw [settle_patch hidx, h.settled loops hloops, hblock, ← List.append_assoc, hhole, patch_append,
      List.append_assoc]

/-- A branch over what follows it. -/
theorem guarded (h : Extends g g' b) (h' : Extends (g'.emit i) g'' b') (t : Nat) :
    Extends g (g''.patch g'.pc t) fun loops => b loops ++ retarget t i :: b' loops :=
  ((h.trans (emit h.below i)).trans h').patch (not_waits h.below h') t fun loops hloops =>
    ⟨by rw [List.append_assoc]; rfl, h.pc_eq hloops⟩

/-- The jumps of the loop that is left are patched, and the others still wait. -/
theorem popLoop (h : Extends g.pushLoop g' b) (exit again : Nat) :
    Extends g (g'.popLoop exit again) fun loops => b (⟨exit, again⟩ :: loops) := by
  obtain ⟨code, next, fs⟩ := g'
  have hdepth : fs.length = g.loopStack.length + 1 := h.depth
  cases fs with
  | nil => cases hdepth
  | cons f fs =>
      have hwaits : ∀ k, Waits fs k → Waits (f :: fs) k := fun k hk => by
        obtain ⟨f', hmem, hk⟩ := hk
        exact ⟨f', List.mem_cons_of_mem f hmem, hk⟩
      refine ⟨Nat.succ.inj hdepth, fun k hk => ?_, fun k hk => ?_, fun loops hloops => ?_⟩
      · change k < (f.continues.foldl _ (f.breaks.foldl _ code)).length
        rw [patchAll_length, patchAll_length]
        exact h.below k (hwaits k hk)
      · rcases h.grown k (hwaits k hk) with hold | hnew
        · obtain ⟨f', hmem, hin⟩ := hold
          rcases List.mem_cons.mp hmem with rfl | hmem
          · rcases hin with hin | hin <;> cases hin
          · exact .inl ⟨f', hmem, hin⟩
        · exact .inr hnew
      · have hsettled := h.settled (⟨exit, again⟩ :: loops) (congrArg Nat.succ hloops)
        change settle (f :: fs) (⟨exit, again⟩ :: loops) code =
          settle (⟨[], []⟩ :: g.loopStack) (⟨exit, again⟩ :: loops) g.code ++ _ at hsettled
        rw [settle_push] at hsettled
        rw [← hsettled]
        exact settle_popLoop (l := ⟨exit, again⟩) code

/-- A jump that waits for the `n`-th loop. -/
theorem record {add : Waiting → Waiting} {dest : Targets → Nat} (hn : n < g.loopStack.length)
    (h : ∀ k, Waits g.loopStack k → k < g.pc)
    (hadd : ∀ f l, f ∈ g.loopStack → (add f).target l g.pc = some (dest l))
    (hother : ∀ k f l, k ≠ g.pc → (add f).target l k = f.target l k)
    (hmem : ∀ f k, k ∈ (add f).breaks ∨ k ∈ (add f).continues →
      (k ∈ f.breaks ∨ k ∈ f.continues) ∨ k = g.pc) :
    ∃ g', g.record n add = some g' ∧ g'.next = g.next ∧
      Extends g g' fun loops => [jump ((loops[n]?.map dest).getD 0)] := by
  have hwaits : ∀ k, Waits (g.loopStack.modify n add) k → Waits g.loopStack k ∨ k = g.pc := by
    intro k hk
    obtain ⟨f, hf, hin⟩ := hk
    obtain ⟨j, hj⟩ := List.mem_iff_getElem?.mp hf
    rw [List.getElem?_modify] at hj
    cases hold : g.loopStack[j]? with
    | none =>
        rw [hold] at hj
        cases hj
    | some f' =>
        rw [hold] at hj
        have hf' := List.mem_of_getElem? hold
        by_cases hnj : n = j
        · simp only [hnj, ite_true] at hj
          obtain rfl := Option.some.inj hj
          rcases hmem f' k hin with hin | rfl
          · exact .inl ⟨f', hf', hin⟩
          · exact .inr rfl
        · simp only [hnj, ite_false] at hj
          obtain rfl := Option.some.inj hj
          exact .inl ⟨f', hf', hin⟩
  refine ⟨_, if_pos hn, rfl, List.length_modify .., fun k hk => ?_, fun k hk => ?_,
    fun loops hloops => ?_⟩
  · have hlength : (g.code ++ [jump 0]).length = g.pc + 1 := List.length_append
    change k < (g.code ++ [jump 0]).length
    rcases hwaits k hk with hold | rfl
    · have hlt := h k hold
      omega
    · omega
  · rcases hwaits k hk with hold | rfl
    · exact .inl hold
    · exact .inr (Nat.le_refl _)
  · have hn' : n < loops.length := hloops ▸ hn
    rw [List.getElem?_eq_getElem hn']
    exact settle_record h hloops hn (fun f hf => hadd f _ hf) hother

end Extends

/-! ### The two ways to the code -/

variable {vars : List (Nat × NumKind)} {locals depth : Nat} {s : NumStmt} {c : Num}

theorem Draft.pc_emit (g : Draft) (i : Instruction) : (g.emit i).pc = g.pc + 1 :=
  List.length_append

@[simp] theorem Draft.pushLoop_next (g : Draft) : g.pushLoop.next = g.next := rfl
@[simp] theorem Draft.pushLoop_pc (g : Draft) : g.pushLoop.pc = g.pc := rfl

@[simp] theorem Draft.popLoop_next (g : Draft) (exit again : Nat) :
    (g.popLoop exit again).next = g.next := by
  rw [popLoop]
  split <;> rfl

theorem waits_pushLoop (h : ∀ k, Waits g.loopStack k → k < g.pc) :
    ∀ k, Waits g.pushLoop.loopStack k → k < g.pushLoop.pc := by
  intro k hk
  obtain ⟨f, hmem, hin⟩ := hk
  rcases List.mem_cons.mp hmem with rfl | hmem
  · rcases hin with hin | hin <;> cases hin
  · exact h k ⟨f, hmem, hin⟩

/-- The condition goes into a temporary of its own. -/
theorem Draft.genCond_exists (hc : c.kind = .word ∧ c.Formed vars locals) (hle : locals ≤ g.next)
    (h : ∀ k, Waits g.loopStack k → k < g.pc) :
    ∃ codeC g', g.genCond c = some g' ∧ g.next ≤ g'.next ∧
      c.gen g.next (g.next + 4) g.pc = some (codeC, g'.next) ∧ Extends g g' fun _ => codeC := by
  obtain ⟨codeC, free, hgen, hfree⟩ := Num.condition_gen hc hle g.pc
  refine ⟨codeC, g.append (codeC, free), ?_, ?_, hgen, .append h _⟩
  · rw [genCond, hgen]
    rfl
  · exact Nat.le_trans (Nat.le_add_right _ _) hfree

/-- By induction on the program. -/
theorem NumStmt.emit_exists (hvars : Layout vars locals) (hs : s.Formed vars locals depth)
    (hle : locals ≤ g.next) (hdepth : g.loopStack.length = depth)
    (h : ∀ k, Waits g.loopStack k → k < g.pc) :
    ∃ g' b, s.emit g = some g' ∧ g.next ≤ g'.next ∧ Extends g g' b ∧
      ∀ loops : List Targets, loops.length = depth →
        s.gen loops g.next g.pc = some (b loops, g'.next) := by
  induction s generalizing depth g with
  | skip =>
      have hnil : Extends g g fun _ => [] :=
        ⟨rfl, h, fun k hk => .inl hk, fun loops _ => (List.append_nil _).symm⟩
      exact ⟨g, _, rfl, Nat.le_refl _, hnil, fun loops _ => rfl⟩
  | assign off kind e =>
      have hbelow := hvars.below hs.1
      obtain ⟨block, free, hgen, hfree, -⟩ := computes_assigned e hvars hs.1 hs.2.supported off g.next g.pc
        (hs.2.placed.mono hle) (by omega)
      refine ⟨g.append (block, free), _, ?_, hfree, .append h _, fun loops _ => hgen⟩
      rw [emit, hgen]
      rfl
  | seq s t ihs iht =>
      obtain ⟨g₁, b, hemit, hnext, hext, hgen⟩ := ihs hs.1 hle hdepth h
      obtain ⟨g₂, b', hemit', hnext', hext', hgen'⟩ :=
        iht hs.2 (Nat.le_trans hle hnext) (hext.depth.trans hdepth) hext.below
      refine ⟨g₂, _, ?_, Nat.le_trans hnext hnext', hext.trans hext', fun loops hloops => ?_⟩
      · rw [emit, hemit]
        exact hemit'
      · have hpc := hext.pc_eq (hloops.trans hdepth.symm)
        exact gen_seq (hgen loops hloops) (hpc ▸ hgen' loops hloops)
  | ifThen c t iht =>
      obtain ⟨codeC, g₁, hcond, hnext₁, hgenC, hextC⟩ := Draft.genCond_exists hs.1 hle h
      have hextL := hextC.trans (.emit hextC.below (leaveUnless g.next 0))
      obtain ⟨g₂, b, hemit, hnext, hext, hgen⟩ := iht (g := g₁.emit (leaveUnless g.next 0)) hs.2
        (Nat.le_trans hle hnext₁) (hextL.depth.trans hdepth) hextL.below
      refine ⟨g₂.patch g₁.pc g₂.pc, _, ?_, Nat.le_trans hnext₁ hnext, hextC.guarded hext g₂.pc,
        fun loops hloops => ?_⟩
      · simp only [emit, hcond, hemit, Option.bind_eq_bind, Option.bind_some]
      · have hstack := hloops.trans hdepth.symm
        have hstart : (g₁.emit (leaveUnless g.next 0)).pc = g.pc + codeC.length + 1 := by
          rw [Draft.pc_emit, hextC.pc_eq hstack]
        have hend := hext.pc_eq (hstack.trans hextL.depth.symm)
        have hgenT := hgen loops hloops
        rw [hstart] at hend hgenT
        rw [hend]
        exact gen_ifThen hgenC hgenT
  | ifElse c t e iht ihe =>
      obtain ⟨codeC, g₁, hcond, hnext₁, hgenC, hextC⟩ := Draft.genCond_exists hs.1 hle h
      have hextL := hextC.trans (.emit hextC.below (leaveUnless g.next 0))
      obtain ⟨g₂, b, hemit, hnext, hext, hgen⟩ := iht (g := g₁.emit (leaveUnless g.next 0)) hs.2.1
        (Nat.le_trans hle hnext₁) (hextL.depth.trans hdepth) hextL.below
      have hextJ := hext.trans (.emit hext.below (jump 0))
      let g₃ := (g₂.emit (jump 0)).patch g₁.pc (g₂.emit (jump 0)).pc
      have hextG : Extends g g₃ _ := hextC.guarded hextJ (g₂.emit (jump 0)).pc
      obtain ⟨g₄, b', hemit', hnext', hext', hgen'⟩ := ihe (g := g₃) hs.2.2
        (Nat.le_trans hle (Nat.le_trans hnext₁ hnext)) (hextG.depth.trans hdepth) hextG.below
      have hother : g₃.pc = g₂.pc + 1 := (patch_length _).trans (Draft.pc_emit g₂ _)
      have hskip : ¬Waits g₄.loopStack g₂.pc := fun hw => by
        rcases hext'.grown g₂.pc hw with hold | hnew
        · exact Nat.lt_irrefl _ (hext.below g₂.pc hold)
        · omega
      have hpcs : ∀ loops : List Targets, loops.length = g.loopStack.length →
          g₂.pc = g.pc + codeC.length + 1 + (b loops).length := by
        intro loops hloops
        rw [hext.pc_eq (hloops.trans hextL.depth.symm), Draft.pc_emit, hextC.pc_eq hloops]
      have hall : Extends g (g₄.patch g₂.pc g₄.pc) fun loops =>
          (codeC ++ leaveUnless g.next (g₂.emit (jump 0)).pc :: b loops) ++
            retarget g₄.pc (jump 0) :: b' loops := by
        refine (hextG.trans hext').patch hskip g₄.pc fun loops hloops => ⟨?_, ?_⟩
        · rw [List.append_assoc, List.append_assoc, List.cons_append, List.cons_append,
            List.append_assoc]
          rfl
        · rw [hpcs loops hloops, List.length_append, List.length_cons]
          omega
      refine ⟨g₄.patch g₂.pc g₄.pc, _, ?_, Nat.le_trans hnext₁ (Nat.le_trans hnext hnext'), hall,
        fun loops hloops => ?_⟩
      · simp only [emit, hcond, hemit, Option.bind_eq_bind, Option.bind_some]
        exact congrArg (Option.bind · _) hemit'
      · have hstack := hloops.trans hdepth.symm
        have hend := hext'.pc_eq (hstack.trans hextG.depth.symm)
        have hgenT := hgen loops hloops
        have hgenE := hgen' loops hloops
        have hstart : (g₁.emit (leaveUnless g.next 0)).pc = g.pc + codeC.length + 1 := by
          rw [Draft.pc_emit, hextC.pc_eq hstack]
        rw [hother, hpcs loops hstack] at hend hgenE
        rw [hstart] at hgenT
        rw [Draft.pc_emit, hpcs loops hstack, hend, List.append_assoc]
        exact gen_ifElse hgenC hgenT hgenE
  | whileLoop c body ihb =>
      obtain ⟨codeC, g₁, hcond, hnext₁, hgenC, hextC⟩ :=
        Draft.genCond_exists (g := g.pushLoop) hs.1 hle (waits_pushLoop h)
      have hextL := hextC.trans (.emit hextC.below (leaveUnless g.next 0))
      obtain ⟨g₂, b, hemit, hnext, hext, hgen⟩ := ihb (g := g₁.emit (leaveUnless g.next 0)) hs.2
        (Nat.le_trans hle hnext₁) (hextL.depth.trans (congrArg Nat.succ hdepth)) hextL.below
      have hextJ := hext.trans (.emit hext.below (jump g.pc))
      let exit := (g₂.emit (jump g.pc)).pc
      refine ⟨((g₂.emit (jump g.pc)).patch g₁.pc exit).popLoop exit g.pc, _, ?_, ?_,
        (hextC.guarded hextJ exit).popLoop exit g.pc, fun loops hloops => ?_⟩
      · simp only [emit, Draft.pushLoop_next, Draft.pushLoop_pc, hcond, hemit,
          Option.bind_eq_bind, Option.bind_some]
        rfl
      · rw [Draft.popLoop_next]
        exact Nat.le_trans hnext₁ hnext
      · have hstack : ∀ l : Targets, (l :: loops).length = g.pushLoop.loopStack.length :=
          fun l => congrArg Nat.succ (hloops.trans hdepth.symm)
        have hstart : (g₁.emit (leaveUnless g.next 0)).pc = g.pc + codeC.length + 1 := by
          rw [Draft.pc_emit, hextC.pc_eq (hstack unpatched)]
          rfl
        have hexit : exit = g.pc + codeC.length + 1 + (b (unpatched :: loops)).length + 1 := by
          rw [← hstart, ← hext.pc_eq ((hstack unpatched).trans hextL.depth.symm)]
          exact Draft.pc_emit g₂ _
        have hgenB := fun l : Targets => hgen (l :: loops) (congrArg Nat.succ hloops)
        rw [hstart] at hgenB
        rw [Draft.popLoop_next, hexit]
        exact gen_whileLoop hgenC (hgenB unpatched) (hgenB _)
  | forLoop c post body ihp ihb =>
      obtain ⟨codeC, g₁, hcond, hnext₁, hgenC, hextC⟩ :=
        Draft.genCond_exists (g := g.pushLoop) hs.1 hle (waits_pushLoop h)
      have hextL := hextC.trans (.emit hextC.below (leaveUnless g.next 0))
      obtain ⟨g₂, b, hemit, hnext, hext, hgen⟩ := ihb (g := g₁.emit (leaveUnless g.next 0)) hs.2.2
        (Nat.le_trans hle hnext₁) (hextL.depth.trans (congrArg Nat.succ hdepth)) hextL.below
      have hextB := hextL.trans hext
      obtain ⟨g₃, b', hemit', hnext', hext', hgen'⟩ := ihp hs.2.1
        (Nat.le_trans hle (Nat.le_trans hnext₁ hnext))
        (hextB.depth.trans (congrArg Nat.succ hdepth)) hextB.below
      have hextJ := hext.trans (hext'.trans (.emit hext'.below (jump g.pc)))
      let exit := (g₃.emit (jump g.pc)).pc
      refine ⟨((g₃.emit (jump g.pc)).patch g₁.pc exit).popLoop exit g₂.pc, _, ?_, ?_,
        (hextC.guarded hextJ exit).popLoop exit g₂.pc, fun loops hloops => ?_⟩
      · simp only [emit, Draft.pushLoop_next, Draft.pushLoop_pc, hcond, hemit, hemit',
          Option.bind_eq_bind, Option.bind_some]
        rfl
      · rw [Draft.popLoop_next]
        exact Nat.le_trans hnext₁ (Nat.le_trans hnext hnext')
      · have hstack : ∀ l : Targets, (l :: loops).length = g.pushLoop.loopStack.length :=
          fun l => congrArg Nat.succ (hloops.trans hdepth.symm)
        have hstart : (g₁.emit (leaveUnless g.next 0)).pc = g.pc + codeC.length + 1 := by
          rw [Draft.pc_emit, hextC.pc_eq (hstack unpatched)]
          rfl
        have hagain : g₂.pc = g.pc + codeC.length + 1 + (b (unpatched :: loops)).length := by
          rw [← hstart, ← hext.pc_eq ((hstack unpatched).trans hextL.depth.symm)]
        have hexit : exit = g.pc + codeC.length + 1 + (b (unpatched :: loops)).length +
            (b' (unpatched :: loops)).length + 1 := by
          rw [← hagain, ← hext'.pc_eq ((hstack unpatched).trans hextB.depth.symm)]
          exact Draft.pc_emit g₃ _
        have hgenB := fun l : Targets => hgen (l :: loops) (congrArg Nat.succ hloops)
        have hgenP := fun l : Targets => hgen' (l :: loops) (congrArg Nat.succ hloops)
        rw [hstart] at hgenB
        rw [hagain] at hgenP
        rw [Draft.popLoop_next, hexit, hagain]
        exact gen_forLoop hgenC (hgenB unpatched) (hgenP unpatched) (hgenB _) (hgenP _)
  | doLoop body c ihb =>
      obtain ⟨g₁, b, hemit, hnext, hext, hgen⟩ := ihb (g := g.pushLoop) hs.2 hle
        (congrArg Nat.succ hdepth) (waits_pushLoop h)
      obtain ⟨codeC, g₂, hcond, hnext', hgenC, hextC⟩ :=
        Draft.genCond_exists hs.1 (Nat.le_trans hle hnext) hext.below
      have hextR := hext.trans (hextC.trans (.emit hextC.below (repeatIf g₁.next g.pc)))
      let exit := (g₂.emit (repeatIf g₁.next g.pc)).pc
      refine ⟨(g₂.emit (repeatIf g₁.next g.pc)).popLoop exit g₁.pc, _, ?_, ?_,
        hextR.popLoop exit g₁.pc, fun loops hloops => ?_⟩
      · simp only [emit, Draft.pushLoop_pc, hcond, hemit, Option.bind_eq_bind, Option.bind_some]
        rfl
      · rw [Draft.popLoop_next]
        exact Nat.le_trans hnext hnext'
      · have hstack : ∀ l : Targets, (l :: loops).length = g.pushLoop.loopStack.length :=
          fun l => congrArg Nat.succ (hloops.trans hdepth.symm)
        have hagain : g₁.pc = g.pc + (b (unpatched :: loops)).length :=
          hext.pc_eq (hstack unpatched)
        have hexit : exit = g.pc + (b (unpatched :: loops)).length + codeC.length + 1 := by
          rw [← hagain, ← hextC.pc_eq ((hstack unpatched).trans hext.depth.symm)]
          exact Draft.pc_emit g₂ _
        have hgenB := fun l : Targets => hgen (l :: loops) (congrArg Nat.succ hloops)
        rw [hagain] at hgenC
        rw [Draft.popLoop_next, hexit, hagain]
        exact gen_doLoop (hgenB unpatched) hgenC (hgenB _)
  | brk n =>
      have hn : n < g.loopStack.length := hdepth ▸ hs
      have hrecord : ∃ g', (brk n).emit g = some g' ∧ g'.next = g.next ∧
          Extends g g' fun loops => [jump ((loops[n]?.map (·.exit)).getD 0)] := by
        refine Extends.record hn h (fun f l hf => ?_) (fun k f l hk => ?_) fun f k hk => ?_
        · have hfree : g.pc ∉ f.continues := fun hin => Nat.lt_irrefl _ (h _ ⟨f, hf, .inr hin⟩)
          simp [Waiting.target, hfree]
        · simp [Waiting.target, hk]
        · rcases hk with hin | hin
          · rcases List.mem_append.mp hin with hin | hin
            · exact .inl (.inl hin)
            · exact .inr (List.mem_singleton.mp hin)
          · exact .inl (.inr hin)
      obtain ⟨g', hemit, hnext, hext⟩ := hrecord
      refine ⟨g', _, hemit, Nat.le_of_eq hnext.symm, hext, fun loops hloops => ?_⟩
      have hn' : n < loops.length := hloops ▸ hs
      rw [gen, List.getElem?_eq_getElem hn', hnext]
      rfl
  | cont n =>
      have hn : n < g.loopStack.length := hdepth ▸ hs
      have hrecord : ∃ g', (cont n).emit g = some g' ∧ g'.next = g.next ∧
          Extends g g' fun loops => [jump ((loops[n]?.map (·.again)).getD 0)] := by
        refine Extends.record hn h (fun f l hf => ?_) (fun k f l hk => ?_) fun f k hk => ?_
        · simp [Waiting.target]
        · simp [Waiting.target, hk]
        · rcases hk with hin | hin
          · exact .inl (.inl hin)
          · rcases List.mem_append.mp hin with hin | hin
            · exact .inl (.inr hin)
            · exact .inr (List.mem_singleton.mp hin)
      obtain ⟨g', hemit, hnext, hext⟩ := hrecord
      refine ⟨g', _, hemit, Nat.le_of_eq hnext.symm, hext, fun loops hloops => ?_⟩
      have hn' : n < loops.length := hloops ▸ hs
      rw [gen, List.getElem?_eq_getElem hn', hnext]
      rfl

/-- Patching is transparent. The compiler, which fills in every target when it is known, leaves the
code that is generated with the targets known, for every program and whatever code stands before
it, and no jump of the program is left to patch. -/
theorem emit_eq_gen (hvars : Layout vars locals) (hs : s.Formed vars locals 0) {next : Nat}
    (hle : locals ≤ next) (code : List Instruction) :
    ∃ block free, s.gen [] next code.length = some (block, free) ∧
      s.emit ⟨code, next, []⟩ = some ⟨code ++ block, free, []⟩ := by
  have hnone : ∀ k, Waits (Draft.mk code next []).loopStack k → k < code.length := fun k hk => by
    obtain ⟨f, hmem, -⟩ := hk
    cases hmem
  obtain ⟨g', b, hemit, -, hext, hgen⟩ := s.emit_exists (g := ⟨code, next, []⟩) hvars hs hle rfl
    hnone
  obtain ⟨code', free, stack⟩ := g'
  obtain rfl := List.eq_nil_of_length_eq_zero hext.depth
  have hsettled := hext.settled [] rfl
  have hself : ∀ code : List Instruction, settle [] [] code = code := fun code =>
    List.ext_getElem? fun k => (settle_getElem? code k).trans Option.map_id_apply
  change settle [] [] code' = settle [] [] code ++ b [] at hsettled
  rw [hself, hself] at hsettled
  subst hsettled
  exact ⟨b [], free, hgen [] rfl, hemit⟩

/-- `while(1) { break; }`, behind one instruction. -/
theorem emit_eq_gen_loop : ∃ block free,
    (NumStmt.whileLoop (.word (.imm 1)) (.brk 0)).gen [] 4 1 = some (block, free) ∧
      (NumStmt.whileLoop (.word (.imm 1)) (.brk 0)).emit ⟨[jump 0], 4, []⟩ =
        some ⟨jump 0 :: block, free, []⟩ := by
  have hvars : Layout [] 4 :=
    ⟨fun h => absurd h List.not_mem_nil, fun h => absurd h List.not_mem_nil,
      fun h => absurd h List.not_mem_nil⟩
  have himm : ∀ off, Arg.imm 1 = .slot off → (off, NumKind.word) ∈ ([] : List (Nat × NumKind)) := by
    intro off h
    cases h
  have hformed : (NumStmt.whileLoop (.word (.imm 1)) (.brk 0)).Formed [] 4 0 :=
    ⟨⟨rfl, himm, trivial, trivial⟩, Nat.one_pos⟩
  exact emit_eq_gen hvars hformed (Nat.le_refl 4) [jump 0]

end RiceVM.Limbo.Numbers
