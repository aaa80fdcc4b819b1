import RiceVM.Limbo.Case

/-!
Which arm of a `case` the code runs, and when it is the one whose patterns contain the selector.
-/
namespace RiceVM.Limbo.Case

open Backpatch Assembly

variable {k : Kind} {valTy : ValType} {valTmp : Nat}

/-! ### The code, put together -/

namespace Pattern

/-- The frame after the pattern's slots. -/
def next (next : Nat) : Pattern k → Nat
  | .expr e => next + 4 + e.temps
  | .range lo hi => next + 4 + 4 + lo.temps + hi.temps
  | .wildcard => next

/-- The instructions before the jump to the body. -/
def before : Pattern k → Nat
  | .expr _ => 1
  | .range _ _ => 3
  | .wildcard => 0

/-- The check at `pc` of a pattern of an arm with its body at `body`. -/
def code (valTy : ValType) (valTmp next pc : Nat) (body : Option Nat) :
    Pattern k → List (Instr k)
  | .expr e => [.eval e next, .branch (equality valTy) valTmp next body]
  | .range lo hi =>
    [.eval lo next, .eval hi (next + 4), .branch .bltw valTmp next (some (pc + 4)),
      .branch .blew valTmp (next + 4) body]
  | .wildcard => [.jmp body]

@[simp] theorem length_code (next pc : Nat) (body : Option Nat) (pattern : Pattern k) :
    (pattern.code valTy valTmp next pc body).length = pattern.before + 1 := by
  cases pattern <;> rfl

theorem patch_code (pre : List (Instr k)) (next pc body : Nat) (pattern : Pattern k) :
    Backpatch.patch (pre ++ pattern.code valTy valTmp next pc none) (pre.length + pattern.before)
        body =
      pre ++ pattern.code valTy valTmp next pc (some body) := by
  cases pattern with
  | expr e =>
      have hlast := patch_append (pre ++ [.eval e next]) []
        (.branch (equality valTy) valTmp next none) body
      simpa [code, before] using hlast
  | range lo hi =>
      have hlast := patch_append (pre ++ [.eval lo next, .eval hi (next + 4),
        .branch .bltw valTmp next (some (pc + 4))]) [] (.branch .blew valTmp (next + 4) none) body
      simpa [code, before] using hlast
  | wildcard => exact patch_append pre [] (.jmp none) body

end Pattern

def patternsNext : List (Pattern k) → Nat → Nat
  | [], next => next
  | pattern :: patterns, next => patternsNext patterns (pattern.next next)

def patternsSize : List (Pattern k) → Nat
  | [] => 0
  | pattern :: patterns => pattern.before + 1 + patternsSize patterns

def patternsCode (valTy : ValType) (valTmp : Nat) (body : Option Nat) :
    List (Pattern k) → Nat → Nat → List (Instr k)
  | [], _, _ => []
  | pattern :: patterns, next, pc =>
    pattern.code valTy valTmp next pc body ++
      patternsCode valTy valTmp body patterns (pattern.next next) (pc + (pattern.before + 1))

/-- The `n`-th arm at `pc`. -/
def armCode (valTy : ValType) (valTmp : Nat) (arm : Arm k) (n next pc : Nat) (endPc : Option Nat) :
    List (Instr k) :=
  let body := pc + (patternsSize arm.patterns + 1)
  patternsCode valTy valTmp (some body) arm.patterns next pc ++
    [.jmp (some (pc + (patternsSize arm.patterns + 3))), .body n, .jmp endPc]

/-- The arms from the `n`-th on at `pc`. -/
def armsCode (valTy : ValType) (valTmp : Nat) (endPc : Option Nat) :
    List (Arm k) → Nat → Nat → Nat → List (Instr k)
  | [], _, _, _ => []
  | arm :: arms, n, next, pc =>
    armCode valTy valTmp arm n next pc endPc ++
      armsCode valTy valTmp endPc arms (n + 1) (patternsNext arm.patterns next + arm.temps)
        (pc + (patternsSize arm.patterns + 3))

def armsNext : List (Arm k) → Nat → Nat
  | [], next => next
  | arm :: arms, next => armsNext arms (patternsNext arm.patterns next + arm.temps)

def armsSize : List (Arm k) → Nat
  | [] => 0
  | arm :: arms => patternsSize arm.patterns + 3 + armsSize arms

@[simp] theorem length_patternsCode (body : Option Nat) (patterns : List (Pattern k))
    (next pc : Nat) :
    (patternsCode valTy valTmp body patterns next pc).length = patternsSize patterns := by
  induction patterns generalizing next pc with
  | nil => rfl
  | cons pattern patterns ih => simp [patternsCode, patternsSize, ih]

/-- Code that was emitted after `g`, with jumps that are still to be patched. -/
structure Emitted (g : Gen k) (next size : Nat) (code : Option Nat → List (Instr k))
    (r : Gen k × List Nat) : Prop where
  gen : r.1 = ⟨g.code ++ code none, next⟩
  jumps : ∀ j ∈ r.2, g.pc ≤ j ∧ j < g.pc + size
  patched : ∀ body, Backpatch.patchAll (g.code ++ code none) r.2 body = g.code ++ code (some body)

/-- One jump more, before the others. -/
theorem Emitted.cons {g g' : Gen k} {c code : Option Nat → List (Instr k)}
    {i next size n : Nat} {r : Gen k × List Nat} (h : Emitted g' next size code r)
    (hcode : g'.code = g.code ++ c none) (hlen : (c none).length = n)
    (hi : g.pc ≤ i ∧ i < g.pc + n)
    (hpatch : ∀ body, Backpatch.patch (g.code ++ c none) i body =
      g.code ++ c (some body)) :
    Emitted g next (n + size) (fun body => c body ++ code body) (r.1, i :: r.2) := by
  have hpc : g'.pc = g.pc + n := by
    rw [Emitter.pc, hcode, List.length_append, hlen]
    rfl
  refine ⟨?_, List.forall_mem_cons.mpr ⟨by omega, fun j hj => ?_⟩, fun body => ?_⟩
  · rw [h.gen, hcode, List.append_assoc]
  · have := h.jumps j hj
    omega
  · have hrest := h.patched body
    rw [hcode] at hrest
    simp only [← List.append_assoc]
    refine patchAll_cons ?_ (fun hmem => ?_) (hpatch body) hrest
    · rw [List.length_append, hlen]
      exact hi.2
    · have := h.jumps i hmem
      omega

theorem genPatterns_cons (pattern : Pattern k) (patterns : List (Pattern k)) (g : Gen k) :
    genPatterns valTy valTmp (pattern :: patterns) g =
      let r := genPatterns valTy valTmp patterns
        ⟨g.code ++ pattern.code valTy valTmp g.nextLocal g.pc none, pattern.next g.nextLocal⟩
      (r.1, (g.pc + pattern.before) :: r.2) := by
  cases pattern with
  | expr e =>
      simp [genPatterns, Pattern.code, Pattern.next, Pattern.before, Emitter.emit, genExprTo,
        Emitter.alloc, Emitter.pc]
  | range lo hi =>
      have hbelow := patch_append
        (g.code ++ [.eval lo g.nextLocal, .eval hi (g.nextLocal + 4)])
        [.branch .blew valTmp (g.nextLocal + 4) none]
        (.branch .bltw valTmp g.nextLocal none) (g.code.length + 4)
      simp only [List.append_assoc, List.length_append, List.length_cons, List.length_nil,
        List.cons_append, List.nil_append, setTarget_branch] at hbelow
      simp [genPatterns, Pattern.code, Pattern.next, Pattern.before, Emitter.emit, genExprTo,
        Emitter.alloc, Emitter.patch, Emitter.pc, hbelow]
  | wildcard => rfl

variable (valTy valTmp) in
theorem genPatterns_emitted (patterns : List (Pattern k)) (g : Gen k) :
    Emitted g (patternsNext patterns g.nextLocal) (patternsSize patterns)
      (fun body => patternsCode valTy valTmp body patterns g.nextLocal g.pc)
      (genPatterns valTy valTmp patterns g) := by
  induction patterns generalizing g with
  | nil => exact ⟨by simp [genPatterns, patternsCode, patternsNext], by simp [genPatterns],
      fun _ => rfl⟩
  | cons pattern patterns ih =>
      have hrest := ih ⟨g.code ++ pattern.code valTy valTmp g.nextLocal g.pc none,
        pattern.next g.nextLocal⟩
      rw [Emitter.pc_append, Pattern.length_code] at hrest
      rw [genPatterns_cons]
      exact hrest.cons (c := fun body => pattern.code valTy valTmp g.nextLocal g.pc body) rfl
        (by simp) (by omega) fun body => Pattern.patch_code g.code g.nextLocal g.pc body pattern

@[simp] theorem length_armCode (arm : Arm k) (n next pc : Nat) (endPc : Option Nat) :
    (armCode valTy valTmp arm n next pc endPc).length = patternsSize arm.patterns + 3 := by
  simp [armCode]

@[simp] theorem length_armsCode (endPc : Option Nat) (arms : List (Arm k)) (n next pc : Nat) :
    (armsCode valTy valTmp endPc arms n next pc).length = armsSize arms := by
  induction arms generalizing n next pc with
  | nil => rfl
  | cons arm arms ih => simp [armsCode, armsSize, ih]

theorem genArms_cons (arm : Arm k) (arms : List (Arm k)) (n : Nat) (g : Gen k) :
    genArms valTy valTmp (arm :: arms) n g =
      let r := genArms valTy valTmp arms (n + 1)
        ⟨g.code ++ armCode valTy valTmp arm n g.nextLocal g.pc none,
          patternsNext arm.patterns g.nextLocal + arm.temps⟩
      (r.1, (g.pc + (patternsSize arm.patterns + 2)) :: r.2) := by
  obtain ⟨hgen, hjumps, hpatched⟩ :=
    genPatterns_emitted valTy valTmp arm.patterns g
  have hpatch : Backpatch.patchAll ((g.code ++ patternsCode valTy valTmp none arm.patterns
        g.nextLocal g.pc) ++ [.jmp none]) (genPatterns valTy valTmp arm.patterns g).2
        (g.pc + (patternsSize arm.patterns + 1)) =
      g.code ++ patternsCode valTy valTmp (some (g.pc + (patternsSize arm.patterns + 1)))
        arm.patterns g.nextLocal g.pc ++ [.jmp none] := by
    rw [patchAll_append_left _ _ fun j hj => by simpa [Emitter.pc] using (hjumps j hj).2, hpatched]
  have hskip := patch_append (g.code ++ patternsCode valTy valTmp
      (some (g.pc + (patternsSize arm.patterns + 1))) arm.patterns g.nextLocal g.pc)
    [.body n, .jmp none] (.jmp none) (g.pc + (patternsSize arm.patterns + 3))
  simp only [Emitter.pc, List.append_assoc, List.length_append, length_patternsCode, setTarget_jmp]
    at hpatch hskip
  simp [genArms, hgen, Emitter.emit, Emitter.alloc, Emitter.patchAll, Emitter.patch, Emitter.pc, hpatch, hskip, armCode]

variable (valTy valTmp) in
theorem genArms_emitted (arms : List (Arm k)) (n : Nat) (g : Gen k) :
    Emitted g (armsNext arms g.nextLocal) (armsSize arms)
      (fun endPc => armsCode valTy valTmp endPc arms n g.nextLocal g.pc)
      (genArms valTy valTmp arms n g) := by
  induction arms generalizing n g with
  | nil => exact ⟨by simp [genArms, armsCode, armsNext], by simp [genArms], fun _ => rfl⟩
  | cons arm arms ih =>
      have hrest := ih (n + 1) ⟨g.code ++ armCode valTy valTmp arm n g.nextLocal g.pc none,
        patternsNext arm.patterns g.nextLocal + arm.temps⟩
      rw [Emitter.pc_append, length_armCode] at hrest
      rw [genArms_cons]
      refine hrest.cons (c := armCode valTy valTmp arm n g.nextLocal g.pc) rfl (by simp)
        (by omega) fun endPc => ?_
      have := patch_append (g.code ++ (patternsCode valTy valTmp
        (some (g.pc + (patternsSize arm.patterns + 1))) arm.patterns g.nextLocal g.pc ++
        [.jmp (some (g.pc + (patternsSize arm.patterns + 3))), .body n])) [] (.jmp none) endPc
      simpa [Emitter.pc, armCode] using this

theorem genCase_code (selector : Operand k) (arms : List (Arm k)) (g : Gen k) :
    (genCase valTy selector arms g).code =
      g.code ++ ([.selector selector g.nextLocal] ++
        armsCode valTy g.nextLocal (some (g.pc + 1 + armsSize arms)) arms 0
          (g.nextLocal + 4 + selector.temps) (g.pc + 1)) := by
  obtain ⟨hgen, -, hpatched⟩ := genArms_emitted valTy g.nextLocal arms 0
    ⟨g.code ++ [.selector selector g.nextLocal], g.nextLocal + 4 + selector.temps⟩
  have hend : (genArms valTy g.nextLocal arms 0
      ⟨g.code ++ [.selector selector g.nextLocal], g.nextLocal + 4 + selector.temps⟩).1.pc =
      g.pc + 1 + armsSize arms := by
    rw [hgen, Emitter.pc, List.length_append, length_armsCode]
    simp [Emitter.pc]
  rw [genCase, Emitter.patchAll]
  simp only [Emitter.alloc, Emitter.emit] 
  rw [hend, hgen, hpatched, Emitter.pc_append, List.append_assoc]
  rfl

/-! ### Runs -/

variable (text : BitVec 32 → String)

/-- Does the pattern's check jump to the arm's body? -/
def Pattern.passes (valTy : ValType) (v : Val k) : Pattern k → Bool
  | .expr e => (equality valTy).taken text v.low e.value.low
  | .range lo hi =>
    !Branch.bltw.taken text v.low lo.value.low && Branch.blew.taken text v.low hi.value.low
  | .wildcard => true

def Arm.passes (valTy : ValType) (v : Val k) (arm : Arm k) : Bool :=
  arm.patterns.any (Pattern.passes text valTy v)

variable {text}

@[simp] theorem store_self (frame : Words) (dst : Nat) (v : Val k) :
    store frame dst v dst = v.low := by
  cases k <;> simp [store, Val.low]

theorem store_other (frame : Words) {slot dst : Nat} (h : slot < dst) (v : Val k) :
    store frame dst v slot = frame slot := by
  cases k with
  | int | string => exact Words.set_other _ (by omega) _
  | big => exact Words.setWide_other _ (by omega) (by omega) _

theorem Pattern.le_next (n : Nat) (pattern : Pattern k) : n ≤ pattern.next n := by
  cases pattern <;> simp only [Pattern.next] <;> omega

theorem le_patternsNext (patterns : List (Pattern k)) (n : Nat) : n ≤ patternsNext patterns n := by
  induction patterns generalizing n with
  | nil => exact Nat.le_refl n
  | cons pattern patterns ih => exact Nat.le_trans (pattern.le_next n) (ih _)

section Runs

variable (text)

variable {code : List (Instr k)} {v : Val k} {next pc body : Nat} {s : State}

/-- A check leads to the body if it passes, and else behind it. -/
theorem Pattern.run {pattern : Pattern k}
    (hat : At code pc (pattern.code valTy valTmp next pc (some body)))
    (hslot : s.frame valTmp = v.low) (hnext : valTmp < next) :
    ∃ s', Runs (exec text) code pc s
        (if pattern.passes text valTy v then body else pc + (pattern.before + 1)) s' ∧
      s'.frame valTmp = v.low ∧ s'.trace = s.trace := by
  cases pattern with
  | expr e =>
      have hslot₁ := (store_other s.frame hnext e.value).trans hslot
      refine ⟨{ s with frame := store s.frame next e.value }, ?_, hslot₁, rfl⟩
      refine .step hat.head (.one hat.tail.head ?_)
      simp only [exec, hslot₁, store_self]
      rfl
  | range lo hi =>
      have hslot₁ := (store_other s.frame hnext lo.value).trans hslot
      have hslot₂ := (store_other (store s.frame next lo.value) (by omega : valTmp < next + 4)
        hi.value).trans hslot₁
      have hlo := (store_other (store s.frame next lo.value) (by omega : next < next + 4)
        hi.value).trans (store_self _ _ _)
      let s₁ : State := ⟨store (store s.frame next lo.value) (next + 4) hi.value, s.trace⟩
      refine ⟨s₁, .step hat.head (.step hat.tail.head ?_), hslot₂, rfl⟩
      cases hbelow : v.low.slt lo.value.low with
      | true =>
          refine .one hat.tail.tail.head ?_
          simp [exec, s₁, hslot₂, hlo, hbelow, Pattern.passes, Pattern.before, Branch.taken]
      | false =>
          refine (Runs.one hat.tail.tail.head (?_ : exec text _ _ _ = (_, s₁))).trans
            (.one hat.tail.tail.tail.head ?_)
          · simp [exec, s₁, hslot₂, hlo, hbelow, Branch.taken]
          · simp [exec, s₁, hslot₂, hbelow, Pattern.passes, Pattern.before, Branch.taken,
              Nat.add_assoc]
  | wildcard => exact ⟨s, .one hat.head rfl, hslot, rfl⟩

/-- The checks lead to the body if one passes, and else behind them. -/
theorem patterns_run {patterns : List (Pattern k)}
    (hat : At code pc (patternsCode valTy valTmp (some body) patterns next pc))
    (hslot : s.frame valTmp = v.low) (hnext : valTmp < next) :
    ∃ s', Runs (exec text) code pc s
        (if patterns.any (Pattern.passes text valTy v) then body else pc + patternsSize patterns)
        s' ∧ s'.frame valTmp = v.low ∧ s'.trace = s.trace := by
  induction patterns generalizing next pc s with
  | nil => exact ⟨s, .refl _ _, hslot, rfl⟩
  | cons pattern patterns ih =>
      obtain ⟨s₁, hrun, hslot₁, htrace⟩ := Pattern.run text hat.left hslot hnext
      rw [List.any_cons]
      cases hpasses : pattern.passes text valTy v with
      | true => exact ⟨s₁, by simpa [hpasses] using hrun, hslot₁, htrace⟩
      | false =>
          have hrest := hat.right
          rw [Pattern.length_code] at hrest
          obtain ⟨s₂, hrun₂, hslot₂, htrace₂⟩ :=
            ih hrest hslot₁ (Nat.lt_of_lt_of_le hnext (pattern.le_next next))
          refine ⟨s₂, ?_, hslot₂, htrace₂.trans htrace⟩
          rw [hpasses] at hrun
          simpa [patternsSize, Nat.add_assoc] using hrun.trans hrun₂

/-- The first arm that passes is run, and then what follows the arms. -/
theorem arms_run {arms : List (Arm k)} {n endPc : Nat}
    (hat : At code pc (armsCode valTy valTmp (some endPc) arms n next pc))
    (hslot : s.frame valTmp = v.low) (hnext : valTmp < next) (hend : endPc = pc + armsSize arms) :
    ∃ s', Runs (exec text) code pc s endPc s' ∧
      s'.trace = s.trace ++
        ((arms.findIdx? (Arm.passes text valTy v)).map fun m => Event.body (m + n)).toList := by
  induction arms generalizing n next pc s with
  | nil => exact ⟨s, hend ▸ .refl _ _, by simp⟩
  | cons arm arms ih =>
      have hrest := hat.right
      rw [length_armCode] at hrest
      obtain ⟨s₁, hrun, hslot₁, htrace⟩ := patterns_run text hat.left.left hslot hnext
      have harm := hat.left.right
      rw [length_patternsCode] at harm
      rw [List.findIdx?_cons]
      cases hpasses : arm.passes text valTy v with
      | true =>
          rw [Arm.passes] at hpasses
          rw [if_pos hpasses] at hrun
          refine ⟨{ s₁ with trace := s₁.trace ++ [.body n] },
            hrun.trans (.step harm.tail.head (.one harm.tail.tail.head rfl)), ?_⟩
          simp [htrace]
      | false =>
          rw [Arm.passes] at hpasses
          rw [if_neg (ne_true_of_eq_false hpasses)] at hrun
          have hle := Nat.le_trans (le_patternsNext arm.patterns next) (Nat.le_add_right _ arm.temps)
          obtain ⟨s₂, hrun₂, htrace₂⟩ := ih hrest hslot₁ (Nat.lt_of_lt_of_le hnext hle)
            (hend.trans (Nat.add_assoc _ _ _).symm)
          refine ⟨s₂, hrun.trans (.step harm.head hrun₂), ?_⟩
          rw [htrace₂, htrace]
          simp [Function.comp_def, Nat.add_assoc, Nat.add_comm 1 n]

theorem genCase_pc (selector : Operand k) (arms : List (Arm k)) (g : Gen k) :
    (genCase valTy selector arms g).pc = g.pc + 1 + armsSize arms := by
  rw [Emitter.pc, genCase_code]
  simp [Emitter.pc, Nat.add_assoc, Nat.add_comm 1]

variable (valTy) in
/-- The selector is evaluated once, and the first arm that passes is run. -/
theorem genCase_run (selector : Operand k) (arms : List (Arm k)) (g : Gen k) (s : State) :
    ∃ s', Runs (exec text) (genCase valTy selector arms g).code g.pc s
        (genCase valTy selector arms g).pc s' ∧
      s'.trace = s.trace ++ .selector ::
        ((arms.findIdx? (Arm.passes text valTy selector.value)).map Event.body).toList := by
  have hat : At (genCase valTy selector arms g).code g.pc ([.selector selector g.nextLocal] ++
      armsCode valTy g.nextLocal (some (g.pc + 1 + armsSize arms)) arms 0
        (g.nextLocal + 4 + selector.temps) (g.pc + 1)) :=
    ⟨g.code, [], by rw [genCase_code, List.append_nil], rfl⟩
  obtain ⟨s', hrun, htrace⟩ := arms_run text
    (s := ⟨store s.frame g.nextLocal selector.value, s.trace ++ [.selector]⟩) hat.tail
    (store_self _ _ _) (by omega) rfl
  refine ⟨s', ?_, htrace.trans (by simp)⟩
  rw [genCase_pc]
  exact .step hat.head hrun

end Runs

/-! ### What the arms mean -/

variable (text)

/-- Are the values the same? -/
def Val.same (v w : Val k) : Bool :=
  match k with
  | .int | .big => v == w
  | .string => text v == text w

/-- The order of values. -/
def Val.le (v w : Val k) : Bool :=
  match k with
  | .int | .big => BitVec.sle v w
  | .string => decide (text v ≤ text w)

def Pattern.contains (v : Val k) : Pattern k → Bool
  | .expr e => v.same text e.value
  | .range lo hi => lo.value.le text v && v.le text hi.value
  | .wildcard => false

def Pattern.isWildcard : Pattern k → Bool
  | .wildcard => true
  | _ => false

def Arm.contains (v : Val k) (arm : Arm k) : Bool := arm.patterns.any (Pattern.contains text v)

def Arm.hasWildcard (arm : Arm k) : Bool := arm.patterns.any Pattern.isWildcard

/-- The arm that the selector's value picks. -/
def chosen (v : Val k) (arms : List (Arm k)) : Option Nat :=
  (arms.findIdx? (Arm.contains text v)).or (arms.findIdx? Arm.hasWildcard)

/-- From `g`, in the state `s`, the code evaluates the selector, runs the chosen arm's body or none,
and goes on after the case. -/
def Selects (valTy : ValType) (selector : Operand k) (arms : List (Arm k)) (g : Gen k)
    (s : State) : Prop :=
  ∃ s', Runs (exec text) (genCase valTy selector arms g).code g.pc s
      (genCase valTy selector arms g).pc s' ∧
    s'.trace = s.trace ++ .selector :: ((chosen text selector.value arms).map Event.body).toList

/-- Does the comparison that the code makes find the pattern to contain the value? -/
def Pattern.found (valTy : ValType) (v : Val k) (pattern : Pattern k) : Bool :=
  !pattern.isWildcard && pattern.passes text valTy v

/-- No arm before the chosen one has a `*` or a pattern that is found, and that one has; where none
is chosen, none has. -/
structure FoundFirst (valTy : ValType) (v : Val k) (arms : List (Arm k)) : Prop where
  before (m : Nat) (arm : Arm k) (harm : arms[m]? = some arm)
    (hlt : ∀ n, chosen text v arms = some n → m < n) (pattern : Pattern k)
    (hmem : pattern ∈ arm.patterns) : ¬ pattern.isWildcard ∧ ¬ pattern.found text valTy v
  chosen (n : Nat) (arm : Arm k) (harm : arms[n]? = some arm)
    (hchosen : chosen text v arms = some n) :
    ∃ pattern ∈ arm.patterns, pattern.isWildcard ∨ pattern.found text valTy v

variable {text}

theorem toList_injective {α : Type} : Function.Injective (Option.toList (α := α)) := by
  rintro (_ | a) (_ | b) h <;> simp_all

/-- Two ways to run an arm that differ in it would leave different traces. -/
theorem selects_iff_findIdx? (valTy : ValType) (selector : Operand k) (arms : List (Arm k))
    (g : Gen k) (s : State) :
    Selects text valTy selector arms g s ↔
      arms.findIdx? (Arm.passes text valTy selector.value) = chosen text selector.value arms := by
  obtain ⟨s₁, hrun₁, htrace₁⟩ := genCase_run valTy text selector arms g s
  have hhalt : (genCase valTy selector arms g).code[(genCase valTy selector arms g).pc]? = none :=
    List.getElem?_eq_none (Nat.le_refl _)
  refine ⟨fun ⟨s₂, hrun₂, htrace₂⟩ => ?_, fun heq => ⟨s₁, hrun₁, heq ▸ htrace₁⟩⟩
  obtain ⟨-, rfl⟩ := hrun₁.unique hrun₂ hhalt hhalt
  have hbodies := List.append_cancel_left (htrace₁.symm.trans htrace₂)
  simp only [List.cons.injEq, true_and] at hbodies
  have hinj : Function.Injective (Option.map Event.body) :=
    Option.map_injective fun m n h => by cases h; rfl
  exact hinj (toList_injective hbodies)

theorem Arm.passes_iff (valTy : ValType) (v : Val k) (arm : Arm k) :
    arm.passes text valTy v ↔
      ∃ pattern ∈ arm.patterns, pattern.isWildcard ∨ pattern.found text valTy v := by
  rw [Arm.passes, List.any_eq_true]
  refine exists_congr fun pattern => and_congr_right fun _ => ?_
  cases pattern <;> simp [Pattern.found, Pattern.isWildcard, Pattern.passes]

theorem chosen_lt {v : Val k} {arms : List (Arm k)} {n : Nat} (h : chosen text v arms = some n) :
    n < arms.length := by
  rcases Option.or_eq_some_iff.mp h with h | ⟨-, h⟩ <;>
    exact (List.findIdx?_eq_some_iff_getElem.mp h).1

theorem foundFirst_iff (valTy : ValType) (v : Val k) (arms : List (Arm k)) :
    FoundFirst text valTy v arms ↔
      arms.findIdx? (Arm.passes text valTy v) = chosen text v arms := by
  constructor
  · rintro ⟨hbefore, hchosen⟩
    have hnot (m : Nat) (arm : Arm k) (harm : arms[m]? = some arm)
        (hlt : ∀ n, chosen text v arms = some n → m < n) : ¬ arm.passes text valTy v := by
      rintro hpasses
      obtain ⟨pattern, hmem, hor⟩ := (Arm.passes_iff valTy v arm).mp hpasses
      exact hor.elim (hbefore m arm harm hlt pattern hmem).1 (hbefore m arm harm hlt pattern hmem).2
    cases hc : chosen text v arms with
    | none =>
        rw [List.findIdx?_eq_none_iff]
        intro arm hmem
        obtain ⟨m, harm⟩ := List.mem_iff_getElem?.mp hmem
        exact eq_false_of_ne_true (hnot m arm harm fun n hn => by cases hc.symm.trans hn)
    | some n =>
        have hn := chosen_lt hc
        refine List.findIdx?_eq_some_iff_getElem.mpr ⟨hn, ?_, fun m hm => ?_⟩
        · exact (Arm.passes_iff valTy v _).mpr (hchosen n _ (List.getElem?_eq_getElem hn) hc)
        · refine hnot m _ (List.getElem?_eq_getElem _) fun n' hn' => ?_
          cases hc.symm.trans hn'
          exact hm
  · intro heq
    refine ⟨fun m arm harm hlt pattern hmem => ?_, fun n arm harm hc => ?_⟩
    · rw [← not_or]
      intro hor
      have hpasses := (Arm.passes_iff valTy v arm).mpr ⟨pattern, hmem, hor⟩
      obtain ⟨hm, rfl⟩ := List.getElem?_eq_some_iff.mp harm
      cases hc : chosen text v arms with
      | none =>
          have hnone := List.findIdx?_eq_none_iff.mp (heq.trans hc) _ (List.getElem_mem hm)
          exact Bool.noConfusion (hnone.symm.trans hpasses)
      | some n =>
          obtain ⟨_, _, hfirst⟩ := List.findIdx?_eq_some_iff_getElem.mp (heq.trans hc)
          exact hfirst m (hlt n hc) hpasses
    · obtain ⟨hn, hpasses, -⟩ := List.findIdx?_eq_some_iff_getElem.mp (heq.trans hc)
      obtain ⟨_, rfl⟩ := List.getElem?_eq_some_iff.mp harm
      exact (Arm.passes_iff valTy v _).mp hpasses

/-! ### Comparisons that are right -/

theorem found_int (v : Val .int) (pattern : Pattern .int) :
    pattern.found text .word v = pattern.contains text v := by
  cases pattern with
  | expr | wildcard => rfl
  | range lo hi =>
      change (!v.slt lo.value && v.sle hi.value) = (lo.value.sle v && v.sle hi.value)
      rw [BitVec.sle_eq_not_slt (x := lo.value)]

/-- Strings are compared by their text, but in a range by their ids. -/
theorem found_string {valTy : ValType} (hvalTy : valTy ≠ .word) (v : Val .string)
    (pattern : Pattern .string) (hrange : ∀ lo hi, pattern ≠ .range lo hi) :
    pattern.found text valTy v = pattern.contains text v := by
  cases pattern with
  | expr e => simp [Pattern.found, Pattern.isWildcard, Pattern.passes, Pattern.contains, equality,
      hvalTy, Branch.taken, Val.same, Val.low]
  | range lo hi => exact absurd rfl (hrange lo hi)
  | wildcard => rfl

/-- A big that an int holds. -/
def IsShort (v : Val .big) : Prop := (Val.low v).toInt = BitVec.toInt v

def Pattern.IsShort : Pattern .big → Prop
  | .expr e => Case.IsShort e.value
  | .range lo hi => Case.IsShort lo.value ∧ Case.IsShort hi.value
  | .wildcard => True

theorem found_big {v : Val .big} (hv : IsShort v) {pattern : Pattern .big}
    (hpattern : pattern.IsShort) :
    pattern.found text .word v = pattern.contains text v := by
  cases pattern with
  | expr e =>
      change (Val.low v == Val.low e.value) = (v == e.value)
      rw [Bool.eq_iff_iff, beq_iff_eq, beq_iff_eq, ← BitVec.toInt_inj, hv, hpattern,
        BitVec.toInt_inj]
  | range lo hi =>
      change (!(Val.low v).slt (Val.low lo.value) && (Val.low v).sle (Val.low hi.value)) =
        (BitVec.sle lo.value v && BitVec.sle v hi.value)
      obtain ⟨hlo, hhi⟩ := hpattern
      rw [IsShort] at hv hlo hhi
      rw [← BitVec.sle_eq_not_slt]
      simp only [BitVec.sle_eq_decide, hv, hlo, hhi]
  | wildcard => rfl

/-- Then a `*` has to be behind the arm that contains the value. -/
theorem foundFirst_iff_wildcards {valTy : ValType} {v : Val k} {arms : List (Arm k)}
    (hfound : ∀ arm ∈ arms, ∀ pattern ∈ arm.patterns,
      pattern.found text valTy v = pattern.contains text v) :
    FoundFirst text valTy v arms ↔
      ∀ n, arms.findIdx? (Arm.contains text v) = some n →
        ∀ m < n, ∀ arm, arms[m]? = some arm → ¬ arm.hasWildcard := by
  constructor
  · intro h n hn m hm arm harm hwild
    obtain ⟨pattern, hmem, hpattern⟩ := List.any_eq_true.mp hwild
    have hchosen : chosen text v arms = some n := by rw [chosen, hn]; rfl
    refine (h.before m arm harm (fun n' hn' => ?_) pattern hmem).1 hpattern
    cases hchosen.symm.trans hn'
    exact hm
  · intro h
    have hnot {p : Pattern k → Bool} {arm : Arm k} (harm : arm.patterns.any p = false) :
        ∀ pattern ∈ arm.patterns, ¬ p pattern := List.any_eq_false.mp harm
    cases hn : arms.findIdx? (Arm.contains text v) with
    | some n =>
        have hchosen : chosen text v arms = some n := by rw [chosen, hn]; rfl
        obtain ⟨hlen, hcontains, hfirst⟩ := List.findIdx?_eq_some_iff_getElem.mp hn
        refine ⟨fun m arm harm hlt pattern hmem => ?_, fun n' arm harm hn' => ?_⟩
        · have hm := hlt n hchosen
          have hwild := hnot (eq_false_of_ne_true (h n hn m hm arm harm)) pattern hmem
          obtain ⟨_, rfl⟩ := List.getElem?_eq_some_iff.mp harm
          rw [hfound _ (List.getElem_mem _) pattern hmem]
          exact ⟨hwild, hnot (eq_false_of_ne_true (hfirst m hm)) pattern hmem⟩
        · cases hchosen.symm.trans hn'
          obtain ⟨_, rfl⟩ := List.getElem?_eq_some_iff.mp harm
          obtain ⟨pattern, hmem, hpattern⟩ := List.any_eq_true.mp hcontains
          exact ⟨pattern, hmem, .inr ((hfound _ (List.getElem_mem _) pattern hmem).trans hpattern)⟩
    | none =>
        have hchosen : chosen text v arms = arms.findIdx? Arm.hasWildcard := by
          rw [chosen, hn]
          rfl
        have hnone := List.findIdx?_eq_none_iff.mp hn
        refine ⟨fun m arm harm hlt pattern hmem => ?_, fun n arm harm hc => ?_⟩
        · have hin := List.mem_of_getElem? harm
          rw [hfound arm hin pattern hmem]
          refine ⟨?_, hnot (hnone arm hin) pattern hmem⟩
          rw [hchosen] at hlt
          cases hw : arms.findIdx? Arm.hasWildcard with
          | none => exact hnot (List.findIdx?_eq_none_iff.mp hw arm hin) pattern hmem
          | some n =>
              obtain ⟨_, _, hfirst⟩ := List.findIdx?_eq_some_iff_getElem.mp hw
              obtain ⟨_, rfl⟩ := List.getElem?_eq_some_iff.mp harm
              exact hnot (eq_false_of_ne_true (hfirst m (hlt n hw))) pattern hmem
        · obtain ⟨_, hwild, -⟩ := List.findIdx?_eq_some_iff_getElem.mp (hchosen.symm.trans hc)
          obtain ⟨_, rfl⟩ := List.getElem?_eq_some_iff.mp harm
          obtain ⟨pattern, hmem, hpattern⟩ := List.any_eq_true.mp hwild
          exact ⟨pattern, hmem, .inl hpattern⟩

/-- The chosen arm is run exactly when the comparisons that are made find it first. -/
theorem selects_iff (text : BitVec 32 → String) (valTy : ValType) (selector : Operand k)
    (arms : List (Arm k)) (g : Gen k) (s : State) :
    Selects text valTy selector arms g s ↔ FoundFirst text valTy selector.value arms :=
  (selects_iff_findIdx? valTy selector arms g s).trans (foundFirst_iff valTy _ arms).symm

/-- Where the comparisons that are made are right, the chosen arm is run exactly when no `*` stands
before the arm that contains the value. -/
theorem selects_iff_of_found {valTy : ValType} {selector : Operand k} {arms : List (Arm k)}
    (hfound : ∀ arm ∈ arms, ∀ pattern ∈ arm.patterns,
      pattern.found text valTy selector.value = pattern.contains text selector.value)
    (g : Gen k) (s : State) :
    Selects text valTy selector arms g s ↔
      ∀ n, arms.findIdx? (Arm.contains text selector.value) = some n →
        ∀ m < n, ∀ arm, arms[m]? = some arm → ¬ arm.hasWildcard := by
  rw [selects_iff_findIdx?, ← foundFirst_iff]
  exact foundFirst_iff_wildcards hfound

theorem selects_int_iff (selector : Operand .int) (arms : List (Arm .int)) (g : Gen .int)
    (s : State) :
    Selects text .word selector arms g s ↔
      ∀ n, arms.findIdx? (Arm.contains text selector.value) = some n →
        ∀ m < n, ∀ arm, arms[m]? = some arm → ¬ arm.hasWildcard :=
  selects_iff_of_found (fun _ _ pattern _ => found_int selector.value pattern) g s

theorem selects_string_iff {valTy : ValType} (hvalTy : valTy ≠ .word) (selector : Operand .string)
    {arms : List (Arm .string)}
    (hrange : ∀ arm ∈ arms, ∀ pattern ∈ arm.patterns, ∀ lo hi, pattern ≠ .range lo hi)
    (g : Gen .string) (s : State) :
    Selects text valTy selector arms g s ↔
      ∀ n, arms.findIdx? (Arm.contains text selector.value) = some n →
        ∀ m < n, ∀ arm, arms[m]? = some arm → ¬ arm.hasWildcard :=
  selects_iff_of_found (fun arm harm pattern hpattern =>
    found_string hvalTy selector.value pattern (hrange arm harm pattern hpattern)) g s

theorem selects_big_iff {selector : Operand .big} (hselector : IsShort selector.value)
    {arms : List (Arm .big)} (hshort : ∀ arm ∈ arms, ∀ pattern ∈ arm.patterns, pattern.IsShort)
    (g : Gen .big) (s : State) :
    Selects text .word selector arms g s ↔
      ∀ n, arms.findIdx? (Arm.contains text selector.value) = some n →
        ∀ m < n, ∀ arm, arms[m]? = some arm → ¬ arm.hasWildcard :=
  selects_iff_of_found (fun arm harm pattern hpattern =>
    found_big hselector (hshort arm harm pattern hpattern)) g s

/-- The selector `big 1 << 32` is taken to be 0. -/
theorem high_word_ignored :
    ¬ Selects (fun _ => "") .word (⟨0x100000000, 0⟩ : Operand .big)
      [⟨[.expr ⟨0, 0⟩], 0⟩, ⟨[.wildcard], 0⟩] ⟨[], 0⟩ ⟨fun _ => 0, []⟩ := by
  rw [selects_iff_findIdx?]
  decide

end RiceVM.Limbo.Case
