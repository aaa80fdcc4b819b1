import RiceVM.Limbo.Operators

/-!
Programs of assignments, conditionals and loops over words and bigs: their code, run by the
machine, ends with the variables as the program leaves them. The temporaries of a function are
never given back, so each statement has its own.
-/
namespace RiceVM.Limbo.Numbers
open Exec Memory Ops Assembly
open Casts (slot)

/-! ### Statements and their code -/

/-- A statement over the variables of a frame. -/
inductive NumStmt where
  | skip
  | assign (off : Nat) (kind : NumKind) (e : Num)
  | seq (s t : NumStmt)
  | ifThen (c : Num) (t : NumStmt)
  | ifElse (c : Num) (t e : NumStmt)
  | whileLoop (c : Num) (body : NumStmt)
  | forLoop (c : Num) (post body : NumStmt)
  | doLoop (body : NumStmt) (c : Num)
  /-- Of the `n`-th loop around it, which a label names. -/
  | brk (n : Nat)
  | cont (n : Nat)
  deriving DecidableEq, Repr

/-- Where a `break` and a `continue` of a loop go. -/
structure Targets where
  exit : Nat
  again : Nat
  deriving DecidableEq, Repr

/-- The branch that leaves a statement whose condition was found to be zero. -/
def leaveUnless (cond target : Nat) : Instruction :=
  instr .beqw (.slot cond) (.imm 0) (.imm (.ofUsize target))

def repeatIf (cond target : Nat) : Instruction :=
  instr .bnew (.slot cond) (.imm 0) (.imm (.ofUsize target))

def jump (target : Nat) : Instruction := instr .jmp .unused .unused (.imm (.ofUsize target))

/-- The targets of jumps that are not patched yet. -/
def unpatched : Targets := ⟨0, 0⟩

namespace NumStmt

/-- `gen_stmt`, with the targets of the loops around it, the first free offset and the pc:
assignments of local variables, `gen_if`, `gen_while`, `gen_for` after its first statement,
`gen_do`, `gen_break` and `gen_continue`. What `pop_loop` patches is generated twice, first to
find out how long it is. -/
def gen : NumStmt → List Targets → Nat → Nat → Option (List Instruction × Nat)
  | .skip, _, next, _ => some ([], next)
  | .assign off kind e, _, next, pc => genToKind e.kind kind e.gen off next pc
  | .seq s t, loops, next, pc => do
    let (codeS, free) ← s.gen loops next pc
    let (codeT, free) ← t.gen loops free (pc + codeS.length)
    some (codeS ++ codeT, free)
  | .ifThen c t, loops, next, pc => do
    let (codeC, free) ← c.gen next (next + 4) pc
    let (codeT, free) ← t.gen loops free (pc + codeC.length + 1)
    some (codeC ++ leaveUnless next (pc + codeC.length + 1 + codeT.length) :: codeT, free)
  | .ifElse c t e, loops, next, pc => do
    let (codeC, free) ← c.gen next (next + 4) pc
    let (codeT, free) ← t.gen loops free (pc + codeC.length + 1)
    let other := pc + codeC.length + 1 + codeT.length + 1
    let (codeE, free) ← e.gen loops free other
    some (codeC ++ leaveUnless next other :: (codeT ++ jump (other + codeE.length) :: codeE), free)
  | .whileLoop c body, loops, next, pc => do
    let (codeC, free) ← c.gen next (next + 4) pc
    let start := pc + codeC.length + 1
    let (draft, _) ← body.gen (unpatched :: loops) free start
    let exit := start + draft.length + 1
    let (codeB, free) ← body.gen (⟨exit, pc⟩ :: loops) free start
    some (codeC ++ leaveUnless next exit :: (codeB ++ [jump pc]), free)
  | .forLoop c post body, loops, next, pc => do
    let (codeC, free) ← c.gen next (next + 4) pc
    let start := pc + codeC.length + 1
    let (draftB, freeB) ← body.gen (unpatched :: loops) free start
    let again := start + draftB.length
    let (draftP, freeP) ← post.gen (unpatched :: loops) freeB again
    let exit := again + draftP.length + 1
    let (codeB, _) ← body.gen (⟨exit, again⟩ :: loops) free start
    let (codeP, _) ← post.gen (⟨exit, again⟩ :: loops) freeB again
    some (codeC ++ leaveUnless next exit :: (codeB ++ (codeP ++ [jump pc])), freeP)
  | .doLoop body c, loops, next, pc => do
    let (draft, free) ← body.gen (unpatched :: loops) next pc
    let again := pc + draft.length
    let (codeC, freeC) ← c.gen free (free + 4) again
    let (codeB, _) ← body.gen (⟨again + codeC.length + 1, again⟩ :: loops) next pc
    some (codeB ++ (codeC ++ [repeatIf free pc]), freeC)
  | .brk n, loops, next, _ => loops[n]?.map fun l => ([jump l.exit], next)
  | .cont n, loops, next, _ => loops[n]?.map fun l => ([jump l.again], next)

variable {c : Num} {s t e : NumStmt} {loops : List Targets}
  {next pc freeC freeS freeT freeE free : Nat}
  {codeC codeS codeT codeE codeB codeP draft draftP : List Instruction}

theorem gen_seq (hs : s.gen loops next pc = some (codeS, freeS))
    (ht : t.gen loops freeS (pc + codeS.length) = some (codeT, freeT)) :
    (seq s t).gen loops next pc = some (codeS ++ codeT, freeT) := by
  simp only [gen, hs, ht, Option.bind_eq_bind, Option.bind_some]

theorem gen_ifThen (hc : c.gen next (next + 4) pc = some (codeC, freeC))
    (ht : t.gen loops freeC (pc + codeC.length + 1) = some (codeT, freeT)) :
    (ifThen c t).gen loops next pc =
      some (codeC ++ leaveUnless next (pc + codeC.length + 1 + codeT.length) :: codeT, freeT) := by
  simp only [gen, hc, ht, Option.bind_eq_bind, Option.bind_some]

theorem gen_ifElse (hc : c.gen next (next + 4) pc = some (codeC, freeC))
    (ht : t.gen loops freeC (pc + codeC.length + 1) = some (codeT, freeT))
    (he : e.gen loops freeT (pc + codeC.length + 1 + codeT.length + 1) = some (codeE, freeE)) :
    (ifElse c t e).gen loops next pc =
      some (codeC ++ leaveUnless next (pc + codeC.length + 1 + codeT.length + 1) ::
        (codeT ++ jump (pc + codeC.length + 1 + codeT.length + 1 + codeE.length) :: codeE),
        freeE) := by
  simp only [gen, hc, ht, he, Option.bind_eq_bind, Option.bind_some]

theorem gen_whileLoop (hc : c.gen next (next + 4) pc = some (codeC, freeC))
    (hdraft : t.gen (unpatched :: loops) freeC (pc + codeC.length + 1) = some (draft, free))
    (ht : t.gen (⟨pc + codeC.length + 1 + draft.length + 1, pc⟩ :: loops) freeC
      (pc + codeC.length + 1) = some (codeB, freeT)) :
    (whileLoop c t).gen loops next pc =
      some (codeC ++ leaveUnless next (pc + codeC.length + 1 + draft.length + 1) ::
        (codeB ++ [jump pc]), freeT) := by
  simp only [gen, hc, hdraft, ht, Option.bind_eq_bind, Option.bind_some]

theorem gen_forLoop (hc : c.gen next (next + 4) pc = some (codeC, freeC))
    (hdraft : t.gen (unpatched :: loops) freeC (pc + codeC.length + 1) = some (draft, freeT))
    (hdraftP : s.gen (unpatched :: loops) freeT (pc + codeC.length + 1 + draft.length) =
      some (draftP, freeS))
    (ht : t.gen (⟨pc + codeC.length + 1 + draft.length + draftP.length + 1,
        pc + codeC.length + 1 + draft.length⟩ :: loops) freeC (pc + codeC.length + 1) =
      some (codeB, free))
    (hs : s.gen (⟨pc + codeC.length + 1 + draft.length + draftP.length + 1,
        pc + codeC.length + 1 + draft.length⟩ :: loops) freeT
        (pc + codeC.length + 1 + draft.length) = some (codeP, freeE)) :
    (forLoop c s t).gen loops next pc =
      some (codeC ++ leaveUnless next (pc + codeC.length + 1 + draft.length + draftP.length + 1) ::
        (codeB ++ (codeP ++ [jump pc])), freeS) := by
  simp only [gen, hc, hdraft, hdraftP, ht, hs, Option.bind_eq_bind, Option.bind_some]

theorem gen_doLoop (hdraft : t.gen (unpatched :: loops) next pc = some (draft, freeT))
    (hc : c.gen freeT (freeT + 4) (pc + draft.length) = some (codeC, freeC))
    (ht : t.gen (⟨pc + draft.length + codeC.length + 1, pc + draft.length⟩ :: loops) next pc =
      some (codeB, free)) :
    (doLoop t c).gen loops next pc =
      some (codeB ++ (codeC ++ [repeatIf freeT pc]), freeC) := by
  simp only [gen, hc, hdraft, ht, Option.bind_eq_bind, Option.bind_some]

end NumStmt

/-! ### What a program does -/

/-- The values of the variables, by their offset. -/
abbrev Store := Nat → Val

def Arg.wordOf (mp : List Byte) (σ : Store) : Arg → Val
  | slot off => σ off
  | data off => .word (readWord mp off)
  | imm v => .word v
  | unused => .word 0

def Arg.bigOf (mp : List Byte) (σ : Store) : Arg → Val
  | slot off => σ off
  | data off => .big (readBig mp off)
  | imm v => .big (v.signExtend 64)
  | unused => .big 0

/-- The value of an expression; none where it divides by zero. -/
def Num.eval (mp : List Byte) (σ : Store) : Num → Option Val
  | .word a => some (a.wordOf mp σ)
  | .big a => some (a.bigOf mp σ)
  | .unary op e => (e.eval mp σ).bind (denoteUnary op)
  | .binary l op r => (l.eval mp σ).bind fun x => (r.eval mp σ).bind (denoteBinary op x)

/-- How a statement is left: behind its code, or for the `n`-th loop around it. -/
inductive Way where
  | on
  | broke (n : Nat)
  | continued (n : Nat)
  deriving DecidableEq, Repr

/-- How a loop is left, if its body is left so; none where the loop goes on. -/
def Way.outOf : Way → Option Way
  | .broke 0 => some .on
  | .broke (n + 1) => some (.broke n)
  | .continued (n + 1) => some (.continued n)
  | _ => none

/-- A program that ends, with the way it is left and the store, or with none where it divides by
zero. What a `for` does whose third statement continues that same `for` is not told. -/
inductive Ends (mp : List Byte) : NumStmt → Store → Option (Way × Store) → Prop
  | skip (σ : Store) : Ends mp .skip σ (some (.on, σ))
  | assign {σ : Store} {off : Nat} {kind : NumKind} {e : Num} :
    Ends mp (.assign off kind e) σ
      ((e.eval mp σ).map fun v => (.on, Function.update σ off (widthTo kind v)))
  | seq {σ σ' : Store} {r : Option (Way × Store)} {s t : NumStmt}
    (hs : Ends mp s σ (some (.on, σ'))) (ht : Ends mp t σ' r) : Ends mp (.seq s t) σ r
  | seqLeft {σ σ' : Store} {way : Way} {s t : NumStmt} (hs : Ends mp s σ (some (way, σ')))
    (hway : way ≠ .on) : Ends mp (.seq s t) σ (some (way, σ'))
  | seqStop {σ : Store} {s t : NumStmt} (hs : Ends mp s σ none) : Ends mp (.seq s t) σ none
  | thenTaken {σ : Store} {r : Option (Way × Store)} {c : Num} {t : NumStmt} {w : Word}
    (hc : c.eval mp σ = some (.word w)) (hw : w ≠ 0) (ht : Ends mp t σ r) :
    Ends mp (.ifThen c t) σ r
  | thenPassed {σ : Store} {c : Num} {t : NumStmt} (hc : c.eval mp σ = some (.word 0)) :
    Ends mp (.ifThen c t) σ (some (.on, σ))
  | thenStop {σ : Store} {c : Num} {t : NumStmt} (hc : c.eval mp σ = none) :
    Ends mp (.ifThen c t) σ none
  | elseThen {σ : Store} {r : Option (Way × Store)} {c : Num} {t e : NumStmt} {w : Word}
    (hc : c.eval mp σ = some (.word w)) (hw : w ≠ 0) (ht : Ends mp t σ r) :
    Ends mp (.ifElse c t e) σ r
  | elseTaken {σ : Store} {r : Option (Way × Store)} {c : Num} {t e : NumStmt}
    (hc : c.eval mp σ = some (.word 0)) (he : Ends mp e σ r) : Ends mp (.ifElse c t e) σ r
  | elseStop {σ : Store} {c : Num} {t e : NumStmt} (hc : c.eval mp σ = none) :
    Ends mp (.ifElse c t e) σ none
  | whileDone {σ : Store} {c : Num} {body : NumStmt} (hc : c.eval mp σ = some (.word 0)) :
    Ends mp (.whileLoop c body) σ (some (.on, σ))
  | whileStep {σ σ' : Store} {way : Way} {r : Option (Way × Store)} {c : Num} {body : NumStmt}
    {w : Word} (hc : c.eval mp σ = some (.word w)) (hw : w ≠ 0)
    (hbody : Ends mp body σ (some (way, σ'))) (hway : way.outOf = none)
    (hrest : Ends mp (.whileLoop c body) σ' r) : Ends mp (.whileLoop c body) σ r
  | whileLeft {σ σ' : Store} {way way' : Way} {c : Num} {body : NumStmt} {w : Word}
    (hc : c.eval mp σ = some (.word w)) (hw : w ≠ 0) (hbody : Ends mp body σ (some (way, σ')))
    (hway : way.outOf = some way') : Ends mp (.whileLoop c body) σ (some (way', σ'))
  | whileBodyStop {σ : Store} {c : Num} {body : NumStmt} {w : Word}
    (hc : c.eval mp σ = some (.word w)) (hw : w ≠ 0) (hbody : Ends mp body σ none) :
    Ends mp (.whileLoop c body) σ none
  | whileStop {σ : Store} {c : Num} {body : NumStmt} (hc : c.eval mp σ = none) :
    Ends mp (.whileLoop c body) σ none
  | forDone {σ : Store} {c : Num} {post body : NumStmt} (hc : c.eval mp σ = some (.word 0)) :
    Ends mp (.forLoop c post body) σ (some (.on, σ))
  | forStep {σ σ' σ'' : Store} {way : Way} {r : Option (Way × Store)} {c : Num}
    {post body : NumStmt} {w : Word} (hc : c.eval mp σ = some (.word w)) (hw : w ≠ 0)
    (hbody : Ends mp body σ (some (way, σ'))) (hway : way.outOf = none)
    (hpost : Ends mp post σ' (some (.on, σ''))) (hrest : Ends mp (.forLoop c post body) σ'' r) :
    Ends mp (.forLoop c post body) σ r
  | forLeft {σ σ' : Store} {way way' : Way} {c : Num} {post body : NumStmt} {w : Word}
    (hc : c.eval mp σ = some (.word w)) (hw : w ≠ 0) (hbody : Ends mp body σ (some (way, σ')))
    (hway : way.outOf = some way') : Ends mp (.forLoop c post body) σ (some (way', σ'))
  | forPostStop {σ σ' : Store} {way : Way} {c : Num} {post body : NumStmt} {w : Word}
    (hc : c.eval mp σ = some (.word w)) (hw : w ≠ 0) (hbody : Ends mp body σ (some (way, σ')))
    (hway : way.outOf = none) (hpost : Ends mp post σ' none) :
    Ends mp (.forLoop c post body) σ none
  | forPostLeft {σ σ' σ'' : Store} {way way' left : Way} {c : Num} {post body : NumStmt} {w : Word}
    (hc : c.eval mp σ = some (.word w)) (hw : w ≠ 0) (hbody : Ends mp body σ (some (way, σ')))
    (hway : way.outOf = none) (hpost : Ends mp post σ' (some (left, σ'')))
    (hleft : left.outOf = some way') : Ends mp (.forLoop c post body) σ (some (way', σ''))
  | forBodyStop {σ : Store} {c : Num} {post body : NumStmt} {w : Word}
    (hc : c.eval mp σ = some (.word w)) (hw : w ≠ 0) (hbody : Ends mp body σ none) :
    Ends mp (.forLoop c post body) σ none
  | forStop {σ : Store} {c : Num} {post body : NumStmt} (hc : c.eval mp σ = none) :
    Ends mp (.forLoop c post body) σ none
  | doDone {σ σ' : Store} {way : Way} {c : Num} {body : NumStmt}
    (hbody : Ends mp body σ (some (way, σ'))) (hway : way.outOf = none)
    (hc : c.eval mp σ' = some (.word 0)) : Ends mp (.doLoop body c) σ (some (.on, σ'))
  | doStep {σ σ' : Store} {way : Way} {r : Option (Way × Store)} {c : Num} {body : NumStmt}
    {w : Word} (hbody : Ends mp body σ (some (way, σ'))) (hway : way.outOf = none)
    (hc : c.eval mp σ' = some (.word w)) (hw : w ≠ 0) (hrest : Ends mp (.doLoop body c) σ' r) :
    Ends mp (.doLoop body c) σ r
  | doLeft {σ σ' : Store} {way way' : Way} {c : Num} {body : NumStmt}
    (hbody : Ends mp body σ (some (way, σ'))) (hway : way.outOf = some way') :
    Ends mp (.doLoop body c) σ (some (way', σ'))
  | doBodyStop {σ : Store} {c : Num} {body : NumStmt} (hbody : Ends mp body σ none) :
    Ends mp (.doLoop body c) σ none
  | doStop {σ σ' : Store} {way : Way} {c : Num} {body : NumStmt}
    (hbody : Ends mp body σ (some (way, σ'))) (hway : way.outOf = none)
    (hc : c.eval mp σ' = none) : Ends mp (.doLoop body c) σ none
  | brk (σ : Store) (n : Nat) : Ends mp (.brk n) σ (some (.broke n, σ))
  | cont (σ : Store) (n : Nat) : Ends mp (.cont n) σ (some (.continued n, σ))

/-! ### Variables -/

/-- Where the variables are, and their widths. They lie below the temporaries and apart from each
other. -/
structure Layout (vars : List (Nat × NumKind)) (locals : Nat) : Prop where
  below : ∀ {off k}, (off, k) ∈ vars → off + k.byteSize ≤ locals
  integer : ∀ {off k}, (off, k) ∈ vars → k ≠ .real
  apart : ∀ {a k b l}, (a, k) ∈ vars → (b, l) ∈ vars →
    a = b ∧ k = l ∨ a + k.byteSize ≤ b ∨ b + l.byteSize ≤ a

variable {vars : List (Nat × NumKind)} {locals : Nat}

def Num.Over (vars : List (Nat × NumKind)) : Num → Prop
  | .word a => ∀ off, a = .slot off → (off, .word) ∈ vars
  | .big a => ∀ off, a = .slot off → (off, .big) ∈ vars
  | .unary _ e => e.Over vars
  | .binary l _ r => l.Over vars ∧ r.Over vars

/-- An expression over the variables, which lie below `locals`. -/
structure Num.Formed (vars : List (Nat × NumKind)) (locals : Nat) (e : Num) : Prop where
  inScope : e.Over vars
  supported : e.Supported
  placed : e.Placed locals

/-- Conditions are words, and a jump is out of one of the `depth` loops around it. -/
def NumStmt.Formed (vars : List (Nat × NumKind)) (locals : Nat) : NumStmt → Nat → Prop
  | .skip, _ => True
  | .assign off kind e, _ => (off, kind) ∈ vars ∧ e.Formed vars locals
  | .seq s t, depth => s.Formed vars locals depth ∧ t.Formed vars locals depth
  | .ifThen c t, depth => (c.kind = .word ∧ c.Formed vars locals) ∧ t.Formed vars locals depth
  | .ifElse c t e, depth =>
    (c.kind = .word ∧ c.Formed vars locals) ∧ t.Formed vars locals depth ∧
      e.Formed vars locals depth
  | .whileLoop c body, depth =>
    (c.kind = .word ∧ c.Formed vars locals) ∧ body.Formed vars locals (depth + 1)
  | .forLoop c post body, depth =>
    (c.kind = .word ∧ c.Formed vars locals) ∧ post.Formed vars locals (depth + 1) ∧
      body.Formed vars locals (depth + 1)
  | .doLoop body c, depth =>
    (c.kind = .word ∧ c.Formed vars locals) ∧ body.Formed vars locals (depth + 1)
  | .brk n, depth | .cont n, depth => n < depth

/-- The frame holds the store. -/
def HoldsStore (vars : List (Nat × NumKind)) (vm : VmState) (σ : Store) : Prop :=
  ∀ off k, (off, k) ∈ vars → (σ off).kind = k ∧ InSlot vm.frames.data (slot vm off) (σ off)

namespace HoldsStore

variable {vm vm' : VmState} {σ : Store} {pc : Nat}

theorem value_eq {e : Num} (h : HoldsStore vars vm σ) (hover : e.Over vars)
    (hplaced : e.Placed locals) : e.value vm = e.eval vm.mp σ := by
  induction e with
  | word a =>
      refine congrArg some ?_
      cases a with
      | slot off =>
          obtain ⟨hkind, hin⟩ := h off .word (hover off rfl)
          change Val.word (readWord vm.frames.data (Casts.slot vm off)) = σ off
          cases hval : σ off with
          | word w =>
              rw [hval] at hin
              exact congrArg Val.word hin
          | big b =>
              rw [hval] at hkind
              cases hkind
          | str t =>
              rw [hval] at hin
              exact hin.elim
      | data off => rfl
      | imm v => rfl
      | unused => exact hplaced.elim
  | big a =>
      refine congrArg some ?_
      cases a with
      | slot off =>
          obtain ⟨hkind, hin⟩ := h off .big (hover off rfl)
          change Val.big (readBig vm.frames.data (Casts.slot vm off)) = σ off
          cases hval : σ off with
          | word w =>
              rw [hval] at hkind
              cases hkind
          | big b =>
              rw [hval] at hin
              exact congrArg Val.big hin
          | str t =>
              rw [hval] at hin
              exact hin.elim
      | data off => rfl
      | imm v => rfl
      | unused => exact hplaced.elim
  | unary op e ih => rw [Num.value, Num.eval, ih hover hplaced]
  | binary l op r ihl ihr =>
      rw [Num.value, Num.eval, ihl hover.1 hplaced.1, ihr hover.2 hplaced.2]

/-- A run that changes nothing below the temporaries. -/
theorem kept (h : HoldsStore vars vm σ) (hvars : Layout vars locals)
    (hkept : Kept vm vm' pc locals 0 locals) : HoldsStore vars vm' σ := by
  intro off k hmem
  obtain ⟨hkind, hin⟩ := h off k hmem
  have hbelow := hvars.below hmem
  rw [← hkind] at hbelow
  rw [hkept.slot_eq]
  exact ⟨hkind, hkept.inSlot hbelow (.inl hbelow) hin⟩

/-- An assignment to one of the variables. -/
theorem updated {off next : Nat} {kind : NumKind} {v : Val} (h : HoldsStore vars vm σ)
    (hvars : Layout vars locals) (hmem : (off, kind) ∈ vars) (hle : locals ≤ next)
    (hv : v.kind = kind) (hin : InSlot vm'.frames.data (slot vm off) v)
    (hkept : Kept vm vm' pc off kind.byteSize next) :
    HoldsStore vars vm' (Function.update σ off v) := by
  intro b l hb
  rw [hkept.slot_eq]
  have hbelow := hvars.below hb
  by_cases hsame : b = off
  · subst hsame
    rw [Function.update_self]
    refine ⟨?_, hin⟩
    rcases hvars.apart hmem hb with ⟨-, rfl⟩ | hlow | hhigh
    · exact hv
    · have hpos : 0 < kind.byteSize := by cases kind <;> decide
      omega
    · have hpos : 0 < l.byteSize := by cases l <;> decide
      omega
  · obtain ⟨hkind, hold⟩ := h b l hb
    rw [Function.update_of_ne hsame]
    refine ⟨hkind, hkept.inSlot ?_ ?_ hold⟩
    · rw [hkind]
      omega
    · rw [hkind]
      rcases hvars.apart hb hmem with ⟨heq, -⟩ | hlow | hhigh
      · exact absurd heq hsame
      · exact .inl hlow
      · exact .inr hhigh

end HoldsStore

/-! ### Conditions -/

section Conditions

variable {code : List Instruction} {vm vm' u : VmState} {pc next free target : Nat} {c : Num}
  {σ : Store} {w : Word}

/-- A run that changes nothing below the temporaries, from where the store is held. -/
theorem HoldsStore.steps {i : Instruction} (hvars : Layout vars locals)
    (hholds : HoldsStore vars vm σ) (hi : code[vm.pc]? = some i)
    (hstep : step i vm = .ok () vm') (hwent : Went vm vm' vm.frames.data target) :
    Steps code vm vm' ∧ HoldsStore vars vm' σ ∧ Kept vm vm' target 0 locals locals :=
  ⟨.step hi hstep (.refl vm'), hholds.kept hvars (hwent.still locals 0 locals),
    hwent.still 0 locals locals⟩

theorem steps_jump (hvars : Layout vars locals) (hholds : HoldsStore vars vm σ)
    (hi : code[vm.pc]? = some (jump target)) (htarget : target < 2 ^ 31) :
    ∃ u, Steps code vm u ∧ HoldsStore vars u σ ∧ Kept vm u target 0 locals locals := by
  obtain ⟨u, hstep, hwent⟩ := step_jmp vm htarget
  exact ⟨u, hholds.steps hvars hi hstep hwent⟩

theorem steps_leaveUnless {cond : Nat} (hvars : Layout vars locals)
    (hholds : HoldsStore vars vm σ) (hi : code[vm.pc]? = some (leaveUnless cond target))
    (htarget : target < 2 ^ 31) (hcond : slot vm cond < mpBase)
    (hw : readWord vm.frames.data (slot vm cond) = w) :
    ∃ u, Steps code vm u ∧ HoldsStore vars u σ ∧
      Kept vm u (if w = 0 then target else vm.pc + 1) 0 locals locals := by
  have hop : operation .beqw = wordBranch (· == ·) := rfl
  obtain ⟨u, hstep, hwent⟩ := step_wordBranch hop (a := .imm 0) hcond trivial htarget
  have hzero : Arg.wordIn vm (.imm 0) = 0 := rfl
  simp only [hw, hzero, beq_iff_eq] at hwent
  exact ⟨u, hholds.steps hvars hi hstep hwent⟩

theorem steps_repeatIf {cond : Nat} (hvars : Layout vars locals)
    (hholds : HoldsStore vars vm σ) (hi : code[vm.pc]? = some (repeatIf cond target))
    (htarget : target < 2 ^ 31) (hcond : slot vm cond < mpBase)
    (hw : readWord vm.frames.data (slot vm cond) = w) :
    ∃ u, Steps code vm u ∧ HoldsStore vars u σ ∧
      Kept vm u (if w = 0 then vm.pc + 1 else target) 0 locals locals := by
  have hop : operation .bnew = wordBranch (· != ·) := rfl
  obtain ⟨u, hstep, hwent⟩ := step_wordBranch hop (a := .imm 0) hcond trivial htarget
  have hzero : Arg.wordIn vm (.imm 0) = 0 := rfl
  simp only [hw, hzero, bne_iff_ne, ne_eq, ite_not] at hwent
  exact ⟨u, hholds.steps hvars hi hstep hwent⟩

/-- A machine at the code of a condition, with the store in its frame. -/
structure Conditional (vars : List (Nat × NumKind)) (locals : Nat) (code : List Instruction)
    (vm : VmState) (σ : Store) (pc next free : Nat) (c : Num) (codeC : List Instruction) :
    Prop where
  length : code.length < 2 ^ 31
  here : At code pc codeC
  word : c.kind = .word
  formed : c.Formed vars locals
  above : locals ≤ next
  generated : c.gen next (next + 4) pc = some (codeC, free)
  pc_eq : vm.pc = pc
  room : Room vm free
  temp : next + 4 ≤ free
  holds : HoldsStore vars vm σ

namespace Conditional

variable {codeC : List Instruction}

/-- The condition is left in its temporary. -/
theorem comes (h : Conditional vars locals code vm σ pc next free c codeC) :
    Comes code vm (c.eval vm.mp σ) fun v u => ∃ w, v = .word w ∧
      readWord u.frames.data (slot u next) = w ∧ Kept vm u (pc + codeC.length) locals 0 locals := by
  obtain ⟨block, free', hblock, -, hrun⟩ := Num.computes h.formed.supported next (next + 4) pc
    (h.formed.placed.mono (Nat.le_trans h.above (Nat.le_add_right _ _)))
    (by rw [h.word]; exact Nat.le_refl _)
  obtain ⟨rfl, rfl⟩ := Prod.mk.inj (Option.some.inj (h.generated.symm.trans hblock))
  have hleaves : Leaves code vm (c.value vm) c.kind c.kind (pc + codeC.length) next (next + 4) :=
    hrun code vm h.length h.here h.pc_eq h.room
  rw [h.holds.value_eq h.formed.inScope h.formed.placed, h.word] at hleaves
  refine Comes.mono hleaves fun v u hpost => ?_
  obtain ⟨hkind, hslot, hkept⟩ := hpost
  cases v with
  | big b => cases hkind
  | str t => exact hslot.elim
  | word w =>
      refine ⟨w, rfl, ?_, hkept.widen (Nat.le_trans h.above (Nat.le_add_right _ _)) (.inl h.above)⟩
      rw [hkept.slot_eq]
      exact hslot

theorem steps (h : Conditional vars locals code vm σ pc next free c codeC)
    (hvars : Layout vars locals) (hc : c.eval vm.mp σ = some (.word w)) :
    ∃ u, Steps code vm u ∧ HoldsStore vars u σ ∧ slot u next < mpBase ∧
      readWord u.frames.data (slot u next) = w ∧ Kept vm u (pc + codeC.length) 0 locals locals := by
  have hcomes := h.comes
  rw [hc] at hcomes
  obtain ⟨u, hsteps, w', hw, hread, hkept⟩ := hcomes
  cases hw
  exact ⟨u, hsteps, h.holds.kept hvars hkept, (h.room.kept hkept).lt h.temp, hread,
    hkept.widen (Nat.le_refl locals) (.inl (Nat.le_refl locals))⟩

theorem stops {α : Type} {post : α → VmState → Prop}
    (h : Conditional vars locals code vm σ pc next free c codeC)
    (hc : c.eval vm.mp σ = none) : Comes code vm none post := by
  have hcomes := h.comes
  rw [hc] at hcomes
  exact hcomes

/-- Up to the code that it guards, or past that. -/
theorem guards {rest : List Instruction}
    (h : Conditional vars locals code vm σ pc next free c codeC) (hvars : Layout vars locals)
    (hat : At code pc (codeC ++ leaveUnless next target :: rest)) (htarget : target < 2 ^ 31)
    (hc : c.eval vm.mp σ = some (.word w)) :
    ∃ u, Steps code vm u ∧ HoldsStore vars u σ ∧
      Kept vm u (if w = 0 then target else pc + codeC.length + 1) 0 locals locals := by
  obtain ⟨u, hsteps, hholds, hlt, hread, hkept⟩ := h.steps hvars hc
  have hi := hat.right.head
  rw [← hkept.pc_eq] at hi
  obtain ⟨u', hsteps', hholds', hkept'⟩ := steps_leaveUnless hvars hholds hi htarget hlt hread
  rw [hkept.pc_eq] at hkept'
  exact ⟨u', hsteps.trans hsteps', hholds', hkept.trans hkept'⟩

/-- Behind it, or back to where the branch goes. -/
theorem repeats (h : Conditional vars locals code vm σ pc next free c codeC)
    (hvars : Layout vars locals) (hat : At code pc (codeC ++ [repeatIf next target]))
    (htarget : target < 2 ^ 31) (hc : c.eval vm.mp σ = some (.word w)) :
    ∃ u, Steps code vm u ∧ HoldsStore vars u σ ∧
      Kept vm u (if w = 0 then pc + codeC.length + 1 else target) 0 locals locals := by
  obtain ⟨u, hsteps, hholds, hlt, hread, hkept⟩ := h.steps hvars hc
  have hi := hat.right.head
  rw [← hkept.pc_eq] at hi
  obtain ⟨u', hsteps', hholds', hkept'⟩ := steps_repeatIf hvars hholds hi htarget hlt hread
  rw [hkept.pc_eq] at hkept'
  exact ⟨u', hsteps.trans hsteps', hholds', hkept.trans hkept'⟩

end Conditional

theorem Num.condition_gen (hc : c.kind = .word ∧ c.Formed vars locals)
    (hle : locals ≤ next) (pc : Nat) :
    ∃ codeC free, c.gen next (next + 4) pc = some (codeC, free) ∧ next + 4 ≤ free := by
  obtain ⟨codeC, free, hgen, hfree, -⟩ := Num.computes hc.2.supported next (next + 4) pc
    (hc.2.placed.mono (by omega)) (by rw [hc.1]; exact Nat.le_refl _)
  exact ⟨codeC, free, hgen, hfree⟩

end Conditions

/-! ### The code of a program -/

section Sizes

variable {next pc n free depth : Nat} {s : NumStmt}

theorem computes_assigned {off : Nat} {kind : NumKind} (e : Num) (hvars : Layout vars locals)
    (hmem : (off, kind) ∈ vars) (he : e.Supported) :
    Computes (genToKind e.kind kind e.gen) e.kind kind e.value e.Placed :=
  computes_toKind e.kind_ne_real (hvars.integer hmem) (Num.computes he) fun hle hp => hp.mono hle

/-- The code has one length and one set of temporaries, wherever its jumps will go. -/
structure Sized (s : NumStmt) (depth next pc n free : Nat) : Prop where
  le : next ≤ free
  code : ∀ loops : List Targets, loops.length = depth →
    ∃ block, s.gen loops next pc = some (block, free) ∧ block.length = n

/-- Every program is compiled. -/
theorem NumStmt.sized (hvars : Layout vars locals) (h : s.Formed vars locals depth)
    (hle : locals ≤ next) (pc : Nat) : ∃ n free, Sized s depth next pc n free := by
  induction s generalizing depth next pc with
  | skip => exact ⟨0, next, Nat.le_refl next, fun loops _ => ⟨[], rfl, rfl⟩⟩
  | brk n =>
      refine ⟨1, next, Nat.le_refl next, fun loops hloops => ?_⟩
      have hn : n < loops.length := hloops ▸ h
      refine ⟨[jump loops[n].exit], ?_, rfl⟩
      rw [gen, List.getElem?_eq_getElem hn]
      rfl
  | cont n =>
      refine ⟨1, next, Nat.le_refl next, fun loops hloops => ?_⟩
      have hn : n < loops.length := hloops ▸ h
      refine ⟨[jump loops[n].again], ?_, rfl⟩
      rw [gen, List.getElem?_eq_getElem hn]
      rfl
  | assign off kind e =>
      have hbelow := hvars.below h.1
      obtain ⟨block, free, hgen, hfree, -⟩ := computes_assigned e hvars h.1 h.2.supported off next pc
        (h.2.placed.mono hle) (by omega)
      exact ⟨block.length, free, hfree, fun loops _ => ⟨block, hgen, rfl⟩⟩
  | seq s t ihs iht =>
      obtain ⟨n, freeS, hS⟩ := ihs h.1 hle pc
      obtain ⟨m, freeT, hT⟩ := iht h.2 (Nat.le_trans hle hS.le) (pc + n)
      refine ⟨n + m, freeT, Nat.le_trans hS.le hT.le, fun loops hloops => ?_⟩
      obtain ⟨codeS, hgenS, rfl⟩ := hS.code loops hloops
      obtain ⟨codeT, hgenT, rfl⟩ := hT.code loops hloops
      exact ⟨_, gen_seq hgenS hgenT, List.length_append⟩
  | ifThen c t iht =>
      obtain ⟨codeC, freeC, hgenC, hleC⟩ := Num.condition_gen h.1 hle pc
      have hleC' : locals ≤ freeC := by omega
      obtain ⟨m, freeT, hT⟩ := iht h.2 hleC' (pc + codeC.length + 1)
      have hleT := hT.le
      refine ⟨codeC.length + (m + 1), freeT, by omega, fun loops hloops => ?_⟩
      obtain ⟨codeT, hgenT, rfl⟩ := hT.code loops hloops
      exact ⟨_, gen_ifThen hgenC hgenT, List.length_append⟩
  | ifElse c t e iht ihe =>
      obtain ⟨codeC, freeC, hgenC, hleC⟩ := Num.condition_gen h.1 hle pc
      have hleC' : locals ≤ freeC := by omega
      obtain ⟨m, freeT, hT⟩ := iht h.2.1 hleC' (pc + codeC.length + 1)
      obtain ⟨k, freeE, hE⟩ := ihe h.2.2 (Nat.le_trans hleC' hT.le) (pc + codeC.length + 1 + m + 1)
      have hleT := hT.le
      have hleE := hE.le
      refine ⟨codeC.length + (m + (k + 1) + 1), freeE, by omega, fun loops hloops => ?_⟩
      obtain ⟨codeT, hgenT, rfl⟩ := hT.code loops hloops
      obtain ⟨codeE, hgenE, rfl⟩ := hE.code loops hloops
      refine ⟨_, gen_ifElse hgenC hgenT hgenE, ?_⟩
      simp only [List.length_append, List.length_cons]
  | whileLoop c body ihb =>
      obtain ⟨codeC, freeC, hgenC, hleC⟩ := Num.condition_gen h.1 hle pc
      have hleC' : locals ≤ freeC := by omega
      obtain ⟨m, freeB, hB⟩ := ihb h.2 hleC' (pc + codeC.length + 1)
      have hleB := hB.le
      refine ⟨codeC.length + (m + 1 + 1), freeB, by omega, fun loops hloops => ?_⟩
      have hinner : ∀ l : Targets, (l :: loops).length = depth + 1 := fun l => by
        rw [List.length_cons, hloops]
      obtain ⟨draft, hdraft, rfl⟩ := hB.code (unpatched :: loops) (hinner _)
      obtain ⟨codeB, hgenB, hlength⟩ := hB.code
        (⟨pc + codeC.length + 1 + draft.length + 1, pc⟩ :: loops) (hinner _)
      refine ⟨_, gen_whileLoop hgenC hdraft hgenB, ?_⟩
      simp only [List.length_append, List.length_cons, List.length_nil, hlength]
  | forLoop c post body ihp ihb =>
      obtain ⟨codeC, freeC, hgenC, hleC⟩ := Num.condition_gen h.1 hle pc
      have hleC' : locals ≤ freeC := by omega
      obtain ⟨m, freeB, hB⟩ := ihb h.2.2 hleC' (pc + codeC.length + 1)
      obtain ⟨k, freeP, hP⟩ := ihp h.2.1 (Nat.le_trans hleC' hB.le) (pc + codeC.length + 1 + m)
      have hleB := hB.le
      have hleP := hP.le
      refine ⟨codeC.length + (m + (k + 1) + 1), freeP, by omega, fun loops hloops => ?_⟩
      have hinner : ∀ l : Targets, (l :: loops).length = depth + 1 := fun l => by
        rw [List.length_cons, hloops]
      obtain ⟨draft, hdraft, rfl⟩ := hB.code (unpatched :: loops) (hinner _)
      obtain ⟨draftP, hdraftP, rfl⟩ := hP.code (unpatched :: loops) (hinner _)
      obtain ⟨codeB, hgenB, hlengthB⟩ := hB.code (⟨pc + codeC.length + 1 + draft.length +
        draftP.length + 1, pc + codeC.length + 1 + draft.length⟩ :: loops) (hinner _)
      obtain ⟨codeP, hgenP, hlengthP⟩ := hP.code (⟨pc + codeC.length + 1 + draft.length +
        draftP.length + 1, pc + codeC.length + 1 + draft.length⟩ :: loops) (hinner _)
      refine ⟨_, gen_forLoop hgenC hdraft hdraftP hgenB hgenP, ?_⟩
      simp only [List.length_append, List.length_cons, List.length_nil, hlengthB, hlengthP]
  | doLoop body c ihb =>
      obtain ⟨m, freeB, hB⟩ := ihb h.2 hle pc
      have hleB := Nat.le_trans hle hB.le
      obtain ⟨codeC, freeC, hgenC, hleC⟩ := Num.condition_gen h.1 hleB (pc + m)
      have hle' := hB.le
      refine ⟨m + (codeC.length + 1), freeC, by omega, fun loops hloops => ?_⟩
      have hinner : ∀ l : Targets, (l :: loops).length = depth + 1 := fun l => by
        rw [List.length_cons, hloops]
      obtain ⟨draft, hdraft, rfl⟩ := hB.code (unpatched :: loops) (hinner _)
      obtain ⟨codeB, hgenB, hlength⟩ := hB.code
        (⟨pc + draft.length + codeC.length + 1, pc + draft.length⟩ :: loops) (hinner _)
      refine ⟨_, gen_doLoop hdraft hgenC hgenB, ?_⟩
      simp only [List.length_append, List.length_cons, List.length_nil, hlength]

end Sizes

/-! ### Runs -/

/-- The pc a statement is left at, if it is left behind its code at `on`. -/
def Way.pc (loops : List Targets) (on : Nat) : Way → Nat
  | .on => on
  | .broke n => (loops[n]?.map (·.exit)).getD 0
  | .continued n => (loops[n]?.map (·.again)).getD 0

namespace Way

variable {way way' : Way} {loops : List Targets} {exit again : Nat}

theorem pc_of_ne (h : way ≠ .on) (a b : Nat) : way.pc loops a = way.pc loops b := by
  cases way with
  | on => exact absurd rfl h
  | broke n => rfl
  | continued n => rfl

/-- What leaves a loop leaves its body for where the loop ends, or for a loop around it. -/
theorem pc_of_outOf (h : way.outOf = some way') (on : Nat) :
    way.pc (⟨exit, again⟩ :: loops) on = way'.pc loops exit := by
  cases way with
  | on => cases h
  | broke n =>
      cases n with
      | zero => cases h; rfl
      | succ n => cases h; rfl
  | continued n =>
      cases n with
      | zero => cases h
      | succ n => cases h; rfl

theorem eq_of_outOf_none (h : way.outOf = none) : way = .on ∨ way = .continued 0 := by
  cases way with
  | on => exact .inl rfl
  | broke n => cases n <;> cases h
  | continued n =>
      cases n with
      | zero => exact .inr rfl
      | succ n => cases h

theorem pc_of_outOf_none (h : way.outOf = none) :
    way.pc (⟨exit, again⟩ :: loops) again = again := by
  rcases eq_of_outOf_none h with rfl | rfl <;> rfl

end Way

section Programs

variable {mp : List Byte} {code : List Instruction} {vm u : VmState} {σ σ' : Store}
  {s t : NumStmt} {loops loops' : List Targets} {block block' : List Instruction}
  {pc pc' next next' free free' : Nat}

/-- How a statement leaves a machine that holds a store. -/
def Left (vars : List (Nat × NumKind)) (locals : Nat) (loops : List Targets) (vm : VmState)
    (on : Nat) (o : Way × Store) (vm' : VmState) : Prop :=
  HoldsStore vars vm' o.2 ∧ Kept vm vm' (o.1.pc loops on) 0 locals locals

theorem Left.after {r : Option (Way × Store)} {on : Nat} (hsteps : Steps code vm u)
    (hkept : Kept vm u pc 0 locals locals) (hrest : Comes code u r (Left vars locals loops u on)) :
    Comes code vm r (Left vars locals loops vm on) :=
  (Comes.after hsteps hrest).mono fun _ _ hpost => ⟨hpost.1, hkept.trans hpost.2⟩

/-- A machine at the code of a program, with the store in its frame. -/
structure Ready (vars : List (Nat × NumKind)) (locals : Nat) (mp : List Byte)
    (code : List Instruction) (vm : VmState) (σ : Store) (s : NumStmt) (loops : List Targets)
    (next pc : Nat) (block : List Instruction) (free : Nat) : Prop where
  formed : s.Formed vars locals loops.length
  above : locals ≤ next
  generated : s.gen loops next pc = some (block, free)
  length : code.length < 2 ^ 31
  here : At code pc block
  targets : ∀ l ∈ loops, l.exit < 2 ^ 31 ∧ l.again < 2 ^ 31
  pc_eq : vm.pc = pc
  room : Room vm free
  mp_eq : vm.mp = mp
  holds : HoldsStore vars vm σ

namespace Ready

/-- The code that was generated is the only one. -/
theorem block_eq (h : Ready vars locals mp code vm σ s loops next pc block free)
    (hgen : s.gen loops next pc = some (block', free')) : block = block' ∧ free = free' :=
  Prod.mk.inj (Option.some.inj (h.generated.symm.trans hgen))

theorem start (h : Ready vars locals mp code vm σ s loops next pc block free) :
    Kept vm vm pc 0 locals locals := h.pc_eq ▸ Kept.refl vm 0 locals locals

theorem end_lt (h : Ready vars locals mp code vm σ s loops next pc block free) :
    pc + block.length < 2 ^ 31 := target_lt h.length h.here (Nat.le_refl _)

theorem start_lt (h : Ready vars locals mp code vm σ s loops next pc block free) : pc < 2 ^ 31 :=
  target_lt h.length h.here (Nat.zero_le _)

/-- A part of a program, from where the code before it has led. -/
theorem part (h : Ready vars locals mp code vm σ s loops next pc block free)
    (hformed : t.Formed vars locals loops'.length) (habove : locals ≤ next')
    (hgen : t.gen loops' next' pc' = some (block', free')) (hat : At code pc' block')
    (hfree : free' ≤ free) (htargets : ∀ l ∈ loops', l.exit < 2 ^ 31 ∧ l.again < 2 ^ 31)
    (hholds : HoldsStore vars u σ') (hkept : Kept vm u pc' 0 locals locals) :
    Ready vars locals mp code u σ' t loops' next' pc' block' free' :=
  ⟨hformed, habove, hgen, h.length, hat, htargets, hkept.pc_eq, (h.room.mono hfree).kept hkept,
    hkept.mp_eq.trans h.mp_eq, hholds⟩

/-- The body of a loop, in which a jump may leave that loop too. -/
theorem inner {l : Targets} (h : Ready vars locals mp code vm σ s loops next pc block free)
    (hformed : t.Formed vars locals (loops.length + 1)) (habove : locals ≤ next')
    (hgen : t.gen (l :: loops) next' pc' = some (block', free')) (hat : At code pc' block')
    (hfree : free' ≤ free) (hexit : l.exit < 2 ^ 31) (hagain : l.again < 2 ^ 31)
    (hholds : HoldsStore vars u σ') (hkept : Kept vm u pc' 0 locals locals) :
    Ready vars locals mp code u σ' t (l :: loops) next' pc' block' free' :=
  h.part hformed habove hgen hat hfree (List.forall_mem_cons.mpr ⟨⟨hexit, hagain⟩, h.targets⟩)
    hholds hkept

theorem condition {c : Num} {codeC : List Instruction}
    (h : Ready vars locals mp code vm σ s loops next pc block free)
    (hformed : c.kind = .word ∧ c.Formed vars locals) (habove : locals ≤ next')
    (hgen : c.gen next' (next' + 4) pc' = some (codeC, free')) (hat : At code pc' codeC)
    (hfree : free' ≤ free) (htemp : next' + 4 ≤ free') (hholds : HoldsStore vars u σ')
    (hkept : Kept vm u pc' 0 locals locals) :
    Conditional vars locals code u σ' pc' next' free' c codeC :=
  ⟨h.length, hat, hformed.1, hformed.2, habove, hgen, hkept.pc_eq, (h.room.mono hfree).kept hkept,
    htemp, hholds⟩

/-- Every part of the code has its place. -/
theorem seq (hvars : Layout vars locals)
    (h : Ready vars locals mp code vm σ (.seq s t) loops next pc block free) :
    ∃ codeS freeS codeT, block = codeS ++ codeT ∧ locals ≤ freeS ∧
      t.gen loops freeS (pc + codeS.length) = some (codeT, free) ∧
      Ready vars locals mp code vm σ s loops next pc codeS freeS := by
  obtain ⟨n, freeS, hS⟩ := NumStmt.sized hvars h.formed.1 h.above pc
  have habove := Nat.le_trans h.above hS.le
  obtain ⟨codeS, hgenS, rfl⟩ := hS.code loops rfl
  obtain ⟨m, freeT, hT⟩ := NumStmt.sized hvars h.formed.2 habove (pc + codeS.length)
  obtain ⟨codeT, hgenT, -⟩ := hT.code loops rfl
  obtain ⟨rfl, rfl⟩ := h.block_eq (NumStmt.gen_seq hgenS hgenT)
  exact ⟨codeS, freeS, codeT, rfl, habove, hgenT,
    h.part h.formed.1 h.above hgenS h.here.left hT.le h.targets h.holds h.start⟩

theorem ifThen {c : Num} (hvars : Layout vars locals)
    (h : Ready vars locals mp code vm σ (.ifThen c t) loops next pc block free) :
    ∃ codeC freeC codeT final, final = pc + codeC.length + 1 + codeT.length ∧
      pc + block.length = final ∧ block = codeC ++ leaveUnless next final :: codeT ∧
      t.gen loops freeC (pc + codeC.length + 1) = some (codeT, free) ∧ locals ≤ freeC ∧
      Conditional vars locals code vm σ pc next freeC c codeC := by
  obtain ⟨hcond, ht⟩ := h.formed
  obtain ⟨codeC, freeC, hgenC, hleC⟩ := Num.condition_gen hcond h.above pc
  have habove : locals ≤ freeC := Nat.le_trans h.above (by omega)
  obtain ⟨n, freeT, hT⟩ := NumStmt.sized hvars ht habove (pc + codeC.length + 1)
  obtain ⟨codeT, hgenT, -⟩ := hT.code loops rfl
  obtain ⟨rfl, rfl⟩ := h.block_eq (NumStmt.gen_ifThen hgenC hgenT)
  refine ⟨codeC, freeC, codeT, _, rfl, ?_, rfl, hgenT, habove,
    h.condition hcond h.above hgenC h.here.left hT.le hleC h.holds h.start⟩
  simp only [List.length_append, List.length_cons]
  omega

theorem ifElse {c : Num} {e : NumStmt} (hvars : Layout vars locals)
    (h : Ready vars locals mp code vm σ (.ifElse c t e) loops next pc block free) :
    ∃ codeC freeC codeT freeT codeE other final, other = pc + codeC.length + 1 + codeT.length + 1 ∧
      final = other + codeE.length ∧ pc + block.length = final ∧ other ≤ final ∧
      block = codeC ++ leaveUnless next other :: (codeT ++ jump final :: codeE) ∧
      t.gen loops freeC (pc + codeC.length + 1) = some (codeT, freeT) ∧ locals ≤ freeC ∧
      freeT ≤ free ∧ e.gen loops freeT other = some (codeE, free) ∧ locals ≤ freeT ∧
      Conditional vars locals code vm σ pc next freeC c codeC := by
  obtain ⟨hcond, ht, he⟩ := h.formed
  obtain ⟨codeC, freeC, hgenC, hleC⟩ := Num.condition_gen hcond h.above pc
  have habove : locals ≤ freeC := Nat.le_trans h.above (by omega)
  obtain ⟨n, freeT, hT⟩ := NumStmt.sized hvars ht habove (pc + codeC.length + 1)
  obtain ⟨codeT, hgenT, rfl⟩ := hT.code loops rfl
  have haboveE := Nat.le_trans habove hT.le
  obtain ⟨m, freeE, hE⟩ :=
    NumStmt.sized hvars he haboveE (pc + codeC.length + 1 + codeT.length + 1)
  obtain ⟨codeE, hgenE, -⟩ := hE.code loops rfl
  obtain ⟨rfl, rfl⟩ := h.block_eq (NumStmt.gen_ifElse hgenC hgenT hgenE)
  refine ⟨codeC, freeC, codeT, freeT, codeE, _, _, rfl, rfl, ?_, Nat.le_add_right _ _, rfl, hgenT,
    habove, hE.le, hgenE, haboveE, h.condition hcond h.above hgenC h.here.left
      (Nat.le_trans hT.le hE.le) hleC h.holds h.start⟩
  simp only [List.length_append, List.length_cons]
  omega

theorem whileLoop {c : Num} (hvars : Layout vars locals)
    (h : Ready vars locals mp code vm σ (.whileLoop c t) loops next pc block free) :
    ∃ codeC freeC codeB exit, exit = pc + codeC.length + 1 + codeB.length + 1 ∧
      pc + block.length = exit ∧ block = codeC ++ leaveUnless next exit :: (codeB ++ [jump pc]) ∧
      t.gen (⟨exit, pc⟩ :: loops) freeC (pc + codeC.length + 1) = some (codeB, free) ∧
      locals ≤ freeC ∧ Conditional vars locals code vm σ pc next freeC c codeC := by
  obtain ⟨hcond, ht⟩ := h.formed
  obtain ⟨codeC, freeC, hgenC, hleC⟩ := Num.condition_gen hcond h.above pc
  have habove : locals ≤ freeC := Nat.le_trans h.above (by omega)
  obtain ⟨n, freeB, hB⟩ := NumStmt.sized hvars ht habove (pc + codeC.length + 1)
  obtain ⟨draft, hdraft, rfl⟩ := hB.code (unpatched :: loops) rfl
  obtain ⟨codeB, hgenB, hlength⟩ :=
    hB.code (⟨pc + codeC.length + 1 + draft.length + 1, pc⟩ :: loops) rfl
  obtain ⟨rfl, rfl⟩ := h.block_eq (NumStmt.gen_whileLoop hgenC hdraft hgenB)
  refine ⟨codeC, freeC, codeB, _, by rw [hlength], ?_, rfl, hgenB, habove,
    h.condition hcond h.above hgenC h.here.left hB.le hleC h.holds h.start⟩
  simp only [List.length_append, List.length_cons, List.length_nil, hlength]
  omega

/-- Up to the body, behind which the jump back stands. -/
theorem whileBody {c : Num} {w : Word} (hvars : Layout vars locals)
    (h : Ready vars locals mp code vm σ (.whileLoop c t) loops next pc block free)
    (hc : c.eval mp σ = some (.word w)) (hw : w ≠ 0) :
    ∃ u start codeB freeC, Steps code vm u ∧ Kept vm u start 0 locals locals ∧
      code[start + codeB.length]? = some (jump pc) ∧
      Ready vars locals mp code u σ t (⟨pc + block.length, pc⟩ :: loops) freeC start codeB
        free := by
  obtain ⟨codeC, freeC, codeB, exit, -, rfl, hblock, hgenB, habove, hcond⟩ := h.whileLoop hvars
  have hat := h.here
  rw [hblock] at hat
  obtain ⟨u, hsteps, hholds, hkept⟩ :=
    hcond.guards hvars (hblock ▸ h.here) h.end_lt (h.mp_eq ▸ hc)
  rw [if_neg hw] at hkept
  exact ⟨u, _, codeB, freeC, hsteps, hkept, hat.right.tail.right.head,
    h.inner h.formed.2 habove hgenB hat.right.tail.left (Nat.le_refl _) h.end_lt h.start_lt
      hholds hkept⟩

theorem forLoop {c : Num} (hvars : Layout vars locals)
    (h : Ready vars locals mp code vm σ (.forLoop c s t) loops next pc block free) :
    ∃ codeC freeC codeB freeB codeP again exit, again = pc + codeC.length + 1 + codeB.length ∧
      exit = again + codeP.length + 1 ∧ pc + block.length = exit ∧
      block = codeC ++ leaveUnless next exit :: (codeB ++ (codeP ++ [jump pc])) ∧
      t.gen (⟨exit, again⟩ :: loops) freeC (pc + codeC.length + 1) = some (codeB, freeB) ∧
      s.gen (⟨exit, again⟩ :: loops) freeB again = some (codeP, free) ∧ freeB ≤ free ∧
      locals ≤ freeC ∧ locals ≤ freeB ∧
      Conditional vars locals code vm σ pc next freeC c codeC := by
  obtain ⟨hcond, hs, ht⟩ := h.formed
  obtain ⟨codeC, freeC, hgenC, hleC⟩ := Num.condition_gen hcond h.above pc
  have habove : locals ≤ freeC := Nat.le_trans h.above (by omega)
  obtain ⟨n, freeB, hB⟩ := NumStmt.sized hvars ht habove (pc + codeC.length + 1)
  obtain ⟨draft, hdraft, rfl⟩ := hB.code (unpatched :: loops) rfl
  have haboveB := Nat.le_trans habove hB.le
  obtain ⟨m, freeP, hP⟩ := NumStmt.sized hvars hs haboveB (pc + codeC.length + 1 + draft.length)
  obtain ⟨draftP, hdraftP, rfl⟩ := hP.code (unpatched :: loops) rfl
  obtain ⟨codeB, hgenB, hlengthB⟩ := hB.code (⟨pc + codeC.length + 1 + draft.length +
    draftP.length + 1, pc + codeC.length + 1 + draft.length⟩ :: loops) rfl
  obtain ⟨codeP, hgenP, hlengthP⟩ := hP.code (⟨pc + codeC.length + 1 + draft.length +
    draftP.length + 1, pc + codeC.length + 1 + draft.length⟩ :: loops) rfl
  obtain ⟨rfl, rfl⟩ := h.block_eq (NumStmt.gen_forLoop hgenC hdraft hdraftP hgenB hgenP)
  refine ⟨codeC, freeC, codeB, freeB, codeP, _, _, by rw [hlengthB], by rw [hlengthP], ?_, rfl,
    hgenB, hgenP, hP.le, habove, haboveB, h.condition hcond h.above hgenC h.here.left
      (Nat.le_trans hB.le hP.le) hleC h.holds h.start⟩
  simp only [List.length_append, List.length_cons, List.length_nil, hlengthB, hlengthP]
  omega

/-- Up to the body, behind which the third statement and the jump back stand. -/
theorem forBody {c : Num} {w : Word} (hvars : Layout vars locals)
    (h : Ready vars locals mp code vm σ (.forLoop c s t) loops next pc block free)
    (hc : c.eval mp σ = some (.word w)) (hw : w ≠ 0) :
    ∃ u start codeB freeC freeB codeP again, again = start + codeB.length ∧ Steps code vm u ∧
      Kept vm u start 0 locals locals ∧ code[again + codeP.length]? = some (jump pc) ∧
      Ready vars locals mp code u σ t (⟨pc + block.length, again⟩ :: loops) freeC start codeB
        freeB ∧
      ∀ v σ', HoldsStore vars v σ' → Kept vm v again 0 locals locals →
        Ready vars locals mp code v σ' s (⟨pc + block.length, again⟩ :: loops) freeB again codeP
          free := by
  obtain ⟨codeC, freeC, codeB, freeB, codeP, again, exit, hagain, hexit, rfl, hblock, hgenB, hgenP,
    hleB, habove, haboveB, hcond⟩ := h.forLoop hvars
  have hat := h.here
  rw [hblock] at hat
  have hatP := hat.right.tail.right
  rw [← hagain] at hatP
  have hlt := h.end_lt
  have hagain_lt : again < 2 ^ 31 := by omega
  obtain ⟨u, hsteps, hholds, hkept⟩ := hcond.guards hvars hat hlt (h.mp_eq ▸ hc)
  rw [if_neg hw] at hkept
  refine ⟨u, _, codeB, freeC, freeB, codeP, again, hagain, hsteps, hkept, hatP.right.head,
    h.inner h.formed.2.2 habove hgenB hat.right.tail.left hleB hlt hagain_lt hholds hkept, ?_⟩
  intro v σ' hholds' hkept'
  exact h.inner h.formed.2.1 haboveB hgenP hatP.left (Nat.le_refl _) hlt hagain_lt hholds' hkept'

theorem doLoop {c : Num} (hvars : Layout vars locals)
    (h : Ready vars locals mp code vm σ (.doLoop t c) loops next pc block free) :
    ∃ codeB freeB codeC again, again = pc + codeB.length ∧
      pc + block.length = again + codeC.length + 1 ∧
      At code again (codeC ++ [repeatIf freeB pc]) ∧
      Ready vars locals mp code vm σ t (⟨pc + block.length, again⟩ :: loops) next pc codeB freeB ∧
      ∀ v σ', HoldsStore vars v σ' → Kept vm v again 0 locals locals →
        Conditional vars locals code v σ' again freeB free c codeC := by
  obtain ⟨hcond, ht⟩ := h.formed
  obtain ⟨n, freeB, hB⟩ := NumStmt.sized hvars ht h.above pc
  obtain ⟨draft, hdraft, rfl⟩ := hB.code (unpatched :: loops) rfl
  have habove := Nat.le_trans h.above hB.le
  obtain ⟨codeC, freeC, hgenC, hleC⟩ :=
    Num.condition_gen hcond habove (pc + draft.length)
  obtain ⟨codeB, hgenB, hlength⟩ :=
    hB.code (⟨pc + draft.length + codeC.length + 1, pc + draft.length⟩ :: loops) rfl
  obtain ⟨rfl, rfl⟩ := h.block_eq (NumStmt.gen_doLoop hdraft hgenC hgenB)
  have hend : pc + (codeB ++ (codeC ++ [repeatIf freeB pc])).length =
      pc + draft.length + codeC.length + 1 := by
    simp only [List.length_append, List.length_cons, List.length_nil, hlength]
    omega
  have hat := h.here.right
  rw [hlength] at hat
  have hlt := h.end_lt
  rw [hend] at hlt
  refine ⟨codeB, freeB, codeC, _, by rw [hlength], hend, hat, ?_, fun v σ' hholds hkept => ?_⟩
  · rw [hend]
    exact h.inner ht h.above hgenB h.here.left (by omega) hlt
      (show pc + draft.length < 2 ^ 31 by omega) h.holds h.start
  · exact h.condition hcond habove hgenC hat.left (Nat.le_refl _) hleC hholds hkept

end Ready

/-- A jump behind a statement, which one that is left another way does not reach. -/
theorem Left.jumps {on target : Nat} {o : Way × Store} (hvars : Layout vars locals)
    (h : Left vars locals loops vm on o u) (hi : code[on]? = some (jump target))
    (htarget : target < 2 ^ 31) :
    ∃ v, Steps code u v ∧ Left vars locals loops vm target o v := by
  obtain ⟨hholds, hkept⟩ := h
  by_cases hway : o.1 = .on
  · rw [hway] at hkept
    change Kept vm u on 0 locals locals at hkept
    rw [← hkept.pc_eq] at hi
    obtain ⟨v, hsteps, hholds', hlast⟩ := steps_jump hvars hholds hi htarget
    refine ⟨v, hsteps, hholds', ?_⟩
    rw [hway]
    exact hkept.trans hlast
  · rw [Way.pc_of_ne hway on target] at hkept
    exact ⟨u, .refl u, hholds, hkept⟩

/-- What does not leave a loop leaves its body for where the loop goes on. -/
theorem Left.goesOn {exit again : Nat} {way : Way}
    (h : Left vars locals (⟨exit, again⟩ :: loops) vm again (way, σ) u) (hway : way.outOf = none) :
    HoldsStore vars u σ ∧ Kept vm u again 0 locals locals := by
  obtain ⟨hholds, hkept⟩ := h
  change Kept vm u (way.pc (⟨exit, again⟩ :: loops) again) 0 locals locals at hkept
  rw [Way.pc_of_outOf_none hway] at hkept
  exact ⟨hholds, hkept⟩

/-- What leaves a loop leaves it behind its code, or for a loop around it. -/
theorem Left.outOf {exit again on : Nat} {way way' : Way}
    (h : Left vars locals (⟨exit, again⟩ :: loops) vm on (way, σ) u)
    (hway : way.outOf = some way') : Left vars locals loops vm exit (way', σ) u := by
  obtain ⟨hholds, hkept⟩ := h
  change Kept vm u (way.pc (⟨exit, again⟩ :: loops) on) 0 locals locals at hkept
  rw [Way.pc_of_outOf hway] at hkept
  exact ⟨hholds, hkept⟩

theorem Left.trans {on : Nat} {o : Way × Store} {v : VmState} (hkept : Kept vm u pc 0 locals locals)
    (h : Left vars locals loops u on o v) : Left vars locals loops vm on o v :=
  ⟨h.1, hkept.trans h.2⟩

/-- Wherever the code of the program stands, with the store in the frame, the machine comes to
what is left of the run. -/
def Arrives (vars : List (Nat × NumKind)) (locals : Nat) (mp : List Byte) (code : List Instruction)
    (s : NumStmt) (σ : Store) (r : Option (Way × Store)) : Prop :=
  ∀ {vm loops next pc block free}, Ready vars locals mp code vm σ s loops next pc block free →
    Comes code vm r (Left vars locals loops vm (pc + block.length))

namespace Arrives

theorem skip (σ : Store) : Arrives vars locals mp code .skip σ (some (.on, σ)) := by
  intro vm loops next pc block free h
  obtain ⟨rfl, rfl⟩ := h.block_eq rfl
  exact .done ⟨h.holds, h.start⟩

theorem brk (hvars : Layout vars locals) (σ : Store) (n : Nat) :
    Arrives vars locals mp code (.brk n) σ (some (.broke n, σ)) := by
  intro vm loops next pc block free h
  have hn : n < loops.length := h.formed
  have hgen : (NumStmt.brk n).gen loops next pc = some ([jump loops[n].exit], next) := by
    rw [NumStmt.gen, List.getElem?_eq_getElem hn]
    rfl
  obtain ⟨rfl, rfl⟩ := h.block_eq hgen
  have hi := h.here.head
  rw [← h.pc_eq] at hi
  obtain ⟨u, hsteps, hholds, hkept⟩ :=
    steps_jump hvars h.holds hi (h.targets _ (List.getElem_mem hn)).1
  have hpc : (Way.broke n).pc loops (pc + 1) = loops[n].exit := by
    rw [Way.pc, List.getElem?_eq_getElem hn]
    rfl
  refine ⟨u, hsteps, hholds, ?_⟩
  rw [← hpc] at hkept
  exact hkept

theorem cont (hvars : Layout vars locals) (σ : Store) (n : Nat) :
    Arrives vars locals mp code (.cont n) σ (some (.continued n, σ)) := by
  intro vm loops next pc block free h
  have hn : n < loops.length := h.formed
  have hgen : (NumStmt.cont n).gen loops next pc = some ([jump loops[n].again], next) := by
    rw [NumStmt.gen, List.getElem?_eq_getElem hn]
    rfl
  obtain ⟨rfl, rfl⟩ := h.block_eq hgen
  have hi := h.here.head
  rw [← h.pc_eq] at hi
  obtain ⟨u, hsteps, hholds, hkept⟩ :=
    steps_jump hvars h.holds hi (h.targets _ (List.getElem_mem hn)).2
  have hpc : (Way.continued n).pc loops (pc + 1) = loops[n].again := by
    rw [Way.pc, List.getElem?_eq_getElem hn]
    rfl
  refine ⟨u, hsteps, hholds, ?_⟩
  rw [← hpc] at hkept
  exact hkept

theorem assign (hvars : Layout vars locals) {σ : Store} {off : Nat} {kind : NumKind} {e : Num} :
    Arrives vars locals mp code (.assign off kind e) σ
      ((e.eval mp σ).map fun v => (.on, Function.update σ off (widthTo kind v))) := by
  intro vm loops next pc block free h
  obtain ⟨hmem, hformed⟩ := h.formed
  have hbelow := hvars.below hmem
  obtain ⟨block', free', hgen, -, hrun⟩ := computes_assigned e hvars hmem hformed.supported off next pc
    (hformed.placed.mono h.above) (Nat.le_trans hbelow h.above)
  obtain ⟨rfl, rfl⟩ := h.block_eq hgen
  have hleaves : Leaves code vm (e.value vm) e.kind kind (pc + block.length) off next :=
    hrun code vm h.length h.here h.pc_eq h.room
  rw [h.holds.value_eq hformed.inScope hformed.placed, h.mp_eq] at hleaves
  refine Comes.map hleaves fun v u hpost => ?_
  obtain ⟨-, hslot, hkept⟩ := hpost
  have hkind := kind_widthTo (hvars.integer hmem) hslot
  exact ⟨h.holds.updated hvars hmem h.above hkind hslot hkept,
    hkept.widen h.above (.inr ⟨Nat.zero_le off, by omega⟩)⟩

theorem seq (hvars : Layout vars locals) {σ σ' : Store} {r : Option (Way × Store)}
    {s t : NumStmt} (ihs : Arrives vars locals mp code s σ (some (.on, σ')))
    (iht : Arrives vars locals mp code t σ' r) : Arrives vars locals mp code (.seq s t) σ r := by
  intro vm loops next pc block free h
  obtain ⟨codeS, freeS, codeT, rfl, habove, hgenT, hready⟩ := h.seq hvars
  obtain ⟨u, hsteps, hholds, hkept⟩ := ihs hready
  have hrest := iht
    (h.part h.formed.2 habove hgenT h.here.right (Nat.le_refl _) h.targets hholds hkept)
  rw [List.length_append, ← Nat.add_assoc]
  exact Left.after hsteps hkept hrest

theorem seqLeft (hvars : Layout vars locals) {σ σ' : Store} {way : Way} {s t : NumStmt}
    (ihs : Arrives vars locals mp code s σ (some (way, σ'))) (hway : way ≠ .on) :
    Arrives vars locals mp code (.seq s t) σ (some (way, σ')) := by
  intro vm loops next pc block free h
  obtain ⟨codeS, freeS, codeT, rfl, habove, hgenT, hready⟩ := h.seq hvars
  obtain ⟨u, hsteps, hholds, hkept⟩ := ihs hready
  change Kept vm u (way.pc loops (pc + codeS.length)) 0 locals locals at hkept
  rw [way.pc_of_ne hway _ (pc + (codeS ++ codeT).length)] at hkept
  exact ⟨u, hsteps, hholds, hkept⟩

theorem seqStop (hvars : Layout vars locals) {σ : Store} {s t : NumStmt}
    (ihs : Arrives vars locals mp code s σ none) :
    Arrives vars locals mp code (.seq s t) σ none := by
  intro vm loops next pc block free h
  obtain ⟨codeS, freeS, codeT, rfl, habove, hgenT, hready⟩ := h.seq hvars
  have hstop : Comes code vm none (Left vars locals loops vm (pc + codeS.length)) := ihs hready
  exact hstop

theorem thenTaken (hvars : Layout vars locals) {σ : Store} {r : Option (Way × Store)} {c : Num}
    {t : NumStmt} {w : Word} (hc : c.eval mp σ = some (.word w)) (hw : w ≠ 0)
    (iht : Arrives vars locals mp code t σ r) :
    Arrives vars locals mp code (.ifThen c t) σ r := by
  intro vm loops next pc block free h
  obtain ⟨codeC, freeC, codeT, final, hfinal, hend, rfl, hgenT, habove, hcond⟩ := h.ifThen hvars
  obtain ⟨u, hsteps, hholds, hkept⟩ :=
    hcond.guards hvars h.here (hend ▸ h.end_lt) (h.mp_eq ▸ hc)
  rw [if_neg hw] at hkept
  have hthen := iht
    (h.part h.formed.2 habove hgenT h.here.right.tail (Nat.le_refl _) h.targets hholds hkept)
  rw [hend, hfinal]
  exact Left.after hsteps hkept hthen

theorem thenPassed (hvars : Layout vars locals) {σ : Store} {c : Num} {t : NumStmt}
    (hc : c.eval mp σ = some (.word 0)) :
    Arrives vars locals mp code (.ifThen c t) σ (some (.on, σ)) := by
  intro vm loops next pc block free h
  obtain ⟨codeC, freeC, codeT, final, -, hend, rfl, -, -, hcond⟩ := h.ifThen hvars
  obtain ⟨u, hsteps, hholds, hkept⟩ :=
    hcond.guards hvars h.here (hend ▸ h.end_lt) (h.mp_eq ▸ hc)
  rw [if_pos rfl] at hkept
  rw [hend]
  exact ⟨u, hsteps, hholds, hkept⟩

theorem thenStop (hvars : Layout vars locals) {σ : Store} {c : Num} {t : NumStmt}
    (hc : c.eval mp σ = none) : Arrives vars locals mp code (.ifThen c t) σ none := by
  intro vm loops next pc block free h
  obtain ⟨codeC, freeC, codeT, final, -, -, -, -, -, hcond⟩ := h.ifThen hvars
  exact hcond.stops (h.mp_eq ▸ hc)

theorem elseThen (hvars : Layout vars locals) {σ : Store} {r : Option (Way × Store)} {c : Num}
    {t e : NumStmt} {w : Word} (hc : c.eval mp σ = some (.word w)) (hw : w ≠ 0)
    (iht : Arrives vars locals mp code t σ r) :
    Arrives vars locals mp code (.ifElse c t e) σ r := by
  intro vm loops next pc block free h
  obtain ⟨codeC, freeC, codeT, freeT, codeE, other, final, hother, hfinal, hend, hle, rfl,
    hgenT, habove, hleE, -, -, hcond⟩ := h.ifElse hvars
  have hlt : final < 2 ^ 31 := hend ▸ h.end_lt
  obtain ⟨u, hsteps, hholds, hkept⟩ :=
    hcond.guards hvars h.here (Nat.lt_of_le_of_lt hle hlt) (h.mp_eq ▸ hc)
  rw [if_neg hw] at hkept
  have hthen := iht
    (h.part h.formed.2.1 habove hgenT h.here.right.tail.left hleE h.targets hholds hkept)
  rw [hend]
  exact Left.after hsteps hkept
    (hthen.next fun _ _ hpost => hpost.jumps hvars h.here.right.tail.right.head hlt)

theorem elseTaken (hvars : Layout vars locals) {σ : Store} {r : Option (Way × Store)} {c : Num}
    {t e : NumStmt} (hc : c.eval mp σ = some (.word 0))
    (ihe : Arrives vars locals mp code e σ r) :
    Arrives vars locals mp code (.ifElse c t e) σ r := by
  intro vm loops next pc block free h
  obtain ⟨codeC, freeC, codeT, freeT, codeE, other, final, hother, hfinal, hend, hle, rfl, -,
    -, -, hgenE, haboveE, hcond⟩ := h.ifElse hvars
  have hlt : final < 2 ^ 31 := hend ▸ h.end_lt
  obtain ⟨u, hsteps, hholds, hkept⟩ :=
    hcond.guards hvars h.here (Nat.lt_of_le_of_lt hle hlt) (h.mp_eq ▸ hc)
  rw [if_pos rfl] at hkept
  have hat := h.here.right.tail.right.tail
  rw [← hother] at hat
  have helse := ihe
    (h.part h.formed.2.2 haboveE hgenE hat (Nat.le_refl _) h.targets hholds hkept)
  rw [hend, hfinal]
  exact Left.after hsteps hkept helse

theorem elseStop (hvars : Layout vars locals) {σ : Store} {c : Num} {t e : NumStmt}
    (hc : c.eval mp σ = none) : Arrives vars locals mp code (.ifElse c t e) σ none := by
  intro vm loops next pc block free h
  obtain ⟨codeC, freeC, codeT, freeT, codeE, other, final, -, -, -, -, -, -, -, -, -, -,
    hcond⟩ := h.ifElse hvars
  exact hcond.stops (h.mp_eq ▸ hc)

theorem whileDone (hvars : Layout vars locals) {σ : Store} {c : Num} {body : NumStmt}
    (hc : c.eval mp σ = some (.word 0)) :
    Arrives vars locals mp code (.whileLoop c body) σ (some (.on, σ)) := by
  intro vm loops next pc block free h
  obtain ⟨codeC, freeC, codeB, exit, -, hend, rfl, -, -, hcond⟩ := h.whileLoop hvars
  obtain ⟨u, hsteps, hholds, hkept⟩ :=
    hcond.guards hvars h.here (hend ▸ h.end_lt) (h.mp_eq ▸ hc)
  rw [if_pos rfl] at hkept
  rw [hend]
  exact ⟨u, hsteps, hholds, hkept⟩

theorem whileStep (hvars : Layout vars locals) {σ σ' : Store} {way : Way}
    {r : Option (Way × Store)} {c : Num} {body : NumStmt} {w : Word}
    (hc : c.eval mp σ = some (.word w)) (hw : w ≠ 0)
    (ihbody : Arrives vars locals mp code body σ (some (way, σ'))) (hway : way.outOf = none)
    (ihrest : Arrives vars locals mp code (.whileLoop c body) σ' r) :
    Arrives vars locals mp code (.whileLoop c body) σ r := by
  intro vm loops next pc block free h
  obtain ⟨u, start, codeB, freeC, hsteps, hkept, hi, hready⟩ := h.whileBody hvars hc hw
  obtain ⟨v, hran, hleft⟩ := ihbody hready
  obtain ⟨v', hjumped, hleft'⟩ := hleft.jumps hvars hi h.start_lt
  obtain ⟨hholds, hback⟩ := hleft'.goesOn hway
  have hround := hkept.trans hback
  have hagain := ihrest
    (h.part h.formed h.above h.generated h.here (Nat.le_refl _) h.targets hholds hround)
  exact Left.after ((hsteps.trans hran).trans hjumped) hround hagain

theorem whileLeft (hvars : Layout vars locals) {σ σ' : Store} {way way' : Way} {c : Num}
    {body : NumStmt} {w : Word} (hc : c.eval mp σ = some (.word w)) (hw : w ≠ 0)
    (ihbody : Arrives vars locals mp code body σ (some (way, σ')))
    (hway : way.outOf = some way') :
    Arrives vars locals mp code (.whileLoop c body) σ (some (way', σ')) := by
  intro vm loops next pc block free h
  obtain ⟨u, start, codeB, freeC, hsteps, hkept, -, hready⟩ := h.whileBody hvars hc hw
  obtain ⟨v, hran, hleft⟩ := ihbody hready
  exact ⟨v, hsteps.trans hran, .trans hkept (hleft.outOf hway)⟩

theorem whileBodyStop (hvars : Layout vars locals) {σ : Store} {c : Num} {body : NumStmt}
    {w : Word} (hc : c.eval mp σ = some (.word w)) (hw : w ≠ 0)
    (ihbody : Arrives vars locals mp code body σ none) :
    Arrives vars locals mp code (.whileLoop c body) σ none := by
  intro vm loops next pc block free h
  obtain ⟨u, start, codeB, freeC, hsteps, -, -, hready⟩ := h.whileBody hvars hc hw
  obtain ⟨v, hran, hdivides⟩ := ihbody hready
  exact ⟨v, hsteps.trans hran, hdivides⟩

theorem whileStop (hvars : Layout vars locals) {σ : Store} {c : Num} {body : NumStmt}
    (hc : c.eval mp σ = none) : Arrives vars locals mp code (.whileLoop c body) σ none := by
  intro vm loops next pc block free h
  obtain ⟨codeC, freeC, codeB, exit, -, -, -, -, -, hcond⟩ := h.whileLoop hvars
  exact hcond.stops (h.mp_eq ▸ hc)

theorem forDone (hvars : Layout vars locals) {σ : Store} {c : Num} {post body : NumStmt}
    (hc : c.eval mp σ = some (.word 0)) :
    Arrives vars locals mp code (.forLoop c post body) σ (some (.on, σ)) := by
  intro vm loops next pc block free h
  obtain ⟨codeC, freeC, codeB, freeB, codeP, again, exit, -, -, hend, rfl, -, -, -, -, -,
    hcond⟩ := h.forLoop hvars
  obtain ⟨u, hsteps, hholds, hkept⟩ :=
    hcond.guards hvars h.here (hend ▸ h.end_lt) (h.mp_eq ▸ hc)
  rw [if_pos rfl] at hkept
  rw [hend]
  exact ⟨u, hsteps, hholds, hkept⟩

theorem forStep (hvars : Layout vars locals) {σ σ' σ'' : Store} {way : Way}
    {r : Option (Way × Store)} {c : Num} {post body : NumStmt} {w : Word}
    (hc : c.eval mp σ = some (.word w)) (hw : w ≠ 0)
    (ihbody : Arrives vars locals mp code body σ (some (way, σ'))) (hway : way.outOf = none)
    (ihpost : Arrives vars locals mp code post σ' (some (.on, σ'')))
    (ihrest : Arrives vars locals mp code (.forLoop c post body) σ'' r) :
    Arrives vars locals mp code (.forLoop c post body) σ r := by
  intro vm loops next pc block free h
  obtain ⟨u, start, codeB, freeC, freeB, codeP, again, hagain, hsteps, hkept, hi, hready,
    hthird⟩ := h.forBody hvars hc hw
  obtain ⟨v, hran, hleft⟩ := ihbody hready
  rw [← hagain] at hleft
  obtain ⟨hholds, hto⟩ := hleft.goesOn hway
  have hfirst := hkept.trans hto
  obtain ⟨x, hranP, hleftP⟩ := ihpost (hthird v σ' hholds hfirst)
  obtain ⟨y, hjumped, hholds', hback⟩ := hleftP.jumps hvars hi h.start_lt
  have hround := hfirst.trans hback
  have hrest' := ihrest
    (h.part h.formed h.above h.generated h.here (Nat.le_refl _) h.targets hholds' hround)
  exact Left.after (((hsteps.trans hran).trans hranP).trans hjumped) hround hrest'

theorem forLeft (hvars : Layout vars locals) {σ σ' : Store} {way way' : Way} {c : Num}
    {post body : NumStmt} {w : Word} (hc : c.eval mp σ = some (.word w)) (hw : w ≠ 0)
    (ihbody : Arrives vars locals mp code body σ (some (way, σ')))
    (hway : way.outOf = some way') :
    Arrives vars locals mp code (.forLoop c post body) σ (some (way', σ')) := by
  intro vm loops next pc block free h
  obtain ⟨u, start, codeB, freeC, freeB, codeP, again, -, hsteps, hkept, -, hready, -⟩ :=
    h.forBody hvars hc hw
  obtain ⟨v, hran, hleft⟩ := ihbody hready
  exact ⟨v, hsteps.trans hran, .trans hkept (hleft.outOf hway)⟩

theorem forPostStop (hvars : Layout vars locals) {σ σ' : Store} {way : Way} {c : Num}
    {post body : NumStmt} {w : Word} (hc : c.eval mp σ = some (.word w)) (hw : w ≠ 0)
    (ihbody : Arrives vars locals mp code body σ (some (way, σ'))) (hway : way.outOf = none)
    (ihpost : Arrives vars locals mp code post σ' none) :
    Arrives vars locals mp code (.forLoop c post body) σ none := by
  intro vm loops next pc block free h
  obtain ⟨u, start, codeB, freeC, freeB, codeP, again, hagain, hsteps, hkept, -, hready,
    hthird⟩ := h.forBody hvars hc hw
  obtain ⟨v, hran, hleft⟩ := ihbody hready
  rw [← hagain] at hleft
  obtain ⟨hholds, hto⟩ := hleft.goesOn hway
  obtain ⟨x, hranP, hdivides⟩ := ihpost (hthird v σ' hholds (hkept.trans hto))
  exact ⟨x, (hsteps.trans hran).trans hranP, hdivides⟩

theorem forPostLeft (hvars : Layout vars locals) {σ σ' σ'' : Store} {way way' left : Way}
    {c : Num} {post body : NumStmt} {w : Word} (hc : c.eval mp σ = some (.word w)) (hw : w ≠ 0)
    (ihbody : Arrives vars locals mp code body σ (some (way, σ'))) (hway : way.outOf = none)
    (ihpost : Arrives vars locals mp code post σ' (some (left, σ'')))
    (hleft : left.outOf = some way') :
    Arrives vars locals mp code (.forLoop c post body) σ (some (way', σ'')) := by
  intro vm loops next pc block free h
  obtain ⟨u, start, codeB, freeC, freeB, codeP, again, hagain, hsteps, hkept, -, hready,
    hthird⟩ := h.forBody hvars hc hw
  obtain ⟨v, hran, hleftB⟩ := ihbody hready
  rw [← hagain] at hleftB
  obtain ⟨hholds, hto⟩ := hleftB.goesOn hway
  have hfirst := hkept.trans hto
  obtain ⟨x, hranP, hleftP⟩ := ihpost (hthird v σ' hholds hfirst)
  exact ⟨x, (hsteps.trans hran).trans hranP, .trans hfirst (hleftP.outOf hleft)⟩

theorem forBodyStop (hvars : Layout vars locals) {σ : Store} {c : Num} {post body : NumStmt}
    {w : Word} (hc : c.eval mp σ = some (.word w)) (hw : w ≠ 0)
    (ihbody : Arrives vars locals mp code body σ none) :
    Arrives vars locals mp code (.forLoop c post body) σ none := by
  intro vm loops next pc block free h
  obtain ⟨u, start, codeB, freeC, freeB, codeP, again, -, hsteps, -, -, hready, -⟩ :=
    h.forBody hvars hc hw
  obtain ⟨v, hran, hdivides⟩ := ihbody hready
  exact ⟨v, hsteps.trans hran, hdivides⟩

theorem forStop (hvars : Layout vars locals) {σ : Store} {c : Num} {post body : NumStmt}
    (hc : c.eval mp σ = none) : Arrives vars locals mp code (.forLoop c post body) σ none := by
  intro vm loops next pc block free h
  obtain ⟨codeC, freeC, codeB, freeB, codeP, again, exit, -, -, -, -, -, -, -, -, -,
    hcond⟩ := h.forLoop hvars
  exact hcond.stops (h.mp_eq ▸ hc)

theorem doDone (hvars : Layout vars locals) {σ σ' : Store} {way : Way} {c : Num}
    {body : NumStmt} (ihbody : Arrives vars locals mp code body σ (some (way, σ')))
    (hway : way.outOf = none) (hc : c.eval mp σ' = some (.word 0)) :
    Arrives vars locals mp code (.doLoop body c) σ (some (.on, σ')) := by
  intro vm loops next pc block free h
  obtain ⟨codeB, freeB, codeC, again, hagain, hend, hat, hready, htest⟩ := h.doLoop hvars
  obtain ⟨v, hran, hleft⟩ := ihbody hready
  rw [← hagain] at hleft
  obtain ⟨hholds, hkept⟩ := hleft.goesOn hway
  obtain ⟨x, hsteps, hholds', hkept'⟩ := (htest v σ' hholds hkept).repeats hvars hat h.start_lt
    ((hkept.mp_eq.trans h.mp_eq).symm ▸ hc)
  rw [if_pos rfl] at hkept'
  rw [hend]
  exact ⟨x, hran.trans hsteps, hholds', hkept.trans hkept'⟩

theorem doStep (hvars : Layout vars locals) {σ σ' : Store} {way : Way}
    {r : Option (Way × Store)} {c : Num} {body : NumStmt} {w : Word}
    (ihbody : Arrives vars locals mp code body σ (some (way, σ'))) (hway : way.outOf = none)
    (hc : c.eval mp σ' = some (.word w)) (hw : w ≠ 0)
    (ihrest : Arrives vars locals mp code (.doLoop body c) σ' r) :
    Arrives vars locals mp code (.doLoop body c) σ r := by
  intro vm loops next pc block free h
  obtain ⟨codeB, freeB, codeC, again, hagain, -, hat, hready, htest⟩ := h.doLoop hvars
  obtain ⟨v, hran, hleft⟩ := ihbody hready
  rw [← hagain] at hleft
  obtain ⟨hholds, hkept⟩ := hleft.goesOn hway
  obtain ⟨x, hsteps, hholds', hkept'⟩ := (htest v σ' hholds hkept).repeats hvars hat h.start_lt
    ((hkept.mp_eq.trans h.mp_eq).symm ▸ hc)
  rw [if_neg hw] at hkept'
  have hround := hkept.trans hkept'
  have hrest' := ihrest
    (h.part h.formed h.above h.generated h.here (Nat.le_refl _) h.targets hholds' hround)
  exact Left.after (hran.trans hsteps) hround hrest'

theorem doLeft (hvars : Layout vars locals) {σ σ' : Store} {way way' : Way} {c : Num}
    {body : NumStmt} (ihbody : Arrives vars locals mp code body σ (some (way, σ')))
    (hway : way.outOf = some way') :
    Arrives vars locals mp code (.doLoop body c) σ (some (way', σ')) := by
  intro vm loops next pc block free h
  obtain ⟨codeB, freeB, codeC, again, -, -, -, hready, -⟩ := h.doLoop hvars
  obtain ⟨v, hran, hleft⟩ := ihbody hready
  exact ⟨v, hran, hleft.outOf hway⟩

theorem doBodyStop (hvars : Layout vars locals) {σ : Store} {c : Num} {body : NumStmt}
    (ihbody : Arrives vars locals mp code body σ none) :
    Arrives vars locals mp code (.doLoop body c) σ none := by
  intro vm loops next pc block free h
  obtain ⟨codeB, freeB, codeC, again, -, -, -, hready, -⟩ := h.doLoop hvars
  obtain ⟨v, hran, hdivides⟩ := ihbody hready
  exact ⟨v, hran, hdivides⟩

theorem doStop (hvars : Layout vars locals) {σ σ' : Store} {way : Way} {c : Num}
    {body : NumStmt} (ihbody : Arrives vars locals mp code body σ (some (way, σ')))
    (hway : way.outOf = none) (hc : c.eval mp σ' = none) :
    Arrives vars locals mp code (.doLoop body c) σ none := by
  intro vm loops next pc block free h
  obtain ⟨codeB, freeB, codeC, again, hagain, -, -, hready, htest⟩ := h.doLoop hvars
  obtain ⟨v, hran, hleft⟩ := ihbody hready
  rw [← hagain] at hleft
  obtain ⟨hholds, hkept⟩ := hleft.goesOn hway
  obtain ⟨x, hsteps, hdivides⟩ : Comes code v none (Left vars locals loops vm 0) :=
    (htest v σ' hholds hkept).stops ((hkept.mp_eq.trans h.mp_eq).symm ▸ hc)
  exact ⟨x, hran.trans hsteps, hdivides⟩

end Arrives

/-- By induction on the run: what one statement leaves is what the next begins with. -/
theorem NumStmt.comes {r : Option (Way × Store)} (hvars : Layout vars locals)
    (hends : Ends mp s σ r) : Arrives vars locals mp code s σ r := by
  induction hends with
  | skip σ => exact Arrives.skip σ
  | brk σ n => exact Arrives.brk hvars σ n
  | cont σ n => exact Arrives.cont hvars σ n
  | assign => exact Arrives.assign hvars
  | seq _ _ ihs iht => exact Arrives.seq hvars ihs iht
  | seqLeft _ hway ihs => exact Arrives.seqLeft hvars ihs hway
  | seqStop _ ihs => exact Arrives.seqStop hvars ihs
  | thenTaken hc hw _ iht => exact Arrives.thenTaken hvars hc hw iht
  | thenPassed hc => exact Arrives.thenPassed hvars hc
  | thenStop hc => exact Arrives.thenStop hvars hc
  | elseThen hc hw _ iht => exact Arrives.elseThen hvars hc hw iht
  | elseTaken hc _ ihe => exact Arrives.elseTaken hvars hc ihe
  | elseStop hc => exact Arrives.elseStop hvars hc
  | whileDone hc => exact Arrives.whileDone hvars hc
  | whileStep hc hw _ hway _ ihbody ihrest => exact Arrives.whileStep hvars hc hw ihbody hway ihrest
  | whileLeft hc hw _ hway ihbody => exact Arrives.whileLeft hvars hc hw ihbody hway
  | whileBodyStop hc hw _ ihbody => exact Arrives.whileBodyStop hvars hc hw ihbody
  | whileStop hc => exact Arrives.whileStop hvars hc
  | forDone hc => exact Arrives.forDone hvars hc
  | forStep hc hw _ hway _ _ ihbody ihpost ihrest =>
      exact Arrives.forStep hvars hc hw ihbody hway ihpost ihrest
  | forLeft hc hw _ hway ihbody => exact Arrives.forLeft hvars hc hw ihbody hway
  | forPostStop hc hw _ hway _ ihbody ihpost =>
      exact Arrives.forPostStop hvars hc hw ihbody hway ihpost
  | forPostLeft hc hw _ hway _ hleft ihbody ihpost =>
      exact Arrives.forPostLeft hvars hc hw ihbody hway ihpost hleft
  | forBodyStop hc hw _ ihbody => exact Arrives.forBodyStop hvars hc hw ihbody
  | forStop hc => exact Arrives.forStop hvars hc
  | doDone _ hway hc ihbody => exact Arrives.doDone hvars ihbody hway hc
  | doStep _ hway hc hw _ ihbody ihrest => exact Arrives.doStep hvars ihbody hway hc hw ihrest
  | doLeft _ hway ihbody => exact Arrives.doLeft hvars ihbody hway
  | doBodyStop _ ihbody => exact Arrives.doBodyStop hvars ihbody
  | doStop _ hway hc ihbody => exact Arrives.doStop hvars ihbody hway hc

/-- A program that ends does so in the machine, wherever its code stands: the frame then holds the
store that the program leaves, and below the frame nothing has changed. One that divides by zero is
stopped there. -/
theorem program_runs {depth : Nat} (hvars : Layout vars locals) (hs : s.Formed vars locals depth)
    (hle : locals ≤ next) (pc : Nat) :
    ∃ n free, next ≤ free ∧ ∀ loops : List Targets, loops.length = depth →
      ∃ block, s.gen loops next pc = some (block, free) ∧ block.length = n ∧
        ∀ code vm σ r, code.length < 2 ^ 31 → At code pc block →
          (∀ l ∈ loops, l.exit < 2 ^ 31 ∧ l.again < 2 ^ 31) → vm.pc = pc → Room vm free →
          HoldsStore vars vm σ → Ends vm.mp s σ r →
            Comes code vm r fun o vm' => HoldsStore vars vm' o.2 ∧
              Kept vm vm' (o.1.pc loops (pc + n)) 0 locals locals := by
  obtain ⟨n, free, hsized⟩ := NumStmt.sized hvars hs hle pc
  refine ⟨n, free, hsized.le, fun loops hloops => ?_⟩
  subst hloops
  obtain ⟨block, hgen, rfl⟩ := hsized.code loops rfl
  refine ⟨block, hgen, rfl, fun code vm σ r hcode hat htargets hpc hroom hholds hends => ?_⟩
  exact NumStmt.comes hvars hends
    ⟨hs, hle, hgen, hcode, hat, htargets, hpc, hroom, rfl, hholds⟩

/-- `while(1) { x = x + 7; break; }`, from zero. -/
theorem program_runs_break : ∃ code free vm vm',
    (NumStmt.whileLoop (.word (.imm 1))
        (.seq (.assign 0 .word (.binary (.word (.slot 0)) .add (.word (.imm 7)))) (.brk 0))).gen
      [] 4 0 = some (code, free) ∧
      Steps code vm vm' ∧ vm'.pc = code.length ∧
      readWord vm'.frames.data (slot vm' 0) = 7 := by
  obtain ⟨vm₀, -⟩ : ∃ vm, VmState.withArgs [] true (.ofCode "main" [] 0) [] = some vm := ⟨_, rfl⟩
  let vm : VmState := { vm₀ with frames := ⟨List.replicate 64 0, 0, 64⟩, pc := 0 }
  let σ : Store := fun _ => .word 0
  let c : Num := .word (.imm 1)
  let add : NumStmt := .assign 0 .word (.binary (.word (.slot 0)) .add (.word (.imm 7)))
  have hmem : ∀ {off k}, (off, k) ∈ [(0, NumKind.word)] → off = 0 ∧ k = .word := by
    intro off k h
    exact Prod.mk.inj (List.mem_singleton.mp h)
  have hvars : Layout [(0, .word)] 4 := by
    refine ⟨fun h => ?_, fun h => ?_, fun h h' => ?_⟩
    · obtain ⟨rfl, rfl⟩ := hmem h
      exact show 0 + 4 ≤ 4 by decide
    · obtain ⟨rfl, rfl⟩ := hmem h
      decide
    · obtain ⟨rfl, rfl⟩ := hmem h
      obtain ⟨rfl, rfl⟩ := hmem h'
      exact .inl ⟨rfl, rfl⟩
  have hvariable : ∀ off, Arg.slot 0 = .slot off → (off, NumKind.word) ∈ [(0, NumKind.word)] := by
    intro off h
    cases h
    exact List.mem_singleton.mpr rfl
  have himm : ∀ (v : Word) (off : Nat), Arg.imm v = .slot off →
      (off, NumKind.word) ∈ [(0, NumKind.word)] := by
    intro v off h
    cases h
  have hformed : (NumStmt.whileLoop c (.seq add (.brk 0))).Formed [(0, .word)] 4 0 := by
    have hbelow : 0 + 4 ≤ 4 := by decide
    have hadd : (Num.binary (.word (.slot 0)) .add (.word (.imm 7))).Supported :=
      ⟨⟨by decide, by decide, by decide, fun _ => rfl⟩, trivial, trivial⟩
    exact ⟨⟨rfl, himm 1, trivial, trivial⟩,
      ⟨List.mem_singleton.mpr rfl, ⟨hvariable, himm 7⟩, hadd, hbelow, trivial⟩, Nat.one_pos⟩
  obtain ⟨n, free, -, hloops⟩ := program_runs hvars hformed (Nat.le_refl 4) 0
  obtain ⟨block, hgen, rfl, hrun⟩ := hloops [] rfl
  have hcode : (NumStmt.whileLoop c (.seq add (.brk 0))).gen [] 4 0 = some
      ([instr .movw (.imm 1) .unused (.slot 4), leaveUnless 4 7,
        instr .movw (.slot 0) .unused (.slot 8), instr .movw (.imm 7) .unused (.slot 12),
        instr .addw (.slot 12) (.slot 8) (.slot 0), jump 7, jump 0], 16) := rfl
  obtain ⟨rfl, rfl⟩ := Prod.mk.inj (Option.some.inj (hcode.symm.trans hgen))
  have hroom : Room vm 16 := by
    refine ⟨?_, ?_⟩
    · show 0 + frameHeaderSize + 16 ≤ (List.replicate 64 (0 : Byte)).length
      decide
    · show (List.replicate 64 (0 : Byte)).length ≤ mpBase
      decide
  have hholds : HoldsStore [(0, .word)] vm σ := by
    intro off k h
    obtain ⟨rfl, rfl⟩ := hmem h
    exact ⟨rfl, rfl⟩
  have hadd : Ends vm.mp add σ (some (.on, Function.update σ 0 (.word 7))) := .assign
  have hends : Ends vm.mp (.whileLoop c (.seq add (.brk 0))) σ
      (some (.on, Function.update σ 0 (.word 7))) :=
    .whileLeft rfl (by decide) (.seq hadd (.brk _ 0)) rfl
  obtain ⟨vm', hsteps, hleft, hkept⟩ := hrun _ vm σ _ (by decide) (At.self _)
    (List.forall_mem_nil _) rfl hroom hholds hends
  exact ⟨_, _, vm, vm', hgen, hsteps, hkept.pc_eq, (hleft 0 .word (List.mem_singleton.mpr rfl)).2⟩

end Programs

end RiceVM.Limbo.Numbers
