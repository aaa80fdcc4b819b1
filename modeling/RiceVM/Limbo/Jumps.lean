import RiceVM.Limbo.Lowering

/-!
Where the `break`s and `continue`s of a statement go, read off its syntax: each leaves the innermost
construct around it, or the innermost one with its label. A label belongs to the construct that its
statement opens first.
-/
namespace RiceVM.Limbo.Flow

/-! ### The code's addresses -/

def Shape.size : Shape → Nat
  | .nil => 0
  | .step | .call _ => 1
  | .seq a b => a.size + b.size
  | .test => 3
  | .not e => e.size + 4
  | .logical l r => l.size + r.size + 3
  | .fill value => value.size + 6

def patternsSize : List Pattern → Nat
  | [] => 0
  | .expr e :: patterns => e.size + 1 + patternsSize patterns
  | .range lo hi :: patterns => lo.size + hi.size + 2 + patternsSize patterns
  | .wildcard :: patterns => 1 + patternsSize patterns

def setupsSize : List AltEntry → Nat
  | [] => 0
  | e :: entries => e.setup.size + 1 + setupsSize entries

def padsSize (wild : Bool) : List AltEntry → Nat
  | [] => 0
  | e :: entries => e.prologue.size + (if entries ≠ [] ∨ wild then 1 else 0) + padsSize wild entries

/-! ### Jumps by construct -/

/-- Where a `break` or `continue` goes. -/
inductive Dest where
  /-- Out of the statement that it is part of, or round a loop outside it. -/
  | outside (label : Option String) (continues : Bool)
  | pc (target : Nat)
  deriving DecidableEq, Repr

/-- A `break` or a `continue`, by the address of its jump. -/
structure Use where
  at_ : Nat
  dest : Dest
  deriving DecidableEq, Repr

def Use.isOutside (u : Use) : Bool :=
  match u.dest with
  | .outside _ _ => true
  | .pc _ => false

/-- What a construct makes of a jump in it. -/
def Use.close (label : Option String) (continuable : Bool) (exitPc continuePc : Nat) (u : Use) :
    Use :=
  match u.dest with
  | .pc _ => u
  | .outside l continues =>
    if ({ label, continuable } : LoopFrame).matches l continues then
      { u with dest := .pc (if continues then continuePc else exitPc) }
    else u

/-- The jumps of a stretch of code, and where the stretch ends. -/
structure Outline where
  uses : List Use
  pc : Nat

def Outline.close (label : Option String) (continuable : Bool) (exitPc continuePc : Nat)
    (o : Outline) : Outline :=
  ⟨o.uses.map (·.close label continuable exitPc continuePc), exitPc⟩

def Outline.step (o : Outline) (n : Nat) : Outline := { o with pc := o.pc + n }

/-- The stretch and one that follows it. -/
def Outline.andThen (o : Outline) (next : Nat → Outline) : Outline :=
  ⟨o.uses ++ (next o.pc).uses, (next o.pc).pc⟩

mutual

/-- Does the statement take a label that is before it? -/
def Stmt.takesLabel : Stmt → Bool
  | .while _ _ | .for _ _ _ _ | .doWhile _ _ | .case _ _ | .alt _ | .pick _ _ | .label _ _ => true
  | .block stmts => stmtsTakeLabel stmts
  | .ifThen _ then_ => then_.takesLabel
  | .ifElse _ then_ else_ => then_.takesLabel || else_.takesLabel
  | _ => false

def stmtsTakeLabel : List Stmt → Bool
  | [] => false
  | stmt :: stmts => stmt.takesLabel || stmtsTakeLabel stmts

end

/-- The label that is left after a statement. -/
def Stmt.leaves (stmt : Stmt) (label : Option String) : Option String :=
  if stmt.takesLabel then none else label

mutual

/-- The jumps of a statement whose code begins at `pc`, after a label. -/
def Stmt.outline : Stmt → Nat → Option String → Outline
  | .expr e, pc, _ => ⟨[], pc + e.size⟩
  | .ret e, pc, _ | .raise e, pc, _ => ⟨[], pc + e.size + 1⟩
  | .exit, pc, _ => ⟨[], pc + 1⟩
  | .block stmts, pc, label => outlines stmts pc label
  | .ifThen cond then_, pc, label => then_.outline (pc + cond.size + 1) label
  | .ifElse cond then_ else_, pc, label =>
    ((then_.outline (pc + cond.size + 1) label).step 1).andThen fun elsePc =>
      else_.outline elsePc (then_.leaves label)
  | .while cond body, pc, label =>
    -- `continue` tests the condition again.
    let inner := body.outline (pc + cond.size + 1) none
    inner.close label true (inner.pc + 1) pc
  | .for init cond body post, pc, label =>
    let start := init.outline pc none
    let inner := start.andThen fun pc => body.outline (pc + (cond.elim 0 (·.size + 1))) none
    -- `continue` goes to the post statement.
    let all := inner.andThen fun pc => post.outline pc none
    all.close label true (all.pc + 1) inner.pc
  | .doWhile body cond, pc, label =>
    let inner := body.outline pc none
    inner.close label true (inner.pc + cond.size + 1) inner.pc
  | .case e arms, pc, label =>
    let inner := caseOutline arms (pc + e.size)
    inner.close label false inner.pc inner.pc
  | .alt arms, pc, label =>
    let guards := arms.flatMap (·.guards)
    let nsend := guards.countP (·.isSend)
    let count := nsend + guards.countP (·.isRecv)
    let entries := altTable nsend arms 0 0 0
    let wild := wildcardArms arms
    let inner := altOutline entries wild.head? arms 0
      (pc + setupsSize entries + 3 + count + (if wild ≠ [] then 1 else 0) + 1)
    inner.close label false inner.pc inner.pc
  | .pick e arms, pc, label =>
    let named := (pickTags arms 0).filter (·.1 ≠ "*")
    let inner := pickOutline arms (pc + e.size + 1 + named.length + 1)
    inner.close label false inner.pc inner.pc
  | .break label, pc, _ => ⟨[⟨pc, .outside label false⟩], pc + 1⟩
  | .continue label, pc, _ => ⟨[⟨pc, .outside label true⟩], pc + 1⟩
  | .label name stmt, pc, _ => stmt.outline pc (some name)
  | .empty, pc, _ => ⟨[], pc⟩

def outlines : List Stmt → Nat → Option String → Outline
  | [], pc, _ => ⟨[], pc⟩
  | stmt :: stmts, pc, label =>
    (stmt.outline pc label).andThen fun pc => outlines stmts pc (stmt.leaves label)

def caseOutline : List CaseArm → Nat → Outline
  | [], pc => ⟨[], pc⟩
  | .mk patterns body :: arms, pc =>
    ((outlines body (pc + patternsSize patterns + 1) none).step 1).andThen (caseOutline arms)

def altOutline (entries : List AltEntry) (wild : Option Nat) : List AltArm → Nat → Nat → Outline
  | [], _, pc => ⟨[], pc⟩
  | .mk _ body :: arms, n, pc =>
    let pads := padsSize (wild = some n) (entries.filter (·.arm = n))
    ((outlines body (pc + pads) none).step 1).andThen (altOutline entries wild arms (n + 1))

def pickOutline : List PickArm → Nat → Outline
  | [], pc => ⟨[], pc⟩
  | .mk _ body :: arms, pc => ((outlines body pc none).step 1).andThen (pickOutline arms)

end

/-! ### What cannot be generated -/

/-- What a statement is generated in: the open constructs, innermost first, each with its label and
whether it can be continued, a label before the statement, and the functions of the file. -/
structure Scope where
  frames : List (Option String × Bool)
  label : Option String
  defined : List String

def LoopFrame.kind (frame : LoopFrame) : Option String × Bool := (frame.label, frame.continuable)

abbrev kinds (frames : List LoopFrame) : List (Option String × Bool) := frames.map LoopFrame.kind

def Gen.scope (g : Gen) : Scope := ⟨kinds g.loopStack, g.pendingLabel, g.funcTable.map (·.1)⟩

namespace Scope

variable (sc : Scope)

def enter (continuable : Bool) : Scope :=
  { sc with frames := (sc.label, continuable) :: sc.frames, label := none }

def after (stmt : Stmt) : Scope := { sc with label := stmt.leaves sc.label }

/-- Is there a construct that the jump refers to? -/
def refers (label : Option String) (continues : Bool) : Bool :=
  sc.frames.any fun k => ({ label := k.1, continuable := k.2 } : LoopFrame).matches label continues

end Scope

def Shape.calls : Shape → List String
  | .call name => [name]
  | .seq a b | .logical a b => a.calls ++ b.calls
  | .not e | .fill e => e.calls
  | _ => []

/-- The number of constructs around the first fault. An expression is one if it calls a function
that the file does not have. -/
def Shape.fault (e : Shape) (sc : Scope) : Option Nat :=
  if e.calls ⊆ sc.defined then none else some 0

def patternsFault : List Pattern → Scope → Option Nat
  | [], _ => none
  | .expr e :: patterns, sc => (e.fault sc).or (patternsFault patterns sc)
  | .range lo hi :: patterns, sc => (lo.fault sc).or ((hi.fault sc).or (patternsFault patterns sc))
  | .wildcard :: patterns, sc => patternsFault patterns sc

def setupsFault : List AltEntry → Scope → Option Nat
  | [], _ => none
  | e :: entries, sc => (e.setup.fault sc).or (setupsFault entries sc)

def padsFault : List AltEntry → Scope → Option Nat
  | [], _ => none
  | e :: entries, sc => (e.prologue.fault sc).or (padsFault entries sc)

mutual

/-- The number of loops and `case`s of a statement around the first part of it that cannot be
generated. -/
def Stmt.fault : Stmt → Scope → Option Nat
  | .expr e, sc | .ret e, sc | .raise e, sc => e.fault sc
  | .exit, _ | .empty, _ => none
  | .block stmts, sc => stmtsFault stmts sc
  | .ifThen cond then_, sc => (cond.fault sc).or (then_.fault sc)
  | .ifElse cond then_ else_, sc =>
    (cond.fault sc).or ((then_.fault sc).or (else_.fault (sc.after then_)))
  | .while cond body, sc =>
    ((cond.fault (sc.enter true)).or (body.fault (sc.enter true))).map (· + 1)
  | .for init cond body post, sc =>
    ((init.fault (sc.enter true)).or ((cond.elim none (·.fault (sc.enter true))).or
      ((body.fault (sc.enter true)).or (post.fault (sc.enter true))))).map (· + 1)
  | .doWhile body cond, sc =>
    ((body.fault (sc.enter true)).or (cond.fault (sc.enter true))).map (· + 1)
  | .case e arms, sc =>
    ((e.fault (sc.enter false)).or (caseFault arms (sc.enter false))).map (· + 1)
  | .alt arms, sc =>
    let nsend := (arms.flatMap (·.guards)).countP (·.isSend)
    let entries := altTable nsend arms 0 0 0
    if (wildcardArms arms).length > 1 then some 0
    else (setupsFault entries (sc.enter false)).or (altFault entries arms 0 (sc.enter false))
  | .pick e arms, sc =>
    (e.fault (sc.enter false)).or
      (if ((pickTags arms 0).filter (·.1 = "*")).length > 1 then some 0
      else pickFault arms (sc.enter false))
  | .break label, sc => if sc.refers label false then none else some 0
  | .continue label, sc => if sc.refers label true then none else some 0
  | .label name stmt, sc => stmt.fault { sc with label := some name }

def stmtsFault : List Stmt → Scope → Option Nat
  | [], _ => none
  | stmt :: stmts, sc => (stmt.fault sc).or (stmtsFault stmts (sc.after stmt))

def caseFault : List CaseArm → Scope → Option Nat
  | [], _ => none
  | .mk patterns body :: arms, sc =>
    (patternsFault patterns sc).or ((stmtsFault body sc).or (caseFault arms sc))

def altFault (entries : List AltEntry) : List AltArm → Nat → Scope → Option Nat
  | [], _, _ => none
  | .mk _ body :: arms, n, sc =>
    (padsFault (entries.filter (·.arm = n)) sc).or
      ((stmtsFault body sc).or (altFault entries arms (n + 1) sc))

def pickFault : List PickArm → Scope → Option Nat
  | [], _ => none
  | .mk _ body :: arms, sc => (stmtsFault body sc).or (pickFault arms sc)

end

theorem Stmt.fault_block (stmts : List Stmt) (sc : Scope) :
    (Stmt.block stmts).fault sc = stmtsFault stmts sc := by
  rw [Stmt.fault]

end RiceVM.Limbo.Flow
