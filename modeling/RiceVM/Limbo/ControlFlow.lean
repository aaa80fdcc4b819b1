import RiceVM.Lib.Backpatch

/-!
The control flow of the generated code. An expression is represented by the shape of its code: the
instructions that only go on to the next one, the calls, and the branches of the operators that
have any. Statements are the parser's, over such expressions.
-/
namespace RiceVM.Limbo.Flow

open Backpatch

/-- An instruction, by where control goes after it. Targets are absolute; a jump is emitted before
its target is known, and a call before its callee. -/
inductive Instr where
  /-- Goes on to the next instruction. -/
  | step
  /-- `Call` and `Spawn`. -/
  | call (callee : Option Nat)
  | jmp (pc : Option Nat)
  | branch (pc : Option Nat)
  | raise
  | ret
  | exit
  deriving DecidableEq, Repr

namespace Instr

def jump : Instr → Jump
  | .jmp none | .branch none => .hole
  | .jmp (some pc) | .branch (some pc) => .target pc
  | _ => .none

def falls : Instr → Bool
  | .jmp _ | .raise | .ret | .exit => false
  | _ => true

def setTarget (pc : Nat) : Instr → Instr
  | .call _ => .call (some pc)
  | .jmp _ => .jmp (some pc)
  | .branch _ => .branch (some pc)
  | i => i

/-- `Ret` and `Exit`, after which no closing `Ret` is emitted. -/
def isExit : Instr → Bool
  | .ret | .exit => true
  | _ => false

end Instr

instance : Patchable Instr where
  jump := Instr.jump
  falls := Instr.falls
  setTarget := Instr.setTarget
  jump_setTarget pc i := by
    cases i with
    | jmp dest | branch dest => cases dest <;> rfl
    | step | call | raise | ret | exit => rfl
  falls_setTarget pc i := by cases i <;> rfl

/-- The code of an expression. -/
inductive Shape where
  | nil
  | step
  | call (name : String)
  | seq (a b : Shape)
  /-- A comparison, once its operands are computed: `Movw $1`, a branch over `Movw $0`. -/
  | test
  | not (e : Shape)
  /-- `&&` and `||`. -/
  | logical (l r : Shape)
  /-- The loop that fills an array literal with its `*` element. -/
  | fill (value : Shape)
  deriving Repr

inductive Pattern where
  | expr (e : Shape)
  | range (lo hi : Shape)
  | wildcard
  deriving Repr

/-- What a guard does before the `alt`, and what its arm does first once it is selected. -/
inductive AltGuard where
  | send (setup : Shape)
  | recv (setup prologue : Shape)
  | wildcard
  deriving Repr

mutual

inductive Stmt where
  /-- An expression, a declaration or a `spawn`. -/
  | expr (e : Shape)
  | ret (e : Shape)
  | exit
  | raise (e : Shape)
  | block (stmts : List Stmt)
  | ifThen (cond : Shape) (then_ : Stmt)
  | ifElse (cond : Shape) (then_ else_ : Stmt)
  | while (cond : Shape) (body : Stmt)
  /-- An absent `init` or `post` is empty. -/
  | for (init : Stmt) (cond : Option Shape) (body post : Stmt)
  | doWhile (body : Stmt) (cond : Shape)
  | case (e : Shape) (arms : List CaseArm)
  | alt (arms : List AltArm)
  | pick (e : Shape) (arms : List PickArm)
  | break (label : Option String)
  | continue (label : Option String)
  | label (name : String) (stmt : Stmt)
  | empty

inductive CaseArm where
  | mk (patterns : List Pattern) (body : List Stmt)

inductive AltArm where
  | mk (guards : List AltGuard) (body : List Stmt)

inductive PickArm where
  | mk (tags : List String) (body : List Stmt)

end

def AltArm.guards : AltArm → List AltGuard
  | .mk guards _ => guards

def PickArm.tags : PickArm → List String
  | .mk tags _ => tags

/-! ### The generator -/

/-- A construct that can be left by `break`, with the jumps to patch when it is closed. -/
structure LoopFrame where
  label : Option String
  breaks : List Nat := []
  continues : List Nat := []
  continuable : Bool

structure Gen where
  code : List Instr := []
  /-- The innermost construct first. -/
  loopStack : List LoopFrame := []
  pendingLabel : Option String := none
  /-- The entry of each function of the file, once it is generated. -/
  funcTable : List (String × Option Nat) := []
  pendingCallFixups : List (Nat × String) := []

namespace Gen

variable (g : Gen)

def pc : Nat := g.code.length

def emit (i : Instr) : Gen := { g with code := g.code ++ [i] }

def patch (idx pc : Nat) : Gen := { g with code := Backpatch.patch g.code idx pc }

def patchAll (idxs : List Nat) (pc : Nat) : Gen :=
  { g with code := Backpatch.patchAll g.code idxs pc }

/-- Enter a breakable construct, taking any label that prefixed it. -/
def pushLoop (continuable : Bool) : Gen :=
  { g with
    loopStack := { label := g.pendingLabel, continuable } :: g.loopStack
    pendingLabel := none }

/-- Leave a breakable construct, patching its jumps. -/
def popLoop (exitPc continuePc : Nat) : Gen :=
  match g.loopStack with
  | [] => g
  | frame :: frames =>
    ({ g with loopStack := frames }.patchAll frame.breaks exitPc).patchAll frame.continues
      continuePc

end Gen

/-- Does a `break` or `continue` with this label refer to the construct? -/
def LoopFrame.matches (label : Option String) (needContinue : Bool) (frame : LoopFrame) : Bool :=
  (!needContinue || frame.continuable) && (label = none || frame.label = label)

/-- Record a jump with the innermost construct it refers to. -/
def recordJump (label : Option String) (continues : Bool) (at_ : Nat) :
    List LoopFrame → Option (List LoopFrame)
  | [] => none
  | frame :: frames =>
    if frame.matches label continues then
      some ((if continues then { frame with continues := frame.continues ++ [at_] }
        else { frame with breaks := frame.breaks ++ [at_] }) :: frames)
    else (recordJump label continues at_ frames).map (frame :: ·)

def genBreak (label : Option String) (g : Gen) : Except String Gen :=
  match recordJump label false g.pc g.loopStack with
  | some frames => .ok { (g.emit (.jmp none)) with loopStack := frames }
  | none => .error (match label with
    | some l => s!"`break {l}`: no enclosing statement labelled `{l}`"
    | none => "`break` outside of a loop or case statement")

def genContinue (label : Option String) (g : Gen) : Except String Gen :=
  match recordJump label true g.pc g.loopStack with
  | some frames => .ok { (g.emit (.jmp none)) with loopStack := frames }
  | none => .error (match label with
    | some l => s!"`continue {l}`: no enclosing loop labelled `{l}`"
    | none => "`continue` outside of a loop")

/-- A call of a function of the file, whose target is patched at the end when the callee comes
later. -/
def genCall (name : String) (g : Gen) : Except String Gen :=
  match g.funcTable.find? (·.1 = name) with
  | none => .error s!"call to undefined function `{name}`"
  | some (_, some pc) => .ok (g.emit (.call (some pc)))
  | some (_, none) =>
    .ok { (g.emit (.call none)) with
      pendingCallFixups := g.pendingCallFixups ++ [(g.pc, name)] }

def genShape : Shape → Gen → Except String Gen
  | .nil, g => .ok g
  | .step, g => .ok (g.emit .step)
  | .call name, g => genCall name g
  | .seq a b, g => do genShape b (← genShape a g)
  | .test, g =>
    let g := g.emit .step
    let skip := g.pc
    let g := (g.emit (.branch none)).emit .step
    .ok (g.patch skip g.pc)
  | .not e, g => do
    let g ← genShape e g
    let skip := g.pc
    let g := (g.emit (.branch none)).emit .step
    let done := g.pc
    let g := g.emit (.jmp none)
    let g := (g.patch skip g.pc).emit .step
    .ok (g.patch done g.pc)
  | .logical l r, g => do
    let g ← genShape l g
    let short := g.pc
    let g ← genShape r (g.emit (.branch none))
    let done := g.pc
    let g := g.emit (.jmp none)
    let g := (g.patch short g.pc).emit .step
    .ok (g.patch done g.pc)
  | .fill value, g => do
    let g ← genShape value g
    let g := g.emit .step
    let loopStart := g.pc
    let g := (((g.emit (.branch none)).emit .step).emit .step).emit .step
    let g := g.emit (.jmp (some loopStart))
    .ok (g.patch loopStart g.pc)

/-- The checks of one arm's patterns, and their jumps to the arm's body. -/
def genPatterns : List Pattern → Gen → Except String (Gen × List Nat)
  | [], g => .ok (g, [])
  | .expr e :: patterns, g => do
    let g ← genShape e g
    let idx := g.pc
    let (g, jumps) ← genPatterns patterns (g.emit (.branch none))
    .ok (g, idx :: jumps)
  | .range lo hi :: patterns, g => do
    let g ← genShape hi (← genShape lo g)
    -- Below the range: on to the next pattern.
    let below := g.pc
    let g := g.emit (.branch none)
    let idx := g.pc
    let g := g.emit (.branch none)
    let (g, jumps) ← genPatterns patterns (g.patch below g.pc)
    .ok (g, idx :: jumps)
  | .wildcard :: patterns, g => do
    let idx := g.pc
    let (g, jumps) ← genPatterns patterns (g.emit (.jmp none))
    .ok (g, idx :: jumps)

/-- A guard's entry in the table of an `alt`. -/
structure AltEntry where
  setup : Shape
  prologue : Shape
  arm : Nat
  index : Nat

/-- Sends are numbered from zero, receives after all the sends, both in source order. -/
def altEntries (nsend arm : Nat) : List AltGuard → Nat → Nat → List AltEntry × Nat × Nat
  | [], nextSend, nextRecv => ([], nextSend, nextRecv)
  | .send setup :: guards, nextSend, nextRecv =>
    let (entries, next) := altEntries nsend arm guards (nextSend + 1) nextRecv
    ({ setup, prologue := .nil, arm, index := nextSend } :: entries, next)
  | .recv setup prologue :: guards, nextSend, nextRecv =>
    let (entries, next) := altEntries nsend arm guards nextSend (nextRecv + 1)
    ({ setup, prologue, arm, index := nsend + nextRecv } :: entries, next)
  | .wildcard :: guards, nextSend, nextRecv => altEntries nsend arm guards nextSend nextRecv

def altTable (nsend : Nat) : List AltArm → Nat → Nat → Nat → List AltEntry
  | [], _, _, _ => []
  | arm :: arms, n, nextSend, nextRecv =>
    let (entries, next) := altEntries nsend n arm.guards nextSend nextRecv
    entries ++ altTable nsend arms (n + 1) next.1 next.2

def AltGuard.isSend : AltGuard → Bool
  | .send _ => true
  | _ => false

def AltGuard.isRecv : AltGuard → Bool
  | .recv _ _ => true
  | _ => false

def AltGuard.isWildcard : AltGuard → Bool
  | .wildcard => true
  | _ => false

section

variable (setup prologue : Shape)

@[simp] theorem AltGuard.isSend_send : (AltGuard.send setup).isSend = true := rfl

@[simp] theorem AltGuard.isSend_recv : (AltGuard.recv setup prologue).isSend = false := rfl

@[simp] theorem AltGuard.isSend_wildcard : AltGuard.wildcard.isSend = false := rfl

@[simp] theorem AltGuard.isRecv_send : (AltGuard.send setup).isRecv = false := rfl

@[simp] theorem AltGuard.isRecv_recv : (AltGuard.recv setup prologue).isRecv = true := rfl

@[simp] theorem AltGuard.isRecv_wildcard : AltGuard.wildcard.isRecv = false := rfl

end

/-- The arms with a `*` guard, once for each. -/
def wildcardArms (arms : List AltArm) : List Nat :=
  arms.zipIdx.flatMap fun a => (a.1.guards.filter (·.isWildcard)).map fun _ => a.2

def emitAll (i : Instr) : Nat → Gen → Gen
  | 0, g => g
  | n + 1, g => emitAll i n (g.emit i)

def genSetups : List AltEntry → Gen → Except String Gen
  | [], g => .ok g
  | e :: entries, g => do genSetups entries ((← genShape e.setup g).emit .step)

/-- The landing pads of one arm's guards: each runs its prologue and goes to the arm's body, the
last by falling into it. Gives the jumps to the body. -/
def genPads (pads : Nat) (wild : Bool) : List AltEntry → Gen → Except String (Gen × List Nat)
  | [], g => .ok (g, [])
  | e :: entries, g => do
    let g ← genShape e.prologue (g.patch (pads + e.index) g.pc)
    if entries ≠ [] ∨ wild then
      let at_ := g.pc
      let (g, jumps) ← genPads pads wild entries (g.emit (.jmp none))
      .ok (g, at_ :: jumps)
    else genPads pads wild entries g

/-- The tags of a `pick`'s arms in order, each with its arm. -/
def pickTags : List PickArm → Nat → List (String × Nat)
  | [], _ => []
  | arm :: arms, n => arm.tags.map (·, n) ++ pickTags arms (n + 1)

mutual

def genStmt : Stmt → Gen → Except String Gen
  | .expr e, g => genShape e g
  | .ret e, g => do .ok ((← genShape e g).emit .ret)
  | .exit, g => .ok (g.emit .exit)
  | .raise e, g => do .ok ((← genShape e g).emit .raise)
  | .block stmts, g => genStmts stmts g
  | .ifThen cond then_, g => do
    let g ← genShape cond g
    let jump := g.pc
    let g ← genStmt then_ (g.emit (.branch none))
    .ok (g.patch jump g.pc)
  | .ifElse cond then_ else_, g => do
    let g ← genShape cond g
    let jump := g.pc
    let g ← genStmt then_ (g.emit (.branch none))
    let skip := g.pc
    let g := g.emit (.jmp none)
    let g ← genStmt else_ (g.patch jump g.pc)
    .ok (g.patch skip g.pc)
  | .while cond body, g => do
    let g := g.pushLoop true
    let loopStart := g.pc
    let g ← genShape cond g
    let jump := g.pc
    let g ← genStmt body (g.emit (.branch none))
    let g := g.emit (.jmp (some loopStart))
    let g := g.patch jump g.pc
    .ok (g.popLoop g.pc loopStart)
  | .for init (some cond) body post, g => do
    let g ← genStmt init (g.pushLoop true)
    let loopStart := g.pc
    let g ← genShape cond g
    let jump := g.pc
    let g ← genStmt body (g.emit (.branch none))
    let continuePc := g.pc
    let g ← genStmt post g
    let g := g.emit (.jmp (some loopStart))
    let g := g.patch jump g.pc
    .ok (g.popLoop g.pc continuePc)
  | .for init none body post, g => do
    let g ← genStmt init (g.pushLoop true)
    let loopStart := g.pc
    let g ← genStmt body g
    let continuePc := g.pc
    let g ← genStmt post g
    let g := g.emit (.jmp (some loopStart))
    .ok (g.popLoop g.pc continuePc)
  | .doWhile body cond, g => do
    let g := g.pushLoop true
    let loopStart := g.pc
    let g ← genStmt body g
    let continuePc := g.pc
    let g ← genShape cond g
    let g := g.emit (.branch (some loopStart))
    .ok (g.popLoop g.pc continuePc)
  | .case e arms, g => do
    let g ← genShape e (g.pushLoop false)
    let (g, endJumps) ← genCaseArms arms g
    let g := g.patchAll endJumps g.pc
    .ok (g.popLoop g.pc g.pc)
  | .alt arms, g => do
    let g := g.pushLoop false
    let guards := arms.flatMap (·.guards)
    let nsend := guards.countP (·.isSend)
    let count := nsend + guards.countP (·.isRecv)
    let wild := wildcardArms arms
    if wild.length > 1 then .error "an `alt` may have only one `*` arm"
    else
      let entries := altTable nsend arms 0 0 0
      let g ← genSetups entries g
      -- The header and the instruction itself.
      let g := ((g.emit .step).emit .step).emit .step
      let pads := g.pc
      let g := emitAll (.branch none) count g
      let g := if wild = [] then g else g.emit (.branch none)
      let noMatch := g.pc
      let (g, endJumps) ← genAltArms entries pads (pads + count) wild.head? arms 0
        (g.emit (.jmp none))
      let g := g.patchAll (noMatch :: endJumps) g.pc
      .ok (g.popLoop g.pc g.pc)
  | .pick e arms, g => do
    let g ← genShape e (g.pushLoop false)
    let g := g.emit .step
    let tags := pickTags arms 0
    let wild := tags.filter (·.1 = "*")
    if wild.length > 1 then .error "a `pick` may have only one `*` arm"
    else
      let named := (tags.filter (·.1 ≠ "*")).map (·.2)
      let pads := g.pc
      let g := emitAll (.branch none) named.length g
      let default := g.pc
      let (g, endJumps) ← genPickArms (named.zipIdx pads) default (wild.head?.map (·.2)) arms 0
        (g.emit (.jmp none))
      let g := if wild = [] then g.patch default g.pc else g
      let g := g.patchAll endJumps g.pc
      .ok (g.popLoop g.pc g.pc)
  | .break label, g => genBreak label g
  | .continue label, g => genContinue label g
  | .label name stmt, g => do
    let g ← genStmt stmt { g with pendingLabel := some name }
    .ok { g with pendingLabel := none }
  | .empty, g => .ok g

def genStmts : List Stmt → Gen → Except String Gen
  | [], g => .ok g
  | stmt :: stmts, g => do genStmts stmts (← genStmt stmt g)

/-- The arms of a `case`, and the jumps to its end. -/
def genCaseArms : List CaseArm → Gen → Except String (Gen × List Nat)
  | [], g => .ok (g, [])
  | .mk patterns body :: arms, g => do
    let (g, armJumps) ← genPatterns patterns g
    let skip := g.pc
    let g := g.emit (.jmp none)
    let g ← genStmts body (g.patchAll armJumps g.pc)
    let done := g.pc
    let g := g.emit (.jmp none)
    let (g, endJumps) ← genCaseArms arms (g.patch skip g.pc)
    .ok (g, done :: endJumps)

/-- The arms of an `alt` from the `n`-th on, and the jumps to its end. -/
def genAltArms (entries : List AltEntry) (pads wildcardPad : Nat) (wild : Option Nat) :
    List AltArm → Nat → Gen → Except String (Gen × List Nat)
  | [], _, g => .ok (g, [])
  | .mk _ body :: arms, n, g => do
    let isWildcard := wild = some n
    let (g, toBody) ← genPads pads isWildcard (entries.filter (·.arm = n)) g
    let g := if isWildcard then g.patch wildcardPad g.pc else g
    let g ← genStmts body (g.patchAll toBody g.pc)
    let done := g.pc
    let (g, endJumps) ← genAltArms entries pads wildcardPad wild arms (n + 1) (g.emit (.jmp none))
    .ok (g, done :: endJumps)

/-- The arms of a `pick` from the `n`-th on, and the jumps to its end. -/
def genPickArms (pads : List (Nat × Nat)) (default : Nat) (wild : Option Nat) :
    List PickArm → Nat → Gen → Except String (Gen × List Nat)
  | [], _, g => .ok (g, [])
  | .mk _ body :: arms, n, g => do
    let g := g.patchAll ((pads.filter (·.1 = n)).map (·.2)) g.pc
    let g := if wild = some n then g.patch default g.pc else g
    let g ← genStmts body g
    let done := g.pc
    let (g, endJumps) ← genPickArms pads default wild arms (n + 1) (g.emit (.jmp none))
    .ok (g, done :: endJumps)

end

/-! ### Functions and modules -/

structure FuncDecl where
  qualifier : Option String
  name : String
  body : List Stmt

def FuncDecl.fullName (f : FuncDecl) : String :=
  match f.qualifier with
  | some q => s!"{q}.{f.name}"
  | none => f.name

/-- What a function's code is generated from: the module-level initialisers that are not constants
run first in `init`. -/
def FuncDecl.stmts (inits : List Shape) (f : FuncDecl) : List Stmt :=
  if f.name = "init" then inits.map .expr ++ f.body else f.body

/-- The initialisers still to be placed after a function. -/
def FuncDecl.leaves (inits : List Shape) (f : FuncDecl) : List Shape :=
  if f.name = "init" then [] else inits

def endsInExit (code : List Instr) : Bool := (code.getLast?.map Instr.isExit).getD false

/-- Fill in the entry of a function that was registered before. -/
def setEntry (name : String) (pc : Nat) :
    List (String × Option Nat) → List (String × Option Nat)
  | [] => []
  | (n, entry) :: table =>
    if n = name ∧ entry = none then (n, some pc) :: table
    else (n, entry) :: setEntry name pc table

def genFunc (name : String) (stmts : List Stmt) (g : Gen) : Except String Gen := do
  let entryPc := g.pc
  let g ← genStmts stmts g
  -- The last instruction of all the code, not of this function's.
  let g := if endsInExit g.code then g else g.emit .ret
  .ok { g with funcTable := setEntry name entryPc g.funcTable }

/-- The functions in order, with the stretch of code of each and the initialisers left over. -/
def genFuncs : List Shape → List FuncDecl → Gen →
    Except String (Gen × List (Nat × Nat) × List Shape)
  | inits, [], g => .ok (g, [], inits)
  | inits, f :: funcs, g => do
    let g' ← genFunc f.fullName (f.stmts inits) g
    let (g'', spans, rest) ← genFuncs (f.leaves inits) funcs g'
    .ok (g'', (g.pc, g'.pc) :: spans, rest)

/-- Patch the calls of functions that were generated later. -/
def patchCalls : List (Nat × String) → Gen → Except String Gen
  | [], g => .ok g
  | (idx, name) :: fixups, g =>
    match (g.funcTable.find? (·.1 = name)).bind (·.2) with
    | none => .error s!"unresolved forward reference to function `{name}`"
    | some pc => patchCalls fixups (g.patch idx pc)

/-- A module's code, with the stretch of it that each function's is. -/
def compile (inits : List Shape) (funcs : List FuncDecl) :
    Except String (List Instr × List (Nat × Nat)) := do
  let (g, spans, left) ← genFuncs inits funcs { funcTable := funcs.map fun f => (f.fullName, none) }
  if left.isEmpty then do
    let g ← patchCalls g.pendingCallFixups g
    .ok (g.code, spans)
  else .error "module has no `init` function"

end RiceVM.Limbo.Flow
