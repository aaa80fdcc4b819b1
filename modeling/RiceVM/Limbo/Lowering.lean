import RiceVM.Lib.Exec
import RiceVM.Limbo.Patching

/-!
The generator of statements with all that it leaves behind: the constructs still open where it
fails, and the instructions that it patched.
-/
namespace RiceVM.Limbo.Flow

structure Lowering extends Gen where
  /-- The instructions that were given a target after they were emitted, once for each time. -/
  patched : List Nat := []

namespace Lowering

variable (l : Lowering)

def emit (i : Instr) : Lowering := { l with toGen := l.toGen.emit i }

def patch (idx pc : Nat) : Lowering :=
  { l with toGen := l.toGen.patch idx pc, patched := l.patched ++ [idx] }

def patchAll (idxs : List Nat) (pc : Nat) : Lowering :=
  { l with toGen := l.toGen.patchAll idxs pc, patched := l.patched ++ idxs }

def pushLoop (continuable : Bool) : Lowering := { l with toGen := l.toGen.pushLoop continuable }

def popLoop (exitPc continuePc : Nat) : Lowering :=
  { l with
    toGen := l.toGen.popLoop exitPc continuePc
    patched := match l.loopStack with
      | [] => l.patched
      | frame :: _ => l.patched ++ (frame.breaks ++ frame.continues) }

/-- Leave a construct that could not be generated. -/
def dropLoop : Lowering := { l with loopStack := l.loopStack.tail }

def setLabel (label : Option String) : Lowering := { l with pendingLabel := label }

end Lowering

abbrev Lower := Exec Lowering String

namespace Lower

def emit (i : Instr) : Lower Unit := Exec.modify (·.emit i)

/-- The pc of the next instruction. -/
def here : Lower Nat := do return (← Exec.get).pc

def patch (idx pc : Nat) : Lower Unit := Exec.modify (·.patch idx pc)

def emitIf (c : Prop) [Decidable c] (i : Instr) : Lower Unit := if c then emit i else pure ()

def patchIf (c : Prop) [Decidable c] (idx pc : Nat) : Lower Unit :=
  if c then patch idx pc else pure ()

def patchAll (idxs : List Nat) (pc : Nat) : Lower Unit := Exec.modify (·.patchAll idxs pc)

def pushLoop (continuable : Bool) : Lower Unit := Exec.modify (·.pushLoop continuable)

def popLoop (exitPc continuePc : Nat) : Lower Unit := Exec.modify (·.popLoop exitPc continuePc)

def setLabel (label : Option String) : Lower Unit := Exec.modify (·.setLabel label)

/-- Run a program, and change the state it fails in. -/
def orElseChange (m : Lower Unit) (f : Lowering → Lowering) : Lower Unit := fun l =>
  match m l with
  | .error e l => .error e (f l)
  | r => r

end Lower

open Lower

/-- Record a jump with the construct it refers to, and emit it. -/
def lowerJump (label : Option String) (continues : Bool) (error : String) : Lower Unit := do
  let l ← Exec.get
  match recordJump label continues l.pc l.loopStack with
  | none => Exec.throw error
  | some frames => Exec.set { l.emit (.jmp none) with loopStack := frames }

def lowerBreak (label : Option String) : Lower Unit :=
  lowerJump label false (match label with
    | some l => s!"`break {l}`: no enclosing statement labelled `{l}`"
    | none => "`break` outside of a loop or case statement")

def lowerContinue (label : Option String) : Lower Unit :=
  lowerJump label true (match label with
    | some l => s!"`continue {l}`: no enclosing loop labelled `{l}`"
    | none => "`continue` outside of a loop")

def lowerCall (name : String) : Lower Unit := do
  let l ← Exec.get
  match genCall name l.toGen with
  | .error e => Exec.throw e
  | .ok g => Exec.set { l with toGen := g }

def lowerShape : Shape → Lower Unit
  | .nil => return
  | .step => emit .step
  | .call name => lowerCall name
  | .seq a b => do
    lowerShape a
    lowerShape b
  | .test => do
    emit .step
    let skip ← here
    emit (.branch none)
    emit .step
    patch skip (← here)
  | .not e => do
    lowerShape e
    let skip ← here
    emit (.branch none)
    emit .step
    let done ← here
    emit (.jmp none)
    patch skip (← here)
    emit .step
    patch done (← here)
  | .logical l r => do
    lowerShape l
    let short ← here
    emit (.branch none)
    lowerShape r
    let done ← here
    emit (.jmp none)
    patch short (← here)
    emit .step
    patch done (← here)
  | .fill value => do
    lowerShape value
    emit .step
    let loopStart ← here
    emit (.branch none)
    emit .step
    emit .step
    emit .step
    emit (.jmp (some loopStart))
    patch loopStart (← here)

def lowerPatterns : List Pattern → Lower (List Nat)
  | [] => return []
  | .expr e :: patterns => do
    lowerShape e
    let idx ← here
    emit (.branch none)
    return idx :: (← lowerPatterns patterns)
  | .range lo hi :: patterns => do
    lowerShape lo
    lowerShape hi
    let below ← here
    emit (.branch none)
    let idx ← here
    emit (.branch none)
    patch below (← here)
    return idx :: (← lowerPatterns patterns)
  | .wildcard :: patterns => do
    let idx ← here
    emit (.jmp none)
    return idx :: (← lowerPatterns patterns)

def lowerEmitAll (i : Instr) : Nat → Lower Unit
  | 0 => return
  | n + 1 => do
    emit i
    lowerEmitAll i n

def lowerSetups : List AltEntry → Lower Unit
  | [] => return
  | e :: entries => do
    lowerShape e.setup
    emit .step
    lowerSetups entries

def lowerPads (pads : Nat) (wild : Bool) : List AltEntry → Lower (List Nat)
  | [] => return []
  | e :: entries => do
    patch (pads + e.index) (← here)
    lowerShape e.prologue
    if entries ≠ [] ∨ wild then
      let at_ ← here
      emit (.jmp none)
      return at_ :: (← lowerPads pads wild entries)
    else lowerPads pads wild entries

/-- The tests of a `pick`'s tags: their pads with the arm of each, and the arm of `*`. -/
def lowerTags : List (String × Nat) → Option Nat → Lower (List (Nat × Nat) × Option Nat)
  | [], wild => return ([], wild)
  | (name, arm) :: tags, wild => do
    if name = "*" then
      if wild.isSome then Exec.throw "a `pick` may have only one `*` arm"
      else lowerTags tags (some arm)
    else
      let pad ← here
      emit (.branch none)
      let (pads, wild) ← lowerTags tags wild
      return ((arm, pad) :: pads, wild)

/-- An `alt` once its construct is entered, given how its arms are generated. -/
def lowerAlt (arms : List AltArm)
    (lowerArms : List AltEntry → Nat → Nat → Option Nat → Lower (List Nat)) : Lower Unit := do
  let guards := arms.flatMap (·.guards)
  let nsend := guards.countP (·.isSend)
  let count := nsend + guards.countP (·.isRecv)
  let wild := wildcardArms arms
  if wild.length > 1 then Exec.throw "an `alt` may have only one `*` arm"
  else
    let entries := altTable nsend arms 0 0 0
    lowerSetups entries
    emit .step
    emit .step
    emit .step
    let pads ← here
    lowerEmitAll (.branch none) count
    emitIf (wild ≠ []) (.branch none)
    let noMatch ← here
    emit (.jmp none)
    let endJumps ← lowerArms entries pads (pads + count) wild.head?
    let endPc ← here
    patchAll (noMatch :: endJumps) endPc
    popLoop endPc endPc

/-- A `pick` once its construct is entered. -/
def lowerPick (e : Shape) (arms : List PickArm)
    (lowerArms : List (Nat × Nat) → Nat → Option Nat → Lower (List Nat)) : Lower Unit := do
  lowerShape e
  emit .step
  let (pads, wild) ← lowerTags (pickTags arms 0) none
  let default ← here
  emit (.jmp none)
  let endJumps ← lowerArms pads default wild
  let endPc ← here
  patchIf (wild = none) default endPc
  patchAll endJumps endPc
  popLoop endPc endPc

mutual

def lowerStmt : Stmt → Lower Unit
  | .expr e => lowerShape e
  | .ret e => do
    lowerShape e
    emit .ret
  | .exit => emit .exit
  | .raise e => do
    lowerShape e
    emit .raise
  | .block stmts => lowerStmts stmts
  | .ifThen cond then_ => do
    lowerShape cond
    let jump ← here
    emit (.branch none)
    lowerStmt then_
    patch jump (← here)
  | .ifElse cond then_ else_ => do
    lowerShape cond
    let jump ← here
    emit (.branch none)
    lowerStmt then_
    let skip ← here
    emit (.jmp none)
    patch jump (← here)
    lowerStmt else_
    patch skip (← here)
  | .while cond body => do
    pushLoop true
    let loopStart ← here
    lowerShape cond
    let jump ← here
    emit (.branch none)
    lowerStmt body
    emit (.jmp (some loopStart))
    let exitPc ← here
    patch jump exitPc
    popLoop exitPc loopStart
  | .for init (some cond) body post => do
    pushLoop true
    lowerStmt init
    let loopStart ← here
    lowerShape cond
    let jump ← here
    emit (.branch none)
    lowerStmt body
    let continuePc ← here
    lowerStmt post
    emit (.jmp (some loopStart))
    let exitPc ← here
    patch jump exitPc
    popLoop exitPc continuePc
  | .for init none body post => do
    pushLoop true
    lowerStmt init
    let loopStart ← here
    lowerStmt body
    let continuePc ← here
    lowerStmt post
    emit (.jmp (some loopStart))
    popLoop (← here) continuePc
  | .doWhile body cond => do
    pushLoop true
    let loopStart ← here
    lowerStmt body
    let continuePc ← here
    lowerShape cond
    emit (.branch (some loopStart))
    popLoop (← here) continuePc
  | .case e arms => do
    pushLoop false
    lowerShape e
    let endJumps ← lowerCaseArms arms
    let endPc ← here
    patchAll endJumps endPc
    popLoop endPc endPc
  | .alt arms => do
    pushLoop false
    (lowerAlt arms fun entries pads wildcardPad wild =>
      lowerAltArms entries pads wildcardPad wild arms 0).orElseChange (·.dropLoop)
  | .pick e arms => do
    pushLoop false
    (lowerPick e arms fun pads default wild =>
      lowerPickArms pads default wild arms 0).orElseChange (·.dropLoop)
  | .break label => lowerBreak label
  | .continue label => lowerContinue label
  | .label name stmt => do
    setLabel (some name)
    Exec.restoring (lowerStmt stmt) (·.setLabel none)
  | .empty => return

def lowerStmts : List Stmt → Lower Unit
  | [] => return
  | stmt :: stmts => do
    lowerStmt stmt
    lowerStmts stmts

def lowerCaseArms : List CaseArm → Lower (List Nat)
  | [] => return []
  | .mk patterns body :: arms => do
    let armJumps ← lowerPatterns patterns
    let skip ← here
    emit (.jmp none)
    patchAll armJumps (← here)
    lowerStmts body
    let done ← here
    emit (.jmp none)
    patch skip (← here)
    return done :: (← lowerCaseArms arms)

def lowerAltArms (entries : List AltEntry) (pads wildcardPad : Nat) (wild : Option Nat) :
    List AltArm → Nat → Lower (List Nat)
  | [], _ => return []
  | .mk _ body :: arms, n => do
    let isWildcard := wild = some n
    let toBody ← lowerPads pads isWildcard (entries.filter (·.arm = n))
    patchIf isWildcard wildcardPad (← here)
    patchAll toBody (← here)
    lowerStmts body
    let done ← here
    emit (.jmp none)
    return done :: (← lowerAltArms entries pads wildcardPad wild arms (n + 1))

def lowerPickArms (pads : List (Nat × Nat)) (default : Nat) (wild : Option Nat) :
    List PickArm → Nat → Lower (List Nat)
  | [], _ => return []
  | .mk _ body :: arms, n => do
    let bodyPc ← here
    patchAll ((pads.filter (·.1 = n)).map (·.2)) bodyPc
    patchIf (wild = some n) default bodyPc
    lowerStmts body
    let done ← here
    emit (.jmp none)
    return done :: (← lowerPickArms pads default wild arms (n + 1))

end

theorem lowerStmt_block (stmts : List Stmt) : lowerStmt (.block stmts) = lowerStmts stmts := by
  rw [lowerStmt]

end RiceVM.Limbo.Flow
