import RiceVM.Ops.Concurrency
import RiceVM.HostPaths
import RiceVM.Ops.Strtol

/-!
Tk commands without a window system: widget properties are kept, and a command may put a string
into a channel that was given a name. A text holds several commands between semicolons.
-/
namespace RiceVM.Ops
open Exec Memory

def trimMatches (p : Char → Bool) (t : Text) : Text :=
  ((t.dropWhile p).reverse.dropWhile p).reverse

def trim : Text → Text := trimMatches isWhitespace

/-- The splitting of a command: the parts so far, the part that began, and how many braces are
open. -/
structure ShellSplit where
  parts : List Text
  current : Option Text
  braceDepth : Int
  deriving DecidableEq, Repr

namespace ShellSplit

/-- The part that began ends here. -/
def push (s : ShellSplit) : ShellSplit :=
  { s with parts := s.parts ++ s.current.toList, current := none }

def step (s : ShellSplit) (c : Char) : ShellSplit :=
  let grown := s.current.map (· ++ [c])
  if c = '\x7b' then
    { s with
      current := if s.braceDepth = 0 ∧ s.current.isNone then some [] else grown
      braceDepth := s.braceDepth + 1 }
  else if c = '\x7d' then
    if s.braceDepth - 1 = 0 ∧ s.current.isSome then { s with braceDepth := 0 }.push
    else { s with current := grown, braceDepth := s.braceDepth - 1 }
  else if (c = ' ' ∨ c = '\x09') ∧ s.braceDepth = 0 then s.push
  else
    { s with current := if s.current.isNone ∧ s.braceDepth = 0 then some [c] else grown }

end ShellSplit

/-- Split at blanks outside braces. -/
def shellSplit (t : Text) : List Text :=
  (t.foldl ShellSplit.step ⟨[], none, 0⟩).push.parts

/-- The named channels and the widgets' properties. -/
structure Tk where
  namedChannels : Text → Option HeapId
  widgetProps : List ((Text × Text) × Text)

def Tk.setProp (tk : Tk) (name opt val : Text) : Tk :=
  { tk with widgetProps := ((name, opt), val) :: tk.widgetProps }

/-- The pairs of options and values of a `configure`. -/
def configureWidget (name : Text) : List Text → Tk → Tk
  | opt :: val :: rest, tk =>
    let val := trimMatches (· = '\x7d') (trimMatches (· = '\x7b') (trimMatches (· = '\x27') val))
    configureWidget name rest (tk.setProp name (opt.dropWhile (· = '-')) val)
  | _, tk => tk

def dispatchWidgetCmd (name : Text) (args : List Text) (tk : Tk) : Text × Tk :=
  match args with
  | subcmd :: rest =>
    if subcmd = "configure".toList then ([], configureWidget name rest tk)
    else if subcmd = "cget".toList then
      match rest with
      | opt :: _ => ((tk.widgetProps.lookup (name, opt.dropWhile (· = '-'))).getD [], tk)
      | [] => ([], tk)
    else ([], tk)
  | [] => ([], tk)

/-- Without a window system there is no widget. -/
def widgetClass (name : Text) : Text := "!widget ".toList ++ name ++ " not found".toList

/-- A named channel gets the string whatever it holds. -/
def sendToNamedChannel (tk : Tk) (name value : Text) : VM Unit :=
  match tk.namedChannels name with
  | none => pure ()
  | some id => do
    let strId ← alloc 0 (.str (String.ofList value))
    modify (·.putChannel id (writeWord (List.replicate 4 0) 0 strId))

/-- The values of a `send` in one string. -/
def joined (parts : List Text) : Text := [' '].intercalate parts

/-- One command; its result and what it leaves of the properties. -/
def dispatchParts (tk : Tk) : List Text → VM (Text × Tk)
  | [] => return ([], tk)
  | first :: args =>
    if first.head? = some '.' then return dispatchWidgetCmd first args tk
    else if first = "send".toList then do
      match args with
      | chanName :: values => sendToNamedChannel tk chanName (joined values)
      | [] => pure ()
      return ([], tk)
    else if first = "winfo".toList then
      match args with
      | what :: name :: _ =>
        if what = "class".toList then return (widgetClass name, tk)
        else return (if what = "exists".toList then ['1'] else [], tk)
      | [what] => return (if what = "exists".toList then ['1'] else [], tk)
      | [] => return ([], tk)
    else return ([], tk)

/-- The commands between semicolons; none of them has one of its own. -/
def dispatchEach (tk : Tk) (lastResult : Text) : List Text → VM (Text × Tk)
  | [] => return (lastResult, tk)
  | sub :: rest => do
    let sub := trim sub
    if sub = [] then dispatchEach tk lastResult rest
    else
      let (result, tk) ← dispatchParts tk (shellSplit (trim sub))
      dispatchEach tk result rest

def dispatchTkCmd (tk : Tk) (cmd : Text) : VM (Text × Tk) :=
  let cmd := trim cmd
  if cmd = [] then return ([], tk)
  else if ';' ∈ cmd then dispatchEach tk [] (cmd.splitOn ';')
  else dispatchParts tk (shellSplit cmd)

end RiceVM.Ops
