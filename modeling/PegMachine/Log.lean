/-
# PegMachine.Log — what the stages report

The stages report what they do as `Entry` values: which component speaks, how
deeply indented, how important, and the text. Nothing is formatted or written
where it is reported; `Settings`, read from two settings of the environment,
decide afterwards which entries are shown, and `Entry.line` gives a shown entry its
form.

One setting selects components: nothing, all of them, or those named in a list
separated by commas. The other is a verbosity from 0 to 3, where 1 is the default
and whatever cannot be read counts as not given.
-/
import PegMachine.Decimal.Integer
import PegMachine.Text.Layout
import PegMachine.Text.Property

namespace PegMachine.Log

set_option autoImplicit false

/-- Who reports. -/
inductive Component where
  | optimizer
  | compiler
  | machine
  | commandLine
  deriving DecidableEq, Repr

/-- The name of a component in settings and lines. -/
def Component.name : Component → String
  | .optimizer => "optimizer"
  | .compiler => "compiler"
  | .machine => "vm"
  | .commandLine => "cli"

/-- How important an entry is. -/
inductive Level where
  | notice
  | detail
  | trace
  deriving DecidableEq, Repr

/-- The verbosity at which entries of a level are shown. -/
def Level.verbosity : Level → Nat
  | .notice => 1
  | .detail => 2
  | .trace => 3

/-- What an entry is marked as. -/
inductive Tag where
  | plain
  | success
  | failure
  | step
  deriving DecidableEq, Repr

/-- The mark in a line. -/
def Tag.text : Tag → String
  | .plain => ""
  | .success => " OK:"
  | .failure => " FAIL:"
  | .step => " trace:"

/-- Something a component reports. -/
structure Entry where
  component : Component
  level : Level
  tag : Tag := .plain
  indent : Nat := 0
  text : String
  deriving DecidableEq, Repr

/-- The line of an entry. -/
def Entry.line (e : Entry) : String :=
  Text.repeated (2 * e.indent) ' ' ++ "[" ++ e.component.name ++ "]" ++ e.tag.text ++ " " ++ e.text

/-- Which components are heard. -/
inductive Selection where
  | all
  | nothing
  | only (names : List String)
  deriving DecidableEq, Repr

/-- Split at every comma. -/
def splitCommas (text : List Char) : List (List Char) :=
  match text with
  | [] => [[]]
  | c :: rest =>
    if c = ',' then [] :: splitCommas rest
    else match splitCommas rest with
      | [] => [[c]]
      | piece :: pieces => (c :: piece) :: pieces

/-- Read the setting that selects components. -/
def Selection.read (value : Option String) : Selection :=
  let text := Text.trimmed ((value.getD "").toList)
  if [[], ['0'], "false".toList].contains text then .nothing
  else if [['*'], ['1'], "true".toList].contains text then .all
  else
    let names := (splitCommas text).map Text.trimmed |>.filter (!·.isEmpty)
    if names.isEmpty then .nothing else .only (names.map String.ofList)

/-- Whether a component is heard. -/
def Selection.includes (s : Selection) (c : Component) : Bool :=
  match s with
  | .all => true
  | .nothing => false
  | .only names => names.contains c.name

def defaultVerbosity : Nat := 1

def maxVerbosity : Nat := 3

/-- Read the verbosity: a number of one byte, capped. -/
def readVerbosity (value : Option String) : Nat :=
  match value.map fun v => Decimal.readInteger .byte (Text.trimmed v.toList) with
  | some (.ok n) => min n.toNat maxVerbosity
  | _ => defaultVerbosity

/-- What is shown. -/
structure Settings where
  selection : Selection
  verbosity : Nat
  deriving DecidableEq, Repr

/-- Settings from the texts of the two settings, where given. -/
def Settings.read (selection verbosity : Option String) : Settings :=
  ⟨.read selection, readVerbosity verbosity⟩

/-- Whether an entry is shown; a component may be heard although it is not selected. -/
def Settings.shows (s : Settings) (forced : Bool) (e : Entry) : Bool :=
  (forced || s.selection.includes e.component) && e.level.verbosity ≤ s.verbosity

/-- The lines of the entries that are shown. -/
def Settings.lines (s : Settings) (forced : Bool) (entries : List Entry) : List String :=
  (entries.filter (s.shows forced)).map Entry.line

end PegMachine.Log
