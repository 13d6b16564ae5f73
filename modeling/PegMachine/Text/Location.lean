/-
# PegMachine.Text.Location — lines and columns

Positions count the characters of a text from zero; people count lines and
columns from one. `locate` turns the one into the other, `lineText` yields a line
without its end, and `renderError` shows a message with the line it is about and a
caret under the place.

A position behind the end of the text means the end.
-/
import PegMachine.Text.Layout

namespace PegMachine.Text

set_option autoImplicit false

/-- A place in a text. -/
structure Location where
  /-- The number of characters in front of it. -/
  offset : Nat
  line : Nat
  column : Nat
  deriving DecidableEq, Repr

/-- Where a text begins. -/
def Location.start : Location := ⟨0, 1, 1⟩

/-- The place behind one more character. -/
def Location.after (l : Location) (c : Char) : Location :=
  if c = '\n' then ⟨l.offset + 1, l.line + 1, 1⟩ else ⟨l.offset + 1, l.line, l.column + 1⟩

/-- The place of a position. -/
def locate (text : List Char) (pos : Nat) : Location :=
  (text.take pos).foldl Location.after .start

/-- Cut a text at every newline. There is always at least one line. -/
def lines : List Char → List (List Char)
  | [] => [[]]
  | c :: rest =>
    if c = '\n' then [] :: lines rest
    else match lines rest with
      | [] => [[c]]
      | line :: others => (c :: line) :: others

/-- A line without the carriage returns at its end. -/
def withoutReturns (line : List Char) : List Char :=
  (line.reverse.dropWhile (· = '\r')).reverse

/-- A line by its number; a number below one counts as one, and beyond the last line
there is nothing. -/
def lineText (text : List Char) (line : Nat) : List Char :=
  withoutReturns ((lines text)[line - 1]?.getD [])

/-- A message about a position: the name of the text, line and column, the message, and
below it the line with a caret under the column. -/
def renderError (name : String) (text : List Char) (pos : Nat) (message : String) : String :=
  let place := locate text pos
  let line := String.ofList (lineText text place.line)
  s!"{name}:{place.line}:{place.column}: {message}\n  {line}\n  " ++
    repeated (place.column - 1) ' ' ++ "^"

end PegMachine.Text
