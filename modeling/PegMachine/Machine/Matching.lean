/-
# PegMachine.Machine.Matching — reading the input

The four ways in which an instruction reads the input: one character by a test, a
literal, a run of characters, and the end. Each answers what the register holds
afterwards and where the cursor stands; a failed one leaves the cursor alone.
-/
import PegMachine.Machine.Diagnostic

namespace PegMachine.Machine

set_option autoImplicit false

/-- What the last instruction yielded: a datum, or why there is none. -/
abbrev Register := Except Diagnostic Datum

/-- The register and the cursor after reading the input. -/
abbrev Reading := Register × Nat

/-- Test the character at `pos`. -/
def readTest (entry : TestEntry) (input : Array Char) (pos : Nat) : Reading :=
  match entry.test.accept? input pos with
  | some (c, width) => (.ok (.char c), pos + width)
  | none => (.error (.expected entry.label pos input[pos]?), pos)

/-- Where the input first disagrees with a text that should stand at `pos`. -/
def mismatch? (anyCase : Bool) (input : Array Char) (pos : Nat) : List Char → Option Diagnostic
  | [] => none
  | expected :: rest =>
    match input[pos]? with
    | none => some (.expectedChar expected pos none)
    | some found =>
      if Text.agrees anyCase found expected then mismatch? anyCase input (pos + 1) rest
      else some (.expectedChar expected pos (some found))

/-- Match a literal at `pos` that yields `value`. -/
def readLiteral (entry : LiteralEntry) (value : Datum) (input : Array Char) (pos : Nat) : Reading :=
  match mismatch? entry.anyCase input pos entry.text with
  | some diagnostic => (.error diagnostic, pos)
  | none => (.ok value, pos + entry.text.length)

/-- The characters a test accepts one after the other from `pos` on, and where they end.
Every one of them takes at least one character of the input, so there are no more than
`most` of them if `most` characters are left. -/
def acceptRun (test : CharTest) (input : Array Char) : Nat → Nat → List Datum × Nat
  | 0, pos => ([], pos)
  | most + 1, pos =>
    match test.accept? input pos with
    | none => ([], pos)
    | some (c, width) =>
      let (rest, stop) := acceptRun test input most (pos + width)
      (.char c :: rest, stop)

/-- Match a run of characters at `pos`. -/
def readRun (entry : ScanEntry) (input : Array Char) (pos : Nat) : Reading :=
  let (items, stop) := acceptRun entry.test input (input.size - pos) pos
  if entry.least ≤ items.length then (.ok (.list items), stop)
  else (.error (.tooFew entry.least entry.label pos), pos)

/-- Match the end of the input. -/
def readEnd (input : Array Char) (pos : Nat) : Reading :=
  match input[pos]? with
  | none => (.ok .null, pos)
  | some found => (.error (.trailing pos found), pos)

end PegMachine.Machine
