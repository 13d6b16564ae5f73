/-
# PegMachine.Machine.Diagnostic — why a parse failed

A diagnostic holds the reason as data: labels by their index, positions as
numbers. Its wording is made only when a failure leaves the machine, because most
failures are recovered from and never seen.
-/
import PegMachine.Machine.Bytecode

namespace PegMachine

set_option autoImplicit false

/-- How deeply calls of subroutines may be nested. -/
def callLimit : Nat := 1000

/-- Why a piece of a parse failed, and where. -/
inductive Diagnostic where
  /-- What a label names was not there; `found` is what was, or nothing at the end. -/
  | expected (label : Nat) (pos : Nat) (found : Option Char)
  /-- A literal broke off. -/
  | expectedChar (char : Char) (pos : Nat) (found : Option Char)
  /-- Something was left where the input should have ended. -/
  | trailing (pos : Nat) (found : Char)
  /-- A repetition or a sequence was too short. -/
  | tooFew (least label pos : Nat)
  /-- A function rejected what it was given. -/
  | rejected (message : String) (pos : Nat)
  /-- Calls were nested too deeply. -/
  | tooDeep (pos : Nat)
  deriving DecidableEq, Repr

namespace Diagnostic

/-- The position a diagnostic is about. -/
def pos : Diagnostic → Nat
  | expected _ pos _ => pos
  | expectedChar _ pos _ => pos
  | trailing pos _ => pos
  | tooFew _ _ pos => pos
  | rejected _ pos => pos
  | tooDeep pos => pos

/-- What was found, in words. -/
def foundText : Option Char → String
  | some c => c.toString
  | none => "nothing"

/-- The wording of a diagnostic. -/
def message (tables : Tables) : Diagnostic → String
  | expected label pos found =>
    s!"Expected {tables.label label} at {pos}. Got {foundText found} instead."
  | expectedChar char pos found => s!"Expected {char} at {pos}. Got {foundText found} instead."
  | trailing pos found => s!"Expected end of input at {pos}. Got {found} instead."
  | tooFew least label pos => s!"Expected at least {least} {tables.label label} at {pos}."
  | rejected message _ => message
  | tooDeep pos => s!"Recursion limit of {callLimit} exceeded at {pos}."

end Diagnostic

end PegMachine
