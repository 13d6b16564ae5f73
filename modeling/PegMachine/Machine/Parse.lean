/-
# PegMachine.Machine.Parse — parsing with bytecode

A parse runs the entry range of a piece of bytecode over an input, from any
position of it or beyond. It yields a datum and the position where the match
ends, or a failure: its message, the position the message is about, and where the
cursor was left.

`Parses` says that a parse comes to a result with some amount of fuel;
`parses_unique` that there is only one such result. `parseAt` is the same with an
amount that no run can use up in practice.
-/
import PegMachine.Log
import PegMachine.Machine.Run

namespace PegMachine

set_option autoImplicit false

/-- A successful parse. -/
structure Match where
  value : Datum
  /-- The position behind the match. -/
  stop : Nat

/-- A parse that did not match. -/
structure Failure where
  message : String
  /-- Where the cursor was left. -/
  pos : Nat
  /-- The position the message is about. -/
  errorPos : Nat
  deriving DecidableEq, Repr

/-- What a parse yields. -/
abbrev Verdict := Except Failure Match

namespace Machine

/-- What a run that ended says about the parse. -/
def Outcome.verdict (o : Outcome) (tables : Tables) : Verdict :=
  match o.register with
  | .ok value => .ok ⟨value, o.cursor⟩
  | .error diagnostic => .error ⟨diagnostic.message tables, o.cursor, diagnostic.pos⟩

/-- The verdict on a run is a failure if and only if that is in the register. -/
theorem Outcome.verdict_eq_error {o : Outcome} {tables : Tables} {f : Failure} :
    o.verdict tables = .error f ↔
      ∃ e, o.register = .error e ∧ f = ⟨e.message tables, o.cursor, e.pos⟩ := by
  cases done : o.register with
  | ok d => simp [verdict, done]
  | error e => simp [verdict, done, eq_comm]

/-- The entries for the events of a run, the earliest first. Whatever happens inside a
call is indented by one more step than the call itself. -/
def entries (tables : Tables) : Nat → List Event → List Log.Entry
  | _, [] => []
  | indent, event :: rest =>
    let entry (level : Log.Level) (tag : Log.Tag) (indent : Nat) (text : String) : Log.Entry :=
      { component := .machine, level, tag, indent, text }
    match event with
    | .rule label pos =>
      entry .notice .plain indent s!"{tables.label label} at {pos}" :: entries tables indent rest
    | .enter label pos =>
      entry .detail .plain indent s!"-> {tables.label label} at {pos}" ::
        entries tables (indent + 1) rest
    | .leave label ok pos =>
      let status := if ok then "ok" else "failed"
      entry .detail .plain (indent - 1) s!"<- {tables.label label} {status} at {pos}" ::
        entries tables (indent - 1) rest
    | .refused label pos =>
      entry .notice .failure indent s!"recursion limit hit in {tables.label label} at {pos}" ::
        entries tables indent rest
    | .word pc w pos =>
      let name := Text.padRight 16 (Opcode.mnemonicOf (Word.code w))
      entry .trace .step indent s!"{Text.padLeft 4 (toString pc)}: {name} pos={pos}" ::
        entries tables indent rest

/-- The entries of a run that ended. -/
def Outcome.entries (o : Outcome) (tables : Tables) : List Log.Entry :=
  Machine.entries tables 0 o.events.reverse

/-- More words than any run executes before the computer it runs on is gone. -/
def ample : Nat := 0x4000000000000000

end Machine

namespace Bytecode

/-- A parse from `pos` comes to this outcome with some amount of fuel. -/
def Ends (b : Bytecode) (input : Array Char) (pos : Nat) (o : Machine.Outcome) : Prop :=
  ∃ fuel, Machine.runRange ⟨b, input, false⟩ fuel b.entry pos = .ended o

/-- A parse from `pos` comes to this verdict. -/
def Parses (b : Bytecode) (input : Array Char) (pos : Nat) (v : Verdict) : Prop :=
  ∃ o, b.Ends input pos o ∧ v = o.verdict b.toTables

/-- There is only one outcome. -/
theorem ends_unique {b : Bytecode} {input : Array Char} {pos : Nat} {o o' : Machine.Outcome}
    (first : b.Ends input pos o) (second : b.Ends input pos o') : o = o' := by
  obtain ⟨_, ran⟩ := first
  obtain ⟨_, ran'⟩ := second
  exact Machine.run_unique ran ran'

/-- There is only one verdict. -/
theorem parses_unique {b : Bytecode} {input : Array Char} {pos : Nat} {v v' : Verdict}
    (first : b.Parses input pos v) (second : b.Parses input pos v') : v = v' := by
  obtain ⟨o, ends, rfl⟩ := first
  obtain ⟨o', ends', rfl⟩ := second
  rw [ends_unique ends ends']

/-- Run the entry range from `pos`; nothing if the run comes to a fault. -/
def outcomeAt (b : Bytecode) (input : Array Char) (pos : Nat) (reportWords : Bool) :
    Option Machine.Outcome :=
  match Machine.runRange ⟨b, input, reportWords⟩ Machine.ample b.entry pos with
  | .ended o => some o
  | _ => none

/-- Parse from `pos`. -/
def parseAt (b : Bytecode) (input : Array Char) (pos : Nat) : Option Verdict :=
  (b.outcomeAt input pos false).map (·.verdict b.toTables)

/-- Parse a text from its start. -/
def parse (b : Bytecode) (text : String) : Option Verdict :=
  b.parseAt text.toList.toArray 0

end Bytecode

end PegMachine
