/-
# PegMachine.Grammar.Meaning — what an expression matches

The meaning of an expression at a position of an input, by ordered choice and
directly on the grammar: no code, no marks, no collections, and no limit on how
deeply forward references nest. An expression either matches, with a datum and the
position behind it, or fails, with the position the failure is about; of a choice
the first alternative that matches counts, and if none does the last failure.

Some expressions have no meaning — one that refers to itself before it consumes
anything asks for its own result — so `evaluate` is given fuel, and `Means` says that
some amount of it leads to a result. It also notes each named expression it enters
and where, in that order.

A chain of sequences nested to the left is one sequence: its items are matched one
after the other, and the inner sequences are not entered as expressions of their
own. A run of characters is the repetition of its test, except that a run that is too
short fails where it began.
-/
import PegMachine.Grammar.Basic

namespace PegMachine.Grammar

set_option autoImplicit false

/-- What matching an expression comes to. -/
inductive Result where
  | matched (value : Datum) (stop : Nat)
  | failed (pos : Nat)

/-- The names of the expressions entered so far and where, the latest first. -/
abbrev Entered := List (String × Nat)

/-- Evaluation notes what it enters and may run out of fuel. -/
abbrev Evaluation := StateT Entered Option

namespace Evaluation

/-- There is no fuel left. -/
def exhausted {α : Type} : Evaluation α := fun _ => none

/-- Note that a named expression is entered. -/
def enter (name : Option String) (pos : Nat) : Evaluation Unit :=
  match name with
  | some name => modify ((name, pos) :: ·)
  | none => pure ()

/-- A character that a test accepts. -/
def testAt (t : CharTest) (input : Array Char) (pos : Nat) : Result :=
  match t.accept? input pos with
  | some (c, width) => .matched (.char c) (pos + width)
  | none => .failed pos

/-- How many characters of a text stand at a position before the input differs. -/
def agreeing (anyCase : Bool) (input : Array Char) (pos : Nat) : List Char → Nat
  | [] => 0
  | expected :: rest =>
    match input[pos]? with
    | some found =>
      if Text.agrees anyCase found expected then agreeing anyCase input (pos + 1) rest + 1 else 0
    | none => 0

/-- A text, and what it yields; a failure is about the first character that differs. -/
def textAt (text : String) (anyCase : Bool) (value : Datum) (input : Array Char) (pos : Nat) :
    Result :=
  let stop := pos + agreeing anyCase input pos text.toList
  if stop = pos + text.toList.length then .matched value stop else .failed stop

/-- The end of the input, beyond which there is nothing either. -/
def endAt (input : Array Char) (pos : Nat) : Result :=
  if pos < input.size then .failed pos else .matched .null pos

/-- What a function makes of data that end at `stop`. -/
def applied (result : Except String Datum) (stop : Nat) : Result :=
  match result with
  | .ok value => .matched value stop
  | .error _ => .failed stop

/-- Items one after the other: all their data, or the first failure. -/
def items (eval : Ref → Nat → Evaluation Result) :
    List Ref → Nat → Evaluation (Except Nat (List Datum × Nat))
  | [], pos => return .ok ([], pos)
  | r :: rest, pos => do
    match ← eval r pos with
    | .failed at' => return .error at'
    | .matched value stop =>
      match ← items eval rest stop with
      | .error at' => return .error at'
      | .ok (values, stop) => return .ok (value :: values, stop)

/-- A sequence, and what a function makes of its data. -/
def sequence (eval : Ref → Nat → Evaluation Result) (parts : List Ref) (f : Combiner) (pos : Nat) :
    Evaluation Result := do
  match ← items eval parts pos with
  | .error at' => return .failed at'
  | .ok (values, stop) => return applied (f values) stop

/-- The first alternative that matches, or else the failure of the last one. -/
def choice (eval : Ref → Nat → Evaluation Result) : List Ref → Nat → Evaluation Result
  | [], pos => return .failed pos
  | [r], pos => eval r pos
  | r :: rest, pos => do
    match ← eval r pos with
    | .matched value stop => return .matched value stop
    | .failed _ => choice eval rest pos

/-- As often as an expression matches; a match that consumes nothing is the last one. -/
def repeated (eval : Nat → Evaluation Result) : (fuel : Nat) → Nat → Evaluation (List Datum × Nat)
  | 0, _ => exhausted
  | fuel + 1, pos => do
    match ← eval pos with
    | .failed _ => return ([], pos)
    | .matched value stop =>
      if pos < stop then
        let (values, stop) ← repeated eval fuel stop
        return (value :: values, stop)
      else return ([value], stop)

/-- An expression, provided that what stands behind it passes. -/
def provided (eval : Ref → Nat → Evaluation Result) (first second : Ref) (pos : Nat)
    (decide : Datum → Nat → Result → Result) : Evaluation Result := do
  match ← eval first pos with
  | .failed at' => return .failed at'
  | .matched value stop => return decide value stop (← eval second stop)

end Evaluation

open Evaluation in
/-- Match an expression by its form; `eval` matches those it refers to. -/
def evaluateForm (g : Grammar) (input : Array Char) (fuel : Nat)
    (eval : Ref → Nat → Evaluation Result) (r : Ref) (pos : Nat) : Expression → Evaluation Result
  | .char c anyCase => return testAt (.plain (.single c anyCase)) input pos
  | .oneOf chars => return testAt (.plain chars) input pos
  | .escaped c => return testAt (.escaped (.single c false)) input pos
  | .test t => return testAt t input pos
  | .scan t least _ => do
    let (values, stop) ← repeated (fun pos => return testAt t input pos) fuel pos
    return if least ≤ values.length then .matched (.list values) stop else .failed pos
  | .literal text anyCase => return textAt text anyCase (.text text) input pos
  | .keyword text value anyCase => return textAt text anyCase value input pos
  | .finish => return endAt input pos
  | .seq .. => sequence eval (g.sequenceItems g.size r) (fun ds => .ok (.list ds)) pos
  | .orElse a b => Evaluation.choice eval [a, b] pos
  | .choice alternatives => Evaluation.choice eval alternatives pos
  | .keepLeft a b => provided eval a b pos fun value _ result =>
      match result with
      | .matched _ stop => .matched value stop
      | .failed at' => .failed at'
  | .keepRight a b => provided eval a b pos fun _ _ result => result
  | .followedBy a b => provided eval a b pos fun value stop result =>
      match result with
      | .matched .. => .matched value stop
      | .failed at' => .failed at'
  | .notFollowedBy a b => provided eval a b pos fun value stop result =>
      match result with
      | .matched .. => .failed stop
      | .failed _ => .matched value stop
  | .combine f parts => sequence eval parts f pos
  | .optional body fallback => do
    match ← eval body pos with
    | .matched value stop => return .matched value stop
    | .failed _ => return .matched fallback pos
  | .many body least => do
    let (values, stop) ← repeated (eval body) fuel pos
    return if least ≤ values.length then .matched (.list values) stop else .failed stop
  | .transform f body => do
    match ← eval body pos with
    | .matched value stop => return applied (f value) stop
    | .failed at' => return .failed at'
  | .idiom _ body => eval body pos
  | .forward (some target) => eval target pos
  | .forward none => Evaluation.exhausted

/-- Match an expression at a position. -/
def evaluate (g : Grammar) (input : Array Char) : (fuel : Nat) → Ref → Nat → Evaluation Result
  | 0, _, _ => Evaluation.exhausted
  | fuel + 1, r, pos => do
    Evaluation.enter (g.name r) pos
    g.evaluateForm input fuel (g.evaluate input fuel) r pos (g.expression r)

/-- An expression comes to this result at a position, after entering these named
expressions, the earliest first. -/
def Means (g : Grammar) (input : Array Char) (r : Ref) (pos : Nat) (result : Result)
    (entered : List (String × Nat)) : Prop :=
  ∃ fuel, g.evaluate input fuel r pos [] = some (result, entered.reverse)

end PegMachine.Grammar
