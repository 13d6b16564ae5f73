/-
# PegMachine.Proofs.Dialect.Formulas — arithmetic as it is written and what it is worth

Formulas are numerals joined by the four operators. What a formula is worth (`Formula.evaluate`) is
said without regard to how it is written: integers stay integers as long as they fit into 64 bits,
a double makes the result a double, and division always yields a double and needs a divisor other
than zero.

How a formula is written is said by `Renders`: multiplication and division stand within addition and
subtraction, operators of equal rank are grouped from the left (`Chain`), and parentheses may be
nested up to a depth. A chain is worth what its operators make of its operands one after the
other (`worth_chain_iff`), which is how it is evaluated while it is read.
-/
import PegMachine.Proofs.Lexemes

namespace PegMachine.Arithmetic

set_option autoImplicit false

open Lexeme (Number Numeral)
open Grammar (IsSpace)

/-! ## Formulas -/

/-- An operator between two operands. -/
inductive Operator where
  | add
  | sub
  | mul
  | div
  deriving DecidableEq

/-- The character of an operator. -/
def Operator.symbol : Operator → Char
  | .add => '+'
  | .sub => '-'
  | .mul => '*'
  | .div => '/'

/-- A number as a double. -/
def toDouble : Number → Float
  | .int i => i.toFloat
  | .float x => x

/-- The result of an operator, if there is one. -/
def Operator.apply : Operator → Number → Number → Option Number
  | .add, .int i, .int j => Number.ofInt? (i.toInt + j.toInt)
  | .sub, .int i, .int j => Number.ofInt? (i.toInt - j.toInt)
  | .mul, .int i, .int j => Number.ofInt? (i.toInt * j.toInt)
  | .add, x, y => some (.float (toDouble x + toDouble y))
  | .sub, x, y => some (.float (toDouble x - toDouble y))
  | .mul, x, y => some (.float (toDouble x * toDouble y))
  | .div, x, y => if toDouble y == 0.0 then none else some (.float (toDouble x / toDouble y))

/-- Numerals joined by operators. -/
inductive Formula where
  | numeral (n : Numeral)
  | binary (op : Operator) (left right : Formula)

/-- What a formula is worth, if it is worth anything. -/
def Formula.evaluate : Formula → Option Number
  | .numeral n => n.value?
  | .binary op left right => do op.apply (← left.evaluate) (← right.evaluate)

/-! ## How formulas are written -/

/-- Operands with operators of one rank between them, grouped from the left. -/
inductive Chain (operators : List Operator) (operand : Formula → List Char → Prop) :
    Formula → List Char → Prop
  | single {e : Formula} {text : List Char} (first : operand e text) : Chain operators operand e text
  | step {op : Operator} {e e' : Formula} {text text' : List Char} (front : Chain operators operand e text)
      (mem : op ∈ operators) (next : operand e' text') :
      Chain operators operand (.binary op e e') (text ++ op.symbol :: text')

/-- A numeral or a formula in parentheses, with white space around it. -/
inductive Factor (inner : Formula → List Char → Prop) : Formula → List Char → Prop
  | numeral {n : Numeral} {front back : List Char} (before : IsSpace front) (behind : IsSpace back) :
      Factor inner (.numeral n) (front ++ n.text ++ back)
  | group {e : Formula} {front text back : List Char} (before : IsSpace front) (behind : IsSpace back)
      (inside : inner e text) : Factor inner e (front ++ ('(' :: text ++ [')']) ++ back)

/-- Factors, multiplied and divided. -/
def Product (inner : Formula → List Char → Prop) : Formula → List Char → Prop :=
  Chain [.mul, .div] (Factor inner)

/-- Products, added and subtracted. -/
def Sum (inner : Formula → List Char → Prop) : Formula → List Char → Prop :=
  Chain [.add, .sub] (Product inner)

/-- The formula may be written like this, with parentheses nested no deeper than this. -/
def Renders : Nat → Formula → List Char → Prop
  | 0 => Sum fun _ _ => False
  | depth + 1 => Sum (Renders depth)

/-! ## What is written is worth -/

/-- The text is one for a formula that is worth this number. -/
def Worth (renders : Formula → List Char → Prop) (text : List Char) (n : Number) : Prop :=
  ∃ e, renders e text ∧ e.evaluate = some n

/-- An operator, the text of its right operand, and what that is worth. -/
structure Step where
  op : Operator
  text : List Char
  value : Number

/-- A step as it is written. -/
def Step.write (s : Step) : List Char := s.op.symbol :: s.text

/-- Operators applied from the left. -/
def total (first : Number) (steps : List Step) : Option Number :=
  steps.foldlM (fun n s => s.op.apply n s.value) first

section Chain

variable {operators : List Operator} {operand : Formula → List Char → Prop}

/-- Steps behind what is a chain already. -/
theorem worth_steps {text : List Char} {first n : Number} {steps : List Step}
    (front : Worth (Chain operators operand) text first)
    (each : ∀ s ∈ steps, s.op ∈ operators ∧ Worth operand s.text s.value)
    (made : total first steps = some n) :
    Worth (Chain operators operand) (text ++ steps.flatMap Step.write) n := by
  induction steps generalizing text first with
  | nil =>
      obtain rfl := Option.some.inj made
      simpa using front
  | cons s steps ih =>
      rw [total, List.foldlM_cons] at made
      obtain ⟨mid, applied, rest⟩ := Option.bind_eq_some_iff.mp made
      obtain ⟨mem, e', next, value⟩ := each s (.head _)
      obtain ⟨e, chain, worth⟩ := front
      have longer : Worth (Chain operators operand) (text ++ s.write) mid :=
        ⟨_, .step chain mem next, by simp [Formula.evaluate, worth, value, applied]⟩
      have whole := ih longer (fun s mem => each s (.tail _ mem)) rest
      simpa using whole

/-- A chain is worth what its operators make of its operands from the left. -/
theorem worth_chain_iff {text : List Char} {n : Number} :
    Worth (Chain operators operand) text n ↔
      ∃ head first steps, text = head ++ steps.flatMap Step.write ∧ Worth operand head first ∧
        (∀ s ∈ steps, s.op ∈ operators ∧ Worth operand s.text s.value) ∧ total first steps = some n := by
  constructor
  · rintro ⟨e, chain, worth⟩
    -- By induction on the chain, whose last operator is applied last.
    induction chain generalizing n with
    | @single e text first => exact ⟨text, n, [], by simp, ⟨e, first, worth⟩, by simp, rfl⟩
    | @step op e e' text text' _ mem next ih =>
        obtain ⟨left, value, rest⟩ := Option.bind_eq_some_iff.mp worth
        obtain ⟨right, value', applied⟩ := Option.bind_eq_some_iff.mp rest
        obtain ⟨head, first, steps, rfl, starts, each, made⟩ := ih value
        refine ⟨head, first, steps ++ [⟨op, text', right⟩], by simp [Step.write], starts, ?_, ?_⟩
        · simp only [List.forall_mem_append, List.forall_mem_singleton]
          exact ⟨each, mem, e', next, value'⟩
        · rw [total, List.foldlM_append]
          exact Option.bind_eq_some_iff.mpr ⟨left, made, by simpa using applied⟩
  · rintro ⟨head, first, steps, rfl, ⟨e, starts, worth⟩, each, made⟩
    exact worth_steps ⟨e, .single starts, worth⟩ each made

end Chain

end PegMachine.Arithmetic
