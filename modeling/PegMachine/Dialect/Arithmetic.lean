/-
# PegMachine.Dialect.Arithmetic — arithmetic on numbers

Expressions with the four operations, parentheses and the usual precedence; equal
operators associate to the left, and white space is free around numbers and
parentheses. The grammar evaluates as it parses.

Integers stay integers under addition, subtraction and multiplication, where a
result beyond 64 bits is an error; a double operand makes the result a double.
Division always yields a double and refuses a zero divisor.
-/
import PegMachine.Datum.Printer
import PegMachine.Grammar.Lexemes

namespace PegMachine.Arithmetic

set_option autoImplicit false

/-- Why an operation has no result. -/
inductive ArithmeticError where
  | divisionByZero
  | notANumber (operand : Datum)
  | overflow (left : Int64) (op : Char) (right : Int64)
  | unknownOperator (op : Char)
  | missingOperator

/-- The wording of an arithmetic error. -/
def ArithmeticError.message : ArithmeticError → String
  | .divisionByZero => "Division by zero"
  | .notANumber operand => s!"Not a number: {operand.display}"
  | .overflow left op right =>
    s!"Integer overflow in {(Datum.int left).display} {op} {(Datum.int right).display}"
  | .unknownOperator op => s!"Unknown operator {op}"
  | .missingOperator => "Missing operator"

/-- The operand as a double. -/
def number (operand : Datum) : Except ArithmeticError Float :=
  match operand.number? with
  | some x => .ok x
  | none => .error (.notANumber operand)

/-- An integer result, if it has 64 bits. -/
def inRange? (i : Int) : Option Int64 :=
  if Int64.minValue.toInt ≤ i ∧ i ≤ Int64.maxValue.toInt then some (Int64.ofInt i) else none

/-- The quotient of two operands. -/
def divide (left right : Datum) : Except ArithmeticError Datum := do
  let divisor ← number right
  if divisor == 0.0 then throw .divisionByZero
  return .float ((← number left) / divisor)

/-- An operation on integers other than division. -/
def onIntegers (op : Char) (left right : Int64) : Except ArithmeticError Datum :=
  let within (result : Int) : Except ArithmeticError Datum :=
    match inRange? result with
    | some i => .ok (.int i)
    | none => .error (.overflow left op right)
  match op with
  | '+' => within (left.toInt + right.toInt)
  | '-' => within (left.toInt - right.toInt)
  | '*' => within (left.toInt * right.toInt)
  | _ => .error (.unknownOperator op)

/-- An operation on doubles other than division. -/
def onDoubles (op : Char) (left right : Float) : Except ArithmeticError Datum :=
  match op with
  | '+' => .ok (.float (left + right))
  | '-' => .ok (.float (left - right))
  | '*' => .ok (.float (left * right))
  | _ => .error (.unknownOperator op)

/-- Apply an operator to two operands. -/
def apply (op : Option Char) (left right : Datum) : Except ArithmeticError Datum :=
  match op, left, right with
  | none, _, _ => .error .missingOperator
  | some '/', _, _ => divide left right
  | some op, .int l, .int r => onIntegers op l r
  | some op, _, _ => do onDoubles op (← number left) (← number right)

/-- Apply operators from the left; each step is an operator and a right operand. -/
def applyAll (first : Datum) (steps : List Datum) : Except ArithmeticError Datum :=
  steps.foldlM (fun left step =>
    apply (Datum.nth step.items 0).char? left (Datum.nth step.items 1)) first

/-- Evaluate a first operand and the steps behind it. -/
def fold (parts : Datum) : Except String Datum :=
  match applyAll (Datum.nth parts.items 0) (Datum.nth parts.items 1).items with
  | .ok result => .ok result
  | .error e => .error e.message

/-- Operands with operators between them, evaluated from the left. -/
def chain (operand operator : Ref) : Build Ref := do
  let steps ← Build.many (← Build.seq operator operand)
  Build.tryTransform fold (← Build.seq operand steps)

/-- The expression for a whole input. -/
def grammar : Build Ref := do
  let sum ← Build.forwardNamed "expr"
  let space ← Build.whitespace
  let opened ← Build.keepRight (← Build.char '(') sum
  let group ← Build.keepLeft opened (← Build.char ')')
  let operand ← Build.keepRight space (← Build.orElse (← Build.number) group)
  let factor ← Build.named (← Build.keepLeft operand space) "factor"
  let times ← Build.named (← Build.orElse (← Build.char '*') (← Build.char '/')) "* or /"
  let term ← Build.named (← chain factor times) "term"
  let plus ← Build.named (← Build.orElse (← Build.char '+') (← Build.char '-')) "+ or -"
  Build.close sum (← chain term plus)
  Build.keepLeft sum (← Build.finish)

end PegMachine.Arithmetic
