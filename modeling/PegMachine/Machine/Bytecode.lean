/-
# PegMachine.Machine.Bytecode — words and the tables they index

Bytecode is a sequence of words, the range of it where a parse begins, and one
table for every kind of thing an operand may refer to. Tables only grow, and
every entry is referred to by its index; labels are shared, the first of equal
ones being used for all (`internLabel`). A table that cannot be indexed by an
operand any further is an error, not a wrong operand.

Subroutines are ranges of the same code. Bytecode that was lowered with tracing on
says so, which makes its runs report themselves.

`Assembly` is the state in which bytecode is put together by hand, a word at a time.
There a jump may be emitted before it is known where it leads, and aimed later.
-/
import PegMachine.Chars.CharTest
import PegMachine.Datum.Basic
import PegMachine.Machine.Word

namespace PegMachine

set_option autoImplicit false

/-- A function on one datum; it may reject it with a message. -/
abbrev Transform := Datum → Except String Datum

/-- A function on the data of a sequence; it may reject them with a message. -/
abbrev Combiner := List Datum → Except String Datum

/-- A range of code. -/
structure CodeRange where
  start : Nat
  stop : Nat
  deriving DecidableEq, Repr, Inhabited

/-- A test on one character and what it is called. -/
structure TestEntry where
  test : CharTest
  label : Nat

/-- A literal, in lower case if case does not matter, and the index of what it yields. -/
structure LiteralEntry where
  text : List Char
  anyCase : Bool
  value : Nat

/-- A run of at least `least` characters, and what one of them is called. -/
structure ScanEntry where
  test : CharTest
  least : Nat
  label : Nat

/-- How many items a collection must have, and what it is called. -/
structure Arity where
  least : Nat
  label : Nat

/-- A subroutine and what it is called. -/
structure Subroutine where
  range : CodeRange
  label : Nat

/-- The tables of a piece of bytecode. -/
structure Tables where
  tests : Array TestEntry := #[]
  literals : Array LiteralEntry := #[]
  scans : Array ScanEntry := #[]
  arities : Array Arity := #[]
  values : Array Datum := #[]
  labels : Array String := #[]
  transforms : Array Transform := #[]
  combiners : Array Combiner := #[]
  subroutines : Array Subroutine := #[]

/-- Words, tables, and where to begin. -/
structure Bytecode extends Tables where
  code : Array Word := #[]
  entry : CodeRange := ⟨0, 0⟩
  traced : Bool := false

/-- The tables there are. -/
inductive TableName where
  | tests
  | literals
  | scans
  | arities
  | values
  | labels
  | transforms
  | combiners
  | subroutines
  /-- The words themselves, of which there may be more than operands can index. -/
  | code
  deriving DecidableEq, Repr

/-- What a table is called in messages. -/
def TableName.title : TableName → String
  | .tests => "scan set"
  | .literals => "literal"
  | .scans => "scanner"
  | .arities => "arity"
  | .values => "value"
  | .labels => "label"
  | .transforms => "map function"
  | .combiners => "lift function"
  | .subroutines => "forward"
  | .code => "code"

/-- Why a grammar cannot be turned into bytecode. -/
inductive LoweringError where
  /-- A forward reference leads nowhere. -/
  | openForward (label : String)
  /-- A choice has nothing to choose from. -/
  | emptyChoice (label : String)
  /-- A jump is too long for its operand. -/
  | jumpTooLong (source target : Nat)
  /-- A table has more entries than operands can index, or the code more words than memory
  can hold. -/
  | tableFull (table : TableName)
  /-- An expression contains itself without a forward reference in between. -/
  | endless (label : String)
  deriving DecidableEq, Repr

/-- The wording of a lowering error. -/
def LoweringError.message : LoweringError → String
  | .openForward label => "forward reference \x60" ++ label ++ "\x60 was never given a target"
  | .emptyChoice label => "choice \x60" ++ label ++ "\x60 has no alternatives"
  | .jumpTooLong source target =>
    s!"jump from {source} to {target} does not fit in a 24-bit operand"
  | .tableFull .code => "capacity overflow"
  | .tableFull table => table.title ++ " table exceeds the 24-bit operand range"
  | .endless label => "\x60" ++ label ++ "\x60 contains itself"

namespace Tables

/-- The index of the next entry of a table with `size` entries. -/
def nextIndex (table : TableName) (size : Nat) : Except LoweringError Nat :=
  if size < Word.operandLimit then .ok size else .error (.tableFull table)

/-- The text of a label. -/
def label (t : Tables) (index : Nat) : String := t.labels[index]?.getD Opcode.unknownMnemonic

/-- The index of a label; a label not seen before is added. -/
def internLabel (t : Tables) (label : String) : Except LoweringError (Nat × Tables) :=
  match t.labels.idxOf? label with
  | some index => .ok (index, t)
  | none => do
    let index ← nextIndex .labels t.labels.size
    .ok (index, { t with labels := t.labels.push label })

def addTest (t : Tables) (test : CharTest) (label : String) :
    Except LoweringError (Nat × Tables) := do
  let (label, t) ← t.internLabel label
  let index ← nextIndex .tests t.tests.size
  .ok (index, { t with tests := t.tests.push ⟨test, label⟩ })

def addValue (t : Tables) (value : Datum) : Except LoweringError (Nat × Tables) := do
  let index ← nextIndex .values t.values.size
  .ok (index, { t with values := t.values.push value })

def addLiteral (t : Tables) (text : String) (anyCase : Bool) (value : Datum) :
    Except LoweringError (Nat × Tables) := do
  let (value, t) ← t.addValue value
  let index ← nextIndex .literals t.literals.size
  .ok (index, { t with literals := t.literals.push ⟨text.toList, anyCase, value⟩ })

def addScan (t : Tables) (test : CharTest) (least : Nat) (label : String) :
    Except LoweringError (Nat × Tables) := do
  let (label, t) ← t.internLabel label
  let index ← nextIndex .scans t.scans.size
  .ok (index, { t with scans := t.scans.push ⟨test, least, label⟩ })

def addArity (t : Tables) (least : Nat) (label : String) :
    Except LoweringError (Nat × Tables) := do
  let (label, t) ← t.internLabel label
  let index ← nextIndex .arities t.arities.size
  .ok (index, { t with arities := t.arities.push ⟨least, label⟩ })

def addTransform (t : Tables) (f : Transform) : Except LoweringError (Nat × Tables) := do
  let index ← nextIndex .transforms t.transforms.size
  .ok (index, { t with transforms := t.transforms.push f })

def addCombiner (t : Tables) (f : Combiner) : Except LoweringError (Nat × Tables) := do
  let index ← nextIndex .combiners t.combiners.size
  .ok (index, { t with combiners := t.combiners.push f })

/-- Reserve a subroutine, whose code is not there yet. -/
def addSubroutine (t : Tables) (label : String) : Except LoweringError (Nat × Tables) := do
  let (label, t) ← t.internLabel label
  let index ← nextIndex .subroutines t.subroutines.size
  .ok (index, { t with subroutines := t.subroutines.push ⟨⟨0, 0⟩, label⟩ })

/-- Say where the code of a subroutine is. -/
def placeSubroutine (t : Tables) (index : Nat) (range : CodeRange) : Tables :=
  { t with subroutines := t.subroutines.modify index ({ · with range }) }

end Tables

namespace Bytecode

/-- Append an instruction; the result is its address. -/
def emit (b : Bytecode) (code : UInt8) (operand : Nat) : Nat × Bytecode :=
  (b.code.size, { b with code := b.code.push (Word.encode code operand) })

/-- Let the jump at address `source` lead to `target`. -/
def aim (b : Bytecode) (source target : Nat) : Except LoweringError Bytecode :=
  match Word.distance? source target with
  | none => .error (.jumpTooLong source target)
  | some distance =>
    .ok { b with
      code := b.code.modify source fun w => Word.encode (Word.code w) (Word.ofDistance distance) }

end Bytecode

/-- Putting bytecode together. Where a step is refused, what is there by then stays. -/
abbrev Assembly := EStateM LoweringError Bytecode

namespace Assembly

/-- Append an instruction; yields its address. -/
def emit (code : UInt8) (operand : Nat) : Assembly Nat := modifyGet (·.emit code operand)

/-- Let the jump at address `source` lead to `target`. -/
def aim (source target : Nat) : Assembly Unit := do
  match (← get).aim source target with
  | .ok b => set b
  | .error e => throw e

/-- Append a jump that leads to `target`; yields its address. A refused one is there all the
same, with operand zero. -/
def emitJump (code : UInt8) (target : Nat) : Assembly Nat := do
  let source ← emit code 0
  aim source target
  return source

end Assembly

end PegMachine
