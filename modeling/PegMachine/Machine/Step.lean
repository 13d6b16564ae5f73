/-
# PegMachine.Machine.Step — one instruction

The machine has a program counter, a cursor in the input, a register, a stack of
marks (cursor positions to go back to) and a stack of collections (the items
gathered so far, the latest first). `step` executes one word on such a state. It
does not recurse: a call is reported as such, with the subroutine's index, and
carried out by `Machine.Run`.

An instruction that needs a mark or a collection where there is none does without
it: nothing is forgotten, the cursor stays, an empty list is gathered. A word
whose operand has no entry in its table is the one thing that cannot be executed
(`Step.fault`).
-/
import PegMachine.Machine.Matching

namespace PegMachine.Machine

set_option autoImplicit false

/-- The state of a run. -/
structure State where
  pc : Nat
  cursor : Nat
  register : Register
  /-- Marked positions, the last first. -/
  marks : List Nat
  /-- Open collections, the innermost first, each with its latest item first. -/
  collections : List (List Datum)

/-- What executing a word comes to. -/
inductive Step where
  /-- The run goes on in this state. -/
  | next (s : State)
  /-- A named rule is entered; the run goes on in this state. -/
  | announce (label : Nat) (s : State)
  /-- A subroutine is to be run. -/
  | call (index : Nat)
  /-- The operand refers to nothing. -/
  | fault

namespace State

/-- The state in which a range of code is begun. -/
def begin (pc cursor : Nat) : State := ⟨pc, cursor, .ok .null, [], []⟩

/-- Go on to the next word. -/
def advance (s : State) : State := { s with pc := s.pc + 1 }

/-- Go on to the next word with the outcome of reading the input. -/
def read (s : State) (reading : Reading) : State :=
  { s with pc := s.pc + 1, register := reading.1, cursor := reading.2 }

/-- Go on to the next word with something else in the register. -/
def yield (s : State) (register : Register) : State :=
  { s with pc := s.pc + 1, register }

/-- Whether the register holds a datum. -/
def isOk (s : State) : Bool := s.register.isOk

/-- Jump if a condition holds, else go on. -/
def branch (s : State) (w : Word) (taken : Bool) : State :=
  if taken then { s with pc := Word.target s.pc w } else s.advance

/-- Forget the last mark; jump if there was one and the cursor is beyond it. -/
def loop (s : State) (w : Word) : State :=
  match s.marks with
  | [] => s.advance
  | start :: marks => branch { s with marks } w (start < s.cursor)

/-- Move the cursor to the last mark, if there is one. -/
def rewound (s : State) : State := { s with cursor := s.marks.headD s.cursor }

/-- Move a datum from the register into the innermost collection. -/
def push (s : State) : State :=
  match s.register, s.collections with
  | .ok d, items :: outer =>
    { s with pc := s.pc + 1, register := .ok .null, collections := (d :: items) :: outer }
  | _, _ => s.advance

/-- Take the latest item of the innermost collection back; without one, a null. -/
def pop (s : State) : State :=
  match s.collections with
  | (d :: items) :: outer =>
    { s with pc := s.pc + 1, register := .ok d, collections := items :: outer }
  | _ => s.yield (.ok .null)

/-- End the innermost collection. -/
def gather (s : State) (arity : Arity) : State :=
  let items := (s.collections.headD []).reverse
  let register : Register :=
    if arity.least ≤ items.length then .ok (.list items)
    else .error (.tooFew arity.least arity.label s.cursor)
  { s with pc := s.pc + 1, register, collections := s.collections.tail }

/-- What a function makes of a datum; its message becomes a diagnostic. -/
def accepted (s : State) (result : Except String Datum) : Register :=
  match result with
  | .ok d => .ok d
  | .error message => .error (.rejected message s.cursor)

/-- Pass the datum in the register through a function. A failure stays what it is. -/
def transform (s : State) (f : Transform) : State :=
  match s.register with
  | .ok d => s.yield (s.accepted (f d))
  | .error _ => s.advance

/-- Pass the items of the list in the register to a function. -/
def combine (s : State) (f : Combiner) : State :=
  match s.register with
  | .ok d => s.yield (s.accepted (f d.items))
  | .error _ => s.advance

/-- Replace a failure by a datum. -/
def orDefault (s : State) (d : Datum) : State :=
  match s.register with
  | .ok _ => s.advance
  | .error _ => s.yield (.ok d)

end State

/-- Look an operand up in a table; go on if it is there. -/
def withEntry {α : Type} (table : Array α) (index : Nat) (f : α → State) : Step :=
  match table[index]? with
  | some entry => .next (f entry)
  | none => .fault

/-- The outcome of a literal; both its entry and its value are looked up. -/
def stepLiteral (b : Bytecode) (input : Array Char) (s : State) (index : Nat) : Step :=
  match b.literals[index]? with
  | none => .fault
  | some entry =>
    withEntry b.values entry.value fun value => s.read (readLiteral entry value input s.cursor)

/-- Execute one instruction. -/
def execute (b : Bytecode) (input : Array Char) (s : State) (w : Word) : Opcode → Step
  | .test => withEntry b.tests (Word.operand w) fun entry => s.read (readTest entry input s.cursor)
  | .literal | .keyword => stepLiteral b input s (Word.operand w)
  | .scan => withEntry b.scans (Word.operand w) fun entry => s.read (readRun entry input s.cursor)
  | .finish => .next (s.read (readEnd input s.cursor))
  | .jump => .next (s.branch w true)
  | .jumpIfOk => .next (s.branch w s.isOk)
  | .jumpIfFailed => .next (s.branch w (!s.isOk))
  | .loop => .next (s.loop w)
  | .mark => .next { s.advance with marks := s.cursor :: s.marks }
  | .unmark => .next { s.advance with marks := s.marks.tail }
  | .rewind => .next { s.rewound.advance with marks := s.marks.tail }
  | .restart => .next s.rewound.advance
  | .collect => .next { s.advance with collections := [] :: s.collections }
  | .discard => .next { s.advance with collections := s.collections.tail }
  | .push => .next s.push
  | .pop => .next s.pop
  | .gather => withEntry b.arities (Word.operand w) s.gather
  | .transform =>
    if s.isOk then withEntry b.transforms (Word.operand w) s.transform else .next s.advance
  | .combine =>
    if s.isOk then withEntry b.combiners (Word.operand w) s.combine else .next s.advance
  | .default =>
    if s.isOk then .next s.advance else withEntry b.values (Word.operand w) s.orDefault
  | .refuse =>
    .next (s.yield (.error (.expected (Word.operand w) s.cursor input[s.cursor]?)))
  | .call => .call (Word.operand w)
  | .announce => .announce (Word.operand w) s.advance

/-- Execute one word; a word without an opcode does nothing. -/
def step (b : Bytecode) (input : Array Char) (s : State) (w : Word) : Step :=
  match Word.opcode? w with
  | some op => execute b input s w op
  | none => .next s.advance

end PegMachine.Machine
