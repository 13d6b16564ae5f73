/-
# PegMachine.Proofs.Machine.Words — the path along one word

One statement for every opcode, and two for those that may jump: what a state looks like
after the word, in a state that has what the word needs. States are written out field by
field, so that the paths of neighbouring words fit together as they stand.
-/
import PegMachine.Proofs.Behaviour
import PegMachine.Proofs.Machine.Path

namespace PegMachine.Machine

set_option autoImplicit false

/-- The word at an address, inside a range that ends at `stop`. -/
def At (b : Bytecode) (stop pc : Nat) (w : Word) : Prop := pc < stop ∧ b.code[pc]? = some w

/-- A word without an operand. -/
abbrev AtBare (b : Bytecode) (stop pc : Nat) (op : Opcode) : Prop :=
  At b stop pc (Word.instruction op 0)

/-- A jump from an address to a target. -/
def AtJump (b : Bytecode) (stop pc : Nat) (op : Opcode) (target : Nat) : Prop :=
  ∃ w, At b stop pc w ∧ Word.opcode? w = some op ∧ Word.target pc w = target

namespace Path

variable {b : Bytecode} {input : Array Char} {depth stop pc cursor n target : Nat}
variable {register : Register} {marks : List Nat} {collections : List (List Datum)}

/-! ## Reading the input -/

theorem test {entry : TestEntry} (here : At b stop pc (Word.instruction .test n))
    (fits : n < Word.operandLimit) (known : b.tests[n]? = some entry) :
    Path b input depth stop ⟨pc, cursor, register, marks, collections⟩ []
      ⟨pc + 1, (readTest entry input cursor).2, (readTest entry input cursor).1, marks,
        collections⟩ := by
  refine .next ⟨here.1, here.2, Word.opcode?_instruction _ _, trivial⟩ ?_ .stay
  simp only [execute, withEntry, Word.operand_instruction _ fits, known]
  rfl

theorem literal {op : Opcode} (kind : op = .literal ∨ op = .keyword) {entry : LiteralEntry}
    {value : Datum} (here : At b stop pc (Word.instruction op n)) (fits : n < Word.operandLimit)
    (known : b.literals[n]? = some entry) (stored : b.values[entry.value]? = some value) :
    Path b input depth stop ⟨pc, cursor, register, marks, collections⟩ []
      ⟨pc + 1, (readLiteral entry value input cursor).2, (readLiteral entry value input cursor).1,
        marks, collections⟩ := by
  rcases kind with rfl | rfl <;>
    refine .next ⟨here.1, here.2, Word.opcode?_instruction _ _, trivial⟩ ?_ .stay <;>
    simp only [execute, stepLiteral, withEntry, Word.operand_instruction _ fits, known, stored] <;>
    rfl

theorem scan {entry : ScanEntry} (here : At b stop pc (Word.instruction .scan n))
    (fits : n < Word.operandLimit) (known : b.scans[n]? = some entry) :
    Path b input depth stop ⟨pc, cursor, register, marks, collections⟩ []
      ⟨pc + 1, (readRun entry input cursor).2, (readRun entry input cursor).1, marks,
        collections⟩ := by
  refine .next ⟨here.1, here.2, Word.opcode?_instruction _ _, trivial⟩ ?_ .stay
  simp only [execute, withEntry, Word.operand_instruction _ fits, known]
  rfl

theorem finish (here : AtBare b stop pc .finish) :
    Path b input depth stop ⟨pc, cursor, register, marks, collections⟩ []
      ⟨pc + 1, (readEnd input cursor).2, (readEnd input cursor).1, marks, collections⟩ :=
  .next ⟨here.1, here.2, Word.opcode?_instruction _ _, trivial⟩ rfl .stay

/-! ## Jumps -/

theorem jump (here : AtJump b stop pc .jump target) :
    Path b input depth stop ⟨pc, cursor, register, marks, collections⟩ []
      ⟨target, cursor, register, marks, collections⟩ := by
  obtain ⟨w, ⟨inside, found⟩, known, aimed⟩ := here
  exact .next ⟨inside, found, known, trivial⟩
    (by simp only [execute, State.branch, aimed, if_true]) .stay

theorem jumpIfOk_ok {d : Datum} (here : AtJump b stop pc .jumpIfOk target) :
    Path b input depth stop ⟨pc, cursor, .ok d, marks, collections⟩ []
      ⟨target, cursor, .ok d, marks, collections⟩ := by
  obtain ⟨w, ⟨inside, found⟩, known, aimed⟩ := here
  exact .next ⟨inside, found, known, trivial⟩
    (by simp only [execute, State.branch, State.isOk, Except.isOk, Except.toBool, aimed, if_true])
    .stay

theorem jumpIfOk_error {e : Diagnostic} (here : AtJump b stop pc .jumpIfOk target) :
    Path b input depth stop ⟨pc, cursor, .error e, marks, collections⟩ []
      ⟨pc + 1, cursor, .error e, marks, collections⟩ := by
  obtain ⟨w, ⟨inside, found⟩, known, aimed⟩ := here
  exact .next ⟨inside, found, known, trivial⟩ rfl .stay

theorem jumpIfFailed_ok {d : Datum} (here : AtJump b stop pc .jumpIfFailed target) :
    Path b input depth stop ⟨pc, cursor, .ok d, marks, collections⟩ []
      ⟨pc + 1, cursor, .ok d, marks, collections⟩ := by
  obtain ⟨w, ⟨inside, found⟩, known, aimed⟩ := here
  exact .next ⟨inside, found, known, trivial⟩ rfl .stay

theorem jumpIfFailed_error {e : Diagnostic} (here : AtJump b stop pc .jumpIfFailed target) :
    Path b input depth stop ⟨pc, cursor, .error e, marks, collections⟩ []
      ⟨target, cursor, .error e, marks, collections⟩ := by
  obtain ⟨w, ⟨inside, found⟩, known, aimed⟩ := here
  exact .next ⟨inside, found, known, trivial⟩
    (by simp only [execute, State.branch, State.isOk, Except.isOk, Except.toBool, aimed,
      Bool.not_false, if_true])
    .stay

/-- The cursor has moved beyond the mark: another round. -/
theorem loop_again {start : Nat} (here : AtJump b stop pc .loop target)
    (moved : start < cursor) :
    Path b input depth stop ⟨pc, cursor, register, start :: marks, collections⟩ []
      ⟨target, cursor, register, marks, collections⟩ := by
  obtain ⟨w, ⟨inside, found⟩, known, aimed⟩ := here
  exact .next ⟨inside, found, known, List.cons_ne_nil _ _⟩
    (by simp only [execute, State.loop, State.branch, moved, decide_true, aimed, if_true]) .stay

theorem loop_done {start : Nat} (here : AtJump b stop pc .loop target)
    (stayed : ¬start < cursor) :
    Path b input depth stop ⟨pc, cursor, register, start :: marks, collections⟩ []
      ⟨pc + 1, cursor, register, marks, collections⟩ := by
  obtain ⟨w, ⟨inside, found⟩, known, aimed⟩ := here
  exact .next ⟨inside, found, known, List.cons_ne_nil _ _⟩
    (by simp [execute, State.loop, State.branch, State.advance, stayed]) .stay

/-! ## Marks -/

theorem mark (here : AtBare b stop pc .mark) :
    Path b input depth stop ⟨pc, cursor, register, marks, collections⟩ []
      ⟨pc + 1, cursor, register, cursor :: marks, collections⟩ :=
  .next ⟨here.1, here.2, Word.opcode?_instruction _ _, trivial⟩ rfl .stay

theorem unmark {start : Nat} (here : AtBare b stop pc .unmark) :
    Path b input depth stop ⟨pc, cursor, register, start :: marks, collections⟩ []
      ⟨pc + 1, cursor, register, marks, collections⟩ :=
  .next ⟨here.1, here.2, Word.opcode?_instruction _ _, List.cons_ne_nil _ _⟩ rfl .stay

theorem rewind {start : Nat} (here : AtBare b stop pc .rewind) :
    Path b input depth stop ⟨pc, cursor, register, start :: marks, collections⟩ []
      ⟨pc + 1, start, register, marks, collections⟩ :=
  .next ⟨here.1, here.2, Word.opcode?_instruction _ _, List.cons_ne_nil _ _⟩ rfl .stay

theorem restart {start : Nat} (here : AtBare b stop pc .restart) :
    Path b input depth stop ⟨pc, cursor, register, start :: marks, collections⟩ []
      ⟨pc + 1, start, register, start :: marks, collections⟩ :=
  .next ⟨here.1, here.2, Word.opcode?_instruction _ _, List.cons_ne_nil _ _⟩ rfl .stay

/-! ## Collections -/

theorem collect (here : AtBare b stop pc .collect) :
    Path b input depth stop ⟨pc, cursor, register, marks, collections⟩ []
      ⟨pc + 1, cursor, register, marks, [] :: collections⟩ :=
  .next ⟨here.1, here.2, Word.opcode?_instruction _ _, trivial⟩ rfl .stay

theorem discard {items : List Datum} (here : AtBare b stop pc .discard) :
    Path b input depth stop ⟨pc, cursor, register, marks, items :: collections⟩ []
      ⟨pc + 1, cursor, register, marks, collections⟩ :=
  .next ⟨here.1, here.2, Word.opcode?_instruction _ _, List.cons_ne_nil _ _⟩ rfl .stay

theorem push {d : Datum} {items : List Datum} (here : AtBare b stop pc .push) :
    Path b input depth stop ⟨pc, cursor, .ok d, marks, items :: collections⟩ []
      ⟨pc + 1, cursor, .ok .null, marks, (d :: items) :: collections⟩ :=
  .next ⟨here.1, here.2, Word.opcode?_instruction _ _, List.cons_ne_nil _ _, rfl⟩ rfl .stay

theorem pop {d : Datum} {items : List Datum} (here : AtBare b stop pc .pop) :
    Path b input depth stop ⟨pc, cursor, register, marks, (d :: items) :: collections⟩ []
      ⟨pc + 1, cursor, .ok d, marks, items :: collections⟩ :=
  .next ⟨here.1, here.2, Word.opcode?_instruction _ _, d, items, collections, rfl⟩ rfl .stay

theorem gather {arity : Arity} {items : List Datum}
    (here : At b stop pc (Word.instruction .gather n)) (fits : n < Word.operandLimit)
    (known : b.arities[n]? = some arity) :
    Path b input depth stop ⟨pc, cursor, register, marks, items :: collections⟩ []
      ⟨pc + 1, cursor, (Behaviour.enough arity (.list items.reverse) cursor).register, marks,
        collections⟩ := by
  refine .next ⟨here.1, here.2, Word.opcode?_instruction _ _, List.cons_ne_nil _ _⟩ ?_ .stay
  simp only [execute, withEntry, Word.operand_instruction _ fits, known, State.gather,
    Behaviour.enough, List.headD_cons, List.tail_cons, Datum.items, Datum.items?,
    Option.getD_some]
  by_cases enough : arity.least ≤ items.reverse.length <;> simp only [enough, if_true, if_false]

/-! ## Functions and constants -/

theorem transform_ok {f : Transform} {d : Datum} (here : At b stop pc (Word.instruction .transform n))
    (fits : n < Word.operandLimit) (known : b.transforms[n]? = some f) :
    Path b input depth stop ⟨pc, cursor, .ok d, marks, collections⟩ []
      ⟨pc + 1, cursor, .ofResult (f d) cursor, marks, collections⟩ := by
  refine .next ⟨here.1, here.2, Word.opcode?_instruction _ _, trivial⟩ ?_ .stay
  simp only [execute, State.isOk, Except.isOk, Except.toBool, if_true, withEntry,
    Word.operand_instruction _ fits, known]
  rfl

theorem transform_error {e : Diagnostic} (here : At b stop pc (Word.instruction .transform n)) :
    Path b input depth stop ⟨pc, cursor, .error e, marks, collections⟩ []
      ⟨pc + 1, cursor, .error e, marks, collections⟩ :=
  .next ⟨here.1, here.2, Word.opcode?_instruction _ _, trivial⟩ rfl .stay

theorem combine {f : Combiner} {ds : List Datum} (here : At b stop pc (Word.instruction .combine n))
    (fits : n < Word.operandLimit) (known : b.combiners[n]? = some f) :
    Path b input depth stop ⟨pc, cursor, .ok (.list ds), marks, collections⟩ []
      ⟨pc + 1, cursor, .ofResult (f ds) cursor, marks, collections⟩ := by
  refine .next ⟨here.1, here.2, Word.opcode?_instruction _ _, ds, rfl⟩ ?_ .stay
  simp only [execute, State.isOk, Except.isOk, Except.toBool, if_true, withEntry,
    Word.operand_instruction _ fits, known]
  rfl

theorem default {d : Datum} {e : Diagnostic} (here : At b stop pc (Word.instruction .default n))
    (fits : n < Word.operandLimit) (known : b.values[n]? = some d) :
    Path b input depth stop ⟨pc, cursor, .error e, marks, collections⟩ []
      ⟨pc + 1, cursor, .ok d, marks, collections⟩ := by
  refine .next ⟨here.1, here.2, Word.opcode?_instruction _ _, trivial⟩ ?_ .stay
  simp only [execute, State.isOk, Except.isOk, Except.toBool, Bool.false_eq_true, if_false,
    withEntry, Word.operand_instruction _ fits, known]
  rfl

theorem refusal (here : At b stop pc (Word.instruction .refuse n)) (fits : n < Word.operandLimit) :
    Path b input depth stop ⟨pc, cursor, register, marks, collections⟩ []
      ⟨pc + 1, cursor, .error (.expected n cursor input[cursor]?), marks, collections⟩ := by
  refine .next ⟨here.1, here.2, Word.opcode?_instruction _ _, trivial⟩ ?_ .stay
  simp only [execute, Word.operand_instruction _ fits]
  rfl

/-! ## Rules -/

theorem announcement (here : At b stop pc (Word.instruction .announce n))
    (fits : n < Word.operandLimit) :
    Path b input depth stop ⟨pc, cursor, register, marks, collections⟩ [.rule n cursor]
      ⟨pc + 1, cursor, register, marks, collections⟩ := by
  have ready : Ready b stop ⟨pc, cursor, register, marks, collections⟩ _ .announce :=
    ⟨here.1, here.2, Word.opcode?_instruction _ _, trivial⟩
  refine .announce ready ?_ .stay
  simp only [execute, Word.operand_instruction _ fits]
  rfl

end Path

end PegMachine.Machine
