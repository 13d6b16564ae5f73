/-
# PegMachine.Proofs.Machine.Bounds — positions stay between the start and the end of the input

A run that begins at a position never moves the cursor in front of it, and never behind the end
of the input unless it began there; no mark and no diagnostic is about any other position. This
asks nothing of the bytecode, which may be written by hand: one word keeps it
(`step_bounded`), so a whole run does (`run_bounded`), and so does every state that the run
meets, its own or that of a subroutine (`meets_bounded`).

Positions are natural numbers, which have no end. A machine whose positions do is told apart by
what it does where a sum of a position and a length is too large for it: `Checked.step` gives
up there. It never does, if the position where the run begins and the size of the input are not too
large themselves (`Checked.step_eq`).
-/
import PegMachine.Machine.Parse
import PegMachine.Proofs.Behaviour
import PegMachine.Proofs.Machine.Visits

namespace PegMachine

set_option autoImplicit false

/-- Not in front of one position and not behind another. -/
abbrev Between (low high pos : Nat) : Prop := low ≤ pos ∧ pos ≤ high

/-- A verdict speaks of no position but those between two others. -/
def Verdict.Between (low high : Nat) : Verdict → Prop
  | .ok m => PegMachine.Between low high m.stop
  | .error f => PegMachine.Between low high f.pos ∧ PegMachine.Between low high f.errorPos

namespace Machine

/-- The diagnostic in the register is about a position between two others. -/
def Register.Bounded (low high : Nat) (register : Register) : Prop :=
  ∀ e, register = .error e → Between low high e.pos

/-- The cursor, the marks and the diagnostic of a state are between two positions. -/
structure State.Bounded (low high : Nat) (s : State) : Prop where
  cursor : Between low high s.cursor
  marks : ∀ mark ∈ s.marks, Between low high mark
  register : s.register.Bounded low high

/-- Where a run ends, and what its diagnostic is about, is between two positions. -/
structure Outcome.Bounded (low high : Nat) (o : Outcome) : Prop where
  cursor : Between low high o.cursor
  register : o.register.Bounded low high

/-- What reading the input comes to is between two positions. -/
structure Reading.Bounded (low high : Nat) (reading : Reading) : Prop where
  register : reading.1.Bounded low high
  cursor : Between low high reading.2

/-- Whatever state a word leads to, it is between two positions. -/
def Step.Bounded (low high : Nat) : Step → Prop
  | .next s | .announce _ s => s.Bounded low high
  | .call _ | .fault => True

section Bounded

variable {b : Bytecode} {input : Array Char} {low high pos : Nat} {s : State}

theorem bounded_ok (d : Datum) : Register.Bounded low high (.ok d) := fun _ failed => by cases failed

theorem bounded_error {e : Diagnostic} (between : Between low high e.pos) :
    Register.Bounded low high (.error e) := by
  rintro e ⟨⟩
  exact between

theorem begin_bounded (pc : Nat) (here : Between low high pos) : (State.begin pc pos).Bounded low high :=
  ⟨here, fun _ mem => (by cases mem), bounded_ok _⟩

/-! ## Reading the input -/

theorem readTest_bounded (fits : input.size ≤ high) (here : Between low high pos) (entry : TestEntry) :
    (readTest entry input pos).Bounded low high := by
  rw [readTest]
  split
  · rename_i c width accepted
    have := CharTest.accept?_within accepted
    exact ⟨bounded_ok _, by simp only; omega⟩
  · exact ⟨bounded_error here, here⟩

/-- A text breaks off no further than just behind what was found of it. -/
theorem mismatch?_between (fits : input.size ≤ high) (here : Between low high pos) {anyCase : Bool}
    {chars : List Char} {e : Diagnostic} (differs : mismatch? anyCase input pos chars = some e) :
    Between low high e.pos := by
  induction chars generalizing pos with
  | nil => cases differs
  | cons c rest ih =>
      rw [mismatch?] at differs
      split at differs
      · cases differs
        exact here
      · rename_i found stands
        have inside : pos < input.size := (Array.getElem?_eq_some_iff.mp stands).1
        split at differs
        · exact ih (by omega) differs
        · cases differs
          exact here

theorem readLiteral_bounded (fits : input.size ≤ high) (here : Between low high pos)
    (entry : LiteralEntry) (value : Datum) : (readLiteral entry value input pos).Bounded low high := by
  rw [readLiteral]
  split
  · rename_i e differs
    exact ⟨bounded_error (mismatch?_between fits here differs), here⟩
  · rename_i agree
    refine ⟨bounded_ok _, ?_⟩
    by_cases empty : entry.text = []
    · simpa [empty] using here
    · have := Behaviour.mismatch?_eq_none agree empty
      simp only
      omega

theorem readRun_bounded (fits : input.size ≤ high) (here : Between low high pos) (entry : ScanEntry) :
    (readRun entry input pos).Bounded low high := by
  simp only [readRun]
  split
  · have := @Behaviour.acceptRun_within input entry.test (input.size - pos) pos
    exact ⟨bounded_ok _, by simp only; omega⟩
  · exact ⟨bounded_error here, here⟩

theorem readEnd_bounded (here : Between low high pos) : (readEnd input pos).Bounded low high := by
  rw [readEnd]
  split
  · exact ⟨bounded_ok _, here⟩
  · exact ⟨bounded_error here, here⟩

/-! ## One word -/

theorem read_bounded (before : s.Bounded low high) {reading : Reading}
    (bounded : reading.Bounded low high) : (s.read reading).Bounded low high :=
  ⟨bounded.cursor, before.marks, bounded.register⟩

theorem advance_bounded (before : s.Bounded low high) : s.advance.Bounded low high :=
  ⟨before.cursor, before.marks, before.register⟩

theorem yield_bounded (before : s.Bounded low high) {register : Register}
    (bounded : register.Bounded low high) : (s.yield register).Bounded low high :=
  ⟨before.cursor, before.marks, bounded⟩

theorem branch_bounded (before : s.Bounded low high) (w : Word) (taken : Bool) :
    (s.branch w taken).Bounded low high := by
  rw [State.branch]
  split
  · exact ⟨before.cursor, before.marks, before.register⟩
  · exact advance_bounded before

/-- With a mark less there is nothing new. -/
theorem tail_bounded (before : s.Bounded low high) : ∀ mark ∈ s.marks.tail, Between low high mark :=
  fun mark mem => before.marks mark (List.mem_of_mem_tail mem)

theorem loop_bounded (before : s.Bounded low high) (w : Word) : (s.loop w).Bounded low high := by
  rw [State.loop]
  split
  · exact advance_bounded before
  · rename_i start marks same
    have fewer : State.Bounded low high { s with marks } :=
      ⟨before.cursor, fun mark mem => before.marks mark (same ▸ List.mem_cons_of_mem _ mem),
        before.register⟩
    exact branch_bounded fewer w _

/-- The cursor goes back to a mark, and these are where a cursor was. -/
theorem rewound_bounded (before : s.Bounded low high) : s.rewound.Bounded low high := by
  refine ⟨?_, before.marks, before.register⟩
  simp only [State.rewound]
  cases same : s.marks with
  | nil => exact before.cursor
  | cons mark marks => exact before.marks mark (same ▸ List.mem_cons_self)

theorem accepted_bounded (before : s.Bounded low high) (result : Except String Datum) :
    (s.accepted result).Bounded low high := by
  cases result with
  | ok d => exact bounded_ok d
  | error message => exact bounded_error before.cursor

theorem withEntry_bounded {α : Type} {table : Array α} {index : Nat} {f : α → State}
    (each : ∀ entry, (f entry).Bounded low high) : (withEntry table index f).Bounded low high := by
  rw [withEntry]
  split
  · exact each _
  · trivial

theorem execute_bounded (fits : input.size ≤ high) (before : s.Bounded low high) (w : Word)
    (op : Opcode) : (execute b input s w op).Bounded low high := by
  cases op with
  | test => exact withEntry_bounded fun entry => read_bounded before (readTest_bounded fits before.cursor entry)
  | literal | keyword =>
      simp only [execute, stepLiteral]
      split
      · trivial
      · exact withEntry_bounded fun value =>
          read_bounded before (readLiteral_bounded fits before.cursor _ value)
  | scan => exact withEntry_bounded fun entry => read_bounded before (readRun_bounded fits before.cursor entry)
  | finish => exact read_bounded before (readEnd_bounded before.cursor)
  | jump | jumpIfOk | jumpIfFailed => exact branch_bounded before w _
  | loop => exact loop_bounded before w
  | mark => exact ⟨before.cursor, List.forall_mem_cons.mpr ⟨before.cursor, before.marks⟩, before.register⟩
  | unmark => exact ⟨before.cursor, tail_bounded before, before.register⟩
  | rewind => exact ⟨(rewound_bounded before).cursor, tail_bounded before, before.register⟩
  | restart => exact advance_bounded (rewound_bounded before)
  | collect | discard => exact ⟨before.cursor, before.marks, before.register⟩
  | push =>
      simp only [execute, Step.Bounded, State.push]
      split
      · exact ⟨before.cursor, before.marks, bounded_ok _⟩
      · exact advance_bounded before
  | pop =>
      simp only [execute, Step.Bounded, State.pop]
      split
      · exact ⟨before.cursor, before.marks, bounded_ok _⟩
      · exact yield_bounded before (bounded_ok _)
  | gather =>
      apply withEntry_bounded
      intro arity
      refine ⟨before.cursor, before.marks, ?_⟩
      simp only [State.gather]
      split
      · exact bounded_ok _
      · exact bounded_error before.cursor
  | transform =>
      simp only [execute]
      split
      · apply withEntry_bounded
        intro f
        rw [State.transform]
        split
        · exact yield_bounded before (accepted_bounded before _)
        · exact advance_bounded before
      · exact advance_bounded before
  | combine =>
      simp only [execute]
      split
      · apply withEntry_bounded
        intro f
        rw [State.combine]
        split
        · exact yield_bounded before (accepted_bounded before _)
        · exact advance_bounded before
      · exact advance_bounded before
  | default =>
      simp only [execute]
      split
      · exact advance_bounded before
      · apply withEntry_bounded
        intro d
        rw [State.orDefault]
        split
        · exact advance_bounded before
        · exact yield_bounded before (bounded_ok _)
  | refuse => exact yield_bounded before (bounded_error before.cursor)
  | call => trivial
  | announce => exact advance_bounded before

/-- A word leads to nothing outside, if the input and the state are not. -/
theorem step_bounded (fits : input.size ≤ high) (before : s.Bounded low high) (w : Word) :
    (step b input s w).Bounded low high := by
  rw [step]
  split
  · exact execute_bounded fits before w _
  · exact advance_bounded before

/-! ## Whole runs -/

theorem refuseCall_bounded (before : s.Bounded low high) : s.refuseCall.Bounded low high :=
  yield_bounded before (bounded_error before.cursor)

theorem resume_bounded (before : s.Bounded low high) {o : Outcome} (ended : o.Bounded low high) :
    (s.resume o.register o.cursor).Bounded low high := by
  refine ⟨?_, before.marks, ended.register⟩
  simp only [State.resume]
  split
  · exact ended.cursor
  · exact before.cursor

/-- A run ends between two positions, if it begins there. -/
theorem run_bounded (fits : input.size ≤ high) {reportWords : Bool} {fuel depth stop : Nat}
    {events : List Event} {o : Outcome}
    (ran : run ⟨b, input, reportWords⟩ fuel depth stop events s = .ended o)
    (before : s.Bounded low high) : o.Bounded low high := by
  have finishes := Finishes.of_run ran
  clear ran
  -- A subroutine begins at the cursor, with no marks, and so between the same two positions.
  induction finishes with
  | left => exact ⟨before.cursor, before.register⟩
  | @next _ _ _ s _ w _ _ _ stepped _ ih | @announce _ _ _ _ s _ w _ _ _ stepped _ ih =>
      have bounded : (step b input s w).Bounded low high := step_bounded fits before w
      rw [stepped] at bounded
      exact ih bounded
  | refuse _ _ _ _ _ ih => exact ih (refuseCall_bounded before)
  | call _ _ _ _ _ _ ihBody ih =>
      exact ih (resume_bounded before (ihBody (begin_bounded _ before.cursor)))

theorem steps_bounded (fits : input.size ≤ high) {depth stop : Nat} {t : State}
    (steps : Steps b input depth stop s t) (before : s.Bounded low high) : t.Bounded low high := by
  cases steps with
  | @next _ _ _ _ w _ _ stepped =>
      have bounded : (step b input s w).Bounded low high := step_bounded fits before w
      rwa [stepped] at bounded
  | @announce _ _ _ _ _ w _ _ stepped =>
      have bounded : (step b input s w).Bounded low high := step_bounded fits before w
      rwa [stepped] at bounded
  | refuse => exact refuseCall_bounded before
  | call _ _ _ _ ran =>
      exact resume_bounded before (run_bounded fits ran (begin_bounded _ before.cursor))

theorem visits_bounded (fits : input.size ≤ high) {depth stop : Nat} {t : State}
    (visits : Visits b input depth stop s t) (before : s.Bounded low high) : t.Bounded low high := by
  induction visits with
  | refl => exact before
  | tail _ steps ih => exact steps_bounded fits steps ih

/-- Every state that a run meets is between two positions, if the run begins there. -/
theorem meets_bounded (fits : input.size ≤ high) {depth stop : Nat} {t : State}
    (meets : Meets b input depth stop s t) (before : s.Bounded low high) : t.Bounded low high := by
  induction meets with
  | here visits => exact visits_bounded fits visits before
  | inside visits _ _ _ _ _ ih =>
      exact ih (begin_bounded _ (visits_bounded fits visits before).cursor)

end Bounded

/-! ## Positions of a limited size -/

namespace Checked

/-- The sum of a position and a length, unless it is larger than `limit`. -/
def sum (limit pos length : Nat) : Option Nat :=
  if pos + length ≤ limit then some (pos + length) else none

/-- What a test accepts. The position behind the first character is only looked at if that is a
backslash. -/
def accept (limit : Nat) (t : CharTest) (input : Array Char) (pos : Nat) :
    Option (Option (Char × Nat)) := do
  let plain := (t.plainAt? input pos).map (·, 1)
  if input[pos]? = some '\\' then
    match input[← sum limit pos 1]? with
    | some c => return if t.escapes.contains c then some (c, 2) else plain
    | none => return plain
  else return plain

def readTest (limit : Nat) (entry : TestEntry) (input : Array Char) (pos : Nat) : Option Reading := do
  match ← accept limit entry.test input pos with
  | some (c, width) => return (.ok (.char c), ← sum limit pos width)
  | none => return (.error (.expected entry.label pos input[pos]?), pos)

/-- Where the input first disagrees with a text that should stand at `pos`, if it agrees with the
`count` characters before. -/
def mismatch (limit : Nat) (anyCase : Bool) (input : Array Char) (pos : Nat) :
    Nat → List Char → Option (Option Diagnostic)
  | _, [] => some none
  | count, expected :: rest => do
    let here ← sum limit pos count
    match input[here]? with
    | none => return some (.expectedChar expected here none)
    | some found =>
      if Text.agrees anyCase found expected then mismatch limit anyCase input pos (count + 1) rest
      else return some (.expectedChar expected here (some found))

def readLiteral (limit : Nat) (entry : LiteralEntry) (value : Datum) (input : Array Char)
    (pos : Nat) : Option Reading := do
  match ← mismatch limit entry.anyCase input pos 0 entry.text with
  | some diagnostic => return (.error diagnostic, pos)
  | none => return (.ok value, ← sum limit pos entry.text.length)

def acceptRun (limit : Nat) (test : CharTest) (input : Array Char) :
    Nat → Nat → Option (List Datum × Nat)
  | 0, pos => some ([], pos)
  | most + 1, pos => do
    match ← accept limit test input pos with
    | none => return ([], pos)
    | some (c, width) =>
      let (rest, stop) ← acceptRun limit test input most (← sum limit pos width)
      return (.char c :: rest, stop)

def readRun (limit : Nat) (entry : ScanEntry) (input : Array Char) (pos : Nat) : Option Reading := do
  let (items, stop) ← acceptRun limit entry.test input (input.size - pos) pos
  if entry.least ≤ items.length then return (.ok (.list items), stop)
  else return (.error (.tooFew entry.least entry.label pos), pos)

/-- Look an operand up in a table and read the input as the entry says. -/
def readEntry {α : Type} (table : Array α) (index : Nat) (s : State) (f : α → Option Reading) :
    Option Step :=
  match table[index]? with
  | some entry => (f entry).map fun reading => .next (s.read reading)
  | none => some .fault

/-- Execute one word, without a position beyond `limit`; nothing if there would have to be one. The
other words add nothing to positions. -/
def step (limit : Nat) (b : Bytecode) (input : Array Char) (s : State) (w : Word) : Option Step :=
  match Word.opcode? w with
  | some .test =>
    readEntry b.tests (Word.operand w) s fun entry => readTest limit entry input s.cursor
  | some .literal | some .keyword =>
    match b.literals[Word.operand w]? with
    | none => some .fault
    | some entry =>
      readEntry b.values entry.value s fun value => readLiteral limit entry value input s.cursor
  | some .scan =>
    readEntry b.scans (Word.operand w) s fun entry => readRun limit entry input s.cursor
  | _ => some (Machine.step b input s w)

section Fits

variable {limit : Nat} {input : Array Char} {pos : Nat}

theorem sum_eq {length : Nat} (fits : pos + length ≤ limit) : sum limit pos length = some (pos + length) :=
  if_pos fits

theorem accept_eq (room : input.size ≤ limit) (t : CharTest) :
    accept limit t input pos = some (t.accept? input pos) := by
  simp only [accept, CharTest.accept?, CharTest.escapeAt?]
  by_cases slash : input[pos]? = some '\\'
  · have inside : pos < input.size := (Array.getElem?_eq_some_iff.mp slash).1
    have fits : pos + 1 ≤ limit := by omega
    simp only [sum_eq fits, slash, Option.bind_eq_bind, Option.bind_some]
    cases input[pos + 1]? with
    | none => rfl
    | some c => cases escapes : t.escapes.contains c <;> simp [escapes]
  · rw [if_neg slash]
    split
    · rename_i here
      split at here
      · rename_i stands _
        exact absurd stands slash
      · cases here
    · rfl

theorem readTest_eq (room : input.size ≤ limit) (entry : TestEntry) :
    readTest limit entry input pos = some (Machine.readTest entry input pos) := by
  rw [readTest, accept_eq room, Machine.readTest]
  cases accepted : entry.test.accept? input pos with
  | none => rfl
  | some found =>
      obtain ⟨c, width⟩ := found
      have within := CharTest.accept?_within accepted
      have fits : pos + width ≤ limit := by omega
      simp [sum_eq fits]

theorem mismatch_eq (room : input.size ≤ limit) {anyCase : Bool} {chars : List Char} {count : Nat}
    (fits : pos + count ≤ limit) :
    mismatch limit anyCase input pos count chars =
      some (mismatch? anyCase input (pos + count) chars) := by
  induction chars generalizing count with
  | nil => rfl
  | cons c rest ih =>
      simp only [mismatch, mismatch?, sum_eq fits, Option.bind_eq_bind, Option.bind_some]
      cases stands : input[pos + count]? with
      | none => rfl
      | some found =>
          have inside : pos + count < input.size := (Array.getElem?_eq_some_iff.mp stands).1
          simp only
          split
          · exact ih (by omega)
          · rfl

theorem readLiteral_eq (start : pos ≤ limit) (room : input.size ≤ limit) (entry : LiteralEntry)
    (value : Datum) :
    readLiteral limit entry value input pos = some (Machine.readLiteral entry value input pos) := by
  rw [readLiteral, mismatch_eq room (by omega), Machine.readLiteral, Nat.add_zero]
  cases differs : mismatch? entry.anyCase input pos entry.text with
  | some e => rfl
  | none =>
      have fits : pos + entry.text.length ≤ limit := by
        by_cases empty : entry.text = []
        · simpa [empty] using start
        · have := Behaviour.mismatch?_eq_none differs empty
          omega
      simp [sum_eq fits]

theorem acceptRun_eq (room : input.size ≤ limit) (test : CharTest) (most : Nat) :
    acceptRun limit test input most pos = some (Machine.acceptRun test input most pos) := by
  induction most generalizing pos with
  | zero => rfl
  | succ most ih =>
      rw [acceptRun, accept_eq room, Machine.acceptRun]
      cases accepted : test.accept? input pos with
      | none => rfl
      | some found =>
          obtain ⟨c, width⟩ := found
          have within := CharTest.accept?_within accepted
          have fits : pos + width ≤ limit := by omega
          simp [sum_eq fits, ih]

theorem readRun_eq (room : input.size ≤ limit) (entry : ScanEntry) :
    readRun limit entry input pos = some (Machine.readRun entry input pos) := by
  simp only [readRun, acceptRun_eq room, Machine.readRun, Option.bind_eq_bind, Option.bind_some]
  split <;> rfl

theorem readEntry_eq {α : Type} {table : Array α} {index : Nat} {s : State} {f : α → Option Reading}
    {f' : α → Reading} (each : ∀ entry, f entry = some (f' entry)) :
    readEntry table index s f = some (withEntry table index fun entry => s.read (f' entry)) := by
  rw [readEntry, withEntry]
  cases table[index]? with
  | none => rfl
  | some entry => simp only [each, Option.map_some]

/-- A machine with limited positions does the same, if the cursor and the input are within the
limit. -/
theorem step_eq {b : Bytecode} {s : State} (start : s.cursor ≤ limit) (room : input.size ≤ limit)
    (w : Word) : step limit b input s w = some (Machine.step b input s w) := by
  rw [step, Machine.step]
  split
  · rename_i known
    rw [known]
    exact readEntry_eq fun entry => readTest_eq room entry
  · rename_i known
    rw [known]
    simp only [execute, stepLiteral]
    cases b.literals[Word.operand w]? with
    | none => rfl
    | some entry => exact readEntry_eq fun value => readLiteral_eq start room entry value
  · rename_i known
    rw [known]
    simp only [execute, stepLiteral]
    cases b.literals[Word.operand w]? with
    | none => rfl
    | some entry => exact readEntry_eq fun value => readLiteral_eq start room entry value
  · rename_i known
    rw [known]
    exact readEntry_eq fun entry => readRun_eq room entry
  · rfl

end Fits

end Checked

end Machine

namespace Bytecode

open Machine (Meets State)

/-- A parse from a position speaks of no position in front of it, and of none behind the end of the
input unless it began there; nor is the cursor ever anywhere else, in the run itself or in a subroutine.
A machine whose positions go up to `limit` executes every word just so, if the position and the size
of the input go no further: no sum of a position and a length is ever beyond the limit. -/
theorem positions_between (b : Bytecode) {input : Array Char} {pos limit : Nat} (start : pos ≤ limit)
    (room : input.size ≤ limit) :
    (∀ v, b.Parses input pos v → v.Between pos (max pos input.size)) ∧
      ∀ s, Meets b input callLimit b.entry.stop (.begin b.entry.start pos) s →
        Between pos (max pos input.size) s.cursor ∧
          ∀ w, Machine.Checked.step limit b input s w = some (Machine.step b input s w) := by
  have fits : input.size ≤ max pos input.size := Nat.le_max_right _ _
  have begins : (State.begin b.entry.start pos).Bounded pos (max pos input.size) :=
    Machine.begin_bounded _ ⟨Nat.le_refl _, Nat.le_max_left _ _⟩
  refine ⟨?_, ?_⟩
  · rintro v ⟨o, ⟨fuel, ran⟩, rfl⟩
    have ended : o.Bounded pos (max pos input.size) := Machine.run_bounded fits ran begins
    rw [Machine.Outcome.verdict]
    split
    · exact ended.cursor
    · rename_i e failed
      exact ⟨ended.cursor, ended.register e failed⟩
  · intro s meets
    have between := (Machine.meets_bounded fits meets begins).cursor
    have within : s.cursor ≤ limit := by omega
    exact ⟨between, fun w => Machine.Checked.step_eq within room w⟩

/-- Hand-written bytecode: a mark that is never used, a subroutine that reads as many letters as there
are, and a literal. -/
def handwritten : Bytecode where
  labels := #["a"]
  scans := #[⟨.plain (.ofList ['a']), 0, 0⟩]
  values := #[.null]
  literals := #[⟨['b'], false, 0⟩]
  subroutines := #[⟨⟨3, 4⟩, 0⟩]
  code := #[.instruction .mark 0, .instruction .call 0, .instruction .literal 0, .instruction .scan 0]
  entry := ⟨0, 3⟩

/-- From the last position that an address can hold it fails there, and speaks of no other. -/
theorem farthest_failure :
    ∃ f, handwritten.Parses #['a', 'b'] (Word.addressSpace - 1) (.error f) ∧
      f.pos = Word.addressSpace - 1 ∧ f.errorPos = Word.addressSpace - 1 := by
  obtain ⟨o, ends, e, failed⟩ :
      ∃ o, handwritten.Ends #['a', 'b'] (Word.addressSpace - 1) o ∧ ∃ e, o.register = .error e :=
    ⟨_, ⟨10, rfl⟩, _, rfl⟩
  have parses : handwritten.Parses #['a', 'b'] (Word.addressSpace - 1) (.error _) :=
    ⟨o, ends, (Machine.Outcome.verdict_eq_error.mpr ⟨e, failed, rfl⟩).symm⟩
  have between := (positions_between handwritten (Nat.le_refl (Word.addressSpace - 1))
    (by decide)).1 _ parses
  have few : (#['a', 'b'] : Array Char).size ≤ Word.addressSpace - 1 := by decide
  rw [Nat.max_eq_left few] at between
  obtain ⟨⟨low, high⟩, low', high'⟩ := between
  exact ⟨_, parses, Nat.le_antisymm high low, Nat.le_antisymm high' low'⟩

end Bytecode

end PegMachine
