/-
# PegMachine.Proofs.Behaviour — what fragments of code do

A `Behaviour` says what a fragment does when it is entered with the cursor at a
position: what it leaves in the register, where it leaves the cursor, and what it
reports. Stacks do not occur: a fragment leaves them as they were. A behaviour
never moves the cursor back, and never beyond the input unless it was there already
(`Behaviour.within`); a repetition ends because of that.

There is one operator for each layout of `Lowering`. They are put together from two
ways to go on after an outcome: `Outcome.andThen` goes on after a success, and
`Outcome.orBack` puts the cursor back after a failure.

What a fragment does depends on what the subroutines it calls do, and on the indices
of labels. `Surroundings` holds both; a `Code` is a behaviour in any surroundings.
-/
import PegMachine.Machine.Run

namespace PegMachine.Machine

set_option autoImplicit false

/-! ## Going on after an outcome -/

/-- What a function makes of data, in the register; its message becomes a diagnostic. -/
def Register.ofResult (result : Except String Datum) (pos : Nat) : Register :=
  match result with
  | .ok d => .ok d
  | .error message => .error (.rejected message pos)

namespace Outcome

/-- The outcome, with what was reported before. -/
def after (o : Outcome) (earlier : List Event) : Outcome :=
  { o with events := o.events ++ earlier }

/-- Go on with the datum and the cursor of a success; a failure is the end. -/
def andThen (o : Outcome) (next : Datum → Nat → Outcome) : Outcome :=
  match o.register with
  | .ok d => (next d o.cursor).after o.events
  | .error _ => o

/-- After a failure put the cursor back. -/
def orBack (o : Outcome) (pos : Nat) : Outcome :=
  match o.register with
  | .ok _ => o
  | .error _ => { o with cursor := pos }

theorem andThen_ok {o : Outcome} {d : Datum} (ok : o.register = .ok d)
    (next : Datum → Nat → Outcome) : o.andThen next = (next d o.cursor).after o.events := by
  rw [andThen, ok]

theorem andThen_error {o : Outcome} {e : Diagnostic} (failed : o.register = .error e)
    (next : Datum → Nat → Outcome) : o.andThen next = o := by
  rw [andThen, failed]

theorem orBack_ok {o : Outcome} {d : Datum} (ok : o.register = .ok d) (pos : Nat) :
    o.orBack pos = o := by
  rw [orBack, ok]

theorem orBack_error {o : Outcome} {e : Diagnostic} (failed : o.register = .error e) (pos : Nat) :
    o.orBack pos = { o with cursor := pos } := by
  rw [orBack, failed]

@[simp] theorem after_register (o : Outcome) (earlier : List Event) :
    (o.after earlier).register = o.register := rfl

@[simp] theorem after_cursor (o : Outcome) (earlier : List Event) :
    (o.after earlier).cursor = o.cursor := rfl

@[simp] theorem after_events (o : Outcome) (earlier : List Event) :
    (o.after earlier).events = o.events ++ earlier := rfl

@[simp] theorem orBack_register (o : Outcome) (pos : Nat) :
    (o.orBack pos).register = o.register := by
  rw [orBack]
  split <;> rfl

@[simp] theorem orBack_events (o : Outcome) (pos : Nat) : (o.orBack pos).events = o.events := by
  rw [orBack]
  split <;> rfl

/-- The cursor did not go back, and not beyond an input of this size. -/
def Within (o : Outcome) (pos size : Nat) : Prop := pos ≤ o.cursor ∧ o.cursor ≤ max pos size

theorem Within.andThen {o : Outcome} {pos size : Nat} (within : o.Within pos size)
    {next : Datum → Nat → Outcome} (after : ∀ d p, (next d p).Within p size) :
    (o.andThen next).Within pos size := by
  obtain ⟨low, high⟩ := within
  cases done : o.register with
  | error e =>
      rw [andThen_error done]
      exact ⟨low, high⟩
  | ok d =>
      obtain ⟨low', high'⟩ := after d o.cursor
      rw [andThen_ok done]
      simp only [Within, after_cursor]
      omega

theorem Within.orBack {o : Outcome} {pos size : Nat} (within : o.Within pos size) :
    (o.orBack pos).Within pos size := by
  cases done : o.register with
  | ok d =>
      rw [orBack_ok done]
      exact within
  | error e =>
      rw [orBack_error done]
      exact ⟨Nat.le_refl _, Nat.le_max_left _ _⟩

/-- Nothing was consumed. -/
theorem within_here (register : Register) (pos size : Nat) (events : List Event) :
    Within ⟨register, pos, events⟩ pos size :=
  ⟨Nat.le_refl _, Nat.le_max_left _ _⟩

end Outcome

/-! ## Behaviours -/

/-- What a fragment does from any position of an input. -/
structure Behaviour (input : Array Char) where
  run : Nat → Outcome
  within : ∀ pos, (run pos).Within pos input.size

namespace Behaviour

variable {input : Array Char}

instance : CoeFun (Behaviour input) (fun _ => Nat → Outcome) := ⟨run⟩

/-! ### Reading the input -/

/-- One character. -/
def test (entry : TestEntry) : Behaviour input where
  run pos := ⟨(readTest entry input pos).1, (readTest entry input pos).2, []⟩
  within pos := by
    simp only [Outcome.Within, readTest]
    split
    · rename_i c width accepted
      have := CharTest.accept?_within accepted
      omega
    · omega

theorem mismatch?_eq_none {anyCase : Bool} {chars : List Char} {pos : Nat}
    (agree : mismatch? anyCase input pos chars = none) (some : chars ≠ []) :
    pos + chars.length ≤ input.size := by
  induction chars generalizing pos with
  | nil => exact absurd rfl some
  | cons expected rest ih =>
      rw [mismatch?] at agree
      split at agree
      · nomatch agree
      · rename_i found here
        have inside : pos < input.size := (Array.getElem?_eq_some_iff.mp here).1
        split at agree
        · rcases rest with - | ⟨next, rest⟩
          · exact inside
          · have := ih agree (List.cons_ne_nil _ _)
            simp only [List.length_cons] at *
            omega
        · nomatch agree

/-- A text and what it yields. -/
def literal (entry : LiteralEntry) (value : Datum) : Behaviour input where
  run pos := ⟨(readLiteral entry value input pos).1, (readLiteral entry value input pos).2, []⟩
  within pos := by
    simp only [Outcome.Within, readLiteral]
    split
    · exact ⟨Nat.le_refl _, Nat.le_max_left _ _⟩
    · rename_i agree
      by_cases empty : entry.text = []
      · simp only [empty, List.length_nil]
        omega
      · have := mismatch?_eq_none agree empty
        simp only
        omega

theorem acceptRun_within (test : CharTest) (most pos : Nat) :
    pos ≤ (acceptRun test input most pos).2 ∧
      (acceptRun test input most pos).2 ≤ max pos input.size := by
  induction most generalizing pos with
  | zero => exact ⟨Nat.le_refl _, Nat.le_max_left _ _⟩
  | succ most ih =>
      rw [acceptRun]
      split
      · exact ⟨Nat.le_refl _, Nat.le_max_left _ _⟩
      · rename_i c width accepted
        have := CharTest.accept?_within accepted
        have := ih (pos + width)
        simp only
        omega

/-- A run of characters. -/
def scan (entry : ScanEntry) : Behaviour input where
  run pos := ⟨(readRun entry input pos).1, (readRun entry input pos).2, []⟩
  within pos := by
    simp only [Outcome.Within, readRun]
    split
    · exact acceptRun_within entry.test _ pos
    · exact ⟨Nat.le_refl _, Nat.le_max_left _ _⟩

/-- The end of the input. -/
def finish : Behaviour input where
  run pos := ⟨(readEnd input pos).1, (readEnd input pos).2, []⟩
  within pos := by
    simp only [Outcome.Within, readEnd]
    split <;> exact ⟨Nat.le_refl _, Nat.le_max_left _ _⟩

/-! ### Sequences -/

/-- One part after the other; `collected` holds the data so far, the latest first. -/
def items : List (Behaviour input) → List Datum → Nat → Outcome
  | [], collected, pos => ⟨.ok (.list collected.reverse), pos, []⟩
  | part :: rest, collected, pos =>
    (part pos).andThen fun d stop => items rest (d :: collected) stop

theorem items_within (parts : List (Behaviour input)) (collected : List Datum) (pos : Nat) :
    (items parts collected pos).Within pos input.size := by
  induction parts generalizing collected pos with
  | nil => exact Outcome.within_here _ _ _ _
  | cons part rest ih => exact (part.within pos).andThen fun d stop => ih (d :: collected) stop

/-- What becomes of the list of the data. -/
def made (f : Option Combiner) (d : Datum) (pos : Nat) : Outcome :=
  match f with
  | none => ⟨.ok d, pos, []⟩
  | some f => ⟨.ofResult (f d.items) pos, pos, []⟩

/-- All parts; their data, or what a function makes of them. -/
def sequence (parts : List (Behaviour input)) (f : Option Combiner) : Behaviour input where
  run pos := ((items parts [] pos).andThen (made f)).orBack pos
  within pos := by
    refine ((items_within parts [] pos).andThen ?_).orBack
    intro d stop
    cases f <;> exact Outcome.within_here _ _ _ _

theorem sequence_events (parts : List (Behaviour input)) (f : Option Combiner) (pos : Nat) :
    (sequence parts f pos).events = (items parts [] pos).events := by
  simp only [sequence, Outcome.orBack_events]
  cases done : (items parts [] pos).register with
  | error e => rw [Outcome.andThen_error done]
  | ok d =>
      rw [Outcome.andThen_ok done, Outcome.after_events]
      cases f <;> rfl

/-- Both parts; what the first yields. -/
def keepLeft (first second : Behaviour input) : Behaviour input where
  run pos := ((first pos).andThen fun d stop =>
    (second stop).andThen fun _ stop => ⟨.ok d, stop, []⟩).orBack pos
  within pos := ((first.within pos).andThen fun _ stop =>
    (second.within stop).andThen fun _ _ => Outcome.within_here _ _ _ _).orBack

/-- Both parts; what the second yields. -/
def keepRight (first second : Behaviour input) : Behaviour input where
  run pos := ((first pos).andThen fun _ stop => second stop).orBack pos
  within pos := ((first.within pos).andThen fun _ stop => second.within stop).orBack

/-- The first part; then the second decides, without consuming anything. -/
def provided (first second : Behaviour input) (decide : Datum → Nat → Register → Register) :
    Behaviour input where
  run pos := ((first pos).andThen fun d stop =>
    ⟨decide d stop (second stop).register, stop, (second stop).events⟩).orBack pos
  within pos := ((first.within pos).andThen fun _ _ => Outcome.within_here _ _ _ _).orBack

/-- The second part has to match. -/
def demand (d : Datum) (_ : Nat) : Register → Register
  | .ok _ => .ok d
  | .error e => .error e

/-- The second part, which a label names, must not match. -/
def forbid (input : Array Char) (label : Nat) (d : Datum) (pos : Nat) : Register → Register
  | .ok _ => .error (.expected label pos input[pos]?)
  | .error _ => .ok d

/-! ### Choices and repetitions -/

/-- The first alternative that matches, or the failure of the last. -/
def choose (first : Behaviour input) : List (Behaviour input) → Nat → Outcome
  | [], pos => first pos
  | next :: rest, pos =>
    match (first pos).register with
    | .ok _ => first pos
    | .error _ => (choose next rest pos).after (first pos).events

theorem choose_within (first : Behaviour input) (rest : List (Behaviour input)) (pos : Nat) :
    (choose first rest pos).Within pos input.size := by
  induction rest generalizing first with
  | nil => exact first.within pos
  | cons next rest ih =>
      rw [choose]
      split
      · exact first.within pos
      · exact ih next

/-- A choice of at least one alternative. -/
def choice (first : Behaviour input) (rest : List (Behaviour input)) : Behaviour input where
  run pos := (choose first rest pos).orBack pos
  within pos := (choose_within first rest pos).orBack

/-- The part, or a constant. -/
def optional (body : Behaviour input) (fallback : Datum) : Behaviour input where
  run pos :=
    match (body pos).register with
    | .ok _ => body pos
    | .error _ => ⟨.ok fallback, pos, (body pos).events⟩
  within pos := by
    split
    · exact body.within pos
    · exact Outcome.within_here _ _ _ _

/-- The part as often as it matches and consumes something, at most `most` times. -/
def loop (body : Behaviour input) : (most : Nat) → List Datum → Nat → Outcome
  | 0, collected, pos => ⟨.ok (.list collected.reverse), pos, []⟩
  | most + 1, collected, pos =>
    match (body pos).register with
    | .error _ => ⟨.ok (.list collected.reverse), pos, (body pos).events⟩
    | .ok d =>
      if pos < (body pos).cursor then
        (loop body most (d :: collected) (body pos).cursor).after (body pos).events
      else ⟨.ok (.list (d :: collected).reverse), (body pos).cursor, (body pos).events⟩

theorem loop_within (body : Behaviour input) (most : Nat) (collected : List Datum) (pos : Nat) :
    (loop body most collected pos).Within pos input.size := by
  induction most generalizing collected pos with
  | zero => exact Outcome.within_here _ _ _ _
  | succ most ih =>
      have := body.within pos
      rw [loop]
      split
      · exact Outcome.within_here _ _ _ _
      · rename_i d done
        have := ih (d :: collected) (body pos).cursor
        simp only [Outcome.Within] at *
        split
        · simp only [Outcome.after_cursor]
          omega
        · omega

/-- More rounds than a repetition from `pos` can take: each but the last consumes
something. -/
def rounds (input : Array Char) (pos : Nat) : Nat := input.size - pos + 1

/-- The rounds of a test are the run of its characters. -/
theorem loop_test (entry : TestEntry) {most pos : Nat} (enough : input.size - pos ≤ most)
    (collected : List Datum) : loop (test entry : Behaviour input) (most + 1) collected pos =
      ⟨.ok (.list (collected.reverse ++ (acceptRun entry.test input most pos).1)),
        (acceptRun entry.test input most pos).2, []⟩ := by
  induction most generalizing pos collected with
  | zero =>
      have nothing : entry.test.accept? input pos = none := by
        cases accepted : entry.test.accept? input pos with
        | none => rfl
        | some found =>
            have := CharTest.accept?_within accepted
            omega
      simp [loop, test, readTest, acceptRun, nothing]
  | succ most ih =>
      rw [loop, acceptRun]
      cases accepted : entry.test.accept? input pos with
      | none => simp [test, readTest, accepted]
      | some found =>
          obtain ⟨c, width⟩ := found
          have within := CharTest.accept?_within accepted
          have moved : pos < pos + width := by omega
          have next := @ih (pos + width) (by omega) (.char c :: collected)
          simp [test, readTest, accepted, moved, Outcome.after] at next ⊢
          simp [next]

/-- Whether a list has as many items as it must have. -/
def enough (arity : Arity) (d : Datum) (pos : Nat) : Outcome :=
  if arity.least ≤ d.items.length then ⟨.ok d, pos, []⟩
  else ⟨.error (.tooFew arity.least arity.label pos), pos, []⟩

/-- The part as often as it matches. -/
def many (body : Behaviour input) (arity : Arity) : Behaviour input where
  run pos := (loop body (rounds input pos) [] pos).andThen (enough arity)
  within pos := (loop_within body _ [] pos).andThen fun d stop => by
    rw [enough]
    split <;> exact Outcome.within_here _ _ _ _

theorem many_events (body : Behaviour input) (arity : Arity) (pos : Nat) :
    (many body arity pos).events = (loop body (rounds input pos) [] pos).events := by
  simp only [many]
  cases done : (loop body (rounds input pos) [] pos).register with
  | error e => rw [Outcome.andThen_error done]
  | ok d =>
      rw [Outcome.andThen_ok done, Outcome.after_events, enough]
      split <;> rfl

/-- What a function makes of what the part yields. -/
def transform (f : Transform) (body : Behaviour input) : Behaviour input where
  run pos := ((body pos).andThen fun d stop => ⟨.ofResult (f d) stop, stop, []⟩).orBack pos
  within pos := ((body.within pos).andThen fun _ _ => Outcome.within_here _ _ _ _).orBack

/-! ### Rules and subroutines -/

/-- The part, once its rule has been announced. -/
def announced (label : Nat) (body : Behaviour input) : Behaviour input where
  run pos := (body pos).after [.rule label pos]
  within pos := body.within pos

/-- A call that is refused. -/
def refused (label : Nat) : Behaviour input where
  run pos := ⟨.error (.tooDeep pos), pos, [.refused label pos]⟩
  within _ := Outcome.within_here _ _ _ _

/-- A call of a subroutine with this body. -/
def called (label : Nat) (body : Behaviour input) : Behaviour input where
  run pos :=
    let o := (body pos).orBack pos
    { o with events := .leave label o.register.isOk o.cursor :: (o.events ++ [.enter label pos]) }
  within pos := (body.within pos).orBack

end Behaviour

/-! ## Code -/

/-- What the behaviour of a fragment depends on. -/
structure Surroundings (input : Array Char) where
  /-- The index of a label. -/
  indexOf : String → Nat
  /-- What a call of the subroutine with an index does. -/
  call : Nat → Behaviour input

/-- A fragment's behaviour, on any input and in any surroundings. -/
abbrev Code := (input : Array Char) → Surroundings input → Behaviour input

/-- What calls do if `depth` of them may be nested, where the subroutines have these labels
and this code. -/
def calls (input : Array Char) (indexOf : String → Nat) (labels : Nat → Nat)
    (routines : Nat → Code) : (depth : Nat) → Nat → Behaviour input
  | 0, index => .refused (labels index)
  | depth + 1, index =>
    .called (labels index)
      (routines index input ⟨indexOf, calls input indexOf labels routines depth⟩)

end PegMachine.Machine
