/-
# PegMachine.Machine.Run — running bytecode

`run` executes a range of code until the program counter leaves it. A call runs
the subroutine's range with stacks of its own; if it fails, the cursor goes back
to where it was. Calls nest at most `callLimit` deep: one more is refused, which
is a failure like any other.

A run need not end — hand-written code may loop — so `run` is given fuel, one unit
for each word executed on the longest chain; `Run.exhausted` says that it did not
suffice. A run that has ended is not changed by more fuel (`run_mono`).

Every run also reports what it did (`Event`): the rules and subroutines it
entered, and on request every word. Events never influence a run.
-/
import PegMachine.Machine.Step

namespace PegMachine.Machine

set_option autoImplicit false

/-- Something a run reports. -/
inductive Event where
  /-- A named rule is entered. -/
  | rule (label pos : Nat)
  /-- A subroutine is called. -/
  | enter (label pos : Nat)
  /-- A subroutine has ended, and left the cursor here. -/
  | leave (label : Nat) (ok : Bool) (pos : Nat)
  /-- A call was refused, because calls are nested too deeply. -/
  | refused (label pos : Nat)
  /-- A word is executed. -/
  | word (pc : Nat) (w : Word) (pos : Nat)
  deriving DecidableEq, Repr

/-- Where a run that ended left the machine, and its events, the latest first. -/
structure Outcome where
  register : Register
  cursor : Nat
  events : List Event

/-- What becomes of a run. -/
inductive Run where
  | ended (outcome : Outcome)
  /-- The word at this address could not be executed. -/
  | fault (pc : Nat)
  /-- The fuel was used up. -/
  | exhausted

/-- Which bytecode runs over which input, and whether every word is reported. -/
structure Setting where
  bytecode : Bytecode
  input : Array Char
  reportWords : Bool := false

namespace Setting

/-- The text of a label. -/
def label (m : Setting) (index : Nat) : String := m.bytecode.toTables.label index

/-- The events once a word is about to be executed. -/
def report (m : Setting) (events : List Event) (s : State) (w : Word) : List Event :=
  if m.reportWords then .word s.pc w s.cursor :: events else events

end Setting

/-- The state after a call whose subroutine ended with this register and this cursor. -/
def State.resume (s : State) (register : Register) (cursor : Nat) : State :=
  { s with pc := s.pc + 1, register, cursor := if register.isOk then cursor else s.cursor }

/-- The state after a call that was refused. -/
def State.refuseCall (s : State) : State := s.yield (.error (.tooDeep s.cursor))

/-- Run until the program counter reaches `stop` or beyond, with `depth` more calls
allowed to nest. -/
def run (m : Setting) : (fuel depth stop : Nat) → List Event → State → Run
  | 0, _, _, _, _ => .exhausted
  | fuel + 1, depth, stop, events, s =>
    if stop ≤ s.pc then .ended ⟨s.register, s.cursor, events⟩
    else
      match m.bytecode.code[s.pc]? with
      | none => .fault s.pc
      | some w =>
        let events := m.report events s w
        match step m.bytecode m.input s w with
        | .next s => run m fuel depth stop events s
        | .announce label next => run m fuel depth stop (.rule label s.cursor :: events) next
        | .fault => .fault s.pc
        | .call index =>
          match m.bytecode.subroutines[index]? with
          | none => .fault s.pc
          | some sub =>
            match depth with
            | 0 => run m fuel 0 stop (.refused sub.label s.cursor :: events) s.refuseCall
            | depth + 1 =>
              match run m fuel depth sub.range.stop (.enter sub.label s.cursor :: events)
                  (.begin sub.range.start s.cursor) with
              | .ended inner =>
                let next := s.resume inner.register inner.cursor
                run m fuel (depth + 1) stop
                  (.leave sub.label inner.register.isOk next.cursor :: inner.events) next
              | .fault pc => .fault pc
              | .exhausted => .exhausted

/-- Run a range of code from a cursor position. -/
def runRange (m : Setting) (fuel : Nat) (range : CodeRange) (pos : Nat) : Run :=
  run m fuel callLimit range.stop [] (.begin range.start pos)

/-- A run that has ended, or has come to a fault, is not changed by more fuel. -/
theorem run_mono (m : Setting) {fuel more depth stop : Nat} {events : List Event} {s : State}
    (enough : run m fuel depth stop events s ≠ .exhausted) (le : fuel ≤ more) :
    run m more depth stop events s = run m fuel depth stop events s := by
  induction fuel generalizing more depth stop events s with
  | zero => exact absurd rfl enough
  | succ fuel ih =>
      obtain ⟨more, rfl⟩ : ∃ k, more = k + 1 := ⟨more - 1, by omega⟩
      have le : fuel ≤ more := by omega
      rw [run] at enough
      rw [run, run]
      split
      · rfl
      · rename_i inside
        simp only [inside, if_false] at enough
        split
        · rfl
        · rename_i w found
          simp only [found] at enough
          split
          · rename_i next stepped
            simp only [stepped] at enough
            exact ih enough le
          · rename_i label next stepped
            simp only [stepped] at enough
            exact ih enough le
          · rfl
          · rename_i index stepped
            simp only [stepped] at enough
            split
            · rfl
            · rename_i sub known
              simp only [known] at enough
              cases depth with
              | zero => exact ih enough le
              | succ depth =>
                  simp only at enough ⊢
                  have innerEnough : run m fuel depth sub.range.stop
                      (.enter sub.label s.cursor :: m.report events s w)
                      (.begin sub.range.start s.cursor) ≠ .exhausted := by
                    intro out
                    simp only [out] at enough
                    exact enough rfl
                  rw [ih innerEnough le]
                  split
                  · rename_i inner ran
                    simp only [ran] at enough
                    exact ih enough le
                  · rfl
                  · rfl

/-- With whatever fuel, a run comes to one outcome at most. -/
theorem run_unique {m : Setting} {fuel fuel' depth stop : Nat} {events : List Event} {s : State}
    {o o' : Outcome} (ran : run m fuel depth stop events s = .ended o)
    (ran' : run m fuel' depth stop events s = .ended o') : o = o' := by
  have more := run_mono m (by rw [ran]; nofun) (Nat.le_max_left fuel fuel')
  have more' := run_mono m (by rw [ran']; nofun) (Nat.le_max_right fuel fuel')
  rw [ran] at more
  rw [ran', more] at more'
  exact Run.ended.inj more'

end PegMachine.Machine
