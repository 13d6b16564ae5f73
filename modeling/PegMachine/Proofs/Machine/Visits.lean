/-
# PegMachine.Proofs.Machine.Visits — the states a run passes through

`Steps` leads from one state of a run to the next; a call is one step, however long its
subroutine takes. Runs are deterministic, so a run that begins at a path to the end of a
range cannot leave the path (`Path.advance`). Whatever state it visits, there the next
word finds what it needs, or else the range is left (`Path.secures`).

`Finishes` says of a run that ends what it does from its beginning to its end, without fuel, and
with the runs of the subroutines that it calls. So what every word keeps is kept by a run, by
induction on how it finishes.
-/
import Mathlib.Logic.Relation
import PegMachine.Proofs.Machine.Path

namespace PegMachine.Machine

set_option autoImplicit false

/-- One step of a run. -/
inductive Steps (b : Bytecode) (input : Array Char) : (depth stop : Nat) → State → State → Prop
  | next {depth stop : Nat} {s s' : State} {w : Word} (inside : s.pc < stop)
      (found : b.code[s.pc]? = some w) (stepped : step b input s w = .next s') :
      Steps b input depth stop s s'
  | announce {depth stop label : Nat} {s s' : State} {w : Word} (inside : s.pc < stop)
      (found : b.code[s.pc]? = some w) (stepped : step b input s w = .announce label s') :
      Steps b input depth stop s s'
  | refuse {stop index : Nat} {s : State} {w : Word} {sub : Subroutine} (inside : s.pc < stop)
      (found : b.code[s.pc]? = some w) (stepped : step b input s w = .call index)
      (known : b.subroutines[index]? = some sub) : Steps b input 0 stop s s.refuseCall
  | call {depth stop index fuel : Nat} {s : State} {w : Word} {sub : Subroutine}
      {earlier : List Event} {inner : Outcome} (inside : s.pc < stop)
      (found : b.code[s.pc]? = some w) (stepped : step b input s w = .call index)
      (known : b.subroutines[index]? = some sub)
      (ran : run ⟨b, input, false⟩ fuel depth sub.range.stop earlier
        (.begin sub.range.start s.cursor) = .ended inner) :
      Steps b input (depth + 1) stop s (s.resume inner.register inner.cursor)

/-- A run that is in one state comes to another. -/
abbrev Visits (b : Bytecode) (input : Array Char) (depth stop : Nat) : State → State → Prop :=
  Relation.ReflTransGen (Steps b input depth stop)

/-- A run that is in one state meets another: it comes to it itself, or a subroutine does that is
called on the way. -/
inductive Meets (b : Bytecode) (input : Array Char) : (depth stop : Nat) → State → State → Prop
  | here {depth stop : Nat} {s t : State} (visits : Visits b input depth stop s t) :
      Meets b input depth stop s t
  | inside {depth stop index : Nat} {s t u : State} {w : Word} {sub : Subroutine}
      (visits : Visits b input (depth + 1) stop s t) (inside : t.pc < stop)
      (found : b.code[t.pc]? = some w) (stepped : step b input t w = .call index)
      (known : b.subroutines[index]? = some sub)
      (meets : Meets b input depth sub.range.stop (.begin sub.range.start t.cursor) u) :
      Meets b input (depth + 1) stop s u

/-- A run of a range, begun with the cursor at a position, never does without something: every
word it comes to is an instruction that has what it needs, and it ends, with no marks and no
collections left over. -/
structure Secure (b : Bytecode) (input : Array Char) (depth : Nat) (range : CodeRange)
    (pos : Nat) : Prop where
  ready : ∀ s, Visits b input depth range.stop (.begin range.start pos) s → s.pc < range.stop →
    ∃ w op, Ready b range.stop s w op
  clear : ∀ s, Visits b input depth range.stop (.begin range.start pos) s → range.stop ≤ s.pc →
    s.marks = [] ∧ s.collections = []
  ends : ∃ s fuel events, Visits b input depth range.stop (.begin range.start pos) s ∧
    range.stop ≤ s.pc ∧
      run ⟨b, input, false⟩ fuel depth range.stop [] (.begin range.start pos) =
        .ended ⟨s.register, s.cursor, events⟩

/-! ## Runs to their end -/

/-- A run comes to this outcome from a state, having reported `events` before. -/
inductive Finishes (m : Setting) : (depth stop : Nat) → List Event → State → Outcome → Prop
  | left {depth stop : Nat} {events : List Event} {s : State} (beyond : stop ≤ s.pc) :
      Finishes m depth stop events s ⟨s.register, s.cursor, events⟩
  | next {depth stop : Nat} {events : List Event} {s s' : State} {w : Word} {o : Outcome}
      (inside : s.pc < stop) (found : m.bytecode.code[s.pc]? = some w)
      (stepped : step m.bytecode m.input s w = .next s')
      (rest : Finishes m depth stop (m.report events s w) s' o) : Finishes m depth stop events s o
  | announce {depth stop label : Nat} {events : List Event} {s s' : State} {w : Word} {o : Outcome}
      (inside : s.pc < stop) (found : m.bytecode.code[s.pc]? = some w)
      (stepped : step m.bytecode m.input s w = .announce label s')
      (rest : Finishes m depth stop (.rule label s.cursor :: m.report events s w) s' o) :
      Finishes m depth stop events s o
  | refuse {stop index : Nat} {events : List Event} {s : State} {w : Word} {sub : Subroutine}
      {o : Outcome} (inside : s.pc < stop) (found : m.bytecode.code[s.pc]? = some w)
      (stepped : step m.bytecode m.input s w = .call index)
      (known : m.bytecode.subroutines[index]? = some sub)
      (rest : Finishes m 0 stop (.refused sub.label s.cursor :: m.report events s w) s.refuseCall o) :
      Finishes m 0 stop events s o
  | call {depth stop index : Nat} {events : List Event} {s : State} {w : Word} {sub : Subroutine}
      {inner o : Outcome} (inside : s.pc < stop) (found : m.bytecode.code[s.pc]? = some w)
      (stepped : step m.bytecode m.input s w = .call index)
      (known : m.bytecode.subroutines[index]? = some sub)
      (body : Finishes m depth sub.range.stop (.enter sub.label s.cursor :: m.report events s w)
        (.begin sub.range.start s.cursor) inner)
      (rest : Finishes m (depth + 1) stop
        (.leave sub.label inner.register.isOk (s.resume inner.register inner.cursor).cursor ::
          inner.events) (s.resume inner.register inner.cursor) o) :
      Finishes m (depth + 1) stop events s o

theorem Finishes.of_run {m : Setting} {fuel depth stop : Nat} {events : List Event} {s : State}
    {o : Outcome} (ran : run m fuel depth stop events s = .ended o) :
    Finishes m depth stop events s o := by
  induction fuel generalizing depth stop events s o with
  | zero => cases ran
  | succ fuel ih =>
      rw [run] at ran
      split at ran
      · rename_i beyond
        obtain rfl := Run.ended.inj ran
        exact .left beyond
      · rename_i inside
        have inside := Nat.not_le.mp inside
        split at ran
        · cases ran
        · rename_i w found
          dsimp only at ran
          split at ran
          · rename_i next stepped
            exact .next inside found stepped (ih ran)
          · rename_i label next stepped
            exact .announce inside found stepped (ih ran)
          · cases ran
          · rename_i index stepped
            split at ran
            · cases ran
            · rename_i sub known
              split at ran
              · exact .refuse inside found stepped known (ih ran)
              · split at ran
                · rename_i inner ended
                  exact .call inside found stepped known (ih ended) (ih ran)
                · cases ran
                · cases ran

/-! ## Along a path -/

namespace Path

variable {b : Bytecode} {input : Array Char} {depth stop : Nat} {s t u : State}
variable {events : List Event}

/-- A path is a run. -/
theorem visits (path : Path b input depth stop s events t) : Visits b input depth stop s t := by
  induction path with
  | stay => exact .refl
  | next ready executed _ ih =>
      exact .head (.next ready.inside ready.found ((step_eq ready.known).trans executed)) ih
  | announce ready executed _ ih =>
      exact .head (.announce ready.inside ready.found ((step_eq ready.known).trans executed)) ih
  | refuse ready executed known _ ih =>
      exact .head (.refuse ready.inside ready.found ((step_eq ready.known).trans executed) known) ih
  | call ready executed known body left _ _ _ ih =>
      obtain ⟨fuel, ran⟩ := body.ends left
      exact .head (.call ready.inside ready.found ((step_eq ready.known).trans executed) known ran) ih

/-- A run that has not come to the end of a path goes on along it. -/
theorem advance (path : Path b input depth stop s events t) (left : stop ≤ t.pc)
    (steps : Steps b input depth stop s u) : ∃ events', Path b input depth stop u events' t := by
  cases path with
  | stay => cases steps <;> exact absurd left (Nat.not_le.mpr (by assumption))
  | next ready executed rest =>
      have same := (step_eq ready.known).trans executed
      cases steps with
      | next _ found stepped =>
          obtain rfl := Option.some.inj (ready.found.symm.trans found)
          obtain rfl := Step.next.inj (same.symm.trans stepped)
          exact ⟨_, rest⟩
      | announce _ found stepped | refuse _ found stepped | call _ found stepped =>
          obtain rfl := Option.some.inj (ready.found.symm.trans found)
          nomatch same.symm.trans stepped
  | announce ready executed rest =>
      have same := (step_eq ready.known).trans executed
      cases steps with
      | announce _ found stepped =>
          obtain rfl := Option.some.inj (ready.found.symm.trans found)
          obtain ⟨-, rfl⟩ := Step.announce.inj (same.symm.trans stepped)
          exact ⟨_, rest⟩
      | next _ found stepped | refuse _ found stepped | call _ found stepped =>
          obtain rfl := Option.some.inj (ready.found.symm.trans found)
          nomatch same.symm.trans stepped
  | refuse ready executed known rest =>
      have same := (step_eq ready.known).trans executed
      cases steps with
      | refuse => exact ⟨_, rest⟩
      | next _ found stepped | announce _ found stepped =>
          obtain rfl := Option.some.inj (ready.found.symm.trans found)
          nomatch same.symm.trans stepped
  | call ready executed known body done _ rest =>
      have same := (step_eq ready.known).trans executed
      cases steps with
      | @call _ _ _ _ _ _ _ earlier _ _ found stepped known' ran =>
          obtain rfl := Option.some.inj (ready.found.symm.trans found)
          obtain rfl := Step.call.inj (same.symm.trans stepped)
          obtain rfl := Option.some.inj (known.symm.trans known')
          -- The subroutine ends as its path does, whatever was reported before.
          obtain ⟨fuel, along⟩ := body.comes (comes_of_left done)
          obtain rfl := run_unique along ran
          exact ⟨_, rest⟩
      | next _ found stepped | announce _ found stepped =>
          obtain rfl := Option.some.inj (ready.found.symm.trans found)
          nomatch same.symm.trans stepped

/-- A run never leaves a path to its end. -/
theorem stays_on (path : Path b input depth stop s events t) (left : stop ≤ t.pc)
    (visits : Visits b input depth stop s u) : ∃ events', Path b input depth stop u events' t := by
  induction visits with
  | refl => exact ⟨_, path⟩
  | tail _ steps ih =>
      obtain ⟨_, path⟩ := ih
      exact path.advance left steps

/-- Before the end of a path the next word has what it needs. -/
theorem ready (path : Path b input depth stop s events t) (left : stop ≤ t.pc)
    (inside : s.pc < stop) : ∃ w op, Ready b stop s w op := by
  cases path with
  | stay => exact absurd left (Nat.not_le.mpr inside)
  | next ready | announce ready | refuse ready | call ready => exact ⟨_, _, ready⟩

/-- Beyond the range there is only the end of a path. -/
theorem eq_of_left (path : Path b input depth stop s events t) (left : stop ≤ s.pc) : s = t := by
  cases path with
  | stay => rfl
  | next ready | announce ready | refuse ready | call ready =>
      exact absurd ready.inside (Nat.not_lt.mpr left)

/-- A run along a path that leaves its range cleanly is secure. -/
theorem secures {range : CodeRange} {pos : Nat}
    (path : Path b input depth range.stop (.begin range.start pos) events t)
    (left : range.stop ≤ t.pc) (clean : t.marks = [] ∧ t.collections = []) :
    Secure b input depth range pos where
  ready s visits inside := by
    obtain ⟨_, path⟩ := path.stays_on left visits
    exact path.ready left inside
  clear s visits beyond := by
    obtain ⟨_, path⟩ := path.stays_on left visits
    obtain rfl := path.eq_of_left beyond
    exact clean
  ends := by
    obtain ⟨fuel, ran⟩ := path.ends left
    exact ⟨t, fuel, events, path.visits, left, ran⟩

end Path

end PegMachine.Machine
