/-
# PegMachine.Proofs.Machine.Path — runs in which every word finds what it needs

Where a word needs a mark, a collection or a datum that is not there, the machine does
without it. `State.Supports` says what each opcode needs; a `Path` leads from one state
of a range of code to a later one through words whose needs are met, and through calls
whose runs are such paths themselves and leave no marks or collections behind.

The machine follows a path (`Path.run`), so a run that begins at one has come to its end
with enough fuel. It never leaves the path either: see `Proofs.Machine.Visits`.
-/
import PegMachine.Machine.Run

namespace PegMachine.Machine

set_option autoImplicit false

/-- What a word with this opcode needs of the state. -/
def State.Supports (s : State) : Opcode → Prop
  | .unmark | .rewind | .restart | .loop => s.marks ≠ []
  | .discard | .gather => s.collections ≠ []
  | .push => s.collections ≠ [] ∧ s.isOk = true
  | .pop => ∃ d items outer, s.collections = (d :: items) :: outer
  | .combine => ∃ items, s.register = .ok (.list items)
  | _ => True

/-- The next word is inside the range, is an instruction, and has what it needs. -/
structure Ready (b : Bytecode) (stop : Nat) (s : State) (w : Word) (op : Opcode) : Prop where
  inside : s.pc < stop
  found : b.code[s.pc]? = some w
  known : Word.opcode? w = some op
  supported : s.Supports op

/-- From one state of a run to a later one, with what is reported on the way, the latest
first. -/
inductive Path (b : Bytecode) (input : Array Char) :
    (depth stop : Nat) → State → List Event → State → Prop
  | stay {depth stop : Nat} {s : State} : Path b input depth stop s [] s
  | next {depth stop : Nat} {s s' t : State} {w : Word} {op : Opcode} {events : List Event}
      (ready : Ready b stop s w op) (executed : execute b input s w op = .next s')
      (rest : Path b input depth stop s' events t) : Path b input depth stop s events t
  | announce {depth stop label : Nat} {s s' t : State} {w : Word} {op : Opcode}
      {events : List Event} (ready : Ready b stop s w op)
      (executed : execute b input s w op = .announce label s')
      (rest : Path b input depth stop s' events t) :
      Path b input depth stop s (events ++ [.rule label s.cursor]) t
  | refuse {stop index : Nat} {s t : State} {w : Word} {op : Opcode} {sub : Subroutine}
      {events : List Event} (ready : Ready b stop s w op)
      (executed : execute b input s w op = .call index)
      (known : b.subroutines[index]? = some sub)
      (rest : Path b input 0 stop s.refuseCall events t) :
      Path b input 0 stop s (events ++ [.refused sub.label s.cursor]) t
  | call {depth stop index : Nat} {s inner t : State} {w : Word} {op : Opcode} {sub : Subroutine}
      {within events : List Event} (ready : Ready b stop s w op)
      (executed : execute b input s w op = .call index)
      (known : b.subroutines[index]? = some sub)
      (body : Path b input depth sub.range.stop (.begin sub.range.start s.cursor) within inner)
      (left : sub.range.stop ≤ inner.pc) (clean : inner.marks = [] ∧ inner.collections = [])
      (rest : Path b input (depth + 1) stop (s.resume inner.register inner.cursor) events t) :
      Path b input (depth + 1) stop s
        (events ++ .leave sub.label inner.register.isOk
            (s.resume inner.register inner.cursor).cursor :: (within ++ [.enter sub.label s.cursor]))
        t

namespace Path

variable {b : Bytecode} {input : Array Char} {depth stop : Nat}

theorem trans {s t u : State} {earlier later : List Event}
    (first : Path b input depth stop s earlier t) (second : Path b input depth stop t later u) :
    Path b input depth stop s (later ++ earlier) u := by
  induction first with
  | stay => simpa using second
  | next ready executed _ ih => exact .next ready executed (ih second)
  | announce ready executed _ ih =>
      rw [← List.append_assoc]
      exact .announce ready executed (ih second)
  | refuse ready executed known _ ih =>
      rw [← List.append_assoc]
      exact .refuse ready executed known (ih second)
  | call ready executed known body left clean _ _ ih =>
      rw [← List.append_assoc]
      exact .call ready executed known body left clean (ih second)

/-- Go on from a path on which nothing is reported. -/
theorem before {s t u : State} {events : List Event} (first : Path b input depth stop s [] t)
    (second : Path b input depth stop t events u) : Path b input depth stop s events u := by
  simpa using first.trans second

/-- Go on along a path on which nothing is reported. -/
theorem andThen {s t u : State} {events : List Event} (first : Path b input depth stop s events t)
    (second : Path b input depth stop t [] u) : Path b input depth stop s events u := by
  simpa using first.trans second

/-! ## The machine follows paths -/

theorem step_eq {s : State} {w : Word} {op : Opcode} (known : Word.opcode? w = some op) :
    step b input s w = execute b input s w op := by
  rw [step, known]

/-- A run comes to an outcome with some amount of fuel. -/
def Comes (b : Bytecode) (input : Array Char) (depth stop : Nat) (earlier : List Event) (s : State)
    (o : Outcome) : Prop :=
  ∃ fuel, Machine.run ⟨b, input, false⟩ fuel depth stop earlier s = .ended o

theorem Comes.fuel {earlier : List Event} {s : State} {o : Outcome}
    (comes : Comes b input depth stop earlier s o) :
    ∃ enough, ∀ fuel, enough ≤ fuel →
      Machine.run ⟨b, input, false⟩ fuel depth stop earlier s = .ended o := by
  obtain ⟨enough, ran⟩ := comes
  refine ⟨enough, ?_⟩
  intro fuel le
  rw [run_mono _ (by rw [ran]; nofun) le, ran]

theorem comes_of_left {earlier : List Event} {s : State} (left : stop ≤ s.pc) :
    Comes b input depth stop earlier s ⟨s.register, s.cursor, earlier⟩ :=
  ⟨1, by rw [Machine.run, if_pos left]⟩

/-- A run comes to the same outcome from the beginning of a path as from its end. -/
theorem comes {s t : State} {events : List Event} (path : Path b input depth stop s events t)
    {earlier : List Event} {o : Outcome} (rest : Comes b input depth stop (events ++ earlier) t o) :
    Comes b input depth stop earlier s o := by
  induction path generalizing earlier o with
  | stay => exact rest
  | next ready executed _ ih =>
      obtain ⟨fuel, ran⟩ := ih rest
      refine ⟨fuel + 1, ?_⟩
      rw [Machine.run, if_neg (Nat.not_le.mpr ready.inside)]
      simp only [ready.found, step_eq ready.known, executed]
      exact ran
  | announce ready executed _ ih =>
      rw [List.append_assoc] at rest
      obtain ⟨fuel, ran⟩ := ih rest
      refine ⟨fuel + 1, ?_⟩
      rw [Machine.run, if_neg (Nat.not_le.mpr ready.inside)]
      simp only [ready.found, step_eq ready.known, executed]
      exact ran
  | refuse ready executed known _ ih =>
      rw [List.append_assoc] at rest
      obtain ⟨fuel, ran⟩ := ih rest
      refine ⟨fuel + 1, ?_⟩
      rw [Machine.run, if_neg (Nat.not_le.mpr ready.inside)]
      simp only [ready.found, step_eq ready.known, executed, known]
      exact ran
  | call ready executed known body left clean _ ihBody ih =>
      rw [List.append_assoc, List.cons_append, List.append_assoc] at rest
      obtain ⟨fuel, ran⟩ := (ih rest).fuel
      obtain ⟨fuelBody, ranBody⟩ := (ihBody (comes_of_left left)).fuel
      refine ⟨max fuel fuelBody + 1, ?_⟩
      rw [Machine.run, if_neg (Nat.not_le.mpr ready.inside)]
      simp only [ready.found, step_eq ready.known, executed, known]
      rw [show Setting.report ⟨b, input, false⟩ _ _ _ = _ from rfl,
        ranBody _ (Nat.le_max_right _ _)]
      exact ran _ (Nat.le_max_left _ _)

/-- A run along a path that leaves its range ends where the path does. -/
theorem ends {s t : State} {events : List Event} (path : Path b input depth stop s events t)
    (left : stop ≤ t.pc) : Comes b input depth stop [] s ⟨t.register, t.cursor, events⟩ :=
  path.comes (by rw [List.append_nil]; exact comes_of_left left)

end Path

end PegMachine.Machine
