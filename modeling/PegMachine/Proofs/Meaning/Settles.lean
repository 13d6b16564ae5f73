/-
# PegMachine.Proofs.Meaning.Settles — evaluations that come to a result

`Settles` says that an evaluation comes to a value whenever it has enough fuel. Where
named expressions are announced, it also says that the named expressions the evaluation
enters are the rules reported by given events, in the same order.

Evaluations settle if their parts do (`Settles.bind`). The two combinations for which this
is not enough are those that recurse: items of a sequence, and rounds of a repetition.
-/
import Mathlib.Data.List.Forall2
import PegMachine.Proofs.Behaviour
import PegMachine.Proofs.Meaning.Determined

namespace PegMachine.Machine

set_option autoImplicit false

open Grammar (Evaluation Result Entered)

/-! ## Events -/

/-- The rule that an event reports, and where it is entered. -/
def Event.rule? : Event → Option (Nat × Nat)
  | .rule label pos => some (label, pos)
  | _ => none

/-- The rules that events report. -/
def rules (events : List Event) : List (Nat × Nat) := events.filterMap Event.rule?

@[simp] theorem rules_nil : rules [] = [] := rfl

@[simp] theorem rules_append (later earlier : List Event) :
    rules (later ++ earlier) = rules later ++ rules earlier :=
  List.filterMap_append

/-- No call was refused. -/
def Unrefused (events : List Event) : Prop := ∀ label pos, Event.refused label pos ∉ events

/-- Whether an event is no refusal. -/
def Event.accepted : Event → Bool
  | .refused .. => false
  | _ => true

instance (events : List Event) : Decidable (Unrefused events) :=
  decidable_of_iff (∀ event ∈ events, event.accepted = true) <| by
    constructor
    · exact fun all label pos mem => nomatch all _ mem
    · intro clean event mem
      cases event with
      | refused label pos => exact absurd mem (clean label pos)
      | _ => rfl

theorem unrefused_append {later earlier : List Event} :
    Unrefused (later ++ earlier) ↔ Unrefused later ∧ Unrefused earlier := by
  simp only [Unrefused, List.mem_append, not_or, forall_and]

theorem unrefused_nil : Unrefused [] := fun _ _ mem => nomatch mem

/-- What an outcome comes to. -/
def Outcome.result (o : Outcome) : Result :=
  match o.register with
  | .ok d => .matched d o.cursor
  | .error e => .failed e.pos

theorem Outcome.result_ok {o : Outcome} {d : Datum} (done : o.register = .ok d) :
    o.result = .matched d o.cursor := by
  rw [result, done]

theorem Outcome.result_error {o : Outcome} {e : Diagnostic} (done : o.register = .error e) :
    o.result = .failed e.pos := by
  rw [result, done]

@[simp] theorem Outcome.result_after (o : Outcome) (earlier : List Event) :
    (o.after earlier).result = o.result := rfl

@[simp] theorem Outcome.result_orBack (o : Outcome) (pos : Nat) :
    (o.orBack pos).result = o.result := by
  cases done : o.register with
  | ok d => rw [orBack_ok done]
  | error e => rw [orBack_error done, result_error done, result_error (by exact done)]

theorem Behaviour.sequence_result {input : Array Char} (parts : List (Behaviour input))
    (f : Option Combiner) (pos : Nat) :
    (sequence parts f pos).result = ((items parts [] pos).andThen (made f)).result :=
  Outcome.result_orBack _ pos

/-! ## Settling -/

/-- An evaluation comes to a value whenever it has enough fuel, and if rules are reported,
enters what events report. -/
def Settles {α : Type} (traced : Bool) (indexOf : String → Nat) (eval : Nat → Evaluation α)
    (value : α) (events : List Event) : Prop :=
  ∃ names enough,
    (∀ fuel, enough ≤ fuel → ∀ entered, eval fuel entered = some (value, names ++ entered)) ∧
      (traced = true → rules events = names.map fun e => (indexOf e.1, e.2))

namespace Settles

variable {α β : Type} {traced : Bool} {indexOf : String → Nat} {events events' : List Event}

theorem pure (a : α) : Settles traced indexOf (fun _ => Pure.pure a) a [] :=
  ⟨[], 0, fun _ _ _ => rfl, fun _ => rfl⟩

theorem bind {eval : Nat → Evaluation α} {next : Nat → α → Evaluation β} {a : α} {b : β}
    (first : Settles traced indexOf eval a events)
    (rest : Settles traced indexOf (fun fuel => next fuel a) b events') :
    Settles traced indexOf (fun fuel => eval fuel >>= next fuel) b (events' ++ events) := by
  obtain ⟨names, enough, done, reported⟩ := first
  obtain ⟨names', enough', done', reported'⟩ := rest
  refine ⟨names' ++ names, max enough enough', ?_, ?_⟩
  · intro fuel le entered
    rw [List.append_assoc]
    exact Evaluation.bind_eq_some.mpr
      ⟨a, names ++ entered, done fuel (by omega) entered, done' fuel (by omega) _⟩
  · intro on
    rw [rules_append, reported' on, reported on, List.map_append]

/-- An evaluation, and something made of its value. -/
theorem last {eval : Nat → Evaluation α} {next : Nat → α → Evaluation β} {a : α} {b : β}
    (first : Settles traced indexOf eval a events) (made : ∀ fuel, next fuel a = Pure.pure b) :
    Settles traced indexOf (fun fuel => eval fuel >>= next fuel) b events := by
  have rest : Settles traced indexOf (fun fuel => next fuel a) b [] := by
    simp only [made]
    exact .pure b
  exact first.bind rest

/-- The events matter only for the rules they report. -/
theorem of_rules {eval : Nat → Evaluation α} {a : α} (settles : Settles traced indexOf eval a events)
    (same : rules events' = rules events) : Settles traced indexOf eval a events' := by
  obtain ⟨names, enough, done, reported⟩ := settles
  exact ⟨names, enough, done, fun on => by rw [same, reported on]⟩

/-- Go on with the value and the end of a match. -/
theorem andThen {o : Outcome} {next : Datum → Nat → Outcome} {eval : Nat → Evaluation Result}
    {cont : Nat → Datum → Nat → Evaluation Result} (clean : Unrefused (o.andThen next).events)
    (first : Unrefused o.events → Settles traced indexOf eval o.result o.events)
    (rest : ∀ d, Unrefused (next d o.cursor).events →
      Settles traced indexOf (fun fuel => cont fuel d o.cursor) (next d o.cursor).result
        (next d o.cursor).events) :
    Settles traced indexOf
      (fun fuel => eval fuel >>= fun result => match result with
        | .failed at' => return .failed at'
        | .matched value stop => cont fuel value stop)
      (o.andThen next).result (o.andThen next).events := by
  cases done : o.register with
  | error e =>
      rw [Outcome.andThen_error done] at clean ⊢
      rw [Outcome.result_error done] at first ⊢
      exact (first clean).last fun _ => rfl
  | ok d =>
      rw [Outcome.andThen_ok done, Outcome.after_events] at clean
      obtain ⟨cleanRest, cleanFirst⟩ := unrefused_append.mp clean
      rw [Outcome.andThen_ok done, Outcome.result_after, Outcome.after_events]
      rw [Outcome.result_ok done] at first
      exact (first cleanFirst).bind (rest d cleanRest)

end Settles

/-! ## Items, alternatives and rounds -/

section Lists

variable {input : Array Char} {traced : Bool} {indexOf : String → Nat}
variable {eval : Nat → Ref → Nat → Evaluation Result}

/-- Evaluating a reference comes to what a behaviour says, wherever no call is refused. -/
def Denoted (traced : Bool) (indexOf : String → Nat) (eval : Nat → Ref → Nat → Evaluation Result)
    (r : Ref) (body : Behaviour input) : Prop :=
  ∀ pos, Unrefused (body pos).events →
    Settles traced indexOf (fun fuel => eval fuel r pos) (body pos).result (body pos).events

/-- What the items of a sequence come to, if `collected` holds the data before them. -/
theorem items_settle {refs : List Ref} {parts : List (Behaviour input)}
    (denoted : List.Forall₂ (Denoted traced indexOf eval) refs parts) {collected : List Datum}
    {pos : Nat} (clean : Unrefused (Behaviour.items parts collected pos).events) :
    ∃ result, Settles traced indexOf (fun fuel => Evaluation.items (eval fuel) refs pos) result
        (Behaviour.items parts collected pos).events ∧
      match result with
      | .error at' => ∃ e, (Behaviour.items parts collected pos).register = .error e ∧ e.pos = at'
      | .ok (values, stop) =>
        (Behaviour.items parts collected pos).register = .ok (.list (collected.reverse ++ values)) ∧
          (Behaviour.items parts collected pos).cursor = stop := by
  induction denoted generalizing collected pos with
  | nil => exact ⟨.ok ([], pos), .pure _, by simp [Behaviour.items], rfl⟩
  | @cons r part refs parts first _ ih =>
      have first := first pos
      rw [Behaviour.items] at clean ⊢
      cases done : (part pos).register with
      | error e =>
          rw [Outcome.andThen_error done] at clean ⊢
          rw [Outcome.result_error done] at first
          exact ⟨.error e.pos, (first clean).last fun _ => rfl, e, done, rfl⟩
      | ok d =>
          rw [Outcome.andThen_ok done, Outcome.after_events] at clean
          obtain ⟨cleanRest, cleanFirst⟩ := unrefused_append.mp clean
          rw [Outcome.andThen_ok done, Outcome.after_events, Outcome.after_register,
            Outcome.after_cursor]
          rw [Outcome.result_ok done] at first
          obtain ⟨result, rest, same⟩ := ih cleanRest
          cases result with
          | error at' => exact ⟨.error at', (first cleanFirst).bind (rest.last fun _ => rfl), same⟩
          | ok found =>
              obtain ⟨values, stop⟩ := found
              refine ⟨.ok (d :: values, stop), (first cleanFirst).bind (rest.last fun _ => rfl), ?_⟩
              simpa using same

theorem choice_settles {r : Ref} {refs : List Ref} {first : Behaviour input}
    {rest : List (Behaviour input)} (head : Denoted traced indexOf eval r first)
    (tail : List.Forall₂ (Denoted traced indexOf eval) refs rest) {pos : Nat}
    (clean : Unrefused (Behaviour.choose first rest pos).events) :
    Settles traced indexOf (fun fuel => Evaluation.choice (eval fuel) (r :: refs) pos)
      (Behaviour.choose first rest pos).result (Behaviour.choose first rest pos).events := by
  induction tail generalizing r first with
  | nil => exact head pos clean
  | @cons r' next refs rest denoted _ ih =>
      have head := head pos
      rw [Behaviour.choose] at clean ⊢
      cases done : (first pos).register with
      | ok d =>
          simp only [done] at clean ⊢
          rw [Outcome.result_ok done] at head ⊢
          exact (head clean).last fun _ => rfl
      | error e =>
          simp only [done, Outcome.after_events] at clean ⊢
          obtain ⟨cleanRest, cleanFirst⟩ := unrefused_append.mp clean
          rw [Outcome.result_after]
          rw [Outcome.result_error done] at head
          exact (head cleanFirst).bind (ih denoted cleanRest)

/-- What the rounds of a repetition come to, if `collected` holds the data before them. Fuel
is needed for each round and for their number. -/
theorem loop_settles {body : Behaviour input} {eval : Nat → Nat → Evaluation Result}
    (denoted : ∀ pos, Unrefused (body pos).events →
      Settles traced indexOf (fun fuel => eval fuel pos) (body pos).result (body pos).events)
    {most pos : Nat} {collected : List Datum} (many : Behaviour.rounds input pos ≤ most)
    (clean : Unrefused (Behaviour.loop body most collected pos).events) :
    ∃ values, (Behaviour.loop body most collected pos).register =
        .ok (.list (collected.reverse ++ values)) ∧
      ∃ names enough,
        (∀ fuel turns, enough ≤ fuel → enough ≤ turns → ∀ entered,
          Evaluation.repeated (eval fuel) turns pos entered =
            some ((values, (Behaviour.loop body most collected pos).cursor), names ++ entered)) ∧
        (traced = true → rules (Behaviour.loop body most collected pos).events =
          names.map fun e => (indexOf e.1, e.2)) := by
  induction most generalizing pos collected with
  | zero => simp [Behaviour.rounds] at many
  | succ most ih =>
      have round := denoted pos
      have within := body.within pos
      rw [Behaviour.loop] at clean ⊢
      cases done : (body pos).register with
      | error e =>
          simp only [done] at clean ⊢
          rw [Outcome.result_error done] at round
          obtain ⟨names, enough, settled, reported⟩ := round clean
          refine ⟨[], by simp, names, enough + 1, ?_, reported⟩
          intro fuel turns le le' entered
          obtain ⟨turns, rfl⟩ : ∃ k, turns = k + 1 := ⟨turns - 1, by omega⟩
          exact Evaluation.bind_eq_some.mpr ⟨_, _, settled fuel (by omega) entered, rfl⟩
      | ok d =>
          simp only [done] at clean ⊢
          rw [Outcome.result_ok done] at round
          by_cases moved : pos < (body pos).cursor
          · simp only [moved, if_true, Outcome.after_events, Outcome.after_register,
              Outcome.after_cursor] at clean ⊢
            obtain ⟨cleanRest, cleanRound⟩ := unrefused_append.mp clean
            have fewer : Behaviour.rounds input (body pos).cursor ≤ most := by
              simp only [Behaviour.rounds, Outcome.Within] at *
              omega
            obtain ⟨values, ok, names, enough, settled, reported⟩ := ih fewer cleanRest
            obtain ⟨names', enough', settled', reported'⟩ := round cleanRound
            refine ⟨d :: values, by simpa using ok, names ++ names', max enough enough' + 1,
              ?_, ?_⟩
            · intro fuel turns le le' entered
              obtain ⟨turns, rfl⟩ : ∃ k, turns = k + 1 := ⟨turns - 1, by omega⟩
              refine Evaluation.bind_eq_some.mpr ⟨_, _, settled' fuel (by omega) entered, ?_⟩
              simp only [moved, if_true, List.append_assoc]
              exact Evaluation.bind_eq_some.mpr
                ⟨_, _, settled fuel turns (by omega) (by omega) _, rfl⟩
            · intro on
              rw [rules_append, reported on, reported' on, List.map_append]
          · simp only [moved, if_false] at clean ⊢
            obtain ⟨names, enough, settled, reported⟩ := round clean
            refine ⟨[d], by simp, names, enough + 1, ?_, reported⟩
            intro fuel turns le le' entered
            obtain ⟨turns, rfl⟩ : ∃ k, turns = k + 1 := ⟨turns - 1, by omega⟩
            refine Evaluation.bind_eq_some.mpr ⟨_, _, settled fuel (by omega) entered, ?_⟩
            simp only [moved, if_false]
            rfl

end Lists

end PegMachine.Machine
