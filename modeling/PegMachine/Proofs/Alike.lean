/-
# PegMachine.Proofs.Alike — behaviours that cannot be told apart

Two outcomes are alike if they yield the same datum and the same end, or fail with
diagnostics about the same position, and if neither or both of them had a call refused.
What a diagnostic says, where a failure leaves the cursor and which rules are reported
does not count. Every operator makes alike behaviours of alike parts.

Alternatives may be regrouped. What a choice tries is an associative combination of its
alternatives (`choose_append`), so a choice among them may be dissolved, and neighbours
may be replaced by anything that does the same as trying them in order
(`AlikeLists`). Tests that can be merged are an instance (`tests_alike`), and a
repetition of a test is a run of characters (`many_alike_scan`).
-/
import Mathlib.Data.List.Forall2
import PegMachine.Proofs.Meaning.Settles

namespace PegMachine.Machine

set_option autoImplicit false

/-! ## Outcomes -/

/-- The same datum and end, or a failure about the same position, and refused calls in
neither or in both. -/
def Outcome.Alike (o o' : Outcome) : Prop :=
  o.result = o'.result ∧ (Unrefused o.events ↔ Unrefused o'.events)

namespace Outcome

variable {o o' : Outcome}

theorem Alike.refl (o : Outcome) : o.Alike o := ⟨rfl, .rfl⟩

theorem Alike.symm (alike : o.Alike o') : o'.Alike o := ⟨alike.1.symm, alike.2.symm⟩

theorem Alike.trans {o'' : Outcome} (first : o.Alike o') (second : o'.Alike o'') : o.Alike o'' :=
  ⟨first.1.trans second.1, first.2.trans second.2⟩

/-- Both succeed alike, or both fail. -/
theorem Alike.cases (alike : o.Alike o') :
    (∃ d, o.register = .ok d ∧ o'.register = .ok d ∧ o.cursor = o'.cursor) ∨
      ∃ e e', o.register = .error e ∧ o'.register = .error e' ∧ e.pos = e'.pos := by
  have same := alike.1
  cases done : o.register with
  | ok d =>
      cases done' : o'.register with
      | ok d' =>
          rw [result_ok done, result_ok done'] at same
          obtain ⟨rfl, cursor⟩ := Grammar.Result.matched.inj same
          exact .inl ⟨d, rfl, rfl, cursor⟩
      | error e' =>
          rw [result_ok done, result_error done'] at same
          nomatch same
  | error e =>
      cases done' : o'.register with
      | ok d' =>
          rw [result_error done, result_ok done'] at same
          nomatch same
      | error e' =>
          rw [result_error done, result_error done'] at same
          exact .inr ⟨e, e', rfl, rfl, Grammar.Result.failed.inj same⟩

theorem Alike.after (alike : o.Alike o') {earlier earlier' : List Event}
    (before : Unrefused earlier ↔ Unrefused earlier') :
    (o.after earlier).Alike (o'.after earlier') := by
  constructor
  · exact alike.1
  · rw [after_events, after_events, unrefused_append, unrefused_append, alike.2, before]

theorem Alike.orBack (alike : o.Alike o') (pos : Nat) : (o.orBack pos).Alike (o'.orBack pos) := by
  constructor
  · rw [result_orBack, result_orBack, alike.1]
  · rw [orBack_events, orBack_events, alike.2]

theorem Alike.andThen (alike : o.Alike o') {next next' : Datum → Nat → Outcome}
    (rest : ∀ d p, (next d p).Alike (next' d p)) : (o.andThen next).Alike (o'.andThen next') := by
  rcases alike.cases with ⟨d, done, done', cursor⟩ | ⟨e, e', done, done', -⟩
  · rw [andThen_ok done, andThen_ok done', cursor]
    exact (rest d o'.cursor).after alike.2
  · rwa [andThen_error done, andThen_error done']

/-- Go on with something else after a failure. -/
def orElse (o next : Outcome) : Outcome :=
  match o.register with
  | .ok _ => o
  | .error _ => next.after o.events

theorem orElse_after (o next : Outcome) (earlier : List Event) :
    (o.orElse next).after earlier = (o.after earlier).orElse next := by
  cases done : o.register with
  | ok d => simp [orElse, done]
  | error e => simp [orElse, done, after]

theorem Alike.orElse {next next' : Outcome} (alike : o.Alike o') (rest : next.Alike next') :
    (o.orElse next).Alike (o'.orElse next') := by
  rcases alike.cases with ⟨d, done, done', -⟩ | ⟨e, e', done, done', -⟩
  · simp only [Outcome.orElse, done, done']
    exact alike
  · simp only [Outcome.orElse, done, done']
    exact rest.after alike.2

end Outcome

/-! ## Behaviours -/

namespace Behaviour

variable {input : Array Char} {first first' second second' body body' : Behaviour input}

/-- Alike from every position. -/
def Alike (body body' : Behaviour input) : Prop := ∀ pos, (body pos).Alike (body' pos)

theorem Alike.refl (body : Behaviour input) : body.Alike body := fun _ => .refl _

theorem Alike.symm (alike : body.Alike body') : body'.Alike body := fun pos => (alike pos).symm

theorem Alike.trans {body'' : Behaviour input} (alike : body.Alike body')
    (alike' : body'.Alike body'') : body.Alike body'' := fun pos => (alike pos).trans (alike' pos)

theorem items_alike {parts parts' : List (Behaviour input)} (alike : List.Forall₂ Alike parts parts')
    (collected : List Datum) (pos : Nat) :
    (items parts collected pos).Alike (items parts' collected pos) := by
  induction alike generalizing collected pos with
  | nil => exact .refl _
  | cons head _ ih => exact (head pos).andThen fun d stop => ih (d :: collected) stop

theorem sequence_alike {parts parts' : List (Behaviour input)}
    (alike : List.Forall₂ Alike parts parts') (f : Option Combiner) :
    (sequence parts f).Alike (sequence parts' f) := by
  intro pos
  have items := items_alike alike [] pos
  exact (items.andThen fun _ _ => .refl _).orBack pos

theorem keepLeft_alike (left : first.Alike first') (right : second.Alike second') :
    (keepLeft first second).Alike (keepLeft first' second') := by
  intro pos
  have both := (left pos).andThen fun d stop =>
    (right stop).andThen fun _ stop => .refl ⟨.ok d, stop, []⟩
  exact both.orBack pos

theorem keepRight_alike (left : first.Alike first') (right : second.Alike second') :
    (keepRight first second).Alike (keepRight first' second') := by
  intro pos
  have both := (left pos).andThen fun _ stop => right stop
  exact both.orBack pos

theorem followedBy_alike (left : first.Alike first') (right : second.Alike second') :
    (provided first second demand).Alike (provided first' second' demand) := by
  have decided (d : Datum) (stop : Nat) :
      (⟨demand d stop (second stop).register, stop, (second stop).events⟩ : Outcome).Alike
        ⟨demand d stop (second' stop).register, stop, (second' stop).events⟩ := by
    refine ⟨?_, (right stop).2⟩
    rcases (right stop).cases with ⟨d', done, done', -⟩ | ⟨e, e', done, done', same⟩
    · simp [Outcome.result, demand, done, done']
    · simp [Outcome.result, demand, done, done', same]
  intro pos
  exact ((left pos).andThen decided).orBack pos

theorem notFollowedBy_alike (left : first.Alike first') (right : second.Alike second')
    (label label' : Nat) :
    (provided first second (forbid input label)).Alike
      (provided first' second' (forbid input label')) := by
  have decided (d : Datum) (stop : Nat) :
      (⟨forbid input label d stop (second stop).register, stop, (second stop).events⟩ :
        Outcome).Alike
        ⟨forbid input label' d stop (second' stop).register, stop, (second' stop).events⟩ := by
    refine ⟨?_, (right stop).2⟩
    rcases (right stop).cases with ⟨d', done, done', -⟩ | ⟨e, e', done, done', -⟩
    · simp [Outcome.result, forbid, done, done', Diagnostic.pos]
    · simp [Outcome.result, forbid, done, done']
  intro pos
  exact ((left pos).andThen decided).orBack pos

theorem optional_alike (alike : body.Alike body') (fallback : Datum) :
    (optional body fallback).Alike (optional body' fallback) := by
  intro pos
  simp only [optional]
  rcases (alike pos).cases with ⟨d, done, done', -⟩ | ⟨e, e', done, done', -⟩
  · simp only [done, done']
    exact alike pos
  · simp only [done, done']
    exact ⟨rfl, (alike pos).2⟩

theorem loop_alike (alike : body.Alike body') (most : Nat) (collected : List Datum) (pos : Nat) :
    (loop body most collected pos).Alike (loop body' most collected pos) := by
  induction most generalizing collected pos with
  | zero => exact .refl _
  | succ most ih =>
      rw [loop, loop]
      rcases (alike pos).cases with ⟨d, done, done', cursor⟩ | ⟨e, e', done, done', -⟩
      · simp only [done, done', cursor]
        split
        · exact (ih _ _).after (alike pos).2
        · exact ⟨rfl, (alike pos).2⟩
      · simp only [done, done']
        exact ⟨rfl, (alike pos).2⟩

/-- Enough items for one label are enough for another. -/
theorem enough_alike (least label label' : Nat) (d : Datum) (pos : Nat) :
    (enough ⟨least, label⟩ d pos).Alike (enough ⟨least, label'⟩ d pos) := by
  rw [enough, enough]
  by_cases large : least ≤ d.items.length
  · simp only [large, if_true]
    exact .refl _
  · simp only [large, if_false]
    exact ⟨rfl, .rfl⟩

theorem many_alike (alike : body.Alike body') (least label label' : Nat) :
    (many body ⟨least, label⟩).Alike (many body' ⟨least, label'⟩) := by
  intro pos
  have rounds := loop_alike alike (rounds input pos) [] pos
  exact rounds.andThen (enough_alike least label label')

theorem transform_alike (alike : body.Alike body') (f : Transform) :
    (transform f body).Alike (transform f body') := by
  intro pos
  have made := (alike pos).andThen fun d stop => .refl ⟨.ofResult (f d) stop, stop, []⟩
  exact made.orBack pos

theorem announced_alike (label : Nat) (body : Behaviour input) : (announced label body).Alike body := by
  intro pos
  refine ⟨rfl, ?_⟩
  have none : Unrefused [.rule label pos] := by simp [Unrefused]
  simp only [announced, Outcome.after_events, unrefused_append, none, and_true]

theorem called_alike (alike : body.Alike body') (label label' : Nat) :
    (called label body).Alike (called label' body') := by
  intro pos
  have back := (alike pos).orBack pos
  refine ⟨back.1, ?_⟩
  simp only [called, Unrefused, List.mem_cons, List.mem_append, reduceCtorEq, false_or,
    List.not_mem_nil, or_false]
  exact back.2

/-! ## Reading the input -/

theorem test_alike (t : CharTest) (label label' : Nat) :
    (test ⟨t, label⟩ : Behaviour input).Alike (test ⟨t, label'⟩) := by
  intro pos
  refine ⟨?_, .rfl⟩
  simp only [test, readTest, Outcome.result]
  cases t.accept? input pos <;> rfl

theorem scan_alike (t : CharTest) (least label label' : Nat) :
    (scan ⟨t, least, label⟩ : Behaviour input).Alike (scan ⟨t, least, label'⟩) := by
  intro pos
  refine ⟨?_, .rfl⟩
  simp only [scan, readRun, Outcome.result]
  by_cases enough : least ≤ (acceptRun t input (input.size - pos) pos).1.length
  · simp only [enough, if_true]
  · simp only [enough, if_false]
    rfl

theorem acceptRun_nil {t : CharTest} {most pos : Nat} (nothing : (acceptRun t input most pos).1 = []) :
    (acceptRun t input most pos).2 = pos := by
  cases most with
  | zero => rfl
  | succ most =>
      rw [acceptRun] at nothing ⊢
      split at nothing
      · rfl
      · cases nothing

/-- A repetition of a test that asks for one character at most is a run of characters. -/
theorem many_alike_scan (t : CharTest) {least : Nat} (modest : least ≤ 1) (label label' label'' : Nat) :
    (many (test ⟨t, label⟩) ⟨least, label'⟩ : Behaviour input).Alike (scan ⟨t, least, label''⟩) := by
  intro pos
  have run : (loop (test ⟨t, label⟩) (rounds input pos) [] pos) = _ :=
    loop_test ⟨t, label⟩ (Nat.le_refl _) []
  have list (ds : List Datum) : (Datum.list ds).items = ds := rfl
  simp only [many, run, List.reverse_nil, List.nil_append]
  rw [Outcome.andThen_ok rfl]
  simp only [enough, list, scan, readRun]
  by_cases enough : least ≤ (acceptRun t input (input.size - pos) pos).1.length
  · simp only [enough, if_true]
    exact .refl _
  · have nothing : (acceptRun t input (input.size - pos) pos).1 = [] :=
      List.eq_nil_of_length_eq_zero (by omega)
    simp only [enough, if_false]
    refine ⟨?_, .rfl⟩
    simpa [Outcome.result, Diagnostic.pos] using acceptRun_nil nothing

/-! ## Alternatives -/

/-- A choice tries its alternatives as two choices would, one after the other. -/
theorem choose_append (first : Behaviour input) (rest : List (Behaviour input))
    (next : Behaviour input) (others : List (Behaviour input)) (pos : Nat) :
    choose first (rest ++ next :: others) pos =
      (choose first rest pos).orElse (choose next others pos) := by
  induction rest generalizing first with
  | nil => rfl
  | cons x rest ih =>
      rw [List.cons_append, choose, choose, ih]
      cases done : (first pos).register with
      | ok d => simp only [Outcome.orElse, done]
      | error e => simp only [Outcome.orElse_after]

/-- Two lists of alternatives between which a choice makes no difference. -/
def AlikeLists : List (Behaviour input) → List (Behaviour input) → Prop
  | [], [] => True
  | first :: rest, first' :: rest' => ∀ pos, (choose first rest pos).Alike (choose first' rest' pos)
  | _, _ => False

theorem AlikeLists.append {xs xs' ys ys' : List (Behaviour input)} (front : AlikeLists xs xs')
    (back : AlikeLists ys ys') : AlikeLists (xs ++ ys) (xs' ++ ys') := by
  match xs, xs', ys, ys', front, back with
  | [], [], ys, ys', _, back => exact back
  | x :: xs, x' :: xs', [], [], front, _ => simpa using front
  | x :: xs, x' :: xs', y :: ys, y' :: ys', front, back =>
      show AlikeLists (x :: (xs ++ y :: ys)) (x' :: (xs' ++ y' :: ys'))
      intro pos
      rw [choose_append, choose_append]
      exact (front pos).orElse (back pos)

theorem AlikeLists.trans {xs ys zs : List (Behaviour input)} (first : AlikeLists xs ys)
    (second : AlikeLists ys zs) : AlikeLists xs zs := by
  match xs, ys, zs, first, second with
  | [], [], [], _, _ => trivial
  | x :: xs, y :: ys, z :: zs, first, second => exact fun pos => (first pos).trans (second pos)

/-- Alternatives that are alike one by one. -/
theorem alikeLists_of_forall₂ {xs ys : List (Behaviour input)} (alike : List.Forall₂ Alike xs ys) :
    AlikeLists xs ys := by
  induction alike with
  | nil => trivial
  | @cons x y xs ys head _ ih => exact AlikeLists.append (show AlikeLists [x] [y] from head) ih

/-- A choice of its own is tried as its alternatives are. -/
theorem choice_alike (first : Behaviour input) (rest : List (Behaviour input)) :
    AlikeLists [choice first rest] (first :: rest) := by
  intro pos
  constructor
  · exact Outcome.result_orBack _ _
  · simp only [choose, choice, Outcome.orBack_events]

theorem choice_alike_of_lists {first first' : Behaviour input} {rest rest' : List (Behaviour input)}
    (alike : AlikeLists (first :: rest) (first' :: rest')) :
    (choice first rest).Alike (choice first' rest') := by
  intro pos
  exact (alike pos).orBack pos

/-- Trying two tests in order is trying their union, if they are mergeable. -/
theorem tests_alike {s t : CharTest} (merge : s.mergeable t = true) (label label' label'' : Nat) :
    AlikeLists [test ⟨s, label⟩, test ⟨t, label'⟩]
      [(test ⟨s.union t, label''⟩ : Behaviour input)] := by
  intro pos
  have union := CharTest.accept?_union merge input pos
  cases accepted : s.accept? input pos with
  | some found =>
      simp only [accepted, Option.some_or] at union
      constructor <;> simp [choose, test, readTest, Outcome.result, accepted, union]
  | none =>
      simp only [accepted, Option.none_or] at union
      constructor
      · simp only [choose, test, readTest, Outcome.result, accepted, union, Outcome.after]
        cases t.accept? input pos <;> rfl
      · simp [choose, test, readTest, accepted, Outcome.after]

end Behaviour

end PegMachine.Machine
