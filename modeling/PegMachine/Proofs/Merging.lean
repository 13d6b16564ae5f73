/-
# PegMachine.Proofs.Merging — merged tests accept what the first of them would

Where two tests may be merged, their union accepts at every position what the first accepts,
or else what the second does (`CharTest.accept?_union`): the same character, and as much of the
input. So does a whole row of tests that is folded from the left, each of them mergeable with
the union of those in front of it (`accept?_of_fold?`).

The alternatives of a choice are merged in this way wherever tests stand side by side. Whatever
the others yield, the first alternative that yields anything yields the same before and
after (`mergeAlternatives_first`): one step takes the next alternative into what is there
(`Merging.step_first`), and the run is an induction over the alternatives.
-/
import PegMachine.Grammar.Condense

namespace PegMachine

set_option autoImplicit false

/-- What comes first is tried first. -/
theorem findSome?_cons_or {α β : Type} (f : α → Option β) (a : α) (rest : List α) :
    (a :: rest).findSome? f = (f a).or (rest.findSome? f) := by
  rw [← List.singleton_append, List.findSome?_append, List.findSome?_singleton]

namespace CharTest

/-- Fold tests from the left into one, as long as each is mergeable with the union of those in
front of it. -/
def fold? (first : CharTest) : List CharTest → Option CharTest
  | [] => some first
  | t :: rest => if first.mergeable t then (first.union t).fold? rest else none

/-- A fold accepts what the first of its tests does that accepts anything. -/
theorem accept?_of_fold? {first merged : CharTest} {rest : List CharTest}
    (folded : first.fold? rest = some merged) (input : Array Char) (pos : Nat) :
    merged.accept? input pos = (first :: rest).findSome? (·.accept? input pos) := by
  induction rest generalizing first with
  | nil =>
      obtain rfl := Option.some.inj folded
      exact List.findSome?_singleton.symm
  | cons t rest ih =>
      rw [fold?] at folded
      split at folded
      · rename_i merge
        rw [ih folded, findSome?_cons_or, findSome?_cons_or, findSome?_cons_or, accept?_union merge,
          Option.or_assoc]
      · nomatch folded

end CharTest

namespace Grammar

open CharTest (fold?)

/-- What an alternative yields at a position. A test yields the character it accepts and how much of
the input that takes; `others` says what alternatives yield that are no tests. -/
def Alternative.yield? (others : Alternative → Option (Char × Nat)) (input : Array Char) (pos : Nat)
    (a : Alternative) : Option (Char × Nat) :=
  match a.test with
  | some t => t.accept? input pos
  | none => others a

section Merging

variable {others : Alternative → Option (Char × Nat)} {input : Array Char} {pos : Nat}

theorem merge?_eq_some {first later both : Alternative} (merged : first.merge? later = some both) :
    ∃ s t, first.test = some s ∧ later.test = some t ∧ s.mergeable t = true ∧
      both.test = some (s.union t) := by
  rw [Alternative.merge?] at merged
  split at merged
  · rename_i s t tested tested'
    split at merged
    · rename_i merge
      obtain rfl := Option.some.inj merged
      exact ⟨s, t, tested, tested', merge, rfl⟩
    · nomatch merged
  · nomatch merged

/-- The one alternative for two yields what the first of them does that yields anything. -/
theorem yield?_merge? {first later both : Alternative} (merged : first.merge? later = some both) :
    both.yield? others input pos = (first.yield? others input pos).or (later.yield? others input pos) := by
  obtain ⟨s, t, tested, tested', merge, union⟩ := merge?_eq_some merged
  simp only [Alternative.yield?, tested, tested', union]
  exact CharTest.accept?_union merge input pos

/-- An alternative that is taken in is tried after those that are there. -/
theorem Merging.step_first (m : Merging) (next : Alternative) :
    (m.step next).done.reverse.findSome? (·.yield? others input pos) =
      (m.done.reverse.findSome? (·.yield? others input pos)).or (next.yield? others input pos) := by
  simp only [Merging.step]
  split
  · rename_i nothing
    rw [nothing, List.reverse_nil, List.reverse_singleton, List.findSome?_singleton]
    rfl
  · rename_i last earlier before
    have tried : m.done.reverse.findSome? (·.yield? others input pos) =
        (earlier.reverse.findSome? (·.yield? others input pos)).or (last.yield? others input pos) := by
      rw [before, List.reverse_cons, List.findSome?_append, List.findSome?_singleton]
    split
    · rename_i both merged
      rw [tried, List.reverse_cons, List.findSome?_append, List.findSome?_singleton,
        yield?_merge? merged, Option.or_assoc]
    · rw [List.reverse_cons, List.findSome?_append, List.findSome?_singleton, ← before]

/-- The first alternative that yields anything yields the same before and after merging. -/
theorem mergeAlternatives_first (alternatives : List Alternative) :
    (mergeAlternatives alternatives).done.reverse.findSome? (·.yield? others input pos) =
      alternatives.findSome? (·.yield? others input pos) := by
  suffices ∀ m : Merging,
      (alternatives.foldl Merging.step m).done.reverse.findSome? (·.yield? others input pos) =
        (m.done.reverse.findSome? (·.yield? others input pos)).or
          (alternatives.findSome? (·.yield? others input pos)) from this {}
  induction alternatives with
  | nil => exact fun m => Option.or_none.symm
  | cons next alternatives ih =>
      intro m
      rw [List.foldl_cons, ih, Merging.step_first, Option.or_assoc, findSome?_cons_or]

/-- Tests that can be folded are taken into a single alternative. -/
theorem foldl_step_fold? {first merged : CharTest} {rest : List CharTest}
    (folded : first.fold? rest = some merged) {alternatives : List Alternative}
    (tests : alternatives.map (·.test) = rest.map some) {a : Alternative} (tested : a.test = some first)
    (labels : List String) :
    (alternatives.foldl Merging.step ⟨[a], labels⟩).done.map (·.test) = [some merged] := by
  induction rest generalizing first alternatives a labels with
  | nil =>
      obtain rfl := Option.some.inj folded
      obtain rfl := List.map_eq_nil_iff.mp tests
      rw [← tested]
      rfl
  | cons t rest ih =>
      rw [fold?] at folded
      split at folded
      · rename_i merge
        obtain ⟨next, alternatives, rfl, tested', tests⟩ := List.map_eq_cons_iff.mp tests
        have step : Merging.step ⟨[a], labels⟩ next =
            ⟨[⟨none, some (first.union t), a.label ++ " | " ++ next.label⟩],
              (a.label ++ " | " ++ next.label) :: labels⟩ := by
          simp only [Merging.step, Alternative.merge?, tested, tested', merge, if_true]
        rw [List.foldl_cons, step]
        exact ih folded tests rfl _
      · nomatch folded

/-- A row of alternatives that are all tests and can be folded is merged into their fold alone. -/
theorem mergeAlternatives_fold? {first merged : CharTest} {rest : List CharTest}
    (folded : first.fold? rest = some merged) {alternatives : List Alternative}
    (tests : alternatives.map (·.test) = (first :: rest).map some) :
    (mergeAlternatives alternatives).done.map (·.test) = [some merged] := by
  obtain ⟨a, alternatives, rfl, tested, tests⟩ := List.map_eq_cons_iff.mp tests
  exact foldl_step_fold? folded tests tested []

/-- Merging makes no difference to what is accepted. Two tests that may be merged accept in order what
their union does, at every position of every input: the same character, and as much of the input. So do
any number of them that are folded from the left, and a choice whose alternatives are just these is merged
into their fold. In any choice the first alternative that yields anything yields the same before and
after its alternatives are merged. -/
theorem merging_transparent (input : Array Char) (pos : Nat) :
    (∀ first later : CharTest, first.mergeable later = true →
      (first.union later).accept? input pos = (first.accept? input pos).or (later.accept? input pos)) ∧
    (∀ (first merged : CharTest) (rest : List CharTest), first.fold? rest = some merged →
      merged.accept? input pos = (first :: rest).findSome? (·.accept? input pos) ∧
      ∀ alternatives : List Alternative, alternatives.map (·.test) = (first :: rest).map some →
        (mergeAlternatives alternatives).done.map (·.test) = [some merged]) ∧
    ∀ (others : Alternative → Option (Char × Nat)) (alternatives : List Alternative),
      (mergeAlternatives alternatives).done.reverse.findSome? (·.yield? others input pos) =
        alternatives.findSome? (·.yield? others input pos) := by
  refine ⟨fun first later merge => CharTest.accept?_union merge input pos, ?_,
    fun others => mergeAlternatives_first⟩
  intro first merged rest folded
  exact ⟨CharTest.accept?_of_fold? folded input pos, fun alternatives => mergeAlternatives_fold? folded⟩

/-- A complement with an escape, a backslash and an escape folded: an escape goes before the backslash,
which is taken alone at the end of the input. -/
theorem escapes_folded :
    ∃ merged, (CharTest.mk (CharClass.ofList ['n', '\\']).complement (.ofList ['n'])).fold?
        [.escaped (.ofList ['t']), .plain (.ofList ['\\'])] = some merged ∧
      merged.accept? #['a', '\\', 't', '\\'] 1 = some ('t', 2) ∧
      merged.accept? #['a', '\\', 't', '\\'] 3 = some ('\\', 1) := by
  obtain ⟨merged, folded⟩ : ∃ merged, (CharTest.mk (CharClass.ofList ['n', '\\']).complement (.ofList ['n'])).fold?
      [.escaped (.ofList ['t']), .plain (.ofList ['\\'])] = some merged := by
    exact Option.isSome_iff_exists.mp (by decide)
  have escape := (merging_transparent #['a', '\\', 't', '\\'] 1).2.1 _ _ _ folded
  have final := (merging_transparent #['a', '\\', 't', '\\'] 3).2.1 _ _ _ folded
  refine ⟨merged, folded, escape.1.trans ?_, final.1.trans ?_⟩ <;> decide

end Merging

end Grammar

end PegMachine
