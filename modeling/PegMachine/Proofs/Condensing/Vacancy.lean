/-
# PegMachine.Proofs.Condensing.Vacancy — what becomes of empty choices

An empty choice among the alternatives of a choice is dissolved like any other choice, and
then nothing is left of it. A choice of which nothing is left at all in this way is
`Vacant`: its condensed form is an empty choice (`Condensation.vacant_iff`). So a condensed
form reaches an empty choice if and only if the expression shows one: a vacant choice that
is not an alternative itself (`Condensation.shows_iff`).

Whatever else a condensed form reaches is a test, or a condensed form of something that
the expression reaches (`Condensation.reached`).
-/
import PegMachine.Proofs.Condensing.Completeness

namespace PegMachine.Grammar

set_option autoImplicit false

/-- A choice of which nothing is left once the choices among its alternatives are dissolved. -/
inductive Vacant (g : Grammar) : Ref → Prop
  | of_alternatives {r : Ref} {refs : List Ref}
      (alternatives : (g.expression r).alternatives? = some refs) (all : ∀ a ∈ refs, Vacant g a) :
      Vacant g r

/-- A vacant choice is reached that is not an alternative of a choice. -/
def Shows (g : Grammar) (root : Ref) : Prop :=
  g.Vacant root ∨ ∃ r, g.Reaches root r ∧ (g.expression r).alternatives? = none ∧
    ∃ child ∈ (g.expression r).children, g.Vacant child

/-! ## Alternatives -/

section Alternatives

variable {g : Grammar}

theorem Dissolves.mem {refs flat : List Ref} (dissolves : Dissolves g refs flat) :
    ∀ a ∈ flat, a ∈ refs ∨ ∃ r ∈ refs, a ∈ (g.expression r).children := by
  induction dissolves with
  | nil => exact fun _ mem => nomatch mem
  | keep _ ih =>
      refine List.forall_mem_cons.mpr ⟨.inl (.head _), ?_⟩
      intro a mem
      exact (ih a mem).imp (.tail _) fun ⟨r, inside, child⟩ => ⟨r, .tail _ inside, child⟩
  | dissolve choice _ ih =>
      refine List.forall_mem_append.mpr ⟨?_, ?_⟩
      · exact fun a mem => .inr ⟨_, .head _, by rw [choice]; exact mem⟩
      · intro a mem
        exact (ih a mem).imp (.tail _) fun ⟨r, inside, child⟩ => ⟨r, .tail _ inside, child⟩

/-- If nothing is left, there were empty choices alone. -/
theorem Dissolves.nothing {refs : List Ref} (dissolves : Dissolves g refs []) :
    ∀ r ∈ refs, g.expression r = .choice [] := by
  generalize none : [] = flat at dissolves
  induction dissolves with
  | nil => exact fun _ mem => nomatch mem
  | keep => nomatch none
  | dissolve choice _ ih =>
      obtain ⟨rfl, rfl⟩ := List.append_eq_nil_iff.mp none.symm
      exact List.forall_mem_cons.mpr ⟨choice, ih rfl⟩

/-- If there were empty choices alone, only such can be left. -/
theorem Dissolves.empties {refs flat : List Ref} (dissolves : Dissolves g refs flat)
    (all : ∀ r ∈ refs, g.expression r = .choice []) : ∀ a ∈ flat, g.expression a = .choice [] := by
  intro a mem
  rcases dissolves.mem a mem with same | ⟨r, inside, child⟩
  · exact all a same
  · rw [all r inside] at child
    nomatch child

/-- What is not a test is not merged. -/
theorem Merges.mem_of_other {refs merged : List Ref} (merges : Merges g refs merged) :
    ∀ r ∈ refs, (∀ t, g.expression r ≠ .test t) → r ∈ merged := by
  induction merges with
  | nil => exact fun _ mem => nomatch mem
  | keep _ ih =>
      refine List.forall_mem_cons.mpr ⟨fun _ => .head _, ?_⟩
      exact fun r mem other => .tail _ (ih r mem other)
  | merge folds _ _ ih =>
      refine List.forall_mem_append.mpr ⟨?_, fun r mem other => .tail _ (ih r mem other)⟩
      intro r mem other
      obtain ⟨t, test⟩ := folds.tests r mem
      exact absurd test (other t)

theorem Folds.some {refs : List Ref} {t : CharTest} (folds : Folds g refs t) : refs ≠ [] := by
  cases folds <;> simp

theorem Merges.nil_iff {refs merged : List Ref} (merges : Merges g refs merged) :
    refs = [] ↔ merged = [] := by
  cases merges with
  | nil => simp
  | keep => simp
  | merge folds => simp [folds.some]

end Alternatives

/-! ## Condensed forms -/

section Condensation

variable {g g' : Grammar} {m : Ref → Ref → Prop}

/-- Alternatives refer to earlier expressions. -/
theorem earlier_of_alternatives (wellFormed : g.WellFormed) {r : Ref} (inside : r < g.size)
    {refs : List Ref} (alternatives : (g.expression r).alternatives? = some refs) :
    ∀ a ∈ refs, a < r := by
  intro a mem
  refine (wellFormed r inside a ?_).2 ?_
  · rw [children_of_alternatives alternatives]
    exact mem
  · cases form : g.expression r with
    | forward => rw [form] at alternatives; nomatch alternatives
    | _ => rfl

/-- What becomes of a choice. -/
theorem Condensation.of_alternatives (condensation : Condensation g g' m) {r r' : Ref} (pair : m r r')
    {refs : List Ref} (alternatives : (g.expression r).alternatives? = some refs) :
    ∃ refs' flat, List.Forall₂ m refs refs' ∧ Dissolves g' refs' flat ∧
      ((∃ merged, Merges g' flat merged ∧ g'.expression r' = .choice merged) ∨
        ∃ t, Folds g' flat t ∧ g'.expression r' = .test t) := by
  cases condensation.condenses r r' pair with
  | test single =>
      cases form : g.expression r with
      | orElse | choice => rw [form] at single; nomatch single
      | _ => rw [form] at alternatives; nomatch alternatives
  | leaf leaf =>
      cases form : g.expression r with
      | orElse | choice => rw [form] at leaf; nomatch leaf
      | _ => rw [form] at alternatives; nomatch alternatives
  | same maps =>
      generalize g.expression r = e at maps alternatives
      generalize g'.expression r' = e' at maps
      cases maps <;> nomatch alternatives
  | run many =>
      rw [many] at alternatives
      nomatch alternatives
  | choice own condensed dissolves merges choice =>
      obtain rfl := Option.some.inj (alternatives.symm.trans own)
      exact ⟨_, _, condensed, dissolves, .inl ⟨_, merges, choice⟩⟩
  | merged own condensed dissolves folds test =>
      obtain rfl := Option.some.inj (alternatives.symm.trans own)
      exact ⟨_, _, condensed, dissolves, .inr ⟨_, folds, test⟩⟩

/-- Where a choice came from. -/
theorem Condensation.of_choice (condensation : Condensation g g' m) {r r' : Ref} (pair : m r r')
    {merged : List Ref} (choice : g'.expression r' = .choice merged) :
    ∃ refs refs' flat, (g.expression r).alternatives? = some refs ∧ List.Forall₂ m refs refs' ∧
      Dissolves g' refs' flat ∧ Merges g' flat merged := by
  cases condensation.condenses r r' pair with
  | test _ form | run _ _ _ form | merged _ _ _ _ form =>
      rw [choice] at form
      cases form
  | leaf leaf =>
      rw [expression, condensation.kept r (condensation.inside r r pair)] at choice
      rw [expression, choice] at leaf
      cases leaf
  | same maps =>
      rw [choice] at maps
      generalize g.expression r = e at maps
      cases maps
  | choice alternatives condensed dissolves merges form =>
      obtain rfl := Expression.choice.inj (choice.symm.trans form)
      exact ⟨_, _, _, alternatives, condensed, dissolves, merges⟩

/-- The condensed form of a choice is an empty one if and only if the choice is vacant. -/
theorem Condensation.vacant_iff (condensation : Condensation g g' m) (wellFormed : g.WellFormed)
    {r r' : Ref} (pair : m r r') : g'.expression r' = .choice [] ↔ g.Vacant r := by
  constructor
  · intro empty
    -- An empty choice has only vacant alternatives, which are earlier.
    induction r using Nat.strongRecOn generalizing r' with
    | ind r ih =>
        obtain ⟨refs, refs', flat, alternatives, condensed, dissolves, merges⟩ :=
          condensation.of_choice pair empty
        obtain rfl := merges.nil_iff.mpr rfl
        refine .of_alternatives alternatives ?_
        intro a mem
        have earlier := earlier_of_alternatives wellFormed (condensation.inside r r' pair)
          alternatives a mem
        obtain ⟨a', pair, empty⟩ := exists_partner condensed dissolves.nothing a mem
        exact ih a earlier pair empty
  · intro vacant
    induction vacant generalizing r' with
    | @of_alternatives r refs alternatives _ ih =>
        obtain ⟨refs', flat, condensed, dissolves, made⟩ :=
          condensation.of_alternatives pair alternatives
        have empties : ∀ a' ∈ flat, g'.expression a' = .choice [] := by
          apply dissolves.empties
          intro a' mem
          obtain ⟨a, mem, pair⟩ := exists_origin condensed a' mem
          exact ih a mem pair
        rcases made with ⟨merged, merges, choice⟩ | ⟨t, folds, -⟩
        · -- an empty choice that is left would be an alternative of the condensed choice
          have none : flat = [] := by
            apply List.eq_nil_iff_forall_not_mem.mpr
            intro a mem
            have kept := merges.mem_of_other a mem (by rw [empties a mem]; nofun)
            exact condensation.flat r r' pair merged choice a kept [] (empties a mem)
          rw [choice, merges.nil_iff.mp none]
        · obtain ⟨a, mem⟩ := List.exists_mem_of_ne_nil flat folds.some
          obtain ⟨t, test⟩ := folds.tests a mem
          nomatch (empties a mem).symm.trans test

/-- A condensed form that is no choice refers to condensed forms of what the expression does. -/
theorem Condensation.child_origin (condensation : Condensation g g' m) {r r' : Ref} (pair : m r r')
    {child' : Ref} (child : child' ∈ (g'.expression r').children) :
    (∃ merged, g'.expression r' = .choice merged) ∨
      (g.expression r).alternatives? = none ∧ ∃ s ∈ (g.expression r).children, m s child' := by
  have kept := condensation.kept r (condensation.inside r r' pair)
  cases condensation.condenses r r' pair with
  | test _ form | run _ _ _ form | merged _ _ _ _ form =>
      rw [form] at child
      cases child
  | leaf leaf =>
      rw [expression, kept, ← expression, children_of_leaf leaf] at child
      cases child
  | same maps =>
      right
      obtain ⟨s, mem, pair⟩ := exists_origin maps.children child' child
      refine ⟨?_, s, mem, pair⟩
      generalize g.expression r = e at maps
      generalize g'.expression r' = e' at maps
      cases maps <;> rfl
  | choice _ _ _ _ form => exact .inl ⟨_, form⟩

/-- What a condensed form refers to is a test, or comes from something that the expression
reaches. -/
theorem Condensation.origin (condensation : Condensation g g' m) (wellFormed : g.WellFormed)
    {r r' : Ref} (pair : m r r') {child' : Ref} (child : child' ∈ (g'.expression r').children) :
    (∃ t, g'.expression child' = .test t) ∨ ∃ s, g.Reaches r s ∧ m s child' := by
  induction r using Nat.strongRecOn generalizing r' with
  | ind r ih =>
      rcases condensation.child_origin pair child with ⟨merged, form⟩ | ⟨-, s, mem, pair⟩
      · obtain ⟨refs, refs', flat, alternatives, condensed, dissolves, merges⟩ :=
          condensation.of_choice pair form
        have own := children_of_alternatives alternatives
        rw [form] at child
        rcases merges.mem child' child with old | test
        · rcases dissolves.mem child' old with mem | ⟨a', mem, inner⟩
          · obtain ⟨a, mem, pair⟩ := exists_origin condensed child' mem
            exact .inr ⟨a, .single (own ▸ mem), pair⟩
          · -- an alternative of an alternative, which is an earlier choice
            obtain ⟨a, mem, pair'⟩ := exists_origin condensed a' mem
            have earlier := earlier_of_alternatives wellFormed (condensation.inside r r' pair)
              alternatives a mem
            exact (ih a earlier pair' inner).imp id fun ⟨s, reaches, pair⟩ =>
              ⟨s, .head (own ▸ mem) reaches, pair⟩
        · exact .inl test
      · exact .inr ⟨s, .single mem, pair⟩

/-- Whatever a condensed form reaches is a test, or a condensed form of something that the
expression reaches. -/
theorem Condensation.reached (condensation : Condensation g g' m) (wellFormed : g.WellFormed)
    {root root' : Ref} (pair : m root root') {r' : Ref} (reaches : g'.Reaches root' r') :
    (∃ t, g'.expression r' = .test t) ∨ ∃ r, g.Reaches root r ∧ m r r' := by
  -- A test has no children, so the first case is left only at its end.
  induction reaches with
  | refl => exact .inr ⟨root, .refl, pair⟩
  | tail _ child ih =>
      rcases ih with ⟨t, test⟩ | ⟨r, reaches, pair⟩
      · rw [test] at child
        nomatch child
      · exact (condensation.origin wellFormed pair child).imp id
          fun ⟨s, further, pair⟩ => ⟨s, reaches.trans further, pair⟩

/-- An open forward reference is reached from an expression if and only if one is reached from its
condensed form. -/
theorem Condensation.closed_iff (condensation : Condensation g g' m) (wellFormed : g.WellFormed)
    {root root' : Ref} (pair : m root root') :
    g'.Avoids (.forward none) root' ↔ g.Avoids (.forward none) root := by
  constructor
  · exact condensation.closed pair
  · intro closed r' reaches opened
    rcases condensation.reached wellFormed pair reaches with ⟨t, test⟩ | ⟨r, reaches, pair⟩
    · nomatch opened.symm.trans test
    · exact closed r reaches ((condensation.opened_iff pair).mp opened)

/-- A condensed form reaches no empty choice if and only if the expression shows none. -/
theorem Condensation.shows_iff (condensation : Condensation g g' m) (wellFormed : g.WellFormed)
    {root root' : Ref} (pair : m root root') :
    g'.Avoids (.choice []) root' ↔ ¬ g.Shows root := by
  have hereditary : g'.Hereditary (g'.Avoids (.choice [])) := avoids_hereditary nofun
  constructor
  · intro avoids shows
    -- whatever is reached has a condensed form that refers to no empty choice
    have below {r : Ref} (reaches : g.Reaches root r) :
        ∃ r', m r r' ∧ ∀ child ∈ (g'.expression r').children, g'.Avoids (.choice []) child := by
      induction reaches with
      | refl => exact ⟨root', pair, hereditary.child root' avoids⟩
      | tail _ child ih =>
          obtain ⟨r', pair, below⟩ := ih
          obtain ⟨child', pair, holds⟩ := condensation.step hereditary pair below _ child
          refine ⟨child', pair, ?_⟩
          rcases holds with avoids | ⟨-, inner, choice, avoid⟩
          · exact hereditary.child child' avoids
          · rw [choice]
            exact avoid
    rcases shows with vacant | ⟨r, reaches, other, child, mem, vacant⟩
    · exact avoids.self ((condensation.vacant_iff wellFormed pair).mpr vacant)
    · obtain ⟨r', pair, below⟩ := below reaches
      obtain ⟨child', pair, holds⟩ := condensation.step hereditary pair below child mem
      rcases holds with avoids | ⟨ordered, -⟩
      · exact avoids.self ((condensation.vacant_iff wellFormed pair).mpr vacant)
      · rw [other] at ordered
        nomatch ordered
  · intro hidden r' reaches empty
    rcases Relation.ReflTransGen.cases_tail reaches with rfl | ⟨p', before, child⟩
    · exact hidden (.inl ((condensation.vacant_iff wellFormed pair).mp empty))
    · rcases condensation.reached wellFormed pair before with ⟨t, test⟩ | ⟨p, before, pair⟩
      · rw [test] at child
        nomatch child
      · rcases condensation.child_origin pair child with ⟨merged, choice⟩ | ⟨other, s, mem, made⟩
        · rw [choice] at child
          exact condensation.flat p p' pair merged choice r' child [] empty
        · have vacant := (condensation.vacant_iff wellFormed made).mp empty
          exact hidden (.inr ⟨p, before, other, s, mem, vacant⟩)

end Condensation

end PegMachine.Grammar
