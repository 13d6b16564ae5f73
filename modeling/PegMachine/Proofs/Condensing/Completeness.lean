/-
# PegMachine.Proofs.Condensing.Completeness — condensing leaves nothing open

A condensed form refers to a condensed form of everything that the expression refers to, or
has taken it in: alternatives of dissolved choices are its own, and folded tests refer to
nothing. So if a property is handed down to all that an expression refers to, and the
condensed form hands it down, the expression has condensed forms of all its children that
have the property, or at least hand it down if they are choices that were dissolved
(`Condensation.step`).

Nothing open is reached from an expression in particular, if nothing is from its condensed
form (`Condensation.closed`). So if the condensed form can be unfolded and no choice has
nothing to choose from, the expression can be unfolded itself (`Condensation.unfolds`).

An empty choice is another matter: see `Proofs.Condensing.Vacancy`.
-/
import PegMachine.Proofs.Condensing.Relation
import PegMachine.Proofs.Lowering.Reaches

namespace PegMachine.Grammar

set_option autoImplicit false

/-! ## Properties that are handed down -/

/-- An expression of this form cannot be reached. -/
def Avoids (g : Grammar) (e : Expression) (r : Ref) : Prop := ∀ s, g.Reaches r s → g.expression s ≠ e

/-- Whatever an expression with the property refers to has the property, and tests do. -/
structure Hereditary (g : Grammar) (property : Ref → Prop) : Prop where
  child : ∀ r, property r → ∀ child ∈ (g.expression r).children, property child
  test : ∀ r t, g.expression r = .test t → property r

section Hereditary

variable {g : Grammar} {property : Ref → Prop}

theorem Avoids.self {e : Expression} {r : Ref} (avoids : g.Avoids e r) : g.expression r ≠ e :=
  avoids r .refl

theorem avoids_of_children {e : Expression} {r : Ref} (own : g.expression r ≠ e)
    (children : ∀ child ∈ (g.expression r).children, g.Avoids e child) : g.Avoids e r := by
  intro s reaches
  rcases Relation.ReflTransGen.cases_head reaches with rfl | ⟨child, mem, reaches⟩
  · exact own
  · exact children child mem s reaches

theorem avoids_hereditary {e : Expression} (other : ∀ t, e ≠ .test t) :
    g.Hereditary (g.Avoids e) where
  child _ avoids _ mem s reaches := avoids s (.head mem reaches)
  test r t test := avoids_of_children (by rw [test]; exact (other t).symm)
    (by rw [test]; exact fun _ mem => nomatch mem)

theorem Folds.tests {refs : List Ref} {t : CharTest} (folds : Folds g refs t) :
    ∀ r ∈ refs, ∃ t, g.expression r = .test t := by
  induction folds with
  | one test => exact List.forall_mem_singleton.mpr ⟨_, test⟩
  | snoc _ test _ ih =>
      exact List.forall_mem_append.mpr ⟨ih, List.forall_mem_singleton.mpr ⟨_, test⟩⟩

theorem Merges.all {refs merged : List Ref} (merges : Merges g refs merged)
    (hereditary : g.Hereditary property) (all : ∀ r ∈ merged, property r) :
    ∀ r ∈ refs, property r := by
  induction merges with
  | nil => exact all
  | keep _ ih =>
      obtain ⟨first, rest⟩ := List.forall_mem_cons.mp all
      exact List.forall_mem_cons.mpr ⟨first, ih rest⟩
  | merge folds _ _ ih =>
      obtain ⟨-, rest⟩ := List.forall_mem_cons.mp all
      refine List.forall_mem_append.mpr ⟨?_, ih rest⟩
      intro r mem
      obtain ⟨t, test⟩ := folds.tests r mem
      exact hereditary.test r t test

/-- Choices were dissolved, so their alternatives are among the others. -/
theorem Dissolves.all {refs flat : List Ref} (dissolves : Dissolves g refs flat)
    (all : ∀ r ∈ flat, property r) :
    ∀ r ∈ refs, property r ∨ ∃ inner, g.expression r = .choice inner ∧ ∀ a ∈ inner, property a := by
  induction dissolves with
  | nil => exact fun _ mem => nomatch mem
  | keep _ ih =>
      obtain ⟨first, rest⟩ := List.forall_mem_cons.mp all
      exact List.forall_mem_cons.mpr ⟨.inl first, ih rest⟩
  | dissolve choice _ ih =>
      obtain ⟨own, rest⟩ := List.forall_mem_append.mp all
      exact List.forall_mem_cons.mpr ⟨.inr ⟨_, choice, own⟩, ih rest⟩

end Hereditary

/-! ## Condensed forms -/

theorem children_of_alternatives {e : Expression} {refs : List Ref}
    (alternatives : e.alternatives? = some refs) : e.children = refs := by
  cases e with
  | orElse | choice => exact Option.some.inj alternatives
  | _ => nomatch alternatives

/-- Members of the first list have partners in the second. -/
theorem exists_partner {m : Ref → Ref → Prop} {property : Ref → Prop} {refs refs' : List Ref}
    (all : List.Forall₂ m refs refs') (holds : ∀ r' ∈ refs', property r') :
    ∀ r ∈ refs, ∃ r', m r r' ∧ property r' := by
  induction all with
  | nil => exact fun _ mem => nomatch mem
  | @cons r r' _ _ pair _ ih =>
      obtain ⟨first, rest⟩ := List.forall_mem_cons.mp holds
      exact List.forall_mem_cons.mpr ⟨⟨r', pair, first⟩, ih rest⟩

section Condensation

variable {g g' : Grammar} {m : Ref → Ref → Prop}

/-- If a condensed form hands a property down, the children have condensed forms with the property.
Those of alternatives may be choices that only hand it down; they have been dissolved. -/
theorem Condensation.step (condensation : Condensation g g' m) {property : Ref → Prop}
    (hereditary : g'.Hereditary property) {r r' : Ref} (pair : m r r')
    (below : ∀ child ∈ (g'.expression r').children, property child) :
    ∀ child ∈ (g.expression r).children, ∃ child', m child child' ∧
      (property child' ∨ (g.expression r).alternatives?.isSome = true ∧
        ∃ inner, g'.expression child' = .choice inner ∧ ∀ a ∈ inner, property a) := by
  cases condensation.condenses r r' pair with
  | test single =>
      cases form : g.expression r with
      | char | oneOf | escaped | test => exact fun _ mem => nomatch mem
      | _ => rw [form] at single; nomatch single
  | leaf leaf =>
      cases form : g.expression r with
      | char | oneOf | escaped | test | scan | literal | keyword | finish =>
          exact fun _ mem => nomatch mem
      | _ => rw [form] at leaf; nomatch leaf
  | same maps =>
      intro child mem
      obtain ⟨child', pair, holds⟩ := exists_partner maps.children below child mem
      exact ⟨child', pair, .inl holds⟩
  | run many condensed test =>
      rw [many]
      exact List.forall_mem_singleton.mpr ⟨_, condensed, .inl (hereditary.test _ _ test)⟩
  | choice alternatives condensed dissolves merges choice =>
      rw [choice] at below
      rw [children_of_alternatives alternatives, alternatives]
      have all := dissolves.all (merges.all hereditary below)
      intro child mem
      obtain ⟨child', pair, holds⟩ := exists_partner condensed all child mem
      exact ⟨child', pair, holds.imp id fun dissolved => ⟨rfl, dissolved⟩⟩
  | merged alternatives condensed dissolves folds =>
      rw [children_of_alternatives alternatives, alternatives]
      have all := dissolves.all fun r mem => (folds.tests r mem).elim (hereditary.test r)
      intro child mem
      obtain ⟨child', pair, holds⟩ := exists_partner condensed all child mem
      exact ⟨child', pair, holds.imp id fun dissolved => ⟨rfl, dissolved⟩⟩

/-- Only open forward references become open forward references. -/
theorem Condensation.opened_iff (condensation : Condensation g g' m) {r r' : Ref} (pair : m r r') :
    g'.expression r' = .forward none ↔ g.expression r = .forward none := by
  cases condensation.condenses r r' pair with
  | test single test =>
      constructor <;> intro opened
      · rw [opened] at test; cases test
      · rw [opened] at single; cases single
  | leaf =>
      rw [expression, expression, condensation.kept r (condensation.inside r r pair)]
  | same maps =>
      generalize g.expression r = e at maps
      generalize g'.expression r' = e' at maps
      cases maps <;> constructor <;> intro opened <;> cases opened <;> rfl
  | run many _ _ scan =>
      constructor <;> intro opened
      · rw [opened] at scan; cases scan
      · rw [opened] at many; cases many
  | choice alternatives _ _ _ choice =>
      constructor <;> intro opened
      · rw [opened] at choice; cases choice
      · rw [opened] at alternatives; cases alternatives
  | merged alternatives _ _ _ test =>
      constructor <;> intro opened
      · rw [opened] at test; cases test
      · rw [opened] at alternatives; cases alternatives

/-- What the condensed form does not leave open, the expression does not. -/
theorem Condensation.closed (condensation : Condensation g g' m) {r r' : Ref} (pair : m r r')
    (closed : g'.Avoids (.forward none) r') : g.Avoids (.forward none) r := by
  have hereditary : g'.Hereditary (g'.Avoids (.forward none)) := avoids_hereditary nofun
  intro s reaches
  -- Every step has its counterpart, or leads to an alternative that was dissolved into its own.
  -- Reaching is followed on the condensed side, where an alternative may have been dissolved.
  suffices ∃ s', m s s' ∧ g'.Avoids (.forward none) s' by
    obtain ⟨s', pair, closed⟩ := this
    exact fun opened => closed.self ((condensation.opened_iff pair).mpr opened)
  induction reaches with
  | refl => exact ⟨r', pair, closed⟩
  | tail _ child ih =>
      obtain ⟨s', pair, closed⟩ := ih
      obtain ⟨child', pair', holds⟩ :=
        condensation.step hereditary pair (hereditary.child s' closed) _ child
      refine ⟨child', pair', ?_⟩
      rcases holds with closed | ⟨-, inner, choice, closed⟩
      · exact closed
      · exact avoids_of_children (by rw [choice]; nofun) (by rw [choice]; exact closed)

/-- If the condensed form can be unfolded, the expression can be, as long as every choice has
something to choose from. -/
theorem Condensation.unfolds (condensation : Condensation g g' m) (wellFormed : g.WellFormed)
    {root root' : Ref} (pair : m root root') {traced traced' : Bool} {height : Nat} {c' : Machine.Code}
    {v' : Unfolding} (unfolds : g'.unfold traced' height root' {} = some (c', v'))
    (some_ : ∀ r, g.Reaches root r → g.expression r ≠ .choice []) :
    ∃ c v, g.unfold traced g.walkLimit root {} = some (c, v) := by
  have closed : g'.Avoids (.forward none) root' := by
    intro s reaches opened
    have complete := complete_of_unfold unfolds reaches
    rw [opened] at complete
    nomatch complete
  apply unfold_of_complete wellFormed (condensation.inside _ _ pair)
  intro r reaches
  exact Expression.complete_iff.mpr ⟨condensation.closed pair closed r reaches, some_ r reaches⟩

end Condensation

end PegMachine.Grammar
