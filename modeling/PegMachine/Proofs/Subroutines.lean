/-
# PegMachine.Proofs.Subroutines — compiling comes to an end, with each forward reference once

Recursion goes through forward references, and both passes record one before they go on to
its target. So they come to an end on every well-formed grammar: condensing has a finite
walk, and with more height than `walkLimit` neither pass comes to anything else
(`compile_once`).

Where compiling succeeds there is one subroutine for each forward reference that the
expression reaches. If the expression is condensed first, these are the condensed forms of
its own: none is lost, since forward references are never merged, and no two become one
(`Condensation.forwards`).
-/
import PegMachine.Proofs.Compiling
import PegMachine.Proofs.Condensing.Frame
import PegMachine.Proofs.Condensing.Walk
import PegMachine.Proofs.Lowering.Routines

namespace PegMachine.Grammar

set_option autoImplicit false

open Condense (Walk)

/-! ## Forward references of condensed forms -/

section Condensation

variable {g g' : Grammar} {m : Ref → Ref → Prop} {root root' : Ref}

/-- Only forward references become forward references. -/
theorem Condensation.isForward_eq (condensation : Condensation g g' m) {r r' : Ref} (pair : m r r') :
    (g'.expression r').isForward = (g.expression r).isForward := by
  cases condensation.condenses r r' pair with
  | test single test =>
      rw [test]
      cases form : g.expression r with
      | forward => rw [form] at single; cases single
      | _ => rfl
  | leaf =>
      rw [expression, expression, condensation.kept r (condensation.inside r r pair)]
  | same maps =>
      generalize g.expression r = e at maps
      generalize g'.expression r' = e' at maps
      cases maps <;> rfl
  | run many _ _ scan => rw [many, scan]; rfl
  | choice alternatives _ _ _ form | merged alternatives _ _ _ form =>
      rw [form]
      cases own : g.expression r with
      | forward => rw [own] at alternatives; cases alternatives
      | _ => rfl

/-- Reached, or else a test. -/
def Near (g : Grammar) (root r : Ref) : Prop := g.Reaches root r ∨ ∃ t, g.expression r = .test t

theorem near_hereditary (g : Grammar) (root : Ref) : g.Hereditary (g.Near root) where
  child r near child mem := by
    rcases near with reaches | ⟨t, test⟩
    · exact .inl (reaches.tail mem)
    · rw [test] at mem
      nomatch mem
  test r t test := .inr ⟨t, test⟩

/-- A forward reference that is reached has a condensed form that is reached. -/
theorem Condensation.reaches_forward (condensation : Condensation g g' m) (pair : m root root')
    {r : Ref} (reaches : g.Reaches root r) (forward : (g.expression r).isForward = true) :
    ∃ r', m r r' ∧ g'.Reaches root' r' := by
  have hereditary := near_hereditary g' root'
  -- Alternatives that were dissolved are not reached themselves, but what they refer to is.
  suffices ∃ r', m r r' ∧ (∀ child ∈ (g'.expression r').children, g'.Near root' child) ∧
      (g'.Near root' r' ∨ ∃ inner, g'.expression r' = .choice inner) by
    obtain ⟨r', pair, -, reached⟩ := this
    have forward := (condensation.isForward_eq pair).trans forward
    refine ⟨r', pair, ?_⟩
    rcases reached with (reaches | ⟨t, form⟩) | ⟨inner, form⟩
    · exact reaches
    · rw [form] at forward; nomatch forward
    · rw [form] at forward; nomatch forward
  clear forward
  induction reaches with
  | refl => exact ⟨root', pair, hereditary.child root' (.inl .refl), .inl (.inl .refl)⟩
  | tail _ child ih =>
      obtain ⟨r', pair, below, -⟩ := ih
      obtain ⟨child', pair', holds⟩ := condensation.step hereditary pair below _ child
      refine ⟨child', pair', ?_⟩
      rcases holds with reached | ⟨-, inner, choice, reached⟩
      · exact ⟨hereditary.child child' reached, .inl reached⟩
      · exact ⟨by rw [choice]; exact reached, .inr ⟨inner, choice⟩⟩

/-- The forward references that a condensed form reaches are the condensed forms of those that the
expression reaches, one for one. -/
theorem Condensation.forwards (condensation : Condensation g g' m) (wellFormed : g.WellFormed)
    (pair : m root root') {order : List Ref} (distinct : order.Nodup)
    (all : ∀ r', r' ∈ order ↔ g'.Reaches root' r' ∧ (g'.expression r').isForward = true) :
    ∃ forwards : List Ref, forwards.Nodup ∧
      (∀ r, r ∈ forwards ↔ g.Reaches root r ∧ (g.expression r).isForward = true) ∧
      List.Forall₂ m forwards order := by
  have origins : ∀ r', r' ∈ order → ∃ r, g.Reaches root r ∧ (g.expression r).isForward = true ∧
      m r r' := by
    intro r' mem
    obtain ⟨reaches, forward⟩ := (all r').mp mem
    rcases condensation.reached wellFormed pair reaches with ⟨t, test⟩ | ⟨r, reaches, pair⟩
    · rw [test] at forward
      nomatch forward
    · exact ⟨r, reaches, (condensation.isForward_eq pair).symm.trans forward, pair⟩
  choose! origin reaches forward made using origins
  refine ⟨order.map origin, ?_, fun r => ⟨fun mem => ?_, fun ⟨reached, own⟩ => ?_⟩, ?_⟩
  · refine distinct.map_on fun a known b known' same => ?_
    exact condensation.single _ a b (forward a known) (made a known) (same ▸ made b known')
  · obtain ⟨r', known, rfl⟩ := List.mem_map.mp mem
    exact ⟨reaches r' known, forward r' known⟩
  · obtain ⟨r', pair, reached'⟩ := condensation.reaches_forward pair reached own
    have known : r' ∈ order :=
      (all r').mpr ⟨reached', (condensation.isForward_eq pair).trans own⟩
    refine List.mem_map.mpr ⟨r', known, ?_⟩
    exact condensation.apart _ _ r' (forward r' known) own (made r' known) pair
  · rw [List.forall₂_map_left_iff]
    exact List.forall₂_same.mpr made

end Condensation

/-! ## Enough height -/

/-- Words, tables and report, without the record of forward references. -/
def outcome (x : Except LoweringError (Fragment × Lowering)) :
    Except LoweringError (Fragment × Tables × List Log.Entry) :=
  x.map fun (code, s) => (code, s.tables, s.entries)

/-- With any more height lowering comes to the same. -/
theorem outcome_lower {g : Grammar} (wellFormed : g.WellFormed) {root : Ref} (inside : root < g.size)
    (traced : Bool) {height : Nat} (enough : g.walkLimit ≤ height) :
    outcome (g.lower traced height root 0 {}) = outcome (g.lower traced g.walkLimit root 0 {}) := by
  have copies := Edits.copies (.refl (a := g)) wellFormed
  have concur : Lower.Concur _ (g.lower traced g.walkLimit root 0 {}) (g.lower traced height root 0 {}) :=
    copies.agrees_lower wellFormed enough ⟨inside, rfl⟩ 0 {} {} ⟨rfl, rfl, fun _ _ _ => by simp⟩
  have never (label : String) : g.lowered traced root ≠ .error (.endless label) :=
    lowered_ne_endless wellFormed inside label
  simp only [lowered, StateT.run] at never
  generalize g.lower traced g.walkLimit root 0 {} = done at concur never ⊢
  generalize g.lower traced height root 0 {} = done' at concur ⊢
  cases concur with
  | ok twins => simp only [outcome, Except.map, twins.tables, twins.entries]
  | error => rfl
  | endless => exact absurd rfl (never _)

/-! ## Compiling -/

section Compiling

variable {g : Grammar} {root : Ref}

/-- The forward references of an expression, and what is lowered for each: its condensed form, or
the forward reference itself. -/
def Counterparts (g : Grammar) (options : CompileOptions) (root : Ref) (forwards order : List Ref) :
    Prop :=
  if options.condense then
    ∃ m, Condensation g (g.condense root).grammar m ∧ m root (g.condense root).root ∧
      List.Forall₂ m forwards order
  else forwards = order

/-- The forward references of an expression have counterparts among those of what is lowered. -/
theorem exists_counterparts (wellFormed : g.WellFormed) (inside : root < g.size)
    (options : CompileOptions) {order : List Ref} (distinct : order.Nodup)
    (all : ∀ r, r ∈ order ↔ (g.prepared options root).1.Reaches (g.prepared options root).2 r ∧
      ((g.prepared options root).1.expression r).isForward = true) :
    ∃ forwards : List Ref, forwards.Nodup ∧
      (∀ r, r ∈ forwards ↔ g.Reaches root r ∧ (g.expression r).isForward = true) ∧
      g.Counterparts options root forwards order := by
  obtain ⟨condense, traced⟩ := options
  cases condense with
  | false => exact ⟨order, distinct, all, rfl⟩
  | true =>
      obtain ⟨m, condensation, pair⟩ := condense_condensation wellFormed inside
      obtain ⟨forwards, distinct, own, copied⟩ :=
        condensation.forwards wellFormed pair distinct all
      exact ⟨forwards, distinct, own, m, condensation, pair, copied⟩

theorem Counterparts.length_eq {options : CompileOptions} {forwards order : List Ref}
    (counterparts : g.Counterparts options root forwards order) : forwards.length = order.length := by
  rw [Counterparts] at counterparts
  split at counterparts
  · obtain ⟨m, -, -, copied⟩ := counterparts
    exact copied.length_eq
  · rw [counterparts]

/-- Compiling comes to an end on every grammar whose cycles all lead through forward references:
condensing walks to its end, and neither pass comes to anything else with more height. If compiling
succeeds, condensed or not, there is one subroutine for each forward reference that the expression
reaches. Its range is the fragment of the target, which is not empty, and every other occurrence
of the forward reference calls it. -/
theorem compile_once (wellFormed : g.WellFormed) (inside : root < g.size) (options : CompileOptions) :
    (∃ s, Walk [root] { grammar := g } [(g.condense root).root] s ∧
      s.grammar = (g.condense root).grammar ∧ ∀ height, g.walkLimit ≤ height →
        (Condense.visit height root).run { grammar := g } = ((g.condense root).root, s)) ∧
    (∀ height, (g.prepared options root).1.walkLimit ≤ height →
      outcome ((g.prepared options root).1.lower options.traced height
          (g.prepared options root).2 0 {}) =
        outcome ((g.prepared options root).1.lower options.traced
          (g.prepared options root).1.walkLimit (g.prepared options root).2 0 {})) ∧
    (∀ label, g.compile options root ≠ .error (.endless label)) ∧
    ∀ lowered, g.compile options root = .ok lowered → ∃ forwards order : List Ref,
      forwards.Nodup ∧
      (∀ r, r ∈ forwards ↔ g.Reaches root r ∧ (g.expression r).isForward = true) ∧
      lowered.bytecode.subroutines.size = forwards.length ∧
      g.Counterparts options root forwards order ∧
      (g.prepared options root).1.RoutesOnce options.traced (g.prepared options root).2
        lowered.bytecode order := by
  obtain ⟨wellFormed', inside', -⟩ := @prepared_intact_iff g options root wellFormed inside
  refine ⟨condense_walks wellFormed inside, fun height => outcome_lower wellFormed' inside' _, ?_, ?_⟩
  · intro label endless
    exact lowered_ne_endless wellFormed' inside' label (error_of_compile endless)
  · intro lowered compiled
    obtain ⟨own, lowers, same⟩ := lowered_of_compile compiled
    obtain ⟨order, routes⟩ := lowered_routes lowers
    rw [same] at routes
    obtain ⟨forwards, distinct, all, counterparts⟩ :=
      exists_counterparts wellFormed inside options routes.distinct routes.all
    exact ⟨forwards, order, distinct, all, routes.count.trans counterparts.length_eq.symm, counterparts,
      routes⟩

/-- Letters in brackets, condensed: their one forward reference has the one subroutine. -/
theorem brackets_once :
    ∃ lowered order, brackets.1.compile ⟨true, false⟩ brackets.2 = .ok lowered ∧
      brackets.1.Counterparts ⟨true, false⟩ brackets.2 [0] order ∧
      lowered.bytecode.subroutines.size = 1 ∧
      (brackets.1.prepared ⟨true, false⟩ brackets.2).1.RoutesOnce false
        (brackets.1.prepared ⟨true, false⟩ brackets.2).2 lowered.bytecode order := by
  obtain ⟨lowered, compiled⟩ := brackets_compiles ⟨true, false⟩
  obtain ⟨-, -, -, once⟩ := compile_once brackets_wellFormed brackets_inside ⟨true, false⟩
  obtain ⟨forwards, order, distinct, all, count, counterparts, routes⟩ := once lowered compiled
  have alone : ∀ r < brackets.1.size, (brackets.1.expression r).isForward = true → r = 0 := by
    decide
  have first : (brackets.1.expression 0).isForward = true := by decide
  have reached : 0 ∈ (brackets.1.expression brackets.2).children := by decide
  obtain rfl : forwards = [0] := by
    apply List.perm_singleton.mp
    refine (List.perm_ext_iff_of_nodup distinct (List.nodup_singleton 0)).mpr fun r => ?_
    rw [all, List.mem_singleton]
    constructor
    · rintro ⟨-, forward⟩
      refine alone r (inside_of_expression fun finish => ?_) forward
      rw [finish] at forward
      nomatch forward
    · rintro rfl
      exact ⟨.single reached, first⟩
  exact ⟨lowered, order, compiled, counterparts, count, routes⟩

end Compiling

end PegMachine.Grammar
