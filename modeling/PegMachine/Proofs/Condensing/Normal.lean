/-
# PegMachine.Proofs.Condensing.Normal — condensed expressions are in normal form

An expression is in normal form (`Normal`) if it is no single character, class, escape or
choice of two, if none of its alternatives is a choice or can be merged with the one before
it, and if it repeats no test. Condensing comes to expressions in normal form in one pass.

The invariant is about what was appended (`Tidy`): it is in normal form, and it refers only
to what was appended before or to leaves that stay as they are. It holds because a choice
among condensed alternatives is merged from the left and an alternative that was refused once
stays refused: merging more into it only makes its escapes more (`CharTest.mergeable_union`,
`mergeAlternatives_apart`).
-/
import Mathlib.Data.List.Chain
import PegMachine.Proofs.Classes
import PegMachine.Proofs.Condensing.Walk
import PegMachine.Proofs.Lowering.Reaches

namespace PegMachine

set_option autoImplicit false

/-- Whether condensing does away with a form. -/
def Expression.condensable : Expression → Bool
  | .char .. | .oneOf _ | .escaped _ | .orElse .. => true
  | _ => false

/-- A test that cannot be merged behind another cannot after more was merged into it. -/
theorem CharTest.mergeable_union {first later : CharTest} (refused : first.mergeable later = false)
    (more : CharTest) : first.mergeable (later.union more) = false := by
  simp only [mergeable, Bool.not_eq_false', Bool.and_eq_true, Bool.not_eq_true'] at refused ⊢
  refine ⟨refused.1, ?_⟩
  rw [union, CharClass.isEmpty_union, refused.2, Bool.false_and]

namespace Grammar

/-- The second of two neighbours cannot be merged into the first. -/
def Distinct (g : Grammar) (a b : Ref) : Prop :=
  ∀ s t, g.expression a = .test s → g.expression b = .test t → s.mergeable t = false

/-- There is nothing left to condense about an expression. -/
structure Normal (g : Grammar) (r : Ref) : Prop where
  reduced : (g.expression r).condensable = false
  /-- No alternative is a choice. -/
  flat : g.Flat r
  /-- No two neighbouring alternatives can be merged. -/
  distinct : ∀ refs, g.expression r = .choice refs → refs.IsChain g.Distinct
  /-- What is repeated is no test. -/
  run : ∀ body least, g.expression r = .many body least → ∀ t, g.expression body ≠ .test t

/-- A form that is put together as it was is neither a choice, a repetition nor a test. -/
theorem Maps.settles {m : Ref → Ref → Prop} {e e' : Expression} (maps : Maps m e e')
    (rounds : ∀ body least, e ≠ .many body least) :
    e'.condensable = false ∧ (∀ refs, e' ≠ .choice refs) ∧ (∀ body least, e' ≠ .many body least) ∧
      ∀ t, e' ≠ .test t := by
  cases maps with
  | many => exact absurd rfl (rounds _ _)
  | _ => exact ⟨rfl, nofun, nofun, nofun⟩

/-! ## Merging -/

/-- The second of two alternatives cannot be merged into the first. -/
def Alternative.Apart (a b : Alternative) : Prop :=
  ∀ s t, a.test = some s → b.test = some t → s.mergeable t = false

/-- What has been merged so far, the last first, cannot be merged any further. -/
theorem Merging.step_apart {merging : Merging}
    (apart : merging.done.IsChain fun later earlier => earlier.Apart later) (next : Alternative) :
    (merging.step next).done.IsChain fun later earlier => earlier.Apart later := by
  simp only [Merging.step]
  split
  · exact List.isChain_singleton _
  · rename_i last earlier before
    rw [before] at apart
    cases merged : last.merge? next with
    | some both =>
        -- What stands before the union was refused already by its first part.
        simp only [Alternative.merge?] at merged
        split at merged
        · rename_i s t tested tested'
          split at merged
          · obtain rfl := Option.some.inj merged
            cases earlier with
            | nil => exact List.isChain_singleton _
            | cons front earlier =>
                rw [List.isChain_cons_cons] at apart ⊢
                refine ⟨?_, apart.2⟩
                intro u v known same
                obtain rfl := Option.some.inj same
                exact CharTest.mergeable_union (apart.1 u s known tested) t
          · cases merged
        · cases merged
    | none =>
        refine List.isChain_cons_cons.mpr ⟨?_, apart⟩
        intro s t tested tested'
        simp only [Alternative.merge?, tested, tested'] at merged
        split at merged
        · cases merged
        · rename_i refused
          exact Bool.eq_false_iff.mpr refused

theorem mergeAlternatives_apart (alternatives : List Alternative) :
    (mergeAlternatives alternatives).done.reverse.IsChain Alternative.Apart := by
  rw [List.isChain_reverse]
  suffices ∀ merging : Merging, (merging.done.IsChain fun later earlier => earlier.Apart later) →
      (alternatives.foldl Merging.step merging).done.IsChain fun later earlier => earlier.Apart later from
    this {} .nil
  induction alternatives with
  | nil => exact fun _ apart => apart
  | cons next alternatives ih => exact fun merging apart => ih _ (merging.step_apart apart next)

/-- Merged alternatives have a property that all alternatives have and that merging keeps. -/
theorem mergeAlternatives_all {property : Alternative → Prop} {alternatives : List Alternative}
    (each : ∀ a ∈ alternatives, property a)
    (merged : ∀ a b both, Alternative.merge? a b = some both → property both) :
    ∀ a ∈ (mergeAlternatives alternatives).done, property a := by
  suffices ∀ merging : Merging, (∀ a ∈ merging.done, property a) →
      ∀ a ∈ (alternatives.foldl Merging.step merging).done, property a from this {} nofun
  induction alternatives with
  | nil => exact fun _ all => all
  | cons next alternatives ih =>
      obtain ⟨own, others⟩ := List.forall_mem_cons.mp each
      intro merging all
      refine ih others _ ?_
      simp only [Merging.step]
      split
      · exact List.forall_mem_singleton.mpr own
      · rename_i last earlier before
        rw [before] at all
        obtain ⟨_, rest⟩ := List.forall_mem_cons.mp all
        split
        · rename_i both made
          exact List.forall_mem_cons.mpr ⟨merged _ _ both made, rest⟩
        · exact List.forall_mem_cons.mpr ⟨own, all⟩

/-! ## What was appended -/

/-- Nothing changes but that forward references may be closed. -/
structure Mild (g g' : Grammar) : Prop where
  larger : g.size ≤ g'.size
  kept : ∀ r < g.size, g'.node r = g.node r ∨
    (g.expression r).isForward = true ∧ (g'.expression r).isForward = true

/-- What may be referred to: something appended behind the first `base` expressions, or a leaf
among these that stays as it is. -/
structure Fit (base : Nat) (g : Grammar) (r : Ref) : Prop where
  inside : r < g.size
  own : base ≤ r ∨ (g.expression r).isLeaf = true ∧ (g.expression r).charTest? = none

/-- What may be appended: an expression in normal form that refers to such; tests are named. -/
structure Settled (base : Nat) (g : Grammar) (r : Ref) : Prop where
  normal : g.Normal r
  children : ∀ child ∈ (g.expression r).children, Fit base g child
  named : ∀ t, g.expression r = .test t → ∃ name, g.name r = some name

/-- All that was appended behind the first `base` expressions is settled. -/
def Tidy (base : Nat) (g : Grammar) : Prop := ∀ r, base ≤ r → r < g.size → Settled base g r

section Mild

variable {g g' g'' : Grammar} {base r : Nat}

theorem Mild.of_kept (larger : g.size ≤ g'.size) (kept : ∀ r < g.size, g'.node r = g.node r) :
    Mild g g' := ⟨larger, fun r inside => .inl (kept r inside)⟩

theorem Mild.refl (g : Grammar) : Mild g g := .of_kept (Nat.le_refl _) fun _ _ => rfl

theorem Mild.trans (first : Mild g g') (second : Mild g' g'') : Mild g g'' where
  larger := Nat.le_trans first.larger second.larger
  kept r inside := by
    rcases second.kept r (Nat.lt_of_lt_of_le inside first.larger) with same | ⟨before, after⟩
    · rcases first.kept r inside with same' | ⟨before, after⟩
      · exact .inl (same.trans same')
      · exact .inr ⟨before, by rwa [expression, same]⟩
    · rcases first.kept r inside with same | ⟨before', -⟩
      · exact .inr ⟨by rwa [expression, ← same], after⟩
      · exact .inr ⟨before', after⟩

theorem mild_add (g : Grammar) (n : Node) : Mild g (g.add n).2 := by
  refine .of_kept (by simp) fun r inside => ?_
  rw [node_add, if_neg (Nat.ne_of_lt inside)]

theorem mild_aim {fresh : Ref} (inside : fresh < g.size)
    (forward : (g.expression fresh).isForward = true) (target : Ref) : Mild g (g.aim fresh target) := by
  refine ⟨by simp, fun r _ => ?_⟩
  by_cases here : r = fresh
  · subst here
    exact .inr ⟨forward, by rw [expression_aim inside]; rfl⟩
  · exact .inl (node_aim_ne here target)

/-- What is no forward reference afterwards was the same before. -/
theorem Mild.expression_eq (mild : Mild g g') (inside : r < g.size)
    (plain : (g'.expression r).isForward = false) : g'.expression r = g.expression r := by
  rcases mild.kept r inside with same | ⟨-, forward⟩
  · rw [expression, same, expression]
  · cases forward.symm.trans plain

theorem Fit.mild (fit : Fit base g r) (mild : Mild g g') : Fit base g' r := by
  refine ⟨Nat.lt_of_lt_of_le fit.inside mild.larger, fit.own.imp_right ?_⟩
  rintro ⟨leaf, single⟩
  have same : g'.expression r = g.expression r := by
    rcases mild.kept r fit.inside with same | ⟨forward, -⟩
    · rw [expression, same, expression]
    · obtain ⟨target, form⟩ := Expression.eq_forward forward
      rw [form] at leaf
      cases leaf
  rw [same]
  exact ⟨leaf, single⟩

theorem Settled.mild (settled : Settled base g r) (mild : Mild g g') (same : g'.node r = g.node r) :
    Settled base g' r := by
  have own : g'.expression r = g.expression r := by rw [expression, same, expression]
  have before {child : Ref} {e : Expression} (mem : child ∈ (g.expression r).children)
      (form : g'.expression child = e) (plain : e.isForward = false) : g.expression child = e := by
    rw [← mild.expression_eq (settled.children child mem).inside (by rw [form, plain]), form]
  refine ⟨⟨?_, ?_, ?_, ?_⟩, ?_, ?_⟩
  · rw [own]
    exact settled.normal.reduced
  · intro refs choice a mem inner nested
    rw [own] at choice
    exact settled.normal.flat refs choice a mem inner
      (before (by rw [choice]; exact mem) nested rfl)
  · intro refs choice
    rw [own] at choice
    refine (settled.normal.distinct refs choice).imp_of_mem_imp fun a b mem mem' apart s t test test' => ?_
    exact apart s t (before (by rw [choice]; exact mem) test rfl)
      (before (by rw [choice]; exact mem') test' rfl)
  · intro body least many t test
    rw [own] at many
    exact settled.normal.run body least many t (before (by rw [many]; exact .head _) test rfl)
  · intro child mem
    rw [own] at mem
    exact (settled.children child mem).mild mild
  · intro t test
    rw [own] at test
    rw [name, same]
    exact settled.named t test

/-- A node that refers to what may be referred to, if choices and repetitions are in order. -/
theorem settled_of_form {e : Expression} (form : g.expression r = e) (reduced : e.condensable = false)
    (children : ∀ child ∈ e.children, Fit base g child)
    (choice : ∀ refs, e = .choice refs →
      (∀ a ∈ refs, ∀ inner, g.expression a ≠ .choice inner) ∧ refs.IsChain g.Distinct)
    (run : ∀ body least, e = .many body least → ∀ t, g.expression body ≠ .test t)
    (named : ∀ t, e = .test t → ∃ name, g.name r = some name) : Settled base g r := by
  subst form
  exact ⟨⟨reduced, fun refs here => (choice refs here).1, fun refs here => (choice refs here).2, run⟩,
    children, named⟩

theorem Tidy.add (tidy : Tidy base g) {n : Node} (settled : Settled base (g.add n).2 g.size) :
    Tidy base (g.add n).2 := by
  intro r behind inside
  rw [size_add] at inside
  by_cases last : r = g.size
  · rwa [last]
  · have old : r < g.size := Nat.lt_of_le_of_ne (Nat.le_of_lt_succ inside) last
    exact (tidy r behind old).mild (mild_add g n) (by rw [node_add, if_neg last])

/-- A forward reference may be closed. -/
theorem Tidy.aim (tidy : Tidy base g) {fresh target : Ref} (inside : fresh < g.size)
    (forward : (g.expression fresh).isForward = true) (fit : Fit base g target) :
    Tidy base (g.aim fresh target) := by
  have mild := mild_aim inside forward target
  intro r behind inside'
  rw [size_aim] at inside'
  by_cases here : r = fresh
  · subst here
    refine settled_of_form (expression_aim inside target) rfl ?_ nofun nofun nofun
    exact List.forall_mem_singleton.mpr (fit.mild mild)
  · exact (tidy r behind inside').mild mild (node_aim_ne here target)

end Mild

/-! ## Appending -/

namespace Condense

/-- A computation that keeps the record and leaves the grammar tidy, and what it yields has a
property. -/
def Makes {α : Type} (base : Nat) (s : Condensing) (x : Condense α)
    (property : α → Grammar → Prop) : Prop :=
  (x s).2.condensed = s.condensed ∧ Mild s.grammar (x s).2.grammar ∧ Tidy base (x s).2.grammar ∧
    property (x s).1 (x s).2.grammar

section Makes

variable {α β : Type} {base : Nat} {s : Condensing}

theorem Makes.bind {x : Condense α} {f : α → Condense β} {property : α → Grammar → Prop}
    {property' : β → Grammar → Prop} (first : Makes base s x property)
    (rest : ∀ a s', Mild s.grammar s'.grammar → Tidy base s'.grammar → property a s'.grammar →
      Makes base s' (f a) property') : Makes base s (x >>= f) property' := by
  obtain ⟨condensed, mild, tidy, holds⟩ := first
  obtain ⟨condensed', mild', tidy', holds'⟩ := rest _ _ mild tidy holds
  exact ⟨condensed'.trans condensed, mild.trans mild', tidy', holds'⟩

theorem makes_pure (tidy : Tidy base s.grammar) {a : α} {property : α → Grammar → Prop}
    (holds : property a s.grammar) : Makes base s (return a) property :=
  ⟨rfl, .refl _, tidy, holds⟩

/-- A computation that changes neither the grammar nor the record. -/
theorem makes_of_same (tidy : Tidy base s.grammar) {x : Condense α}
    (grammar : (x s).2.grammar = s.grammar) (condensed : (x s).2.condensed = s.condensed) :
    Makes base s x fun a g => a = (x s).1 ∧ g = s.grammar := by
  refine ⟨condensed, ?_, ?_, rfl, grammar⟩
  · rw [grammar]
    exact .refl _
  · rwa [grammar]

/-- Append an expression that may be appended. -/
theorem makes_add (tidy : Tidy base s.grammar) (behind : base ≤ s.grammar.size) {n : Node}
    (settled : Settled base (s.grammar.add n).2 s.grammar.size) :
    Makes base s (add n) fun r g => Fit base g r ∧ g.node r = n := by
  refine ⟨rfl, mild_add _ _, tidy.add settled, ⟨?_, .inl behind⟩, ?_⟩
  · show s.grammar.size < (s.grammar.add n).2.size
    rw [size_add]
    exact Nat.lt_succ_self _
  · show (s.grammar.add n).2.node s.grammar.size = n
    rw [node_add, if_pos rfl]

/-- Append an expression of a form that asks for nothing else. -/
theorem makes_form (tidy : Tidy base s.grammar) (behind : base ≤ s.grammar.size) {n : Node}
    (reduced : n.expression.condensable = false)
    (children : ∀ child ∈ n.expression.children, Fit base s.grammar child)
    (choice : ∀ refs, n.expression = .choice refs →
      (∀ a ∈ refs, ∀ inner, s.grammar.expression a ≠ .choice inner) ∧
        refs.IsChain s.grammar.Distinct)
    (run : ∀ body least, n.expression = .many body least →
      ∀ t, s.grammar.expression body ≠ .test t)
    (named : ∀ t, n.expression = .test t → ∃ name, n.name = some name) :
    Makes base s (add n) fun r g => Fit base g r ∧ g.node r = n := by
  have mild := mild_add s.grammar n
  have own : (s.grammar.add n).2.node s.grammar.size = n := by rw [node_add, if_pos rfl]
  have before {child : Ref} (mem : child ∈ n.expression.children) :
      (s.grammar.add n).2.expression child = s.grammar.expression child := by
    rw [expression, node_add, if_neg (Nat.ne_of_lt (children child mem).inside), expression]
  refine makes_add tidy behind (settled_of_form (congrArg Node.expression own) reduced ?_ ?_ ?_ ?_)
  · exact fun child mem => (children child mem).mild mild
  · intro refs form
    obtain ⟨flat, distinct⟩ := choice refs form
    constructor
    · intro a mem inner
      rw [before (by rw [form]; exact mem)]
      exact flat a mem inner
    · refine distinct.imp_of_mem_imp fun a b mem mem' apart s t test test' => ?_
      rw [before (by rw [form]; exact mem)] at test
      rw [before (by rw [form]; exact mem')] at test'
      exact apart s t test test'
  · intro body least form t
    rw [before (by rw [form]; exact .head _)]
    exact run body least form t
  · intro t form
    rw [name, own]
    exact named t form

theorem Makes.mono {x : Condense α} {property property' : α → Grammar → Prop}
    (makes : Makes base s x property) (weaker : ∀ a g, property a g → property' a g) :
    Makes base s x property' :=
  ⟨makes.1, makes.2.1, makes.2.2.1, weaker _ _ makes.2.2.2⟩

/-- Append a test. -/
theorem makes_test (tidy : Tidy base s.grammar) (behind : base ≤ s.grammar.size) (t : CharTest)
    (label : String) : Makes base s (add ⟨.test t, some label⟩) fun r g =>
      Fit base g r ∧ g.node r = ⟨.test t, some label⟩ :=
  makes_form tidy behind rfl nofun nofun nofun fun _ _ => ⟨_, rfl⟩

/-- Append an expression that is no test, under the name it stands for. -/
theorem makes_addNamed (e : Expression) (tidy : Tidy base s.grammar) (behind : base ≤ s.grammar.size)
    (reduced : e.condensable = false) (children : ∀ child ∈ e.children, Fit base s.grammar child)
    (choice : ∀ refs, e = .choice refs →
      (∀ a ∈ refs, ∀ inner, s.grammar.expression a ≠ .choice inner) ∧
        refs.IsChain s.grammar.Distinct)
    (run : ∀ body least, e = .many body least → ∀ t, s.grammar.expression body ≠ .test t)
    (other : ∀ t, e ≠ .test t) (name : Option String) :
    Makes base s (addNamed e name) fun r g => Fit base g r := by
  rw [addNamed_eq]
  exact (makes_form tidy behind reduced children choice run
    fun t test => absurd test (other t)).mono fun _ _ made => made.1

end Makes

/-! ## Choices -/

section Choices

variable {base : Nat} {s : Condensing}

/-- An alternative that is no choice: one that may be referred to, with its test, or a merged
test. -/
structure Apt (base : Nat) (g : Grammar) (a : Alternative) : Prop where
  ref : ∀ r, a.ref = some r → Fit base g r ∧ (∀ inner, g.expression r ≠ .choice inner) ∧
    ∀ t, g.expression r = .test t → a.test = some t
  test : a.ref = none → ∃ t, a.test = some t

/-- An expression that an alternative has become. -/
structure Stood (base : Nat) (g : Grammar) (a : Alternative) (r : Ref) : Prop where
  fit : Fit base g r
  simple : ∀ inner, g.expression r ≠ .choice inner
  test : ∀ t, g.expression r = .test t → a.test = some t

theorem Stood.mild {g g' : Grammar} {a : Alternative} {r : Ref} (stood : Stood base g a r)
    (mild : Mild g g') : Stood base g' a r := by
  refine ⟨stood.fit.mild mild, ?_, ?_⟩
  · intro inner choice
    rw [mild.expression_eq stood.fit.inside (by rw [choice]; rfl)] at choice
    exact stood.simple inner choice
  · intro t test
    rw [mild.expression_eq stood.fit.inside (by rw [test]; rfl)] at test
    exact stood.test t test

theorem Apt.mild {g g' : Grammar} {a : Alternative} (apt : Apt base g a) (mild : Mild g g') :
    Apt base g' a := by
  refine ⟨fun r known => ?_, apt.test⟩
  obtain ⟨fit, simple, test⟩ := apt.ref r known
  have stood := Stood.mild ⟨fit, simple, test⟩ mild
  exact ⟨stood.fit, stood.simple, stood.test⟩

theorem apt_alternative {g : Grammar} {r : Ref} (fit : Fit base g r)
    (simple : ∀ inner, g.expression r ≠ .choice inner) : Apt base g (g.alternative r) where
  ref r' same := by
    obtain rfl := Option.some.inj same
    refine ⟨fit, simple, fun t test => ?_⟩
    simp only [alternative, test]
  test none := nomatch none

theorem apt_merged {g : Grammar} {a b both : Alternative} (merged : a.merge? b = some both) :
    Apt base g both := by
  simp only [Alternative.merge?] at merged
  split at merged
  · split at merged
    · obtain rfl := Option.some.inj merged
      refine ⟨fun r known => ?_, fun _ => ⟨_, rfl⟩⟩
      cases known
    · cases merged
  · cases merged

theorem makes_place (tidy : Tidy base s.grammar) (behind : base ≤ s.grammar.size) {a : Alternative}
    (apt : Apt base s.grammar a) : Makes base s (place a) fun r g => Stood base g a r := by
  rw [place.eq_def]
  split
  · rename_i r known
    obtain ⟨fit, simple, test⟩ := apt.ref r known
    exact makes_pure tidy ⟨fit, simple, test⟩
  · rename_i test none
    obtain ⟨t, some_⟩ := apt.test none
    refine (makes_test tidy behind _ _).mono ?_
    rintro r g ⟨fit, node⟩
    have form := congrArg Node.expression node
    refine ⟨fit, ?_, ?_⟩
    · intro inner choice
      cases form.symm.trans choice
    · intro t' test'
      obtain rfl := Expression.test.inj (form.symm.trans test')
      rw [some_]
      rfl

theorem makes_places (tidy : Tidy base s.grammar) (behind : base ≤ s.grammar.size)
    {alternatives : List Alternative} (apt : ∀ a ∈ alternatives, Apt base s.grammar a) :
    Makes base s (alternatives.mapM place) fun refs g =>
      List.Forall₂ (Stood base g) alternatives refs := by
  induction alternatives generalizing s with
  | nil => exact makes_pure tidy .nil
  | cons a alternatives ih =>
      obtain ⟨own, others⟩ := List.forall_mem_cons.mp apt
      rw [List.mapM_cons]
      refine (makes_place tidy behind own).bind fun r s' mild tidy' stood => ?_
      have behind' := Nat.le_trans behind mild.larger
      refine (ih tidy' behind' fun a mem => (others a mem).mild mild).bind fun refs s'' mild' tidy'' rest => ?_
      exact makes_pure tidy'' (.cons (stood.mild mild') rest)

/-- Where alternatives cannot be merged, neither can what they have become. -/
theorem distinct_of_apart {g : Grammar} {alternatives : List Alternative} {refs : List Ref}
    (stand : List.Forall₂ (Stood base g) alternatives refs)
    (apart : alternatives.IsChain Alternative.Apart) : refs.IsChain g.Distinct := by
  induction stand with
  | nil => exact .nil
  | cons first rest ih =>
      cases rest with
      | nil => exact List.isChain_singleton _
      | cons second rest =>
          rw [List.isChain_cons_cons] at apart ⊢
          refine ⟨?_, ih apart.2⟩
          exact fun s t test test' => apart.1 s t (first.test s test) (second.test t test')

/-- Choices among condensed alternatives contribute their own, which are no choices. -/
theorem mapM_flattened_fit (tidy : Tidy base s.grammar) {refs : List Ref}
    (fit : ∀ r ∈ refs, Fit base s.grammar r) :
    ∃ groups, refs.mapM flattened s = (groups, s) ∧ ∀ a ∈ groups.flatten,
      Fit base s.grammar a ∧ ∀ inner, s.grammar.expression a ≠ .choice inner := by
  induction refs with
  | nil => exact ⟨[], rfl, nofun⟩
  | cons r refs ih =>
      obtain ⟨own, others⟩ := List.forall_mem_cons.mp fit
      obtain ⟨group, first, known⟩ := flattened_apply r s
      obtain ⟨groups, rest, all⟩ := ih others
      refine ⟨group :: groups, ?_, ?_⟩
      · rw [List.mapM_cons, bind_apply, first, bind_apply, rest]
        rfl
      · refine List.forall_mem_append.mpr ⟨?_, all⟩
        rcases known with ⟨rfl, other⟩ | choice
        · exact List.forall_mem_singleton.mpr ⟨own, other⟩
        · -- A choice is no leaf, so it was appended.
          have behind : base ≤ r := own.own.resolve_right fun leaf => by
            rw [choice] at leaf
            nomatch leaf.1
          have settled := tidy r behind own.inside
          intro a mem
          exact ⟨settled.children a (by rw [choice]; exact mem), settled.normal.flat group choice a mem⟩

theorem makes_condenseChoice (tidy : Tidy base s.grammar) (behind : base ≤ s.grammar.size)
    {refs : List Ref} (fit : ∀ r ∈ refs, Fit base s.grammar r) (name : Option String) :
    Makes base s (condenseChoice name refs) fun r g => Fit base g r := by
  obtain ⟨groups, flat, known⟩ := mapM_flattened_fit tidy fit
  refine (makes_of_same tidy (by rw [flat]) (by rw [flat])).bind ?_
  rintro _ s₁ - tidy₁ ⟨rfl, same₁⟩
  rw [flat]
  dsimp only
  refine (makes_of_same tidy₁ rfl rfl).bind ?_
  rintro now s₂ - tidy₂ ⟨rfl, same₂⟩
  have reports := reportMerged_apply
    (mergeAlternatives (groups.flatten.map now.grammar.alternative)).labels.reverse s₂
  refine (makes_of_same tidy₂ reports.1 reports.2).bind ?_
  rintro _ s₃ - tidy₃ ⟨-, same₃⟩
  have same : s₃.grammar = s.grammar := same₃.trans (same₂.trans same₁)
  rw [← same] at known behind
  have apt : ∀ a ∈ (mergeAlternatives (groups.flatten.map now.grammar.alternative)).done,
      Apt base s₃.grammar a := by
    refine mergeAlternatives_all ?_ fun _ _ _ => apt_merged
    rw [show now.grammar = s₃.grammar from (same₃.trans same₂).symm]
    intro a mem
    obtain ⟨r, listed, rfl⟩ := List.mem_map.mp mem
    exact apt_alternative (known r listed).1 (known r listed).2
  have apart := mergeAlternatives_apart (groups.flatten.map now.grammar.alternative)
  split
  · rw [add_rename, Option.or_some]
    exact (makes_test tidy₃ behind _ _).mono fun _ _ made => made.1
  · refine (makes_places tidy₃ behind fun a mem => apt a (List.mem_reverse.mp mem)).bind ?_
    intro merged s₄ mild₄ tidy₄ stand
    have each (r : Ref) (mem : r ∈ merged) : ∃ a, Stood base s₄.grammar a r := by
      obtain ⟨a, -, stood⟩ := exists_origin stand r mem
      exact ⟨a, stood⟩
    refine makes_addNamed (.choice merged) tidy₄ (Nat.le_trans behind mild₄.larger) rfl
      (fun r mem => (each r mem).elim fun _ stood => stood.fit) ?_ nofun nofun name
    intro refs same
    obtain rfl := Expression.choice.inj same
    exact ⟨fun r mem => (each r mem).elim fun _ stood => stood.simple, distinct_of_apart stand apart⟩

end Choices

/-! ## All forms -/

section Forms

variable {g : Grammar} {base r : Nat} {s s' : Condensing} {refs refs' parts : List Ref}

theorem makes_condenseMany (tidy : Tidy base s.grammar) (behind : base ≤ s.grammar.size) {inner : Ref}
    (fit : Fit base s.grammar inner) (node : Node) (body : Ref) (least : Nat) :
    Makes base s (condenseMany node body inner least) fun r g => Fit base g r := by
  refine (makes_of_same tidy rfl rfl).bind ?_
  rintro now s₁ - tidy₁ ⟨rfl, same₁⟩
  rw [← same₁] at fit behind
  dsimp only
  split
  · refine (makes_of_same tidy₁ rfl rfl).bind ?_
    rintro _ s₂ - tidy₂ ⟨-, same₂⟩
    rw [← same₂] at behind
    exact makes_addNamed (.scan _ _ _) tidy₂ behind rfl nofun nofun nofun nofun _
  · rename_i other
    refine makes_addNamed (.many inner least) tidy₁ behind rfl (List.forall_mem_singleton.mpr fit)
      nofun ?_ nofun _
    intro body least same t test
    obtain ⟨rfl, rfl⟩ := Expression.many.inj same
    rw [same₁] at test
    exact other t test

theorem all_fit (fit : List.Forall₂ (fun _ r' => Fit base g r') refs parts) : ∀ r' ∈ parts, Fit base g r' := by
  intro r' mem
  obtain ⟨_, -, fit⟩ := exists_origin fit r' mem
  exact fit

theorem makes_assemble (tidy : Tidy base s.grammar) (behind : base ≤ s.grammar.size) {node : Node}
    (plain : node.expression.isForward = false) (here : s.grammar.node r = node)
    (inside : r < s.grammar.size)
    (fit : List.Forall₂ (fun _ r' => Fit base s.grammar r') node.expression.children parts) :
    Makes base s (assemble r node parts) fun r g => Fit base g r := by
  obtain ⟨e, name⟩ := node
  have own : s.grammar.expression r = e := congrArg Node.expression here
  cases e with
  | forward => nomatch plain
  | char | oneOf | escaped | test =>
      exact (makes_test tidy behind _ _).mono fun _ _ made => made.1
  | scan | literal | keyword | finish =>
      exact makes_pure tidy ⟨inside, .inr (by rw [own]; exact ⟨rfl, rfl⟩)⟩
  | orElse | choice => exact makes_condenseChoice tidy behind (all_fit fit) name
  | many body least =>
      cases fit with
      | cons inner rest =>
          cases rest
          exact makes_condenseMany tidy behind inner _ _ _
  | _ =>
      have maps := maps_withChildren fit rfl rfl rfl nofun
      obtain ⟨reduced, notChoice, notMany, notTest⟩ := maps.settles nofun
      exact makes_addNamed _ tidy behind reduced (all_fit maps.children)
        (fun refs form => absurd form (notChoice refs))
        (fun body least form => absurd form (notMany body least)) notTest name

end Forms

/-! ## Walks -/

section Walks

variable {g : Grammar} {s s' : Condensing} {refs refs' : List Ref}

/-- What was appended to a grammar is tidy, and so is what expressions have become. -/
structure Neat (g : Grammar) (s : Condensing) : Prop where
  begun : Begun g s
  tidy : Tidy g.size s.grammar
  noted : ∀ r r' : Ref, s.condensed[r]? = some r' → Fit g.size s.grammar r'

theorem neat_start (g : Grammar) : Neat g { grammar := g } where
  begun := .start g
  tidy _ behind inside := absurd inside (Nat.not_lt.mpr behind)
  noted _ _ found := by simp at found

/-- One more expression has become something. -/
theorem Neat.record (neat : Neat g s) {r r' : Ref} (fit : Fit g.size s.grammar r') :
    Neat g { s with condensed := s.condensed.insert r r' } := by
  refine ⟨⟨neat.begun.larger, neat.begun.kept⟩, neat.tidy, ?_⟩
  intro a b found
  rcases also_of_insert neat.noted found with fit' | ⟨rfl, rfl⟩
  · exact fit'
  · exact fit

theorem Later.mild (later : Later s s') : Mild s.grammar s'.grammar :=
  .of_kept later.larger fun _ => later.kept

/-- A new forward reference may be referred to. -/
theorem Neat.opening (neat : Neat g s) (r : Ref) (name : Option String) : Neat g (opening s r name) := by
  have behind := neat.begun.larger
  obtain ⟨-, mild, tidy, fit, -⟩ := makes_form (n := ⟨.forward none, name⟩) neat.tidy behind rfl nofun
    nofun nofun nofun
  have opened : Neat g { s with grammar := (s.grammar.add ⟨.forward none, name⟩).2 } :=
    ⟨neat.begun.later (extends_add _ s), tidy, fun a b found => (neat.noted a b found).mild mild⟩
  exact opened.record fit

/-- A new forward reference is closed with what its target has become. -/
theorem Neat.closing {r : Ref} {name : Option String} (neat : Neat g s')
    (between : Later (Condense.opening s r name) s') {target : Ref} (fit : Fit g.size s'.grammar target)
    (begun : Begun g s) : Neat g { s' with grammar := s'.grammar.aim s.grammar.size target } ∧
      Mild s'.grammar (s'.grammar.aim s.grammar.size target) := by
  have own : s.grammar.size < (Condense.opening s r name).grammar.size := by
    rw [opening_size]
    exact Nat.lt_succ_self _
  have inside := Nat.lt_of_lt_of_le own between.larger
  have forward : (s'.grammar.expression s.grammar.size).isForward = true := by
    rw [expression, between.kept own]
    exact congrArg _ (opening_expression s r name)
  have mild := mild_aim inside forward target
  exact ⟨⟨begun.later (between.closing target), neat.tidy.aim inside forward fit,
    fun a b found => (neat.noted a b found).mild mild⟩, mild⟩

/-- Every walk leaves what was appended tidy. -/
theorem Walk.neat (walk : Walk refs s refs' s') (wellFormed : g.WellFormed)
    (inside : ∀ r ∈ refs, r < g.size) (neat : Neat g s) :
    Neat g s' ∧ List.Forall₂ (fun _ r' => Fit g.size s'.grammar r') refs refs' := by
  induction walk with
  | done => exact ⟨neat, .nil⟩
  | known found rest ih =>
      obtain ⟨neat', fit⟩ := ih (List.forall_mem_cons.mp inside).2 neat
      exact ⟨neat', .cons ((neat.noted _ _ found).mild rest.later.mild) fit⟩
  | @opened r _ _ s _ new form rest ih =>
      have opened := neat.opening r (s.grammar.name r)
      obtain ⟨neat', fit⟩ := ih (List.forall_mem_cons.mp inside).2 opened
      have own : Fit g.size (opening s r (s.grammar.name r)).grammar s.grammar.size :=
        opened.noted r _ Std.TreeMap.getElem?_insert_self
      exact ⟨neat', .cons (own.mild rest.later.mild) fit⟩
  | @closed r target target' _ _ s s₁ _ new form inner rest ih ih' =>
      obtain ⟨here, others⟩ := List.forall_mem_cons.mp inside
      have aimed : target < g.size := by
        rw [neat.begun.expression here] at form
        exact (wellFormed r here target (by rw [form]; exact .head _)).1
      have opened := neat.opening r (s.grammar.name r)
      have own : Fit g.size (opening s r (s.grammar.name r)).grammar s.grammar.size :=
        opened.noted r _ Std.TreeMap.getElem?_insert_self
      obtain ⟨neat₁, fit₁⟩ := ih (List.forall_mem_singleton.mpr aimed) opened
      obtain ⟨closed, mild⟩ := neat₁.closing inner.later (List.forall₂_cons.mp fit₁).1 neat.begun
      obtain ⟨neat', fit⟩ := ih' others closed
      exact ⟨neat', .cons (((own.mild inner.later.mild).mild mild).mild rest.later.mild) fit⟩
  | @form r r' _ _ parts s s₁ s₂ _ new plain inner made rest ih ih' =>
      obtain ⟨here, others⟩ := List.forall_mem_cons.mp inside
      have children : ∀ child ∈ (s.grammar.expression r).children, child < g.size := by
        rw [neat.begun.expression here]
        exact fun child mem => (wellFormed r here child mem).1
      obtain ⟨neat₁, fit₁⟩ := ih children neat
      have before := Nat.lt_of_lt_of_le here neat.begun.larger
      obtain ⟨condensed, mild, tidy, own⟩ := makes_assemble neat₁.tidy neat₁.begun.larger plain
        (inner.later.kept before) (Nat.lt_of_lt_of_le before inner.later.larger) fit₁
      have later := extends_assemble r (s.grammar.node r) parts s₁
      rw [made] at condensed mild tidy own later
      have neat₂ : Neat g s₂ := by
        refine ⟨neat₁.begun.later later, tidy, fun a b found => ?_⟩
        rw [show s₂.condensed = s₁.condensed from condensed] at found
        exact (neat₁.noted a b found).mild mild
      obtain ⟨neat', fit⟩ := ih' others (neat₂.record own)
      exact ⟨neat', .cons (own.mild rest.later.mild) fit⟩

end Walks

end Condense

/-! ## Condensed expressions -/

section Condensed

variable {g : Grammar} {root r : Ref}

/-- What can be reached from what may be referred to may be referred to. -/
theorem Tidy.reaches {base : Nat} (tidy : Tidy base g) (fit : Fit base g root)
    (reaches : g.Reaches root r) : Fit base g r := by
  induction reaches with
  | refl => exact fit
  | tail _ child ih =>
      rcases ih.own with behind | ⟨leaf, -⟩
      · exact (tidy _ behind ih.inside).children _ child
      · rw [children_of_leaf leaf] at child
        nomatch child

/-- What may be referred to is in normal form. -/
theorem Tidy.settled {base : Nat} (tidy : Tidy base g) (fit : Fit base g r) : Settled base g r := by
  rcases fit.own with behind | ⟨leaf, single⟩
  · exact tidy r behind fit.inside
  · refine settled_of_form rfl ?_ ?_ ?_ ?_ ?_
    · cases form : g.expression r with
      | char | oneOf | escaped => rw [form] at single; nomatch single
      | orElse => rw [form] at leaf; nomatch leaf
      | _ => rfl
    · rw [children_of_leaf leaf]
      nofun
    · intro refs choice
      rw [choice] at leaf
      nomatch leaf
    · intro body least many
      rw [many] at leaf
      nomatch leaf
    · intro t test
      rw [test] at single
      nomatch single

/-- Condensing comes to expressions in normal form, and everything that they reach is. -/
theorem condense_tidy (wellFormed : g.WellFormed) (inside : root < g.size) :
    Tidy g.size (g.condense root).grammar ∧ Fit g.size (g.condense root).grammar (g.condense root).root := by
  obtain ⟨s, walk, grammar, -⟩ := condense_walks wellFormed inside
  obtain ⟨neat, fit⟩ := walk.neat wellFormed (List.forall_mem_singleton.mpr inside) (Condense.neat_start g)
  rw [← grammar]
  exact ⟨neat.tidy, (List.forall₂_cons.mp fit).1⟩

theorem condense_settled (wellFormed : g.WellFormed) (inside : root < g.size)
    (reaches : (g.condense root).grammar.Reaches (g.condense root).root r) :
    Settled g.size (g.condense root).grammar r := by
  obtain ⟨tidy, fit⟩ := condense_tidy wellFormed inside
  exact tidy.settled (tidy.reaches fit reaches)

end Condensed

end Grammar

end PegMachine
