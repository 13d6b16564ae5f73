/-
# PegMachine.Proofs.Condensing.Relation — what condensing makes of an expression

`Condenses g g' m r r'` says that the expression `r'` of `g'` is a condensed form of the
expression `r` of `g`, if `m` says which are those of the expressions it refers to. A
`Condensation` is a relation in which everything is condensed in terms of the relation
itself, so that recursive grammars are covered.

An expression may have several condensed forms: one that is reached again from within
itself is condensed once more. A forward reference has one only, and no two have the
same.

What becomes of a choice is said in two steps. Choices among the condensed alternatives
are dissolved (`Dissolves`), and of the alternatives there are then, neighbouring tests are
folded (`Merges`).
-/
import Mathlib.Data.List.Forall2
import PegMachine.Grammar.Condense

namespace PegMachine

set_option autoImplicit false

/-- The alternatives of an ordered choice, of either form. -/
def Expression.alternatives? : Expression → Option (List Ref)
  | .orElse first second => some [first, second]
  | .choice alternatives => some alternatives
  | _ => none

namespace Grammar

/-! ## Alternatives -/

/-- The choices among some references replaced by their alternatives. -/
inductive Dissolves (g : Grammar) : List Ref → List Ref → Prop
  | nil : Dissolves g [] []
  | keep {r : Ref} {rs flat : List Ref} (rest : Dissolves g rs flat) :
      Dissolves g (r :: rs) (r :: flat)
  | dissolve {r : Ref} {alternatives rs flat : List Ref}
      (choice : g.expression r = .choice alternatives) (rest : Dissolves g rs flat) :
      Dissolves g (r :: rs) (alternatives ++ flat)

/-- Tests folded from the left, each of them mergeable with the union so far. -/
inductive Folds (g : Grammar) : List Ref → CharTest → Prop
  | one {r : Ref} {t : CharTest} (test : g.expression r = .test t) : Folds g [r] t
  | snoc {rs : List Ref} {s : CharTest} {r : Ref} {t : CharTest} (front : Folds g rs s)
      (test : g.expression r = .test t) (merge : s.mergeable t = true) :
      Folds g (rs ++ [r]) (s.union t)

/-- Some neighbouring tests among references replaced by single tests. -/
inductive Merges (g : Grammar) : List Ref → List Ref → Prop
  | nil : Merges g [] []
  | keep {r : Ref} {rs rs' : List Ref} (rest : Merges g rs rs') : Merges g (r :: rs) (r :: rs')
  | merge {front : List Ref} {t : CharTest} {r : Ref} {rs rs' : List Ref} (folds : Folds g front t)
      (test : g.expression r = .test t) (rest : Merges g rs rs') :
      Merges g (front ++ rs) (r :: rs')

theorem Merges.append {g : Grammar} {refs refs' rs rs' : List Ref} (front : Merges g refs rs)
    (back : Merges g refs' rs') : Merges g (refs ++ refs') (rs ++ rs') := by
  induction front with
  | nil => exact back
  | keep _ ih => exact .keep ih
  | merge folds test _ ih =>
      rw [List.append_assoc]
      exact .merge folds test ih

theorem Merges.mem {g : Grammar} {refs merged : List Ref} (merges : Merges g refs merged) :
    ∀ r ∈ merged, r ∈ refs ∨ ∃ t, g.expression r = .test t := by
  induction merges with
  | nil => exact fun _ mem => nomatch mem
  | keep _ ih =>
      refine List.forall_mem_cons.mpr ⟨.inl (.head _), ?_⟩
      exact fun r mem => (ih r mem).imp (.tail _) id
  | merge _ test _ ih =>
      refine List.forall_mem_cons.mpr ⟨.inr ⟨_, test⟩, ?_⟩
      exact fun r mem => (ih r mem).imp (List.mem_append_right _) id

/-! ## Expressions -/

/-- The same form over other references. -/
inductive Maps (m : Ref → Ref → Prop) : Expression → Expression → Prop
  | seq {a b a' b' : Ref} (first : m a a') (second : m b b') : Maps m (.seq a b) (.seq a' b')
  | keepLeft {a b a' b' : Ref} (first : m a a') (second : m b b') :
      Maps m (.keepLeft a b) (.keepLeft a' b')
  | keepRight {a b a' b' : Ref} (first : m a a') (second : m b b') :
      Maps m (.keepRight a b) (.keepRight a' b')
  | followedBy {a b a' b' : Ref} (first : m a a') (second : m b b') :
      Maps m (.followedBy a b) (.followedBy a' b')
  | notFollowedBy {a b a' b' : Ref} (first : m a a') (second : m b b') :
      Maps m (.notFollowedBy a b) (.notFollowedBy a' b')
  | combine {f : Combiner} {parts parts' : List Ref} (all : List.Forall₂ m parts parts') :
      Maps m (.combine f parts) (.combine f parts')
  | optional {body body' : Ref} {fallback : Datum} (inner : m body body') :
      Maps m (.optional body fallback) (.optional body' fallback)
  | many {body body' : Ref} {least : Nat} (inner : m body body') :
      Maps m (.many body least) (.many body' least)
  | transform {f : Transform} {body body' : Ref} (inner : m body body') :
      Maps m (.transform f body) (.transform f body')
  | idiom {kind : Idiom} {body body' : Ref} (inner : m body body') :
      Maps m (.idiom kind body) (.idiom kind body')
  | closed {target target' : Ref} (aimed : m target target') :
      Maps m (.forward (some target)) (.forward (some target'))
  | opened : Maps m (.forward none) (.forward none)

theorem Maps.mono {m m' : Ref → Ref → Prop} (more : ∀ r r', m r r' → m' r r') {e e' : Expression}
    (maps : Maps m e e') : Maps m' e e' := by
  cases maps with
  | seq first second => exact .seq (more _ _ first) (more _ _ second)
  | keepLeft first second => exact .keepLeft (more _ _ first) (more _ _ second)
  | keepRight first second => exact .keepRight (more _ _ first) (more _ _ second)
  | followedBy first second => exact .followedBy (more _ _ first) (more _ _ second)
  | notFollowedBy first second => exact .notFollowedBy (more _ _ first) (more _ _ second)
  | combine all => exact .combine (all.imp more)
  | optional inner => exact .optional (more _ _ inner)
  | many inner => exact .many (more _ _ inner)
  | transform inner => exact .transform (more _ _ inner)
  | idiom inner => exact .idiom (more _ _ inner)
  | closed aimed => exact .closed (more _ _ aimed)
  | opened => exact .opened

theorem Maps.children {m : Ref → Ref → Prop} {e e' : Expression} (maps : Maps m e e') :
    List.Forall₂ m e.children e'.children := by
  cases maps with
  | seq first second | keepLeft first second | keepRight first second | followedBy first second
  | notFollowedBy first second => exact .cons first (.cons second .nil)
  | combine all => exact all
  | optional inner | many inner | transform inner | idiom inner | closed inner => exact .cons inner .nil
  | opened => exact .nil

section Shapes

variable {m : Ref → Ref → Prop} {e : Expression} {a b : Ref}

theorem Maps.of_idiom {kind : Idiom} (maps : Maps m (.idiom kind a) e) :
    ∃ a', e = .idiom kind a' ∧ m a a' := by
  cases maps with
  | idiom inner => exact ⟨_, rfl, inner⟩

theorem Maps.of_combine {f : Combiner} {refs : List Ref} (maps : Maps m (.combine f refs) e) :
    ∃ refs', e = .combine f refs' ∧ List.Forall₂ m refs refs' := by
  cases maps with
  | combine all => exact ⟨_, rfl, all⟩

theorem Maps.of_optional {fallback : Datum} (maps : Maps m (.optional a fallback) e) :
    ∃ a', e = .optional a' fallback ∧ m a a' := by
  cases maps with
  | optional inner => exact ⟨_, rfl, inner⟩

theorem Maps.of_transform {f : Transform} (maps : Maps m (.transform f a) e) :
    ∃ a', e = .transform f a' ∧ m a a' := by
  cases maps with
  | transform inner => exact ⟨_, rfl, inner⟩

theorem Maps.of_many {least : Nat} (maps : Maps m (.many a least) e) :
    ∃ a', e = .many a' least ∧ m a a' := by
  cases maps with
  | many inner => exact ⟨_, rfl, inner⟩

theorem Maps.of_keepRight (maps : Maps m (.keepRight a b) e) :
    ∃ a' b', e = .keepRight a' b' ∧ m a a' ∧ m b b' := by
  cases maps with
  | keepRight first second => exact ⟨_, _, rfl, first, second⟩

end Shapes

/-- Members of the second list have partners in the first. -/
theorem exists_origin {α β : Type} {m : α → β → Prop} {refs : List α} {refs' : List β}
    (all : List.Forall₂ m refs refs') : ∀ r' ∈ refs', ∃ r ∈ refs, m r r' := by
  induction all with
  | nil => exact fun _ mem => nomatch mem
  | cons pair _ ih =>
      refine List.forall_mem_cons.mpr ⟨⟨_, .head _, pair⟩, ?_⟩
      intro r' mem
      obtain ⟨r, mem, pair⟩ := ih r' mem
      exact ⟨r, .tail _ mem, pair⟩

/-- The expression `r'` of `g'` is a condensed form of the expression `r` of `g`. -/
inductive Condenses (g g' : Grammar) (m : Ref → Ref → Prop) : Ref → Ref → Prop
  | test {r r' : Ref} {t : CharTest} (single : (g.expression r).charTest? = some t)
      (test : g'.expression r' = .test t) : Condenses g g' m r r'
  | leaf {r : Ref} (leaf : (g.expression r).isLeaf = true) : Condenses g g' m r r
  | same {r r' : Ref} (maps : Maps m (g.expression r) (g'.expression r')) : Condenses g g' m r r'
  | run {r r' body inner : Ref} {least : Nat} {t : CharTest} {itemLabel : String}
      (many : g.expression r = .many body least) (condensed : m body inner)
      (test : g'.expression inner = .test t) (scan : g'.expression r' = .scan t least itemLabel) :
      Condenses g g' m r r'
  | choice {r r' : Ref} {refs refs' flat merged : List Ref}
      (alternatives : (g.expression r).alternatives? = some refs)
      (condensed : List.Forall₂ m refs refs') (dissolves : Dissolves g' refs' flat)
      (merges : Merges g' flat merged) (choice : g'.expression r' = .choice merged) :
      Condenses g g' m r r'
  | merged {r r' : Ref} {refs refs' flat : List Ref} {t : CharTest}
      (alternatives : (g.expression r).alternatives? = some refs)
      (condensed : List.Forall₂ m refs refs') (dissolves : Dissolves g' refs' flat)
      (folds : Folds g' flat t) (test : g'.expression r' = .test t) : Condenses g g' m r r'

/-! ## Grammars that grow -/

/-- Whatever the first grammar contains, the second contains as well, except that a forward
reference may have been closed since. -/
def Keeps (g g' : Grammar) : Prop :=
  ∀ r, g.expression r ≠ .finish → g.expression r ≠ .forward none → g'.expression r = g.expression r

section Keeps

variable {g g' g'' : Grammar}

theorem Keeps.choice (keeps : g.Keeps g') {r : Ref} {alternatives : List Ref}
    (choice : g.expression r = .choice alternatives) : g'.expression r = .choice alternatives := by
  rw [keeps r (by rw [choice]; nofun) (by rw [choice]; nofun), choice]

theorem Keeps.test (keeps : g.Keeps g') {r : Ref} {t : CharTest} (test : g.expression r = .test t) :
    g'.expression r = .test t := by
  rw [keeps r (by rw [test]; nofun) (by rw [test]; nofun), test]

theorem Dissolves.keeps (keeps : g.Keeps g') {rs flat : List Ref} (dissolves : Dissolves g rs flat) :
    Dissolves g' rs flat := by
  induction dissolves with
  | nil => exact .nil
  | keep _ ih => exact .keep ih
  | dissolve choice _ ih => exact .dissolve (keeps.choice choice) ih

theorem Folds.keeps (keeps : g.Keeps g') {rs : List Ref} {t : CharTest} (folds : Folds g rs t) :
    Folds g' rs t := by
  induction folds with
  | one test => exact .one (keeps.test test)
  | snoc _ test merge ih => exact .snoc ih (keeps.test test) merge

theorem Merges.keeps (keeps : g.Keeps g') {rs rs' : List Ref} (merges : Merges g rs rs') :
    Merges g' rs rs' := by
  induction merges with
  | nil => exact .nil
  | keep _ ih => exact .keep ih
  | merge folds test _ ih => exact .merge (folds.keeps keeps) (keeps.test test) ih

/-- A condensed form remains one. If it is an open forward reference, it has to stay open. -/
theorem Condenses.keeps {m m' : Ref → Ref → Prop} (keeps : g'.Keeps g'')
    (more : ∀ r r', m r r' → m' r r') {r r' : Ref}
    (stays : g'.expression r' = .forward none → g''.expression r' = .forward none)
    (condenses : Condenses g g' m r r') : Condenses g g'' m' r r' := by
  cases condenses with
  | test single test => exact .test single (keeps.test test)
  | leaf leaf => exact .leaf leaf
  | same maps =>
      refine .same ?_
      have kept : g''.expression r' = g'.expression r' := by
        by_cases opened : g'.expression r' = .forward none
        · rw [stays opened, opened]
        · refine keeps r' ?_ opened
          intro finish
          rw [finish] at maps
          generalize g.expression r = e at maps
          nomatch maps
      rw [kept]
      exact maps.mono more
  | run many condensed test scan =>
      exact .run many (more _ _ condensed) (keeps.test test)
        ((keeps _ (by rw [scan]; nofun) (by rw [scan]; nofun)).trans scan)
  | choice alternatives condensed dissolves merges choice =>
      exact .choice alternatives (condensed.imp more) (dissolves.keeps keeps) (merges.keeps keeps)
        (keeps.choice choice)
  | merged alternatives condensed dissolves folds test =>
      exact .merged alternatives (condensed.imp more) (dissolves.keeps keeps) (folds.keeps keeps)
        (keeps.test test)

end Keeps

/-! ## Whole grammars -/

/-- None of the alternatives of a choice is a choice itself. -/
def Flat (g : Grammar) (r : Ref) : Prop :=
  ∀ refs, g.expression r = .choice refs → ∀ a ∈ refs, ∀ inner, g.expression a ≠ .choice inner

/-- A relation between the expressions of a grammar and condensed forms of them in another
one that contains the first. -/
structure Condensation (g g' : Grammar) (m : Ref → Ref → Prop) : Prop where
  larger : g.size ≤ g'.size
  kept : ∀ r < g.size, g'.node r = g.node r
  wellFormed : g'.WellFormed
  inside : ∀ r r', m r r' → r < g.size
  inside' : ∀ r r', m r r' → r' < g'.size
  condenses : ∀ r r', m r r' → Condenses g g' m r r'
  /-- Choices among alternatives have been dissolved. -/
  flat : ∀ r r', m r r' → g'.Flat r'
  /-- A forward reference has one condensed form. -/
  single : ∀ r a b, (g.expression r).isForward = true → m r a → m r b → a = b
  /-- No two forward references have the same. -/
  apart : ∀ a b r', (g.expression a).isForward = true → (g.expression b).isForward = true →
    m a r' → m b r' → a = b
  /-- Repetitions ask for as much as before. -/
  repeats : ∀ r body least, g'.expression r = .many body least →
    ∃ r body, g.expression r = .many body least

/-- The condensed forms of forward references. -/
def Forwards (g : Grammar) (m : Ref → Ref → Prop) (r r' : Ref) : Prop :=
  m r r' ∧ (g.expression r).isForward = true

theorem leaf_of_charTest {e : Expression} {t : CharTest} (single : e.charTest? = some t) :
    e.isLeaf = true := by
  cases e with
  | char | oneOf | escaped | test => rfl
  | _ => cases single

theorem children_of_leaf {e : Expression} (leaf : e.isLeaf = true) : e.children = [] := by
  cases e with
  | char | oneOf | escaped | test | scan | literal | keyword | finish => rfl
  | _ => nomatch leaf

/-- What is neither a leaf nor a choice keeps its form, unless it is a repetition of what has become a
test. -/
theorem Condensation.keeps_form {g g' : Grammar} {m : Ref → Ref → Prop}
    (condensation : Condensation g g' m) {r r' : Ref} (pair : m r r')
    (compound : (g.expression r).isLeaf = false) (ordered : (g.expression r).alternatives? = none)
    (rounds : ∀ body least inner t, g.expression r = .many body least → m body inner →
      g'.expression inner ≠ .test t) :
    Maps m (g.expression r) (g'.expression r') := by
  cases condensation.condenses r r' pair with
  | same maps => exact maps
  | leaf leaf => cases leaf.symm.trans compound
  | test single _ => cases (leaf_of_charTest single).symm.trans compound
  | run many condensed test _ => exact absurd test (rounds _ _ _ _ many condensed)
  | choice alternatives _ _ _ _ | merged alternatives _ _ _ _ =>
      cases alternatives.symm.trans ordered

end Grammar

end PegMachine
