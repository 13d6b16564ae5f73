/-
# PegMachine.Proofs.Condensing.Visit — condensing yields condensed forms

Beside the state of condensing runs a relation `m`: everything that any expression has
become so far. The record in the state may lose entries of `m`, because an expression that
is reached again from within itself is condensed twice; of forward references it loses
none (`Sound.current`).

What a step adds to the relation is condensed in terms of the relation after the step
(`Goes.added`). A forward reference whose target is being visited is the one exception: it
has been added, but leads nowhere yet. The exception is confined to `condenseForward`,
which closes the new forward reference before it ends.
-/
import PegMachine.Proofs.Condensing.Relation
import PegMachine.Proofs.Grammars

namespace PegMachine.Grammar

set_option autoImplicit false

/-! ## Flat choices -/

section Flat

variable {g g' : Grammar} {r : Ref}

/-- A choice stays flat if nothing becomes a choice. -/
theorem Flat.of_choices (flat : g.Flat r)
    (own : ∀ refs, g'.expression r = .choice refs → g.expression r = .choice refs)
    (others : ∀ a ∈ (g.expression r).children, ∀ refs, g'.expression a = .choice refs →
      g.expression a = .choice refs) : g'.Flat r := by
  intro refs choice a mem inner nested
  have before := own refs choice
  exact flat refs before a mem inner (others a (by rw [before]; exact mem) inner nested)

theorem Flat.add (flat : g.Flat r) (wellFormed : g.WellFormed) (inside : r < g.size) (n : Node) :
    (g.add n).2.Flat r := by
  have old {a : Ref} (earlier : a < g.size) {refs : List Ref}
      (choice : (g.add n).2.expression a = .choice refs) : g.expression a = .choice refs := by
    rwa [expression, node_add, if_neg (Nat.ne_of_lt earlier)] at choice
  exact flat.of_choices (fun _ => old inside) fun a mem _ => old (wellFormed r inside a mem).1

theorem Flat.aim (flat : g.Flat r) {fresh : Ref} (inside : fresh < g.size) (target : Ref) :
    (g.aim fresh target).Flat r := by
  have before {a : Ref} {refs : List Ref}
      (choice : (g.aim fresh target).expression a = .choice refs) : g.expression a = .choice refs := by
    by_cases here : a = fresh
    · rw [here, expression_aim inside] at choice
      nomatch choice
    · rwa [expression, node_aim_ne here] at choice
  exact flat.of_choices (fun _ => before) fun _ _ _ => before

theorem flat_of_other (other : ∀ refs, g.expression r ≠ .choice refs) : g.Flat r :=
  fun refs choice => absurd choice (other refs)

end Flat

/-! ## States and steps -/

namespace Condensing

/-- The grammar still begins with `g`, and the record and the relation `m` fit it. -/
structure Sound (g : Grammar) (m : Ref → Ref → Prop) (s : Condensing) : Prop where
  wellFormed : s.grammar.WellFormed
  larger : g.size ≤ s.grammar.size
  kept : ∀ r < g.size, s.grammar.node r = g.node r
  noted : ∀ r r', s.condensed[r]? = some r' → m r r'
  inside : ∀ r r', m r r' → r < g.size ∧ r' < s.grammar.size
  current : ∀ r r', (g.expression r).isForward = true → m r r' → s.condensed[r]? = some r'
  apart : ∀ a b r', (g.expression a).isForward = true → (g.expression b).isForward = true →
    m a r' → m b r' → a = b
  repeats : ∀ r body least, s.grammar.expression r = .many body least →
    ∃ r body, g.expression r = .many body least
  flat : ∀ r r', m r r' → s.grammar.Flat r'

/-- What was there stays, and what was added to the relation is condensed. -/
structure Goes (g : Grammar) (m m' : Ref → Ref → Prop) (s s' : Condensing) : Prop where
  larger : s.grammar.size ≤ s'.grammar.size
  kept : ∀ r < s.grammar.size, s'.grammar.node r = s.grammar.node r
  more : ∀ r r', m r r' → m' r r'
  added : ∀ r r', m' r r' → ¬ m r r' → Condenses g s'.grammar m' r r' ∧
    ((g.expression r).isForward = true → s.grammar.size ≤ r')

section Goes

variable {g : Grammar} {m m' m'' : Ref → Ref → Prop} {s s' s'' : Condensing}

theorem Goes.expression_kept (goes : Goes g m m' s s') {r : Ref} {e : Expression}
    (here : s.grammar.expression r = e) (some_ : e ≠ .finish) : s'.grammar.expression r = e := by
  have inside : r < s.grammar.size := inside_of_expression (by rw [here]; exact some_)
  rw [← here, expression, expression, goes.kept r inside]

theorem Goes.keeps (goes : Goes g m m' s s') : s.grammar.Keeps s'.grammar :=
  fun _ some_ _ => goes.expression_kept rfl some_

theorem Goes.refl (g : Grammar) (m : Ref → Ref → Prop) (s : Condensing) : Goes g m m s s :=
  ⟨Nat.le_refl _, fun _ _ => rfl, fun _ _ pair => pair, fun _ _ pair new => absurd pair new⟩

theorem Goes.trans (first : Goes g m m' s s') (second : Goes g m' m'' s' s'') :
    Goes g m m'' s s'' where
  larger := Nat.le_trans first.larger second.larger
  kept r inside :=
    (second.kept r (Nat.lt_of_lt_of_le inside first.larger)).trans (first.kept r inside)
  more r r' pair := second.more r r' (first.more r r' pair)
  added r r' pair new := by
    by_cases old : m' r r'
    · obtain ⟨condenses, behind⟩ := first.added r r' old new
      refine ⟨condenses.keeps second.keeps second.more ?_, behind⟩
      exact fun opened => second.expression_kept opened nofun
    · obtain ⟨condenses, behind⟩ := second.added r r' pair old
      exact ⟨condenses, fun forward => Nat.le_trans first.larger (behind forward)⟩

end Goes

/-- Before anything is visited the record and the relation are empty. -/
theorem sound_start {g : Grammar} (wellFormed : g.WellFormed) :
    Sound g (fun _ _ => False) { grammar := g } where
  wellFormed := wellFormed
  larger := Nat.le_refl _
  kept _ _ := rfl
  noted r r' found := by simp at found
  inside _ _ pair := pair.elim
  current _ _ _ pair := pair.elim
  apart _ _ _ _ _ pair := pair.elim
  repeats r body _ many := ⟨r, body, many⟩
  flat _ _ pair := pair.elim

end Condensing

namespace Condense

open Condensing (Sound Goes)

section Steps

variable {g : Grammar} {m m' : Ref → Ref → Prop} {s s' : Condensing} {α β : Type}

/-- From a state with this relation, a computation goes on to a sound state, and what it
yields has a property. -/
def Leads (g : Grammar) (m : Ref → Ref → Prop) (s : Condensing) (x : Condense α)
    (property : α → (Ref → Ref → Prop) → Condensing → Prop) : Prop :=
  ∃ m', Sound g m' (x s).2 ∧ Goes g m m' s (x s).2 ∧ property (x s).1 m' (x s).2

theorem Leads.bind {x : Condense α} {f : α → Condense β}
    {property : α → (Ref → Ref → Prop) → Condensing → Prop}
    {property' : β → (Ref → Ref → Prop) → Condensing → Prop} (first : Leads g m s x property)
    (rest : ∀ a m' s', Sound g m' s' → Goes g m m' s s' → property a m' s' →
      Leads g m' s' (f a) property') : Leads g m s (x >>= f) property' := by
  obtain ⟨m', sound, goes, holds⟩ := first
  obtain ⟨m'', sound', goes', holds'⟩ := rest _ m' _ sound goes holds
  exact ⟨m'', sound', goes.trans goes', holds'⟩

theorem bind_apply (x : Condense α) (f : α → Condense β) (s : Condensing) :
    (x >>= f) s = f (x s).1 (x s).2 := rfl

theorem get_apply (s : Condensing) : (get : Condense Condensing) s = (s, s) := rfl

/-- A node that is added and then renamed is added with the new name, if there is one. -/
theorem add_rename (n : Node) (name : Option String) :
    (do let r ← add n; rename r name; return r : Condense Ref) =
      add ⟨n.expression, name.or n.name⟩ := by
  funext s
  cases name with
  | none => rfl
  | some name =>
      show ((s.grammar.add n).1,
        { s with grammar := (s.grammar.add n).2.setName (s.grammar.add n).1 name }) = _
      rw [setName_add]
      rfl

theorem addNamed_eq (e : Expression) (name : Option String) : addNamed e name = add ⟨e, name⟩ := by
  rw [addNamed, add_rename, Option.or_none]

/-- What a computation leads to depends only on what it does from here. -/
theorem Leads.of_eq {x y : Condense α} {property : α → (Ref → Ref → Prop) → Condensing → Prop}
    (same : x s = y s) (leads : Leads g m s y property) : Leads g m s x property := by
  rw [Leads, same]
  exact leads

theorem leads_pure (sound : Sound g m s) {a : α}
    {property : α → (Ref → Ref → Prop) → Condensing → Prop} (holds : property a m s) :
    Leads g m s (return a) property :=
  ⟨m, sound, .refl g m s, holds⟩

/-- A computation that changes neither the grammar nor the record. -/
theorem leads_of_same (sound : Sound g m s) {x : Condense α}
    (grammar : (x s).2.grammar = s.grammar) (condensed : (x s).2.condensed = s.condensed) :
    Leads g m s x fun a m' s' => a = (x s).1 ∧ m' = m ∧ s'.grammar = s.grammar := by
  refine ⟨m, ⟨?_, ?_, ?_, ?_, ?_, ?_, sound.apart, ?_, ?_⟩, ⟨?_, ?_, fun _ _ pair => pair, ?_⟩, rfl,
    rfl, grammar⟩
  · rw [grammar]; exact sound.wellFormed
  · rw [grammar]; exact sound.larger
  · rw [grammar]; exact sound.kept
  · rw [condensed]; exact sound.noted
  · rw [grammar]; exact sound.inside
  · rw [condensed]; exact sound.current
  · rw [grammar]; exact sound.repeats
  · rw [grammar]; exact sound.flat
  · rw [grammar]
  · rw [grammar]; exact fun _ _ => rfl
  · exact fun _ _ pair new => absurd pair new

/-- Append a node. A repetition has to ask for as much as one of those condensed. -/
theorem leads_add (sound : Sound g m s) {n : Node}
    (children : ∀ child ∈ n.expression.children, child < s.grammar.size)
    (repeats : ∀ body least, n.expression = .many body least →
      ∃ r body, g.expression r = .many body least) :
    Leads g m s (add n) fun r m' s' => m' = m ∧ r = s.grammar.size ∧
      s'.grammar = (s.grammar.add n).2 ∧ s'.condensed = s.condensed := by
  have old {r : Ref} (inside : r < s.grammar.size) : (s.grammar.add n).2.node r = s.grammar.node r := by
    rw [node_add, if_neg (Nat.ne_of_lt inside)]
  refine ⟨m, ⟨wellFormed_add sound.wellFormed children, ?_, ?_, sound.noted, ?_, sound.current,
    sound.apart, ?_, fun r r' pair => (sound.flat r r' pair).add sound.wellFormed
      (sound.inside r r' pair).2 n⟩, ⟨?_, fun r inside => old inside, fun _ _ pair => pair,
      fun _ _ pair new => absurd pair new⟩, rfl, rfl, rfl, rfl⟩
  · show g.size ≤ (s.grammar.add n).2.size
    rw [size_add]
    exact Nat.le_succ_of_le sound.larger
  · intro r inside
    exact (old (Nat.lt_of_lt_of_le inside sound.larger)).trans (sound.kept r inside)
  · intro r r' pair
    refine ⟨(sound.inside r r' pair).1, ?_⟩
    show r' < (s.grammar.add n).2.size
    rw [size_add]
    exact Nat.lt_succ_of_lt (sound.inside r r' pair).2
  · intro r body least
    show (s.grammar.add n).2.expression r = _ → _
    rw [expression, node_add]
    split
    · exact repeats body least
    · exact sound.repeats r body least
  · show s.grammar.size ≤ (s.grammar.add n).2.size
    rw [size_add]
    exact Nat.le_succ _

/-- What has become of an expression. -/
structure Made (g : Grammar) (r : Ref) (r' : Ref) (m : Ref → Ref → Prop) (s : Condensing) : Prop where
  inside : r' < s.grammar.size
  condenses : Condenses g s.grammar m r r'
  flat : s.grammar.Flat r'

/-- Append a node that makes an expression a condensed form. -/
theorem leads_made (sound : Sound g m s) {r : Ref} {n : Node}
    (children : ∀ child ∈ n.expression.children, child < s.grammar.size)
    (repeats : ∀ body least, n.expression = .many body least →
      ∃ r body, g.expression r = .many body least)
    (flat : ∀ refs, n.expression = .choice refs → ∀ a ∈ refs, ∀ inner,
      s.grammar.expression a ≠ .choice inner)
    (condenses : ∀ g', s.grammar.Keeps g' → g'.expression s.grammar.size = n.expression →
      Condenses g g' m r s.grammar.size) : Leads g m s (add n) (Made g r) := by
  obtain ⟨m', sound', goes, rfl, index, grammar, -⟩ := leads_add sound children repeats
  have own : (s.grammar.add n).2.expression s.grammar.size = n.expression := by
    rw [expression, node_add, if_pos rfl]
  refine ⟨_, sound', goes, ?_, ?_, ?_⟩
  · rw [index, grammar, size_add]
    exact Nat.lt_succ_self _
  · rw [index]
    apply condenses _ goes.keeps
    rw [grammar, own]
  · rw [index, grammar]
    intro refs choice a mem inner
    rw [own] at choice
    rw [expression, node_add, if_neg (Nat.ne_of_lt (children a (by rw [choice]; exact mem)))]
    exact flat refs choice a mem inner

/-- The relation, with one more pair. -/
def Also (m : Ref → Ref → Prop) (r r' : Ref) : Ref → Ref → Prop := fun a b => m a b ∨ a = r ∧ b = r'

theorem also_of_insert {known : Std.TreeMap Ref Ref}
    (noted : ∀ a b, known[a]? = some b → m a b) {r r' a b : Ref}
    (found : (known.insert r r')[a]? = some b) : Also m r r' a b := by
  rw [Std.TreeMap.getElem?_insert] at found
  split at found
  · rename_i same
    exact .inr ⟨(Std.LawfulEqCmp.eq_of_compare same).symm, (Option.some.inj found).symm⟩
  · exact .inl (noted a b found)

/-- Record what has become of an expression other than a forward reference. -/
theorem leads_record (sound : Sound g m s) {r r' : Ref} (inside : r < g.size)
    (plain : (g.expression r).isForward = false) (made : Made g r r' m s) :
    Leads g m s (record r r') fun _ m' _ => m' r r' := by
  have more (a b : Ref) (pair : m a b) : Also m r r' a b := .inl pair
  refine ⟨Also m r r', ⟨sound.wellFormed, sound.larger, sound.kept, ?_, ?_, ?_, ?_,
    sound.repeats, ?_⟩, ⟨Nat.le_refl _, fun _ _ => rfl, more, ?_⟩, .inr ⟨rfl, rfl⟩⟩
  · exact fun a b found => also_of_insert sound.noted found
  · rintro a b (pair | ⟨rfl, rfl⟩)
    · exact sound.inside a b pair
    · exact ⟨inside, made.inside⟩
  · intro a b forward
    show _ → (s.condensed.insert r r')[a]? = some b
    rintro (pair | ⟨rfl, rfl⟩)
    · rw [Std.TreeMap.getElem?_insert, if_neg ?_]
      · exact sound.current a b forward pair
      · intro same
        rw [Std.LawfulEqCmp.eq_of_compare same, forward] at plain
        nomatch plain
    · rw [forward] at plain
      nomatch plain
  · rintro a b c forward forward' (pair | ⟨rfl, rfl⟩) (pair' | ⟨rfl, same⟩)
    · exact sound.apart a b c forward forward' pair pair'
    · rw [forward'] at plain
      nomatch plain
    · rw [forward] at plain
      nomatch plain
    · rfl
  · rintro a b (pair | ⟨rfl, rfl⟩)
    · exact sound.flat a b pair
    · exact made.flat
  · rintro a b (pair | ⟨rfl, rfl⟩) new
    · exact absurd pair new
    · refine ⟨made.condenses.keeps (fun _ _ _ => rfl) more id, ?_⟩
      intro forward
      rw [forward] at plain
      nomatch plain

end Steps

/-! ## Parts -/

/-- From any later state on, a visit of an expression tells what has become of it. -/
def Visits (g : Grammar) (m : Ref → Ref → Prop) (s : Condensing) (visit : Ref → Condense Ref)
    (r : Ref) : Prop :=
  ∀ m' s', Sound g m' s' → Goes g m m' s s' → Leads g m' s' (visit r) fun r' m'' _ => m'' r r'

section Parts

variable {g : Grammar} {m m' : Ref → Ref → Prop} {s s' : Condensing} {visit : Ref → Condense Ref}

theorem Visits.later {r : Ref} (visits : Visits g m s visit r) (goes : Goes g m m' s s') :
    Visits g m' s' visit r :=
  fun m'' s'' sound goes' => visits m'' s'' sound (goes.trans goes')

theorem Visits.now {r : Ref} (visits : Visits g m s visit r) (sound : Sound g m s) :
    Leads g m s (visit r) fun r' m' _ => m' r r' :=
  visits m s sound (.refl g m s)

theorem leads_mapM (refs : List Ref) (sound : Sound g m s)
    (visits : ∀ r ∈ refs, Visits g m s visit r) :
    Leads g m s (refs.mapM visit) fun refs' m' _ => List.Forall₂ m' refs refs' := by
  induction refs generalizing m s with
  | nil => exact leads_pure sound .nil
  | cons r refs ih =>
      rw [List.mapM_cons]
      apply ((visits r (.head _)).now sound).bind
      intro r' m' s' sound' goes pair
      have rest := ih sound' fun r mem => (visits r (.tail _ mem)).later goes
      apply rest.bind
      intro refs' m'' s'' sound'' goes' all
      exact leads_pure sound'' (.cons (goes'.more _ _ pair) all)

theorem leads_one {e : Expression} {body : Ref} (sound : Sound g m s)
    (visits : Visits g m s visit body) {make : Ref → Expression}
    (maps : ∀ m' body', m' body body' → Maps m' e (make body')) :
    Leads g m s (do return make (← visit body)) fun e' m' _ => Maps m' e e' := by
  apply (visits.now sound).bind
  intro body' m' s' sound' _ pair
  exact leads_pure sound' (maps m' body' pair)

theorem leads_two {e : Expression} {first second : Ref} (sound : Sound g m s)
    (visits : ∀ r ∈ [first, second], Visits g m s visit r) {make : Ref → Ref → Expression}
    (maps : ∀ m' first' second', m' first first' → m' second second' →
      Maps m' e (make first' second')) :
    Leads g m s (do return make (← visit first) (← visit second)) fun e' m' _ => Maps m' e e' := by
  apply ((visits first (by simp)).now sound).bind
  intro first' m' s' sound' goes pair
  have rest := ((visits second (by simp)).later goes).now sound'
  apply rest.bind
  intro second' m'' s'' sound'' goes' pair'
  exact leads_pure sound'' (maps m'' first' second' (goes'.more _ _ pair) pair')

/-- The same form over what the parts have become. -/
theorem leads_mapRefs {e : Expression} (sound : Sound g m s)
    (visits : ∀ r ∈ e.children, Visits g m s visit r) (compound : e.isLeaf = false)
    (ordered : e.alternatives? = none) (plain : e.isForward = false) :
    Leads g m s (e.mapRefs visit) fun e' m' _ => Maps m' e e' := by
  cases e with
  | seq => exact leads_two sound visits fun _ _ _ => .seq
  | keepLeft => exact leads_two sound visits fun _ _ _ => .keepLeft
  | keepRight => exact leads_two sound visits fun _ _ _ => .keepRight
  | followedBy => exact leads_two sound visits fun _ _ _ => .followedBy
  | notFollowedBy => exact leads_two sound visits fun _ _ _ => .notFollowedBy
  | combine f parts =>
      apply (leads_mapM parts sound visits).bind
      intro parts' m' s' sound' _ all
      exact leads_pure sound' (.combine all)
  | optional body => exact leads_one sound (visits body (.head _)) fun _ _ => .optional
  | many body => exact leads_one sound (visits body (.head _)) fun _ _ => .many
  | transform f body => exact leads_one sound (visits body (.head _)) fun _ _ => .transform
  | idiom kind body => exact leads_one sound (visits body (.head _)) fun _ _ => .idiom
  | orElse | choice => nomatch ordered
  | forward => nomatch plain
  | _ => nomatch compound

end Parts

/-! ## Choices -/

section Choices

variable {g : Grammar} {m : Ref → Ref → Prop} {s : Condensing}

/-- An alternative that stands for some references: for one that it is, or for tests that
fold to its own. -/
structure Stands (g : Grammar) (a : Alternative) (refs : List Ref) : Prop where
  folds : ∀ t, a.test = some t → Folds g refs t
  single : ∀ r, a.ref = some r → refs = [r]
  test : a.ref = none → ∃ t, a.test = some t

theorem alternative_test {r : Ref} {t : CharTest} (tested : (g.alternative r).test = some t) :
    g.expression r = .test t := by
  simp only [alternative] at tested
  split at tested
  · rename_i t' here
    rw [here, Option.some.inj tested]
  · nomatch tested

theorem alternative_stands (g : Grammar) (r : Ref) : Stands g (g.alternative r) [r] where
  folds _ tested := .one (alternative_test tested)
  single _ same := by rw [Option.some.inj same]
  test none := nomatch none

theorem Stands.merge {first both : Alternative} {refs : List Ref} {r : Ref}
    (stands : Stands g first refs) (merged : first.merge? (g.alternative r) = some both) :
    Stands g both (refs ++ [r]) := by
  simp only [Alternative.merge?] at merged
  split at merged
  · rename_i s t tested tested'
    split at merged
    · rename_i mergeable
      obtain rfl := Option.some.inj merged
      have last := alternative_test tested'
      refine ⟨?_, ?_, fun _ => ⟨_, rfl⟩⟩
      · intro u same
        obtain rfl := Option.some.inj same
        exact .snoc (stands.folds s tested) last mergeable
      · intro r none
        cases none
    · nomatch merged
  · nomatch merged

theorem Stands.keeps {g' : Grammar} (keeps : g.Keeps g') {a : Alternative} {refs : List Ref}
    (stands : Stands g a refs) : Stands g' a refs :=
  ⟨fun t tested => (stands.folds t tested).keeps keeps, stands.single, stands.test⟩

/-- What has been merged so far, the last first, stands for all that was taken in. -/
def Covers (g : Grammar) (done : List Alternative) (refs : List Ref) : Prop :=
  ∃ groups, List.Forall₂ (Stands g) done groups ∧ groups.reverse.flatten = refs

theorem Covers.step {merging : Merging} {refs : List Ref} (covers : Covers g merging.done refs)
    (r : Ref) : Covers g (merging.step (g.alternative r)).done (refs ++ [r]) := by
  obtain ⟨groups, stand, rfl⟩ := covers
  have next := alternative_stands g r
  simp only [Merging.step]
  split
  · rename_i none
    rw [none] at stand
    cases stand
    exact ⟨[[r]], .cons next .nil, rfl⟩
  · rename_i last earlier some_
    rw [some_] at stand
    cases stand with
    | @cons _ group _ groups head tail =>
        split
        · rename_i both merged
          exact ⟨(group ++ [r]) :: groups, .cons (head.merge merged) tail, by simp⟩
        · exact ⟨[r] :: group :: groups, .cons next (.cons head tail), by simp⟩

theorem mergeAlternatives_covers (g : Grammar) (refs : List Ref) :
    Covers g (mergeAlternatives (refs.map g.alternative)).done refs := by
  suffices ∀ (merging : Merging) (before : List Ref), Covers g merging.done before →
      Covers g ((refs.map g.alternative).foldl Merging.step merging).done (before ++ refs) from
    this {} [] ⟨[], .nil, rfl⟩
  induction refs with
  | nil => exact fun merging before covers => by simpa using covers
  | cons r refs ih =>
      intro merging before covers
      have rest := ih (merging.step (g.alternative r)) (before ++ [r]) (covers.step r)
      rwa [List.append_assoc] at rest

theorem leads_place (sound : Sound g m s) {a : Alternative} {refs : List Ref}
    (stands : Stands s.grammar a refs) :
    Leads g m s (place a) fun r' m' s' => m' = m ∧ Merges s'.grammar refs [r'] := by
  rw [place.eq_def]
  split
  · rename_i r known
    rw [stands.single r known]
    exact leads_pure sound ⟨rfl, .keep .nil⟩
  · rename_i test none
    obtain ⟨t, some_⟩ := stands.test none
    obtain ⟨m', sound', goes, same, index, grammar, -⟩ :=
      @leads_add g m s sound ⟨.test (a.test.getD default), some a.label⟩ nofun nofun
    refine ⟨m', sound', goes, same, ?_⟩
    have folds := (stands.folds t some_).keeps goes.keeps
    rw [← List.append_nil refs]
    refine .merge folds ?_ .nil
    rw [index, grammar, expression, node_add, if_pos rfl, some_]
    rfl

theorem leads_places (sound : Sound g m s) {alternatives : List Alternative}
    {groups : List (List Ref)} (stand : List.Forall₂ (Stands s.grammar) alternatives groups) :
    Leads g m s (alternatives.mapM place) fun refs m' s' =>
      m' = m ∧ Merges s'.grammar groups.flatten refs := by
  induction alternatives generalizing groups s with
  | nil =>
      cases stand
      exact leads_pure sound ⟨rfl, .nil⟩
  | cons a alternatives ih =>
      cases stand with
      | cons head tail =>
          rw [List.mapM_cons]
          apply (leads_place sound head).bind
          rintro r' m' s' sound' goes ⟨rfl, merges⟩
          refine (ih sound' (tail.imp fun _ _ stands => stands.keeps goes.keeps)).bind ?_
          rintro rs' m'' s'' sound'' goes' ⟨rfl, merges'⟩
          exact leads_pure sound'' ⟨rfl, (merges.keeps goes'.keeps).append merges'⟩

/-- A choice contributes its alternatives, anything else itself. -/
theorem flattened_apply (r : Ref) (s : Condensing) :
    ∃ refs, flattened r s = (refs, s) ∧
      ((refs = [r] ∧ ∀ inner, s.grammar.expression r ≠ .choice inner) ∨
        s.grammar.expression r = .choice refs) := by
  rw [flattened, bind_apply, get_apply]
  simp only
  cases s.grammar.expression r with
  | choice alternatives => exact ⟨alternatives, rfl, .inr rfl⟩
  | _ => exact ⟨[r], rfl, .inl ⟨rfl, nofun⟩⟩

/-- There is no choice left among flat alternatives. -/
def Simple (g : Grammar) (a : Ref) : Prop := a < g.size ∧ ∀ inner, g.expression a ≠ .choice inner

theorem mapM_flattened_apply (sound : Sound g m s) {refs refs' : List Ref}
    (condensed : List.Forall₂ m refs refs') :
    ∃ groups, refs'.mapM flattened s = (groups, s) ∧ Dissolves s.grammar refs' groups.flatten ∧
      ∀ a ∈ groups.flatten, Simple s.grammar a := by
  induction condensed with
  | nil => exact ⟨[], rfl, .nil, fun _ mem => nomatch mem⟩
  | @cons r r' refs refs' pair _ ih =>
      obtain ⟨group, first, own⟩ := flattened_apply r' s
      obtain ⟨groups, rest, dissolves, simple⟩ := ih
      refine ⟨group :: groups, ?_, ?_, ?_⟩
      · rw [List.mapM_cons, bind_apply, first, bind_apply, rest]
        rfl
      · rcases own with ⟨rfl, -⟩ | choice
        · exact .keep dissolves
        · exact .dissolve choice dissolves
      · refine List.forall_mem_append.mpr ⟨?_, simple⟩
        have inside := (sound.inside r r' pair).2
        rcases own with ⟨rfl, other⟩ | choice
        · exact List.forall_mem_singleton.mpr ⟨inside, other⟩
        · intro a mem
          have earlier := sound.wellFormed r' inside a (by rw [choice]; exact mem)
          exact ⟨earlier.1, sound.flat r r' pair group choice a mem⟩

/-- Merging tests leaves no choice either. -/
theorem simple_merged {m' : Ref → Ref → Prop} {s' : Condensing} (goes : Goes g m m' s s')
    {flat merged : List Ref} (simple : ∀ a ∈ flat, Simple s.grammar a)
    (merges : Merges s'.grammar flat merged) : ∀ a ∈ merged, Simple s'.grammar a := by
  intro a mem
  rcases merges.mem a mem with old | ⟨t, test⟩
  · obtain ⟨inside, other⟩ := simple a old
    refine ⟨Nat.lt_of_lt_of_le inside goes.larger, ?_⟩
    rw [expression, goes.kept a inside]
    exact other
  · refine ⟨inside_of_expression ?_, ?_⟩
    · rw [test]
      rintro ⟨⟩
    · rw [test]
      rintro inner ⟨⟩

/-- Reports change neither the grammar nor the record. -/
theorem reportMerged_apply (labels : List String) (s : Condensing) :
    (reportMerged labels s).2.grammar = s.grammar ∧
      (reportMerged labels s).2.condensed = s.condensed := by
  suffices ∀ s : Condensing, ((labels.forM fun label => report ("merged " ++ label)) s).2.grammar =
      s.grammar ∧ ((labels.forM fun label => report ("merged " ++ label)) s).2.condensed =
        s.condensed from this s
  induction labels with
  | nil => exact fun s => ⟨rfl, rfl⟩
  | cons label labels ih => exact fun s => ih _

theorem leads_condenseChoice (sound : Sound g m s) {r : Ref} {refs refs' : List Ref}
    (alternatives : (g.expression r).alternatives? = some refs)
    (condensed : List.Forall₂ m refs refs') (name : Option String) :
    Leads g m s (condenseChoice name refs') (Made g r) := by
  obtain ⟨groups, flat, dissolves, simple⟩ := mapM_flattened_apply sound condensed
  apply (leads_of_same sound (by rw [flat]) (by rw [flat])).bind
  rintro _ m s₁ sound₁ - ⟨rfl, rfl, same₁⟩
  rw [flat]
  dsimp only
  apply (leads_of_same sound₁ rfl rfl).bind
  rintro now m s₂ sound₂ - ⟨rfl, rfl, same₂⟩
  have reports := reportMerged_apply
    (mergeAlternatives (groups.flatten.map now.grammar.alternative)).labels.reverse s₂
  apply (leads_of_same sound₂ reports.1 reports.2).bind
  rintro _ m s₃ sound₃ - ⟨-, rfl, same₃⟩
  rw [← same₁, ← same₂, ← same₃] at dissolves simple
  have same : s₃.grammar = now.grammar := same₃.trans same₂
  obtain ⟨parts, stands, whole⟩ := mergeAlternatives_covers now.grammar groups.flatten
  have stand : List.Forall₂ (Stands s₃.grammar)
      (mergeAlternatives (groups.flatten.map now.grammar.alternative)).done parts := by
    rw [same]
    exact stands
  split
  · -- everything has merged
    rename_i t label single
    rw [single] at stand
    cases stand with
    | @cons _ front _ _ head tail =>
        cases tail
        rw [add_rename]
        refine leads_made sound₃ nofun nofun nofun ?_
        intro g' keeps test
        have folds : Folds g' groups.flatten t := by
          rw [← whole]
          simpa using (head.folds t rfl).keeps keeps
        exact .merged alternatives condensed (dissolves.keeps keeps) folds test
  · have stand := List.rel_reverse stand
    apply (leads_places sound₃ stand).bind
    rintro merged m s₄ sound₄ goes₄ ⟨rfl, merges⟩
    rw [whole] at merges
    have simple₄ := simple_merged goes₄ simple merges
    rw [addNamed_eq]
    refine leads_made sound₄ (fun a mem => (simple₄ a mem).1) nofun ?_ ?_
    · intro _ same a mem
      obtain rfl := Expression.choice.inj same
      exact (simple₄ a mem).2
    intro g' keeps choice
    exact .choice alternatives condensed ((dissolves.keeps goes₄.keeps).keeps keeps)
      (merges.keeps keeps) choice

end Choices

/-! ## All forms -/

section Forms

variable {g : Grammar} {m : Ref → Ref → Prop} {s : Condensing} {visit : Ref → Condense Ref} {r : Ref}

theorem leads_condenseMany (sound : Sound g m s) {node : Node} {body inner : Ref} {least : Nat}
    (many : g.expression r = .many body least) (condensed : m body inner) :
    Leads g m s (condenseMany node body inner least) (Made g r) := by
  apply (leads_of_same sound rfl rfl).bind
  rintro now m s₁ sound₁ - ⟨rfl, rfl, same₁⟩
  dsimp only
  split
  · rename_i t test
    apply (leads_of_same sound₁ rfl rfl).bind
    rintro _ m s₂ sound₂ - ⟨-, rfl, same₂⟩
    have test : s₂.grammar.expression inner = .test t := by
      rw [same₂, same₁]
      exact test
    rw [addNamed_eq]
    exact leads_made sound₂ nofun nofun nofun
      fun g' keeps scan => .run many condensed (keeps.test test) scan
  · rw [addNamed_eq]
    refine leads_made sound₁ ?_ ?_ nofun ?_
    · exact List.forall_mem_singleton.mpr (sound₁.inside body inner condensed).2
    · intro _ _ same
      obtain ⟨rfl, rfl⟩ := Expression.many.inj same
      exact ⟨r, body, many⟩
    · intro g' _ same
      refine .same ?_
      rw [many, same]
      exact .many condensed

theorem leads_condenseNode (sound : Sound g m s) (inside : r < g.size)
    (plain : (g.expression r).isForward = false)
    (visits : ∀ child ∈ (g.expression r).children, Visits g m s visit child) :
    Leads g m s (condenseNode visit r (g.node r)) (Made g r) := by
  rw [condenseNode]
  split
  · rename_i t single
    exact leads_made sound nofun nofun nofun fun g' _ test => .test single test
  · split
    · rename_i first second form
      have form : g.expression r = .orElse first second := form
      rw [form] at visits
      apply (leads_mapM [first, second] sound visits).bind
      intro refs' m' s' sound' _ all
      exact leads_condenseChoice sound' (by rw [form]; rfl) all _
    · rename_i alternatives form
      have form : g.expression r = .choice alternatives := form
      rw [form] at visits
      apply (leads_mapM alternatives sound visits).bind
      intro refs' m' s' sound' _ all
      exact leads_condenseChoice sound' (by rw [form]; rfl) all _
    · rename_i body least form
      have form : g.expression r = .many body least := form
      rw [form] at visits
      apply ((visits body (.head _)).now sound).bind
      intro inner m' s' sound' _ pair
      exact leads_condenseMany sound' form pair
    · rename_i notOr notChoice notMany
      split
      · rename_i leaf
        have kept : s.grammar.expression r = g.expression r := by
          rw [expression, expression, sound.kept r inside]
        refine leads_pure sound ⟨Nat.lt_of_lt_of_le inside sound.larger, .leaf leaf, ?_⟩
        apply flat_of_other
        intro refs choice
        rw [kept] at choice
        exact notChoice refs choice
      · rename_i compound
        have compound : (g.expression r).isLeaf = false := Bool.eq_false_iff.mpr compound
        have ordered : (g.expression r).alternatives? = none := by
          cases form : g.expression r with
          | orElse first second => exact absurd form (notOr first second)
          | choice alternatives => exact absurd form (notChoice alternatives)
          | _ => rfl
        apply (leads_mapRefs sound visits compound ordered plain).bind
        intro e' m' s' sound' _ maps
        rw [addNamed_eq]
        refine leads_made sound' ?_ ?_ ?_ ?_
        · intro child mem
          obtain ⟨origin, -, pair⟩ := exists_origin maps.children child mem
          exact (sound'.inside origin child pair).2
        · intro body least same
          generalize form : g.expression r = e at maps
          rw [show e' = .many body least from same] at maps
          cases maps with
          | many inner => exact ⟨r, _, form⟩
        · intro refs same
          generalize g.expression r = e at maps
          rw [show e' = .choice refs from same] at maps
          cases maps
        · intro g' _ same
          refine .same ?_
          rw [same]
          exact maps

end Forms

/-! ## Forward references -/

/-- The state after a forward reference was given a new one, still open. -/
def opening (s : Condensing) (r : Ref) (name : Option String) : Condensing :=
  { s with
    grammar := (s.grammar.add ⟨.forward none, name⟩).2
    condensed := s.condensed.insert r s.grammar.size }

section Forward

variable {g : Grammar} {m : Ref → Ref → Prop} {s : Condensing} {visit : Ref → Condense Ref} {r : Ref}

theorem opening_expression (s : Condensing) (r : Ref) (name : Option String) :
    (opening s r name).grammar.expression s.grammar.size = .forward none := by
  show (s.grammar.add ⟨.forward none, name⟩).2.expression s.grammar.size = _
  rw [expression, node_add, if_pos rfl]

theorem opening_kept {x : Ref} (inside : x < s.grammar.size) (r : Ref) (name : Option String) :
    (opening s r name).grammar.node x = s.grammar.node x := by
  show (s.grammar.add ⟨.forward none, name⟩).2.node x = _
  rw [node_add, if_neg (Nat.ne_of_lt inside)]

theorem opening_size (s : Condensing) (r : Ref) (name : Option String) :
    (opening s r name).grammar.size = s.grammar.size + 1 := size_add _

theorem condenseForward_none (visit : Ref → Condense Ref) (r : Ref) (name : Option String)
    (s : Condensing) :
    condenseForward visit r name none s = (s.grammar.size, opening s r name) := by
  rw [condenseForward, addNamed_eq]
  rfl

theorem condenseForward_some (visit : Ref → Condense Ref) (r : Ref) (name : Option String)
    (target : Ref) (s : Condensing) :
    condenseForward visit r name (some target) s =
      (s.grammar.size,
        { (visit target (opening s r name)).2 with
          grammar := (visit target (opening s r name)).2.grammar.aim s.grammar.size
            (visit target (opening s r name)).1 }) := by
  rw [condenseForward, addNamed_eq]
  rfl

theorem sound_opening (sound : Sound g m s) (inside : r < g.size)
    (forward : (g.expression r).isForward = true) (new : s.condensed[r]? = none)
    (name : Option String) : Sound g (Also m r s.grammar.size) (opening s r name) where
  wellFormed := wellFormed_add sound.wellFormed fun _ mem => by cases mem
  larger := by
    rw [opening_size]
    exact Nat.le_succ_of_le sound.larger
  kept x old :=
    (opening_kept (Nat.lt_of_lt_of_le old sound.larger) r name).trans (sound.kept x old)
  noted _ _ found := also_of_insert sound.noted found
  inside a b := by
    rw [opening_size]
    rintro (pair | ⟨rfl, rfl⟩)
    · exact ⟨(sound.inside a b pair).1, Nat.lt_succ_of_lt (sound.inside a b pair).2⟩
    · exact ⟨inside, Nat.lt_succ_self _⟩
  current a b forward' := by
    show _ → (s.condensed.insert r s.grammar.size)[a]? = some b
    rw [Std.TreeMap.getElem?_insert]
    rintro (pair | ⟨rfl, rfl⟩)
    · rw [if_neg ?_]
      · exact sound.current a b forward' pair
      · intro same
        rw [Std.LawfulEqCmp.eq_of_compare same, sound.current a b forward' pair] at new
        cases new
    · rw [if_pos Std.ReflCmp.compare_self]
  apart a b c forwardA forwardB := by
    have fresh {a : Ref} (pair : m a s.grammar.size) : False :=
      Nat.lt_irrefl _ (sound.inside _ _ pair).2
    rintro (pair | ⟨rfl, rfl⟩) (pair' | ⟨rfl, same⟩)
    · exact sound.apart a b c forwardA forwardB pair pair'
    · exact (fresh (same ▸ pair)).elim
    · exact (fresh pair').elim
    · rfl
  repeats x body least := by
    show (s.grammar.add ⟨.forward none, name⟩).2.expression x = _ → _
    rw [expression, node_add]
    split
    · intro many
      cases many
    · exact sound.repeats x body least
  flat a b := by
    rintro (pair | ⟨rfl, rfl⟩)
    · exact (sound.flat a b pair).add sound.wellFormed (sound.inside a b pair).2 _
    · apply flat_of_other
      intro refs choice
      rw [opening_expression] at choice
      cases choice

/-- Only forward references become open forward references. -/
theorem forward_of_opened {m' : Ref → Ref → Prop} (sound : Sound g m' s) {a b : Ref}
    (pair : m' a b) (condenses : Condenses g s.grammar m' a b)
    (opened : s.grammar.expression b = .forward none) : (g.expression a).isForward = true := by
  cases condenses with
  | test _ test => rw [opened] at test; cases test
  | leaf leaf =>
      rw [expression, sound.kept a (sound.inside a a pair).1] at opened
      rw [expression, opened] at leaf
      cases leaf
  | same maps =>
      rw [opened] at maps
      generalize g.expression a = e at maps
      cases maps
      rfl
  | run _ _ _ scan => rw [opened] at scan; cases scan
  | choice _ _ _ _ choice => rw [opened] at choice; cases choice
  | merged _ _ _ _ test => rw [opened] at test; cases test

theorem sound_aim {m' : Ref → Ref → Prop} (sound : Sound g m' s) {fresh : Ref}
    (behind : g.size ≤ fresh) (inside : fresh < s.grammar.size) {target : Ref}
    (aimed : target < s.grammar.size) :
    Sound g m' { s with grammar := s.grammar.aim fresh target } where
  wellFormed := wellFormed_aim sound.wellFormed aimed
  larger := by
    rw [size_aim]
    exact sound.larger
  kept x old := by
    rw [node_aim_ne (Nat.ne_of_lt (Nat.lt_of_lt_of_le old behind))]
    exact sound.kept x old
  noted := sound.noted
  inside a b pair := by
    rw [size_aim]
    exact sound.inside a b pair
  current := sound.current
  apart := sound.apart
  repeats x body least same := by
    by_cases here : x = fresh
    · rw [here, expression_aim inside] at same
      nomatch same
    · rw [expression, node_aim_ne here] at same
      exact sound.repeats x body least same
  flat a b pair := (sound.flat a b pair).aim inside target

/-- Closing the new forward reference completes the step. -/
theorem goes_closing {m' : Ref → Ref → Prop} {s' : Condensing} {name : Option String} {t t' : Ref}
    (form : g.expression r = .forward (some t)) (sound' : Sound g m' s')
    (goes : Goes g (Also m r s.grammar.size) m' (opening s r name) s') (pair : m' t t') :
    Goes g m m' s { s' with grammar := s'.grammar.aim s.grammar.size t' } := by
  have here := goes.more r s.grammar.size (.inr ⟨rfl, rfl⟩)
  have opened := goes.expression_kept (opening_expression s r name) nofun
  have larger := goes.larger
  rw [opening_size] at larger
  have closed := expression_aim (sound'.inside _ _ here).2 t'
  have other {x : Ref} (ne : x ≠ s.grammar.size) :
      (s'.grammar.aim s.grammar.size t').expression x = s'.grammar.expression x := by
    rw [expression, expression, node_aim_ne ne]
  refine ⟨?_, ?_, fun a b pair => goes.more a b (.inl pair), ?_⟩
  · rw [size_aim]
    exact Nat.le_of_succ_le larger
  · intro x old
    rw [node_aim_ne (Nat.ne_of_lt old), goes.kept x (by rw [opening_size]; exact Nat.lt_succ_of_lt old),
      opening_kept old]
  · intro a b pair' new
    by_cases this : Also m r s.grammar.size a b
    · rcases this with pair | ⟨rfl, rfl⟩
      · exact absurd pair new
      · refine ⟨.same ?_, fun _ => Nat.le_refl _⟩
        rw [form, closed]
        exact .closed pair
    · obtain ⟨condenses, behind⟩ := goes.added a b pair' this
      rw [opening_size] at behind
      refine ⟨condenses.keeps (fun x _ some_ => other ?_) (fun _ _ pair => pair)
        ?_, fun forward => Nat.le_of_succ_le (behind forward)⟩
      · intro same
        rw [same] at some_
        exact some_ opened
      · intro open_
        have later := behind (forward_of_opened sound' pair' condenses open_)
        rw [other (Nat.ne_of_gt later)]
        exact open_

theorem leads_condenseForward (sound : Sound g m s) (inside : r < g.size) {target : Option Ref}
    (form : g.expression r = .forward target) (new : s.condensed[r]? = none) (name : Option String)
    (visits : ∀ t, target = some t → ∀ m₁ s₁, Sound g m₁ s₁ → (∀ a b, m a b → m₁ a b) →
      m₁ r s.grammar.size → Leads g m₁ s₁ (visit t) fun t' m' _ => m' t t') :
    Leads g m s (condenseForward visit r name target) fun r' m' _ => m' r r' := by
  have sound₁ := sound_opening sound inside (by rw [form]; rfl) new name
  have here : Also m r s.grammar.size r s.grammar.size := .inr ⟨rfl, rfl⟩
  have more (a b : Ref) (pair : m a b) : Also m r s.grammar.size a b := .inl pair
  cases target with
  | none =>
      rw [Leads, condenseForward_none]
      refine ⟨_, sound₁, ⟨?_, fun x old => opening_kept old r name, more, ?_⟩, here⟩
      · show _ ≤ (opening s r name).grammar.size
        rw [opening_size]
        exact Nat.le_succ _
      · rintro a b (pair | ⟨rfl, rfl⟩) new
        · exact absurd pair new
        · refine ⟨.same ?_, fun _ => Nat.le_refl _⟩
          rw [form]
          show Maps _ _ ((opening s a name).grammar.expression s.grammar.size)
          rw [opening_expression]
          exact .opened
  | some t =>
      rw [Leads, condenseForward_some]
      obtain ⟨m', sound', goes, pair⟩ := visits t rfl _ _ sound₁ more here
      have here' := goes.more _ _ here
      exact ⟨m', sound_aim sound' sound.larger (sound'.inside _ _ here').2 (sound'.inside _ _ pair).2,
        goes_closing form sound' goes pair, here'⟩

end Forward

/-! ## Visits -/

section Visit

variable {g : Grammar} {m : Ref → Ref → Prop} {s : Condensing} {height : Nat} {r : Ref}

theorem visit_known {result : Ref} (known : s.condensed[r]? = some result) :
    visit (height + 1) r s = (return result : Condense Ref) s := by
  rw [visit, bind_apply, get_apply]
  simp only [known]

theorem visit_forward (new : s.condensed[r]? = none) {target : Option Ref}
    (form : (s.grammar.node r).expression = .forward target) :
    visit (height + 1) r s =
      condenseForward (visit height) r (s.grammar.node r).name target s := by
  rw [visit, bind_apply, get_apply]
  simp only [new, form]

theorem visit_other (new : s.condensed[r]? = none)
    (plain : (s.grammar.node r).expression.isForward = false) :
    visit (height + 1) r s = (do
      let result ← condenseNode (visit height) r (s.grammar.node r)
      record r result
      return result : Condense Ref) s := by
  rw [visit, bind_apply, get_apply]
  simp only [new]
  cases form : (s.grammar.node r).expression with
  | forward => rw [form] at plain; cases plain
  | _ => rfl

/-- With enough height a visit tells what has become of an expression. Every forward reference
is entered once at most, and between two of them the visits descend. -/
theorem leads_visit (wellFormed : g.WellFormed) (inside : r < g.size) (sound : Sound g m s)
    (enough : g.ahead (fun r => ∃ r', m r r') r ≤ height) :
    Leads g m s (visit height r) fun r' m' _ => m' r r' := by
  induction height generalizing r m s with
  | zero => nomatch enough
  | succ height ih =>
      cases known : s.condensed[r]? with
      | some result =>
          have noted : Leads g m s (return result) fun r' m' _ => m' r r' :=
            leads_pure sound (sound.noted r result known)
          exact noted.of_eq (visit_known known)
      | none =>
          have same : s.grammar.node r = g.node r := sound.kept r inside
          cases plain : (g.expression r).isForward with
          | true =>
              obtain ⟨target, form⟩ : ∃ target, g.expression r = .forward target := by
                cases form : g.expression r with
                | forward target => exact ⟨target, rfl⟩
                | _ => rw [form] at plain; nomatch plain
              refine .of_eq (visit_forward known (by rw [same]; exact form)) ?_
              refine leads_condenseForward sound inside form known _ ?_
              rintro t rfl m₁ s₁ sound₁ more here
              have aimed := (wellFormed r inside t (by rw [form]; exact .head _)).1
              have unmet : ¬ ∃ r', m r r' := by
                rintro ⟨r', pair⟩
                rw [sound.current r r' plain pair] at known
                nomatch known
              have less : g.ahead (fun r => ∃ r', m₁ r r') t < g.ahead (fun r => ∃ r', m r r') r := by
                apply ahead_target _ inside plain unmet ⟨_, here⟩ aimed
                rintro a ⟨b, pair⟩
                exact ⟨b, more a b pair⟩
              exact ih aimed sound₁ (Nat.le_of_lt_succ (Nat.lt_of_lt_of_le less enough))
          | false =>
              refine .of_eq (visit_other known (by rw [same]; exact plain)) ?_
              rw [same]
              have visits : ∀ child ∈ (g.expression r).children,
                  Visits g m s (visit height) child := by
                intro child mem m₁ s₁ sound₁ goes
                have order := wellFormed r inside child mem
                have less : g.ahead (fun r => ∃ r', m₁ r r') child <
                    g.ahead (fun r => ∃ r', m r r') r := by
                  apply ahead_child _ (order.2 plain)
                  rintro a ⟨b, pair⟩
                  exact ⟨b, goes.more a b pair⟩
                exact ih order.1 sound₁ (Nat.le_of_lt_succ (Nat.lt_of_lt_of_le less enough))
              apply (leads_condenseNode sound inside plain visits).bind
              intro result m₁ s₁ sound₁ _ made
              apply (leads_record sound₁ inside plain made).bind
              exact fun _ m₂ s₂ sound₂ _ pair => leads_pure sound₂ pair

end Visit

end Condense

/-- Condensing an expression of a well-formed grammar yields a condensed form of it. -/
theorem condense_condensation {g : Grammar} (wellFormed : g.WellFormed) {root : Ref}
    (inside : root < g.size) :
    ∃ m, Condensation g (g.condense root).grammar m ∧ m root (g.condense root).root := by
  obtain ⟨m, sound, goes, pair⟩ := Condense.leads_visit wellFormed inside
    (Condensing.sound_start wellFormed) (ahead_le_walkLimit _ inside)
  have condensation : Condensation g (g.condense root).grammar m := by
    refine ⟨sound.larger, sound.kept, sound.wellFormed, ?_, ?_, ?_, sound.flat, ?_, sound.apart,
      sound.repeats⟩
    · intro r r' pair
      exact (sound.inside r r' pair).1
    · intro r r' pair
      exact (sound.inside r r' pair).2
    · intro r r' pair
      exact (goes.added r r' pair not_false).1
    · intro r a b forward pair pair'
      have first := sound.current r a forward pair
      have second := sound.current r b forward pair'
      exact Option.some.inj (first.symm.trans second)
  exact ⟨m, condensation, pair⟩

end PegMachine.Grammar
