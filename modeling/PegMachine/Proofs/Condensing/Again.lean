/-
# PegMachine.Proofs.Condensing.Again — condensing twice is condensing once

In an expression in normal form there is nothing to dissolve or to merge, and so all that
condensing does is to copy it. As in `Proofs.Condensing.Visit` a relation runs beside the
state, everything that any expression has become so far (`Tracked`), and what a walk adds to
it are copies in terms of the relation after the walk (`Copying`); the forward references
whose targets are on their way have been added before.

So condensing something condensed comes to a copy of it, which is compiled to the same
(`condense_normalizes`).
-/
import PegMachine.Proofs.Condensing.Normal
import PegMachine.Proofs.Lowering.Copies

namespace PegMachine

set_option autoImplicit false

/-- Both are the same test or neither is a test, and a choice stands for a choice. -/
structure Expression.Kin (e e' : Expression) : Prop where
  test : ∀ t, e' = .test t ↔ e = .test t
  choice : ∀ refs, e' = .choice refs → ∃ refs, e = .choice refs

theorem Expression.Retraces.kin {m : Ref → Ref → Prop} {e e' : Expression} (same : e.Retraces m e') :
    e.Kin e' := by
  cases same with
  | leaf => exact ⟨fun _ => .rfl, fun refs choice => ⟨refs, choice⟩⟩
  | orElse => exact ⟨fun _ => ⟨nofun, nofun⟩, nofun⟩
  | choice => exact ⟨fun _ => ⟨nofun, nofun⟩, fun _ _ => ⟨_, rfl⟩⟩
  | maps maps => cases maps <;> exact ⟨fun _ => ⟨nofun, nofun⟩, nofun⟩

theorem Expression.Retraces.mono {m m' : Ref → Ref → Prop} (more : ∀ r r', m r r' → m' r r')
    {e e' : Expression} (same : e.Retraces m e') : e.Retraces m' e' := by
  cases same with
  | leaf leaf => exact .leaf leaf
  | orElse first second => exact .orElse (more _ _ first) (more _ _ second)
  | choice all => exact .choice (all.imp more)
  | maps maps => exact .maps (maps.mono more)

namespace Grammar

/-- The expression `r'` of `g'` is a copy of the expression `r` of `g`, if `m` says which are those
of the expressions it refers to. -/
structure Traces (g g' : Grammar) (m : Ref → Ref → Prop) (r r' : Ref) : Prop where
  name : g'.name r' = g.name r
  form : (g.expression r).Retraces m (g'.expression r')

theorem Traces.of_node {g g' g'' : Grammar} {m m' : Ref → Ref → Prop} {r r' : Ref}
    (traces : Traces g g' m r r') (more : ∀ a b, m a b → m' a b) (same : g''.node r' = g'.node r') :
    Traces g g'' m' r r' := by
  refine ⟨?_, ?_⟩
  · rw [Grammar.name, same]
    exact traces.name
  · have own : g''.expression r' = g'.expression r' := congrArg Node.expression same
    rw [own]
    exact traces.form.mono more

theorem Mild.kin {g g' : Grammar} (mild : Mild g g') {r : Ref} (inside : r < g.size) {e : Expression}
    (kin : e.Kin (g.expression r)) : e.Kin (g'.expression r) := by
  rcases mild.kept r inside with same | ⟨before, after⟩
  · rw [expression, same]
    exact kin
  · obtain ⟨target, form⟩ := Expression.eq_forward before
    obtain ⟨target', form'⟩ := Expression.eq_forward after
    rw [form] at kin
    rw [form']
    refine ⟨fun t => ⟨fun test => ?_, fun test => ?_⟩, fun refs choice => ?_⟩
    · cases test
    · cases (kin.test t).mpr test
    · cases choice

namespace Condense

/-! ## Nothing to merge -/

section Choices

variable {s : Condensing} {refs : List Ref}

/-- Alternatives that cannot be merged are left as they are. -/
theorem mergeAlternatives_of_apart {alternatives : List Alternative}
    (apart : alternatives.IsChain Alternative.Apart) :
    mergeAlternatives alternatives = ⟨alternatives.reverse, []⟩ := by
  suffices ∀ done : List Alternative, (done.reverse ++ alternatives).IsChain Alternative.Apart →
      alternatives.foldl Merging.step ⟨done, []⟩ = ⟨alternatives.reverse ++ done, []⟩ by
    rw [mergeAlternatives, this [] apart, List.append_nil]
  clear apart
  induction alternatives with
  | nil => exact fun _ _ => rfl
  | cons next alternatives ih =>
      intro done apart
      have step : Merging.step ⟨done, []⟩ next = ⟨next :: done, []⟩ := by
        cases done with
        | nil => rfl
        | cons last earlier =>
            rw [List.reverse_cons, List.append_assoc, List.isChain_append] at apart
            have refused := (List.isChain_cons_cons.mp apart.2.1).1
            have unmerged : last.merge? next = none := by
              simp only [Alternative.merge?]
              split
              · rename_i u v tested tested'
                rw [refused u v tested tested']
                rfl
              · rfl
            simp only [Merging.step, unmerged]
      rw [List.foldl_cons, step, ih (next :: done) (by simpa using apart)]
      simp

theorem alternatives_apart {g : Grammar} (distinct : refs.IsChain g.Distinct) :
    (refs.map g.alternative).IsChain Alternative.Apart := by
  refine List.isChain_map_of_isChain _ (fun a b apart u v tested tested' => ?_) distinct
  exact apart u v (alternative_test tested) (alternative_test tested')

theorem mapM_flattened_simple (simple : ∀ a ∈ refs, ∀ inner, s.grammar.expression a ≠ .choice inner) :
    refs.mapM flattened s = (refs.map ([·]), s) := by
  induction refs with
  | nil => rfl
  | cons r refs ih =>
      obtain ⟨own, others⟩ := List.forall_mem_cons.mp simple
      obtain ⟨group, first, ⟨rfl, -⟩ | choice⟩ := flattened_apply r s
      · rw [List.mapM_cons, bind_apply, first, bind_apply, ih others]
        rfl
      · exact absurd choice (own group)

theorem mapM_place (g : Grammar) (refs : List Ref) (s : Condensing) :
    (refs.map g.alternative).mapM place s = (refs, s) := by
  induction refs with
  | nil => rfl
  | cons r refs ih =>
      rw [List.map_cons, List.mapM_cons, bind_apply]
      show ((refs.map g.alternative).mapM place >>= fun rest => return r :: rest : Condense (List Ref)) s = _
      rw [bind_apply, ih]
      rfl

/-- A choice in which there is nothing to dissolve or to merge is one of the same alternatives. -/
theorem condenseChoice_distinct
    (simple : ∀ a ∈ refs, ∀ inner, s.grammar.expression a ≠ .choice inner)
    (distinct : refs.IsChain s.grammar.Distinct) (name : Option String) :
    condenseChoice name refs s = add ⟨.choice refs, name⟩ s := by
  have merging := mergeAlternatives_of_apart (alternatives_apart distinct)
  have singles : (refs.map ([·])).flatten = refs := by
    rw [← List.flatMap_def]
    exact List.flatMap_singleton' refs
  rw [condenseChoice, bind_apply, mapM_flattened_simple simple, singles, bind_apply, get_apply]
  dsimp only
  rw [merging, bind_apply]
  have reports : reportMerged ([] : List String).reverse s = ((), s) := rfl
  rw [reports]
  dsimp only
  -- No alternative is a merged test.
  have shape : ∀ a ∈ (refs.map s.grammar.alternative).reverse, a.ref ≠ none := by
    intro a mem
    obtain ⟨r, -, rfl⟩ := List.mem_map.mp (List.mem_reverse.mp mem)
    nofun
  have places : (refs.map s.grammar.alternative).reverse.reverse.mapM place s = (refs, s) := by
    rw [List.reverse_reverse, mapM_place]
  generalize (refs.map s.grammar.alternative).reverse = done at shape places
  have appended : (do addNamed (.choice (← done.reverse.mapM place)) name : Condense Ref) s =
      add ⟨.choice refs, name⟩ s := by
    rw [bind_apply, places, addNamed_eq]
  rcases done with _ | ⟨⟨_ | r, test, label⟩, rest⟩
  · exact appended
  · exact absurd rfl (shape _ (.head _))
  · cases rest <;> exact appended

theorem condenseMany_other {inner : Ref} (other : ∀ t, s.grammar.expression inner ≠ .test t)
    (node : Node) (body : Ref) (least : Nat) :
    condenseMany node body inner least s = add ⟨.many inner least, node.name⟩ s := by
  have appended : addNamed (.many inner least) node.name s = add ⟨.many inner least, node.name⟩ s := by
    rw [addNamed_eq]
  rw [condenseMany, bind_apply, get_apply]
  dsimp only
  cases form : s.grammar.expression inner with
  | test t => exact absurd form (other t)
  | _ => exact appended

end Choices

/-! ## Copying -/

/-- The record and the relation `m` fit a state of condensing what is condensed already. -/
structure Tracked (g : Grammar) (m : Ref → Ref → Prop) (s : Condensing) : Prop where
  begun : Begun g s
  noted : ∀ r r' : Ref, s.condensed[r]? = some r' → m r r'
  inside : ∀ r r', m r r' → r < g.size ∧ r' < s.grammar.size
  kin : ∀ r r', m r r' → (g.expression r).Kin (s.grammar.expression r')
  current : ∀ r r', Forwards g m r r' → s.condensed[r]? = some r'
  apart : ∀ a b r', Forwards g m a r' → Forwards g m b r' → a = b

/-- What was added to the relation are copies. -/
structure Copying (g : Grammar) (m m' : Ref → Ref → Prop) (s s' : Condensing) : Prop where
  later : Later s s'
  more : ∀ r r', m r r' → m' r r'
  added : ∀ r r', m' r r' → ¬ m r r' → Traces g s'.grammar m' r r' ∧
    (s.grammar.size ≤ r' ∨ r' < g.size)

section Copying

variable {g : Grammar} {m m' m'' : Ref → Ref → Prop} {s s' s'' : Condensing}

theorem tracked_start (g : Grammar) : Tracked g (fun _ _ => False) { grammar := g } where
  begun := .start g
  noted r r' found := by simp at found
  inside _ _ pair := pair.elim
  kin _ _ pair := pair.elim
  current _ _ pair := pair.1.elim
  apart _ _ _ pair := pair.1.elim

theorem Copying.refl (g : Grammar) (m : Ref → Ref → Prop) (s : Condensing) : Copying g m m s s :=
  ⟨.refl s, fun _ _ pair => pair, fun _ _ pair new => absurd pair new⟩

theorem Copying.trans (tracked : Tracked g m' s') (first : Copying g m m' s s')
    (second : Copying g m' m'' s' s'') : Copying g m m'' s s'' where
  later := first.later.trans second.later
  more r r' pair := second.more r r' (first.more r r' pair)
  added r r' pair new := by
    by_cases old : m' r r'
    · obtain ⟨traces, place⟩ := first.added r r' old new
      exact ⟨traces.of_node second.more (second.later.kept (tracked.inside r r' old).2), place⟩
    · obtain ⟨traces, place⟩ := second.added r r' pair old
      exact ⟨traces, place.imp_left (Nat.le_trans first.later.larger)⟩

/-- Edits behind what there is are not noticed. -/
theorem Tracked.later (tracked : Tracked g m s) (later : Later s s')
    (condensed : s'.condensed = s.condensed) : Tracked g m s' where
  begun := tracked.begun.later later
  noted r r' found := tracked.noted r r' (by rwa [condensed] at found)
  inside r r' pair :=
    ⟨(tracked.inside r r' pair).1, Nat.lt_of_lt_of_le (tracked.inside r r' pair).2 later.larger⟩
  kin r r' pair := later.mild.kin (tracked.inside r r' pair).2 (tracked.kin r r' pair)
  current r r' pair := by
    rw [condensed]
    exact tracked.current r r' pair
  apart := tracked.apart

/-- Note what has become of one more expression; of a forward reference for the first time. -/
theorem Tracked.record (tracked : Tracked g m s) {r r' : Ref} (inside : r < g.size)
    (inside' : r' < s.grammar.size) (kin : (g.expression r).Kin (s.grammar.expression r'))
    (new : (g.expression r).isForward = true → s.condensed[r]? = none ∧ ∀ a, ¬ m a r') :
    Tracked g (Also m r r') { s with condensed := s.condensed.insert r r' } where
  begun := ⟨tracked.begun.larger, tracked.begun.kept⟩
  noted _ _ found := also_of_insert tracked.noted found
  inside a b := by
    rintro (pair | ⟨rfl, rfl⟩)
    · exact tracked.inside a b pair
    · exact ⟨inside, inside'⟩
  kin a b := by
    rintro (pair | ⟨rfl, rfl⟩)
    · exact tracked.kin a b pair
    · exact kin
  current a b := by
    show _ → (s.condensed.insert r r')[a]? = some b
    rw [Std.TreeMap.getElem?_insert]
    rintro ⟨pair | ⟨rfl, rfl⟩, forward⟩
    · have known := tracked.current a b ⟨pair, forward⟩
      rw [if_neg ?_]
      · exact known
      · intro same
        obtain rfl := Std.LawfulEqCmp.eq_of_compare same
        cases known.symm.trans (new forward).1
    · rw [if_pos Std.ReflCmp.compare_self]
  apart a b c := by
    rintro ⟨pair | ⟨rfl, rfl⟩, forward⟩ ⟨pair' | ⟨rfl, same⟩, forward'⟩
    · exact tracked.apart a b c ⟨pair, forward⟩ ⟨pair', forward'⟩
    · exact absurd (same ▸ pair) ((new forward').2 a)
    · exact absurd pair' ((new forward).2 b)
    · rfl

/-- The relation with a new forward reference in it, whose target is on its way. -/
theorem Tracked.opening (tracked : Tracked g m s) {r : Ref} (inside : r < g.size)
    (forward : (g.expression r).isForward = true) (new : s.condensed[r]? = none)
    (name : Option String) : Tracked g (Also m r s.grammar.size) (opening s r name) := by
  have added : Tracked g m { s with grammar := (s.grammar.add ⟨.forward none, name⟩).2 } :=
    tracked.later (extends_add ⟨.forward none, name⟩ s) rfl
  have own : (s.grammar.add ⟨.forward none, name⟩).2.expression s.grammar.size = .forward none :=
    opening_expression s r name
  refine added.record inside ?_ ?_ fun _ => ⟨new, fun a pair => ?_⟩
  · show s.grammar.size < (s.grammar.add _).2.size
    rw [size_add]
    exact Nat.lt_succ_self _
  · rw [own]
    obtain ⟨target, form⟩ := Expression.eq_forward forward
    rw [form]
    exact ⟨fun _ => ⟨nofun, nofun⟩, nofun⟩
  · exact Nat.lt_irrefl _ (tracked.inside a _ pair).2

/-- An open forward reference is copied at once. -/
theorem Copying.opened {r : Ref} (m : Ref → Ref → Prop) (s : Condensing)
    (form : g.expression r = .forward none) :
    Copying g m (Also m r s.grammar.size) s (Condense.opening s r (g.name r)) := by
  refine ⟨later_opening s r _, fun _ _ => .inl, ?_⟩
  rintro a b (old | ⟨rfl, rfl⟩) new
  · exact absurd old new
  · refine ⟨⟨?_, ?_⟩, .inl (Nat.le_refl _)⟩
    · show ((s.grammar.add _).2.node s.grammar.size).name = _
      rw [node_add, if_pos rfl]
    · rw [opening_expression, form]
      exact .maps .opened

/-- Closing the new forward reference makes it a copy. -/
theorem Copying.closing {r : Ref} {t t' : Ref} (tracked : Tracked g m s) (tracked' : Tracked g m' s')
    (copying : Copying g (Also m r s.grammar.size) m' (Condense.opening s r (g.name r)) s')
    (form : g.expression r = .forward (some t)) (pair : m' t t') :
    Tracked g m' { s' with grammar := s'.grammar.aim s.grammar.size t' } ∧
      Copying g m m' s { s' with grammar := s'.grammar.aim s.grammar.size t' } := by
  have here : m' r s.grammar.size := copying.more r s.grammar.size (.inr ⟨rfl, rfl⟩)
  have inside := (tracked'.inside _ _ here).2
  have opened : s'.grammar.node s.grammar.size = ⟨.forward none, g.name r⟩ := by
    rw [copying.later.kept (by rw [opening_size]; exact Nat.lt_succ_self _)]
    show (s.grammar.add _).2.node s.grammar.size = _
    rw [node_add, if_pos rfl]
  have mild := mild_aim inside (by rw [expression, opened]; rfl) t'
  have behind := tracked.begun.larger
  refine ⟨⟨?_, tracked'.noted, ?_, ?_, tracked'.current, tracked'.apart⟩,
    copying.later.closing t', fun a b pair => copying.more a b (.inl pair), ?_⟩
  · exact tracked.begun.later (copying.later.closing t')
  · intro a b pair
    exact ⟨(tracked'.inside a b pair).1, Nat.lt_of_lt_of_le (tracked'.inside a b pair).2 mild.larger⟩
  · exact fun a b pair => mild.kin (tracked'.inside a b pair).2 (tracked'.kin a b pair)
  · intro a b added new
    by_cases this : Also m r s.grammar.size a b
    · rcases this with old | ⟨rfl, rfl⟩
      · exact absurd old new
      · refine ⟨⟨?_, ?_⟩, .inl (Nat.le_refl _)⟩
        · rw [name_aim, Grammar.name, opened]
        · rw [form, expression_aim inside]
          exact .maps (.closed pair)
    · obtain ⟨traces, place⟩ := copying.added a b added this
      rw [opening_size] at place
      have other : b ≠ s.grammar.size := by
        rcases place with later | earlier
        · exact Nat.ne_of_gt later
        · exact Nat.ne_of_lt (Nat.lt_of_lt_of_le earlier behind)
      exact ⟨traces.of_node (fun _ _ => id) (node_aim_ne other t'), place.imp_left Nat.le_of_succ_le⟩

end Copying

/-! ## All forms -/

section Forms

variable {g : Grammar} {m m' : Ref → Ref → Prop} {s s' : Condensing} {base : Nat} {r : Ref}
  {refs refs' parts : List Ref}

/-- From a state a computation yields a copy of an expression. -/
structure YieldsCopy (g : Grammar) (m : Ref → Ref → Prop) (r : Ref) (s : Condensing)
    (x : Condense Ref) : Prop where
  tracked : Tracked g m (x s).2
  later : Later s (x s).2
  inside : (x s).1 < (x s).2.grammar.size
  traces : Traces g (x s).2.grammar m r (x s).1
  place : s.grammar.size ≤ (x s).1 ∨ (x s).1 < g.size

theorem yieldsCopy_add (tracked : Tracked g m s) {n : Node} (name : n.name = g.name r)
    (same : (g.expression r).Retraces m n.expression) : YieldsCopy g m r s (add n) := by
  have own : (s.grammar.add n).2.node s.grammar.size = n := by rw [node_add, if_pos rfl]
  refine ⟨tracked.later (extends_add _ s) rfl, extends_add _ s, ?_, ⟨?_, ?_⟩, .inl (Nat.le_refl _)⟩
  · show s.grammar.size < (s.grammar.add _).2.size
    rw [size_add]
    exact Nat.lt_succ_self _
  · show ((s.grammar.add _).2.node s.grammar.size).name = _
    rw [own, name]
  · show (g.expression r).Retraces m ((s.grammar.add _).2.node s.grammar.size).expression
    rw [own]
    exact same

theorem yieldsCopy_leaf (tracked : Tracked g m s) (inside : r < g.size)
    (leaf : (g.expression r).isLeaf = true) : YieldsCopy g m r s (return r) := by
  refine ⟨tracked, .refl s, Nat.lt_of_lt_of_le inside tracked.begun.larger,
    ⟨tracked.begun.name inside, ?_⟩, .inr inside⟩
  · show (g.expression r).Retraces m (s.grammar.expression r)
    rw [tracked.begun.expression inside]
    exact .leaf leaf

theorem YieldsCopy.of_eq {x y : Condense Ref} (copy : YieldsCopy g m r s y) (same : x s = y s) :
    YieldsCopy g m r s x := by
  obtain ⟨tracked, later, inside, traces, place⟩ := copy
  constructor <;> rw [same] <;> assumption

/-- Tests among copies are copies of the same tests. -/
theorem Tracked.test_of_copy (tracked : Tracked g m s) {a a' : Ref} (pair : m a a') {t : CharTest}
    (test : s.grammar.expression a' = .test t) : g.expression a = .test t :=
  ((tracked.kin a a' pair).test t).mp test

/-- Copies of alternatives have as little to dissolve and to merge as these. -/
theorem Tracked.distinct (tracked : Tracked g m s) (condensed : List.Forall₂ m refs parts)
    (distinct : refs.IsChain g.Distinct) : parts.IsChain s.grammar.Distinct := by
  induction condensed with
  | nil => exact .nil
  | cons first rest ih =>
      cases rest with
      | nil => exact List.isChain_singleton _
      | cons second rest =>
          rw [List.isChain_cons_cons] at distinct ⊢
          refine ⟨fun u v test test' => ?_, ih distinct.2⟩
          exact distinct.1 u v (tracked.test_of_copy first test) (tracked.test_of_copy second test')

theorem Tracked.simple (tracked : Tracked g m s) (condensed : List.Forall₂ m refs parts)
    (simple : ∀ a ∈ refs, ∀ inner, g.expression a ≠ .choice inner) :
    ∀ a ∈ parts, ∀ inner, s.grammar.expression a ≠ .choice inner := by
  intro a' mem inner choice
  obtain ⟨a, mem, pair⟩ := exists_origin condensed a' mem
  obtain ⟨inner', choice'⟩ := (tracked.kin a a' pair).choice inner choice
  exact simple a mem inner' choice'

/-- What is in normal form is put together again as it was. -/
theorem yieldsCopy_assemble (settled : Settled base g r) (inside : r < g.size)
    (tracked : Tracked g m s) {node : Node} (here : g.node r = node)
    (plain : node.expression.isForward = false)
    (condensed : List.Forall₂ m node.expression.children parts) :
    YieldsCopy g m r s (assemble r node parts) := by
  obtain ⟨e, name⟩ := node
  have form : g.expression r = e := congrArg Node.expression here
  have named : name = g.name r := (congrArg Node.name here).symm
  have normal := settled.normal
  cases e with
  | char | oneOf | escaped | orElse =>
      have reduced := normal.reduced
      rw [form] at reduced
      nomatch reduced
  | forward => nomatch plain
  | test t =>
      obtain ⟨own, known⟩ := settled.named t form
      refine yieldsCopy_add tracked ?_ (by rw [form]; exact .leaf rfl)
      rw [← named] at known ⊢
      subst known
      rfl
  | scan | literal | keyword | finish => exact yieldsCopy_leaf tracked inside (by rw [form]; rfl)
  | choice refs =>
      refine (yieldsCopy_add (n := ⟨.choice parts, name⟩) tracked named ?_).of_eq
        (condenseChoice_distinct (tracked.simple condensed (normal.flat refs form))
          (tracked.distinct condensed (normal.distinct refs form)) name)
      rw [form]
      exact .choice condensed
  | many body least =>
      cases condensed with
      | @cons _ inner _ _ pair rest =>
          cases rest
          refine (yieldsCopy_add (n := ⟨.many inner least, name⟩) tracked named ?_).of_eq
            (condenseMany_other (fun t test => ?_) _ _ _)
          · rw [form]
            exact .maps (.many pair)
          · exact normal.run body least form t (tracked.test_of_copy pair test)
  | _ =>
      have maps := maps_withChildren condensed rfl rfl rfl nofun
      refine (yieldsCopy_add (n := ⟨Expression.withChildren _ parts, name⟩) tracked named ?_).of_eq
        (congrFun (addNamed_eq _ _) s)
      rw [form]
      exact .maps maps

end Forms

/-! ## Walks -/

section Walks

variable {g : Grammar} {m m' : Ref → Ref → Prop} {s s' s₁ : Condensing} {base : Nat}
  {refs refs' parts : List Ref} {r : Ref}

/-- A copy is recorded that was put together after what it refers to. -/
theorem Copying.made (tracked : Tracked g m' s₁) (copying : Copying g m m' s s₁) {x : Condense Ref}
    (copy : YieldsCopy g m' r s₁ x) (inside : r < g.size)
    (plain : (g.expression r).isForward = false) :
    Tracked g (Also m' r (x s₁).1)
        { (x s₁).2 with condensed := (x s₁).2.condensed.insert r (x s₁).1 } ∧
      Copying g m (Also m' r (x s₁).1) s
        { (x s₁).2 with condensed := (x s₁).2.condensed.insert r (x s₁).1 } := by
  have more (a b : Ref) (pair : m' a b) : Also m' r (x s₁).1 a b := .inl pair
  refine ⟨copy.tracked.record inside copy.inside copy.traces.form.kin ?_, ?_, ?_, ?_⟩
  · intro forward
    cases forward.symm.trans plain
  · exact (copying.later.trans copy.later).trans (later_record _ r (x s₁).1)
  · exact fun a b pair => more a b (copying.more a b pair)
  · rintro a b (pair | ⟨rfl, rfl⟩) new
    · obtain ⟨traces, place⟩ := copying.added a b pair new
      exact ⟨traces.of_node more (copy.later.kept (tracked.inside a b pair).2), place⟩
    · exact ⟨copy.traces.of_node more rfl, copy.place.imp_left (Nat.le_trans copying.later.larger)⟩

/-- What is in normal form is copied. -/
theorem Walk.copies (walk : Walk refs s refs' s') (tidy : Tidy base g)
    (fit : ∀ r ∈ refs, Fit base g r) (tracked : Tracked g m s) :
    ∃ m', Tracked g m' s' ∧ Copying g m m' s s' ∧ List.Forall₂ m' refs refs' := by
  induction walk generalizing m with
  | done => exact ⟨m, tracked, .refl g m _, .nil⟩
  | known found rest ih =>
      obtain ⟨m', tracked', copying, all⟩ := ih (List.forall_mem_cons.mp fit).2 tracked
      exact ⟨m', tracked', copying, .cons (copying.more _ _ (tracked.noted _ _ found)) all⟩
  | @opened r _ _ s _ new form rest ih =>
      obtain ⟨own, others⟩ := List.forall_mem_cons.mp fit
      rw [tracked.begun.expression own.inside] at form
      rw [tracked.begun.name own.inside] at ih
      have tracked₁ := tracked.opening own.inside (by rw [form]; rfl) new (g.name r)
      obtain ⟨m', tracked', copying, all⟩ := ih others tracked₁
      exact ⟨m', tracked', (Copying.opened _ _ form).trans tracked₁ copying,
        .cons (copying.more _ _ (.inr ⟨rfl, rfl⟩)) all⟩
  | @closed r target target' _ _ s s₁ _ new form inner rest ih ih' =>
      obtain ⟨own, others⟩ := List.forall_mem_cons.mp fit
      rw [tracked.begun.expression own.inside] at form
      rw [tracked.begun.name own.inside] at ih
      have aimed := (tidy.settled own).children target (by rw [form]; exact .head _)
      obtain ⟨m₁, tracked₁, copying₁, pair⟩ := ih (List.forall_mem_singleton.mpr aimed)
        (tracked.opening own.inside (by rw [form]; rfl) new (g.name r))
      obtain ⟨tracked₂, copying₂⟩ :=
        copying₁.closing tracked tracked₁ form (List.forall₂_cons.mp pair).1
      obtain ⟨m', tracked', copying, all⟩ := ih' others tracked₂
      exact ⟨m', tracked', copying₂.trans tracked₂ copying,
        .cons (copying.more _ _ (copying₁.more _ _ (.inr ⟨rfl, rfl⟩))) all⟩
  | @form r r' _ _ parts s s₁ s₂ _ new plain inner made rest ih ih' =>
      obtain ⟨own, others⟩ := List.forall_mem_cons.mp fit
      have settled := tidy.settled own
      have same := tracked.begun.expression own.inside
      obtain ⟨m₁, tracked₁, copying₁, condensed⟩ := ih (by rw [same]; exact settled.children) tracked
      have copy := yieldsCopy_assemble settled own.inside tracked₁
        (tracked.begun.kept r own.inside).symm plain condensed
      have recorded := copying₁.made tracked₁ copy own.inside (by rw [← same, plain])
      rw [made] at recorded
      obtain ⟨m', tracked', copying, all⟩ := ih' others recorded.1
      exact ⟨m', tracked', recorded.2.trans recorded.1 copying,
        .cons (copying.more _ _ (.inr ⟨rfl, rfl⟩)) all⟩

end Walks

end Condense

/-! ## Condensing twice -/

section Twice

variable {g : Grammar} {root : Ref}

/-- Condensing what is in normal form comes to a copy of it. -/
theorem condense_copies (wellFormed : g.WellFormed) {base : Nat} (tidy : Tidy base g)
    (fit : Fit base g root) :
    ∃ m, Copies g (g.condense root).grammar m ∧ m root (g.condense root).root := by
  obtain ⟨s, walk, grammar, -⟩ := condense_walks wellFormed fit.inside
  obtain ⟨m, tracked, copying, pair⟩ :=
    walk.copies tidy (List.forall_mem_singleton.mpr fit) (Condense.tracked_start g)
  rw [← grammar]
  have traces (r r' : Ref) (pair : m r r') := (copying.added r r' pair not_false).1
  refine ⟨m, ⟨tracked.begun.larger, fun r r' pair => (tracked.inside r r' pair).1,
    fun r r' pair => (traces r r' pair).name, fun r r' pair => (traces r r' pair).form, ?_⟩,
    (List.forall₂_cons.mp pair).1⟩
  intro r r' a a' here there
  constructor
  · rintro rfl
    exact Option.some.inj ((tracked.current a a' there).symm.trans (tracked.current a r' here))
  · rintro rfl
    exact tracked.apart a r a' there here

/-- One pass of condensing comes to a normal form: everything that is reached is in normal form, and
condensing once more changes nothing that compilation sees. -/
theorem condense_normalizes (wellFormed : g.WellFormed) (inside : root < g.size) :
    (∀ r, (g.condense root).grammar.Reaches (g.condense root).root r →
      (g.condense root).grammar.Normal r) ∧
    ∀ traced : Bool,
      ((g.condense root).grammar.condense (g.condense root).root).grammar.compile ⟨false, traced⟩
          ((g.condense root).grammar.condense (g.condense root).root).root =
        (g.condense root).grammar.compile ⟨false, traced⟩ (g.condense root).root := by
  refine ⟨fun r reaches => (condense_settled wellFormed inside reaches).normal, fun traced => ?_⟩
  obtain ⟨tidy, fit⟩ := condense_tidy wellFormed inside
  obtain ⟨m, condensation, -⟩ := condense_condensation wellFormed inside
  obtain ⟨m', copies, pair⟩ := condense_copies condensation.wellFormed tidy fit
  exact copies.lowered_eq condensation.wellFormed pair

/-- Letters in brackets, condensed once and condensed twice. -/
theorem brackets_normalized :
    brackets.1.WellFormed ∧ brackets.2 < brackets.1.size ∧
      (∀ r, (brackets.1.condense brackets.2).grammar.Reaches (brackets.1.condense brackets.2).root r →
        (brackets.1.condense brackets.2).grammar.Normal r) ∧
      ∀ traced : Bool,
        ((brackets.1.condense brackets.2).grammar.condense
            (brackets.1.condense brackets.2).root).grammar.compile ⟨false, traced⟩
            ((brackets.1.condense brackets.2).grammar.condense
              (brackets.1.condense brackets.2).root).root =
          (brackets.1.condense brackets.2).grammar.compile ⟨false, traced⟩
            (brackets.1.condense brackets.2).root := by
  exact ⟨brackets_wellFormed, brackets_inside,
    condense_normalizes brackets_wellFormed brackets_inside⟩

end Twice

end Grammar

end PegMachine
