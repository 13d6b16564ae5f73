/-
# PegMachine.Proofs.Condensing.Walk — condensing without a bound

Visits nest only as deeply as a bound on their height allows. `Walk` says what condensing is
without one: a list of expressions is condensed from the left, an expression that has been
condensed before is not condensed again, a forward reference gets a new one before its target
is visited, and any other expression is put together (`assemble`) after what it refers to.

From a state in which enough of the forward references have been met, a visit walks
(`walk_visit`), and a walk has one outcome only (`Walk.unique`). So condensing comes to an
end, and how much higher visits might be nested makes no difference (`condense_walks`).
Whatever is true of condensing can now be shown by induction on the walk.
-/
import PegMachine.Proofs.Condensing.Frame

namespace PegMachine

set_option autoImplicit false

/-- The same form over other references, which are given in order. -/
def Expression.withChildren : Expression → List Ref → Expression
  | .seq .., [a, b] => .seq a b
  | .keepLeft .., [a, b] => .keepLeft a b
  | .keepRight .., [a, b] => .keepRight a b
  | .followedBy .., [a, b] => .followedBy a b
  | .notFollowedBy .., [a, b] => .notFollowedBy a b
  | .combine f _, parts => .combine f parts
  | .optional _ fallback, [body] => .optional body fallback
  | .transform f _, [body] => .transform f body
  | .idiom kind _, [body] => .idiom kind body
  | e, _ => e

namespace Grammar.Condense

/-- Condense an expression that is no forward reference, once what it refers to has become
`parts`. -/
def assemble (r : Ref) (node : Node) (parts : List Ref) : Condense Ref :=
  match node.expression.charTest? with
  | some t => add ⟨.test t, some node.label⟩
  | none =>
    match node.expression, parts with
    | .orElse .., _ | .choice _, _ => condenseChoice node.name parts
    | .many body least, [inner] => condenseMany node body inner least
    | e, _ => if e.isLeaf then return r else addNamed (e.withChildren parts) node.name

/-- First all that an expression refers to is condensed, then the expression itself. -/
theorem condenseNode_eq (visit : Ref → Condense Ref) (r : Ref) (node : Node)
    (plain : node.expression.isForward = false) :
    condenseNode visit r node = node.expression.children.mapM visit >>= assemble r node := by
  obtain ⟨e, name⟩ := node
  cases e with
  | forward => nomatch plain
  | choice => rfl
  | combine f parts =>
      have steps : condenseNode visit r ⟨.combine f parts, name⟩ = (do
          addNamed (.combine f (← parts.mapM visit)) name) := by
        simp [condenseNode, Expression.charTest?, Expression.isLeaf, Expression.mapRefs]
      rw [steps]
      rfl
  | _ =>
      simp [condenseNode, assemble, Expression.charTest?, Expression.children, Expression.isLeaf,
        Expression.mapRefs, Expression.withChildren]

/-- Forms that are neither choices nor repetitions are put together as they were. -/
theorem maps_withChildren {m : Ref → Ref → Prop} {e : Expression} {parts : List Ref}
    (all : List.Forall₂ m e.children parts) (compound : e.isLeaf = false)
    (ordered : e.alternatives? = none) (plain : e.isForward = false)
    (rounds : ∀ body least, e ≠ .many body least) : Maps m e (e.withChildren parts) := by
  cases e with
  | seq | keepLeft | keepRight | followedBy | notFollowedBy =>
      cases all with
      | cons first rest =>
          cases rest with
          | cons second rest =>
              cases rest
              constructor <;> assumption
  | optional | transform | idiom =>
      cases all with
      | cons inner rest =>
          cases rest
          constructor
          exact inner
  | combine => exact .combine all
  | many body least => exact absurd rfl (rounds body least)
  | orElse | choice => nomatch ordered
  | forward => nomatch plain
  | _ => nomatch compound

theorem extends_assemble (r : Ref) (node : Node) (parts : List Ref) : Extends (assemble r node parts) := by
  rw [assemble.eq_def]
  split
  · exact extends_add _
  · split
    · exact extends_condenseChoice _ _
    · exact extends_condenseChoice _ _
    · exact extends_condenseMany _ _ _ _
    · split
      · exact extends_pure r
      · exact extends_addNamed _ _

/-! ## Walks -/

/-- Expressions are condensed one after the other; `Walk refs s refs' s'` says what they become
and which state that leads to. -/
inductive Walk : List Ref → Condensing → List Ref → Condensing → Prop
  | done (s : Condensing) : Walk [] s [] s
  /-- An expression that has been condensed before. -/
  | known {r r' : Ref} {refs refs' : List Ref} {s s' : Condensing}
      (found : s.condensed[r]? = some r') (rest : Walk refs s refs' s') :
      Walk (r :: refs) s (r' :: refs') s'
  /-- An open forward reference. -/
  | opened {r : Ref} {refs refs' : List Ref} {s s' : Condensing} (new : s.condensed[r]? = none)
      (form : s.grammar.expression r = .forward none)
      (rest : Walk refs (opening s r (s.grammar.name r)) refs' s') :
      Walk (r :: refs) s (s.grammar.size :: refs') s'
  /-- A forward reference, whose target is condensed next. -/
  | closed {r target target' : Ref} {refs refs' : List Ref} {s s₁ s' : Condensing}
      (new : s.condensed[r]? = none) (form : s.grammar.expression r = .forward (some target))
      (inner : Walk [target] (opening s r (s.grammar.name r)) [target'] s₁)
      (rest : Walk refs { s₁ with grammar := s₁.grammar.aim s.grammar.size target' } refs' s') :
      Walk (r :: refs) s (s.grammar.size :: refs') s'
  /-- Any other expression, after all that it refers to. -/
  | form {r r' : Ref} {refs refs' parts : List Ref} {s s₁ s₂ s' : Condensing}
      (new : s.condensed[r]? = none) (plain : (s.grammar.expression r).isForward = false)
      (inner : Walk (s.grammar.expression r).children s parts s₁)
      (made : assemble r (s.grammar.node r) parts s₁ = (r', s₂))
      (rest : Walk refs { s₂ with condensed := s₂.condensed.insert r r' } refs' s') :
      Walk (r :: refs) s (r' :: refs') s'

section Walk

variable {refs refs' : List Ref} {r r' : Ref} {s s' s₁ : Condensing}

theorem Walk.cons (first : Walk [r] s [r'] s₁) (rest : Walk refs s₁ refs' s') :
    Walk (r :: refs) s (r' :: refs') s' := by
  cases first with
  | known found last => cases last; exact .known found rest
  | opened new form last => cases last; exact .opened new form rest
  | closed new form inner last => cases last; exact .closed new form inner rest
  | form new plain inner made last => cases last; exact .form new plain inner made rest

/-- A walk leads to a later state. -/
theorem Walk.later (walk : Walk refs s refs' s') : Later s s' := by
  induction walk with
  | done s => exact .refl s
  | known _ _ ih => exact ih
  | opened _ _ _ ih => exact (later_opening _ _ _).trans ih
  | closed _ _ _ _ inner rest => exact (inner.closing _).trans rest
  | @form r r' _ _ parts s s₁ s₂ _ _ _ _ made _ inner rest =>
      have assembled := extends_assemble r (s.grammar.node r) parts s₁
      rw [made] at assembled
      exact ((inner.trans assembled).trans (later_record _ _ _)).trans rest

/-- A walk has one outcome. -/
theorem Walk.unique {refs'' : List Ref} {s'' : Condensing} (walk : Walk refs s refs' s')
    (walk' : Walk refs s refs'' s'') : refs' = refs'' ∧ s' = s'' := by
  induction walk generalizing refs'' s'' with
  | done =>
      cases walk'
      exact ⟨rfl, rfl⟩
  | known found _ ih =>
      cases walk' with
      | known found' rest' =>
          obtain ⟨rfl, rfl⟩ := ih rest'
          rw [Option.some.inj (found.symm.trans found')]
          exact ⟨rfl, rfl⟩
      | opened new | closed new | form new => cases found.symm.trans new
  | opened new form _ ih =>
      cases walk' with
      | known found => cases found.symm.trans new
      | opened _ _ rest' =>
          obtain ⟨rfl, rfl⟩ := ih rest'
          exact ⟨rfl, rfl⟩
      | closed _ form' => cases form.symm.trans form'
      | form _ plain => rw [form] at plain; cases plain
  | closed new form _ _ inner rest =>
      cases walk' with
      | known found => cases found.symm.trans new
      | opened _ form' => cases form.symm.trans form'
      | closed _ form' inner' rest' =>
          obtain rfl := Option.some.inj (Expression.forward.inj (form.symm.trans form'))
          obtain ⟨same, rfl⟩ := inner inner'
          obtain rfl := List.singleton_inj.mp same
          obtain ⟨rfl, rfl⟩ := rest rest'
          exact ⟨rfl, rfl⟩
      | form _ plain => rw [form] at plain; cases plain
  | form new plain _ made _ inner rest =>
      cases walk' with
      | known found => cases found.symm.trans new
      | opened _ form' => rw [form'] at plain; cases plain
      | closed _ form' => rw [form'] at plain; cases plain
      | form _ _ inner' made' rest' =>
          obtain ⟨rfl, rfl⟩ := inner inner'
          obtain ⟨rfl, rfl⟩ := Prod.mk.inj (made.symm.trans made')
          obtain ⟨rfl, rfl⟩ := rest rest'
          exact ⟨rfl, rfl⟩

end Walk

/-! ## Visits walk -/

section Visits

variable {g : Grammar} {visit : Ref → Condense Ref} {s : Condensing} {refs : List Ref}

/-- A state of condensing a grammar: it still begins with that grammar. -/
structure Begun (g : Grammar) (s : Condensing) : Prop where
  larger : g.size ≤ s.grammar.size
  kept : ∀ r < g.size, s.grammar.node r = g.node r

theorem Begun.start (g : Grammar) : Begun g { grammar := g } := ⟨Nat.le_refl _, fun _ _ => rfl⟩

theorem Begun.later {s' : Condensing} (begun : Begun g s) (later : Later s s') : Begun g s' where
  larger := Nat.le_trans begun.larger later.larger
  kept r inside := (later.kept (Nat.lt_of_lt_of_le inside begun.larger)).trans (begun.kept r inside)

theorem Begun.expression (begun : Begun g s) {r : Ref} (inside : r < g.size) :
    s.grammar.expression r = g.expression r := by
  rw [Grammar.expression, begun.kept r inside, Grammar.expression]

theorem Begun.name (begun : Begun g s) {r : Ref} (inside : r < g.size) :
    s.grammar.name r = g.name r := by
  rw [Grammar.name, begun.kept r inside, Grammar.name]

/-- If every expression can be walked from any later state, so can all of them in order. -/
theorem walk_mapM
    (each : ∀ r ∈ refs, ∀ s', Later s s' → Walk [r] s' [(visit r s').1] (visit r s').2) :
    Walk refs s (refs.mapM visit s).1 (refs.mapM visit s).2 := by
  induction refs generalizing s with
  | nil => exact .done s
  | cons r refs ih =>
      rw [List.mapM_cons]
      have first := each r (.head _) s (.refl s)
      refine .cons first (ih fun a mem s' later => ?_)
      exact each a (.tail _ mem) s' (first.later.trans later)

/-- With enough height a visit walks. Every forward reference is met once at most, and between
two of them the visits descend. -/
theorem walk_visit (wellFormed : g.WellFormed) {height : Nat} {r : Ref} (inside : r < g.size)
    (begun : Begun g s) (enough : g.ahead (· ∈ s.condensed) r ≤ height) :
    Walk [r] s [(Condense.visit height r s).1] (Condense.visit height r s).2 := by
  induction height generalizing r s with
  | zero => nomatch enough
  | succ height ih =>
      cases known : s.condensed[r]? with
      | some result =>
          rw [visit_known known]
          exact .known known (.done s)
      | none =>
          have same := begun.expression inside
          have unmet : r ∉ s.condensed := by
            rw [← Std.TreeMap.isSome_getElem?_iff_mem, known]
            nofun
          cases plain : (g.expression r).isForward with
          | true =>
              obtain ⟨target, form⟩ := Expression.eq_forward plain
              rw [visit_forward known (by rw [← form]; exact same)]
              cases target with
              | none =>
                  rw [condenseForward_none]
                  exact .opened known (same.trans form) (.done _)
              | some t =>
                  rw [condenseForward_some]
                  have aimed := (wellFormed r inside t (by rw [form]; exact .head _)).1
                  have less : g.ahead (· ∈ (opening s r (s.grammar.name r)).condensed) t <
                      g.ahead (· ∈ s.condensed) r :=
                    ahead_target (later_opening s r _).known inside plain unmet
                      Std.TreeMap.mem_insert_self aimed
                  exact .closed known (same.trans form)
                    (ih aimed (begun.later (later_opening s r _))
                      (Nat.le_of_lt_succ (Nat.lt_of_lt_of_le less enough))) (.done _)
          | false =>
              rw [visit_other known (by rw [← plain]; exact congrArg _ same)]
              rw [condenseNode_eq _ _ _ (by rw [← plain]; exact congrArg _ same)]
              refine .form known (by rw [same, plain]) (walk_mapM ?_) rfl (.done _)
              intro child mem s' later
              have mem : child ∈ (g.expression r).children := by rwa [← same]
              have order := wellFormed r inside child mem
              have less : g.ahead (· ∈ s'.condensed) child < g.ahead (· ∈ s.condensed) r :=
                ahead_child later.known (order.2 plain)
              exact ih order.1 (begun.later later)
                (Nat.le_of_lt_succ (Nat.lt_of_lt_of_le less enough))

end Visits

end Grammar.Condense

namespace Grammar

open Condense (Walk)

/-- Condensing an expression walks to its end, and with any more height it comes to the same. -/
theorem condense_walks {g : Grammar} (wellFormed : g.WellFormed) {root : Ref}
    (inside : root < g.size) :
    ∃ s, Walk [root] { grammar := g } [(g.condense root).root] s ∧
      s.grammar = (g.condense root).grammar ∧
      ∀ height, g.walkLimit ≤ height →
        (Condense.visit height root).run { grammar := g } = ((g.condense root).root, s) := by
  have walks {height : Nat} (enough : g.walkLimit ≤ height) :=
    Condense.walk_visit wellFormed inside (.start g)
      (Nat.le_trans (ahead_le_walkLimit _ inside) enough)
  refine ⟨_, walks (Nat.le_refl _), rfl, ?_⟩
  intro height enough
  obtain ⟨same, same'⟩ := (walks enough).unique (walks (Nat.le_refl _))
  exact Prod.ext (List.singleton_inj.mp same) same'

end Grammar

end PegMachine
