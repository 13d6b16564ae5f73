/-
# PegMachine.Proofs.Condensing.Frame — condensing leaves a grammar as it was

Condensing shares leaves and finished expressions between a grammar and what it appends to
it, and it writes names and targets after the fact. All it ever does to a grammar is one of
three things (`Edit`): it appends an expression, names one that it has appended itself, or
closes a forward reference that it has appended itself and that is still open. What any visit
does is a sequence of such edits (`extends_visit`), whatever the state and even where the
visits do not come to an end.

So nothing that was there before has changed, and an expression that is compiled as it is
comes to the same bytecode as before, however much has been condensed in the meantime
(`condense_untouched`).
-/
import Mathlib.Logic.Relation
import PegMachine.Proofs.Condensing.Visit
import PegMachine.Proofs.Lowering.Copies

namespace PegMachine.Grammar

set_option autoImplicit false

/-! ## Edits -/

/-- A change to a grammar that keeps away from the first `base` expressions. -/
inductive Edit (base : Nat) : Grammar → Grammar → Prop
  | add (g : Grammar) (n : Node) : Edit base g (g.add n).2
  | setName (g : Grammar) {r : Ref} (own : base ≤ r) (name : String) : Edit base g (g.setName r name)
  | close (g : Grammar) {r : Ref} (own : base ≤ r) (opened : g.expression r = .forward none)
      (target : Ref) : Edit base g (g.aim r target)

/-- Any number of such changes. -/
def Edits (base : Nat) : Grammar → Grammar → Prop := Relation.ReflTransGen (Edit base)

section Edits

variable {g g' g'' : Grammar} {base base' : Nat}

theorem Edit.larger (edit : Edit base g g') : g.size ≤ g'.size := by
  cases edit with
  | add n =>
      rw [size_add]
      exact Nat.le_succ _
  | setName own name => rw [size_setName]
  | close own opened target => rw [size_aim]

/-- An edit changes nothing among the first expressions. -/
theorem Edit.kept (edit : Edit base g g') (inside : base ≤ g.size) {r : Ref} (old : r < base) :
    g'.node r = g.node r := by
  cases edit with
  | add n => rw [node_add, if_neg (Nat.ne_of_lt (Nat.lt_of_lt_of_le old inside))]
  | setName own name => exact node_setName_ne (Nat.ne_of_lt (Nat.lt_of_lt_of_le old own)) name
  | close own opened target => exact node_aim_ne (Nat.ne_of_lt (Nat.lt_of_lt_of_le old own)) target

theorem Edit.weaken (edit : Edit base' g g') (le : base ≤ base') : Edit base g g' := by
  cases edit with
  | add n => exact .add g n
  | setName own name => exact .setName g (Nat.le_trans le own) name
  | close own opened target => exact .close g (Nat.le_trans le own) opened target

theorem Edits.larger (edits : Edits base g g') : g.size ≤ g'.size := by
  induction edits with
  | refl => exact Nat.le_refl _
  | tail _ edit ih => exact Nat.le_trans ih edit.larger

/-- What there was among the first expressions is still there. -/
theorem Edits.kept (edits : Edits base g g') (inside : base ≤ g.size) {r : Ref} (old : r < base) :
    g'.node r = g.node r := by
  induction edits with
  | refl => rfl
  | tail before edit ih => exact (edit.kept (Nat.le_trans inside (Edits.larger before)) old).trans ih

theorem Edits.weaken (edits : Edits base' g g') (le : base ≤ base') : Edits base g g' :=
  Relation.ReflTransGen.mono (fun _ _ edit => Edit.weaken edit le) _ _ edits

theorem Edits.trans (first : Edits base g g') (second : Edits base g' g'') : Edits base g g'' :=
  Relation.ReflTransGen.trans first second

end Edits

/-! ## Condensing -/

namespace Condense

/-- A state that may come about from another: the grammar was edited behind what there was, and
what had been condensed still has been. -/
structure Later (s s' : Condensing) : Prop where
  edits : Edits s.grammar.size s.grammar s'.grammar
  known : ∀ r, r ∈ s.condensed → r ∈ s'.condensed

section Later

variable {s s' s'' : Condensing}

theorem Later.of_same (grammar : s'.grammar = s.grammar) (condensed : s'.condensed = s.condensed) :
    Later s s' := by
  refine ⟨?_, ?_⟩
  · rw [grammar]
    exact .refl
  · rw [condensed]
    exact fun _ => id

theorem Later.refl (s : Condensing) : Later s s := .of_same rfl rfl

theorem Later.trans (first : Later s s') (second : Later s' s'') : Later s s'' :=
  ⟨first.edits.trans (second.edits.weaken first.edits.larger),
    fun r mem => second.known r (first.known r mem)⟩

theorem Later.larger (later : Later s s') : s.grammar.size ≤ s'.grammar.size := later.edits.larger

theorem Later.kept (later : Later s s') {r : Ref} (inside : r < s.grammar.size) :
    s'.grammar.node r = s.grammar.node r := later.edits.kept (Nat.le_refl _) inside

theorem later_record (s : Condensing) (r r' : Ref) :
    Later s { s with condensed := s.condensed.insert r r' } :=
  ⟨.refl, fun _ mem => Std.TreeMap.mem_insert.mpr (.inr mem)⟩

theorem later_opening (s : Condensing) (r : Ref) (name : Option String) :
    Later s (opening s r name) :=
  ⟨.single (.add s.grammar ⟨.forward none, name⟩), fun _ mem => Std.TreeMap.mem_insert.mpr (.inr mem)⟩

/-- The forward reference that is closed in the end is the one that was appended at the
beginning, and nothing that happens in between touches it. -/
theorem Later.closing {r : Ref} {name : Option String} (between : Later (opening s r name) s')
    (target : Ref) :
    Later s { s' with grammar := s'.grammar.aim s.grammar.size target } := by
  have own : s.grammar.size < (opening s r name).grammar.size := by
    rw [opening_size]
    exact Nat.lt_succ_self _
  have still : s'.grammar.expression s.grammar.size = .forward none := by
    rw [expression, between.kept own]
    exact opening_expression s r name
  have until_ := (later_opening s r name).trans between
  exact ⟨until_.edits.tail (.close _ (Nat.le_refl _) still target), until_.known⟩

end Later

/-- Whatever the state, a computation leads to a later one. -/
def Extends {α : Type} (x : Condense α) : Prop := ∀ s : Condensing, Later s (x s).2

section Extends

variable {α β : Type} {visit : Ref → Condense Ref}

theorem Extends.bind {x : Condense α} {f : α → Condense β} (first : Extends x)
    (rest : ∀ a, Extends (f a)) : Extends (x >>= f) :=
  fun s => (first s).trans (rest (x s).1 (x s).2)

theorem extends_pure (a : α) : Extends (pure a) := Later.refl

theorem extends_get : Extends get := Later.refl

theorem extends_add (n : Node) : Extends (add n) :=
  fun s => ⟨.single (.add s.grammar n), fun _ => id⟩

/-- An expression that has just been appended may be renamed. -/
theorem extends_addRenamed (n : Node) (name : Option String) :
    Extends (do let r ← add n; rename r name; return r) := by
  intro s
  have added : Edit s.grammar.size s.grammar (s.grammar.add n).2 := .add s.grammar n
  cases name with
  | none => exact ⟨.single added, fun _ => id⟩
  | some name => exact ⟨.tail (.single added) (.setName _ (Nat.le_refl _) name), fun _ => id⟩

theorem extends_addNamed (e : Expression) (name : Option String) : Extends (addNamed e name) :=
  extends_addRenamed ⟨e, none⟩ name

theorem extends_mapM {f : α → Condense β} (as : List α) (each : ∀ a, Extends (f a)) :
    Extends (as.mapM f) := by
  induction as with
  | nil => exact extends_pure []
  | cons a as ih =>
      rw [List.mapM_cons]
      exact (each a).bind fun _ => ih.bind fun _ => extends_pure _

theorem extends_reportMerged (labels : List String) : Extends (reportMerged labels) :=
  fun s => .of_same (reportMerged_apply labels s).1 (reportMerged_apply labels s).2

theorem extends_flattened (r : Ref) : Extends (flattened r) := by
  refine extends_get.bind fun s => ?_
  split <;> exact extends_pure _

theorem extends_place (a : Alternative) : Extends (place a) := by
  rw [place.eq_def]
  split
  · exact extends_pure _
  · exact extends_add _

theorem extends_condenseChoice (name : Option String) (alternatives : List Ref) :
    Extends (condenseChoice name alternatives) := by
  refine (extends_mapM alternatives extends_flattened).bind fun groups => ?_
  refine extends_get.bind fun s => ?_
  refine (extends_reportMerged _).bind fun _ => ?_
  split
  · exact extends_addRenamed _ name
  · exact (extends_mapM _ extends_place).bind fun _ => extends_addNamed _ name

theorem extends_condenseMany (node : Node) (body inner : Ref) (least : Nat) :
    Extends (condenseMany node body inner least) := by
  refine extends_get.bind fun s => ?_
  dsimp only
  split
  · have reports (text : String) : Extends (report text) := fun _ => .of_same rfl rfl
    exact (reports _).bind fun _ => extends_addNamed _ _
  · exact extends_addNamed _ _

variable (visits : ∀ r, Extends (visit r))
include visits

theorem extends_mapRefs (e : Expression) : Extends (e.mapRefs visit) := by
  cases e with
  | seq a b | keepLeft a b | keepRight a b | followedBy a b | notFollowedBy a b | orElse a b =>
      exact (visits a).bind fun _ => (visits b).bind fun _ => extends_pure _
  | choice refs | combine _ refs =>
      exact (extends_mapM refs visits).bind fun _ => extends_pure _
  | optional body | many body | transform _ body | idiom _ body =>
      exact (visits body).bind fun _ => extends_pure _
  | _ => exact extends_pure _

theorem extends_condenseNode (r : Ref) (node : Node) : Extends (condenseNode visit r node) := by
  rw [condenseNode]
  split
  · exact extends_add _
  · split
    · exact (extends_mapM _ visits).bind fun _ => extends_condenseChoice _ _
    · exact (extends_mapM _ visits).bind fun _ => extends_condenseChoice _ _
    · exact (visits _).bind fun _ => extends_condenseMany _ _ _ _
    · split
      · exact extends_pure r
      · exact (extends_mapRefs visits _).bind fun _ => extends_addNamed _ _

theorem extends_condenseForward (r : Ref) (name : Option String) (target : Option Ref) :
    Extends (condenseForward visit r name target) := by
  intro s
  cases target with
  | none =>
      rw [condenseForward_none]
      exact later_opening s r name
  | some t =>
      rw [condenseForward_some]
      exact (visits t (opening s r name)).closing _

omit visits in
theorem extends_visit (height : Nat) (r : Ref) : Extends (Condense.visit height r) := by
  induction height generalizing r with
  | zero => exact extends_pure r
  | succ height ih =>
      refine extends_get.bind fun s => ?_
      split
      · exact extends_pure _
      · dsimp only
        split
        · exact extends_condenseForward ih _ _ _
        · exact (extends_condenseNode ih _ _).bind fun result =>
            (show Extends (record r result) from fun s => later_record s r result).bind
              fun _ => extends_pure _

end Extends

end Condense

/-- Condensing edits what it appends itself. -/
theorem condense_edits (g : Grammar) (root : Ref) : Edits g.size g (g.condense root).grammar :=
  (Condense.extends_visit g.walkLimit root { grammar := g }).edits

/-- A grammar after some expressions were condensed, one after the other; each may be one that
was there before or one that has come about since. -/
def condenseAll (g : Grammar) (roots : List Ref) : Grammar :=
  roots.foldl (fun g root => (g.condense root).grammar) g

theorem condenseAll_edits (g : Grammar) (roots : List Ref) : Edits g.size g (g.condenseAll roots) := by
  induction roots generalizing g with
  | nil => exact .refl
  | cons root roots ih =>
      have first := condense_edits g root
      exact first.trans ((ih (g.condense root).grammar).weaken first.larger)

/-! ## What compilation sees -/

section Untouched

variable {g g' : Grammar}

/-- The first expressions of a grammar that was edited behind them are copies of themselves. -/
theorem Edits.copies (edits : Edits g.size g g') (wellFormed : g.WellFormed) :
    Copies g g' fun r r' => r < g.size ∧ r = r' where
  larger := edits.larger
  inside _ _ pair := pair.1
  name r r' pair := by
    obtain ⟨inside, rfl⟩ := pair
    rw [name, name, edits.kept (Nat.le_refl _) inside]
  form r r' pair := by
    obtain ⟨inside, rfl⟩ := pair
    rw [expression, expression, edits.kept (Nat.le_refl _) inside]
    exact .refl fun child mem => ⟨(wellFormed r inside child mem).1, rfl⟩
  apart r r' s s' here there := by
    obtain ⟨⟨-, rfl⟩, -⟩ := here
    obtain ⟨⟨-, rfl⟩, -⟩ := there
    exact .rfl

/-- However many expressions are condensed, all that is done to the grammar is to append
expressions, to name some of these and to close forward references among them. Every expression
keeps its form, what it refers to and its name, and compiled as it is it comes to the same as
before. -/
theorem condense_untouched (g : Grammar) (roots : List Ref) :
    Edits g.size g (g.condenseAll roots) ∧
      (∀ r < g.size, (g.condenseAll roots).node r = g.node r) ∧
      (g.WellFormed → ∀ r < g.size, ∀ traced : Bool,
        (g.condenseAll roots).compile ⟨false, traced⟩ r = g.compile ⟨false, traced⟩ r) := by
  have edits := condenseAll_edits g roots
  refine ⟨edits, fun r inside => edits.kept (Nat.le_refl _) inside, ?_⟩
  intro wellFormed r inside traced
  exact (edits.copies wellFormed).lowered_eq wellFormed ⟨inside, rfl⟩

/-- Letters in brackets are compiled as before after they were condensed, and that once more. -/
theorem brackets_untouched :
    brackets.1.WellFormed ∧ brackets.2 < brackets.1.size ∧
      (brackets.1.condenseAll [brackets.2, brackets.2]).compile ⟨false, true⟩ brackets.2 =
        brackets.1.compile ⟨false, true⟩ brackets.2 := by
  obtain ⟨-, -, untouched⟩ := condense_untouched brackets.1 [brackets.2, brackets.2]
  exact ⟨brackets_wellFormed, brackets_inside, untouched brackets_wellFormed _ brackets_inside true⟩

end Untouched

end PegMachine.Grammar
