/-
# PegMachine.Proofs.Lowering.Costs — small expressions are always lowered

Lowering fails where a table or a jump overflows, and that takes many expressions. Here it is
counted what each layout costs: how many entries it adds to any one table, and how many words
it puts around those of its parts (`Lower.PartCosts`). One number bounds both.

`Grammar.Forest g n refs` says that some expressions, written out as trees, have at most `n` nodes
between them, and no forward reference or empty choice among these. Each node costs no more than
sixteen (`Forest.costs`), and condensing adds no nodes (`Condensation.forest`). So an expression
that is a small tree can be compiled, condensed or not, traced or not (`Forest.compiles`).
-/
import PegMachine.Proofs.Condensing.Vacancy
import PegMachine.Proofs.Condensing.Visit
import PegMachine.Proofs.Leaves
import PegMachine.Proofs.Lowering.Blames

namespace PegMachine

set_option autoImplicit false

/-- A distance that an operand can hold is found. -/
theorem Word.exists_distance? {source target : Nat}
    (near : source ≤ target + Word.reach ∧ target < source + Word.reach) :
    ∃ d, Word.distance? source target = some d := by
  simp only [reach] at near
  refine ⟨(target : Int) - source, (distance?_eq_some_iff (by omega) (by omega)).mpr ⟨rfl, ?_⟩⟩
  simp only [reach]
  omega

/-! ## Tables -/

namespace Tables

/-- None of the tables that layouts add to has more entries than that. -/
structure Within (t : Tables) (n : Nat) : Prop where
  tests : t.tests.size ≤ n
  literals : t.literals.size ≤ n
  scans : t.scans.size ≤ n
  arities : t.arities.size ≤ n
  values : t.values.size ≤ n
  labels : t.labels.size ≤ n
  transforms : t.transforms.size ≤ n
  combiners : t.combiners.size ≤ n

theorem within_empty : Within {} 0 :=
  ⟨Nat.le_refl _, Nat.le_refl _, Nat.le_refl _, Nat.le_refl _, Nat.le_refl _, Nat.le_refl _,
    Nat.le_refl _, Nat.le_refl _⟩

theorem Within.mono {t : Tables} {n n' : Nat} (within : t.Within n) (le : n ≤ n') : t.Within n' :=
  ⟨Nat.le_trans within.tests le, Nat.le_trans within.literals le, Nat.le_trans within.scans le,
    Nat.le_trans within.arities le, Nat.le_trans within.values le, Nat.le_trans within.labels le,
    Nat.le_trans within.transforms le, Nat.le_trans within.combiners le⟩

/-- As long as an operand can hold another index something is added, and no table grows by more than
one entry. -/
def Adding (add : Tables → Except LoweringError (Nat × Tables)) : Prop :=
  ∀ (t : Tables) (n : Nat), t.Within n → n < Word.operandLimit →
    ∃ index t', add t = .ok (index, t') ∧ t'.Within (n + 1)

section Adding

variable {t : Tables} {n : Nat}

theorem size_push_le {α : Type} {xs : Array α} (few : xs.size ≤ n) (x : α) :
    (xs.push x).size ≤ n + 1 := by
  rw [Array.size_push]
  exact Nat.succ_le_succ few

theorem Within.nextIndex {table : TableName} {size : Nat} (few : size ≤ n)
    (room : n < Word.operandLimit) : Tables.nextIndex table size = .ok size :=
  nextIndex_of_lt (Nat.lt_of_le_of_lt few room)

/-- A label changes nothing but the labels. -/
theorem Within.internLabel (within : t.Within n) (room : n < Word.operandLimit) (label : String) :
    ∃ index labels, t.internLabel label = .ok (index, { t with labels }) ∧ labels.size ≤ n + 1 := by
  rw [Tables.internLabel]
  split
  · exact ⟨_, t.labels, rfl, Nat.le_succ_of_le within.labels⟩
  · rw [Within.nextIndex within.labels room]
    exact ⟨_, _, rfl, size_push_le within.labels _⟩

theorem adding_internLabel (label : String) : Adding (·.internLabel label) := by
  intro t n within room
  obtain ⟨index, labels, interned, few⟩ := within.internLabel room label
  exact ⟨index, _, interned, { within.mono (Nat.le_succ n) with labels := few }⟩

theorem adding_addTest (test : CharTest) (label : String) : Adding (·.addTest test label) := by
  intro t n within room
  obtain ⟨_, labels, interned, few⟩ := within.internLabel room label
  refine ⟨_, _, bind_eq_ok.mpr ⟨_, interned, bind_eq_ok.mpr
    ⟨_, Within.nextIndex within.tests room, rfl⟩⟩, ?_⟩
  exact { within.mono (Nat.le_succ n) with labels := few, tests := size_push_le within.tests _ }

theorem adding_addScan (test : CharTest) (least : Nat) (label : String) :
    Adding (·.addScan test least label) := by
  intro t n within room
  obtain ⟨_, labels, interned, few⟩ := within.internLabel room label
  refine ⟨_, _, bind_eq_ok.mpr ⟨_, interned, bind_eq_ok.mpr
    ⟨_, Within.nextIndex within.scans room, rfl⟩⟩, ?_⟩
  exact { within.mono (Nat.le_succ n) with labels := few, scans := size_push_le within.scans _ }

theorem adding_addArity (least : Nat) (label : String) : Adding (·.addArity least label) := by
  intro t n within room
  obtain ⟨_, labels, interned, few⟩ := within.internLabel room label
  refine ⟨_, _, bind_eq_ok.mpr ⟨_, interned, bind_eq_ok.mpr
    ⟨_, Within.nextIndex within.arities room, rfl⟩⟩, ?_⟩
  exact { within.mono (Nat.le_succ n) with labels := few, arities := size_push_le within.arities _ }

theorem adding_addValue (value : Datum) : Adding (·.addValue value) := by
  intro t n within room
  refine ⟨_, _, bind_eq_ok.mpr ⟨_, Within.nextIndex within.values room, rfl⟩, ?_⟩
  exact { within.mono (Nat.le_succ n) with values := size_push_le within.values _ }

theorem adding_addLiteral (text : String) (anyCase : Bool) (value : Datum) :
    Adding (·.addLiteral text anyCase value) := by
  intro t n within room
  have valued : t.addValue value = .ok (t.values.size, { t with values := t.values.push value }) :=
    bind_eq_ok.mpr ⟨_, Within.nextIndex within.values room, rfl⟩
  refine ⟨_, _, bind_eq_ok.mpr ⟨_, valued, bind_eq_ok.mpr
    ⟨_, Within.nextIndex within.literals room, rfl⟩⟩, ?_⟩
  exact { within.mono (Nat.le_succ n) with
    values := size_push_le within.values _, literals := size_push_le within.literals _ }

theorem adding_addTransform (f : Transform) : Adding (·.addTransform f) := by
  intro t n within room
  refine ⟨_, _, bind_eq_ok.mpr ⟨_, Within.nextIndex within.transforms room, rfl⟩, ?_⟩
  exact { within.mono (Nat.le_succ n) with transforms := size_push_le within.transforms _ }

theorem adding_addCombiner (f : Combiner) : Adding (·.addCombiner f) := by
  intro t n within room
  refine ⟨_, _, bind_eq_ok.mpr ⟨_, Within.nextIndex within.combiners room, rfl⟩, ?_⟩
  exact { within.mono (Nat.le_succ n) with combiners := size_push_le within.combiners _ }

end Adding

end Tables

namespace Lower

open Tables (Adding)

/-! ## Computations -/

/-- Where every table has room for `n` more entries, a computation succeeds and yields something good,
and no table has grown by more than that. -/
def Costs {α : Type} (n : Nat) (x : Lower α) (good : α → Prop) : Prop :=
  ∀ (k : Nat) (s : Lowering), s.tables.Within k → k + n ≤ Word.operandLimit →
    ∃ a s', x s = .ok (a, s') ∧ s'.tables.Within (k + n) ∧ good a

section Costs

variable {α β : Type} {n n' : Nat} {x : Lower α} {good good' : α → Prop}

theorem Costs.bind {f : α → Lower β} {good' : β → Prop} (first : Costs n x good)
    (rest : ∀ a, good a → Costs n' (f a) good') : Costs (n + n') (x >>= f) good' := by
  intro k s within room
  obtain ⟨a, s', done, within', holds⟩ := first k s within (by omega)
  obtain ⟨b, s'', done', within'', holds'⟩ := rest a holds (k + n) s' within' (by omega)
  exact ⟨b, s'', bind_eq_ok.mpr ⟨a, s', done, done'⟩, by rwa [← Nat.add_assoc], holds'⟩

theorem costs_pure {a : α} (holds : good a) : Costs 0 (pure a) good :=
  fun _ s within _ => ⟨a, s, rfl, within, holds⟩

theorem Costs.mono (costs : Costs n x good) (le : n ≤ n') : Costs n' x good := by
  intro k s within room
  obtain ⟨a, s', done, within', holds⟩ := costs k s within (by omega)
  exact ⟨a, s', done, within'.mono (by omega), holds⟩

theorem costs_table {add : Tables → Except LoweringError (Nat × Tables)} (adding : Adding add) :
    Costs 1 (table add) fun _ => True := by
  intro k s within room
  obtain ⟨index, t, added, within'⟩ := adding s.tables k within (by omega)
  exact ⟨index, _, table_eq_ok.mpr ⟨t, added, rfl⟩, within', trivial⟩

theorem costs_jump {op : Opcode} {source target : Nat}
    (near : source ≤ target + Word.reach ∧ target < source + Word.reach) :
    Costs 0 (jump op source target) fun _ => True := by
  obtain ⟨d, found⟩ := Word.exists_distance? near
  rw [jump, found]
  exact costs_pure trivial

end Costs

/-! ## Parts -/

/-- A part costs no more than `n`, and neither does its fragment with two words more; jumps over it
are short. -/
def PartCosts (n : Nat) (part : Part) : Prop :=
  n < Word.reach → ∀ base, Costs n (part base) fun code => code.length + 2 ≤ n

theorem PartCosts.mono {n n' : Nat} {part : Part} (costs : PartCosts n part) (le : n ≤ n') :
    PartCosts n' part := by
  intro small base k s within room
  obtain ⟨code, s', done, within', short⟩ := costs (by omega) base k s within (by omega)
  exact ⟨code, s', done, within'.mono (by omega), by omega⟩

/-- Parts that cost no more than `n` between them. -/
inductive PartsCost : Nat → List Part → Prop
  | nil {n : Nat} : PartsCost n []
  | cons {n n' : Nat} {part : Part} {rest : List Part} (first : PartCosts n part)
      (others : PartsCost n' rest) : PartsCost (n + n') (part :: rest)

section Layouts

variable {n : Nat} {a b body : Part}

theorem PartsCost.one (costs : PartsCost n [body]) : ∃ m ≤ n, PartCosts m body := by
  cases costs with
  | cons first _ => exact ⟨_, Nat.le_add_right _ _, first⟩

theorem PartsCost.two (costs : PartsCost n [a, b]) :
    ∃ m m', m + m' ≤ n ∧ PartCosts m a ∧ PartCosts m' b := by
  cases costs with
  | cons first others =>
      obtain ⟨m', le, second⟩ := others.one
      exact ⟨_, m', Nat.add_le_add_left le _, first, second⟩

/-- One word that refers to a new entry. -/
theorem costs_entry {op : Opcode} {add : Tables → Except LoweringError (Nat × Tables)}
    (adding : Adding add) :
    PartCosts (n + 15) fun _ => do return [Word.instruction op (← table add)] := by
  intro _ base
  refine ((costs_table adding).bind fun index _ => costs_pure ?_).mono (by omega)
  simp

theorem costs_optional (parts : PartsCost n [body]) (fallback : Datum) :
    PartCosts (n + 15) (optional body fallback) := by
  intro small base
  obtain ⟨m, le, costs⟩ := parts.one
  refine ((costs (by omega) _).bind fun code short => ?_).mono (n := m + (1 + (0 + (0 + 0)))) (by omega)
  refine (costs_table (Tables.adding_addValue fallback)).bind fun index _ => ?_
  refine (costs_jump (by omega)).bind fun exit _ => (costs_jump (by omega)).bind fun leave _ => ?_
  refine costs_pure ?_
  simp only [List.length_append, List.length_cons, List.length_nil]
  omega

theorem costs_many (parts : PartsCost n [body]) (least : Nat) (label : String) :
    PartCosts (n + 15) (many body least label) := by
  intro small base
  obtain ⟨m, le, costs⟩ := parts.one
  refine ((costs (by omega) _).bind fun code short => ?_).mono
    (n := m + (1 + (0 + (0 + (0 + 0))))) (by omega)
  refine (costs_table (Tables.adding_addArity least label)).bind fun arity _ => ?_
  refine (costs_jump (by omega)).bind fun exit _ => (costs_jump (by omega)).bind fun again _ => ?_
  refine (costs_jump (by omega)).bind fun leave _ => costs_pure ?_
  simp only [List.length_append, List.length_cons, List.length_nil]
  omega

theorem costs_transform (f : Transform) (parts : PartsCost n [body]) :
    PartCosts (n + 15) (transform f body) := by
  intro small base
  obtain ⟨m, le, costs⟩ := parts.one
  refine ((costs (by omega) _).bind fun code short => ?_).mono (n := m + (1 + (0 + (0 + 0)))) (by omega)
  refine (costs_table (Tables.adding_addTransform f)).bind fun index _ => ?_
  refine (costs_jump (by omega)).bind fun exit _ => (costs_jump (by omega)).bind fun leave _ => ?_
  refine costs_pure ?_
  simp only [List.length_append, List.length_cons, List.length_nil]
  omega

/-- Two parts, the second `gap` words behind the first, and words around them. -/
theorem costs_pair {k : Nat} {α : Type} {good : α → Prop} (parts : PartsCost n [a, b])
    (small : n + 15 < Word.reach) (start : Nat) {gap : Nat} {rest : Fragment → Fragment → Lower α}
    (around : ∀ left right, left.length + right.length + 4 ≤ n → Costs k (rest left right) good) :
    Costs (n + k) (do
      let left ← a start
      let right ← b (start + left.length + gap)
      rest left right) good := by
  obtain ⟨m, m', le, costs, costs'⟩ := parts.two
  refine ((costs (by omega) _).bind fun left short => ?_).mono (n := m + (m' + k)) (by omega)
  exact (costs' (by omega) _).bind fun right short' => around left right (by omega)

theorem costs_keepLeft (parts : PartsCost n [a, b]) : PartCosts (n + 15) (keepLeft a b) := by
  intro small base
  refine (costs_pair (k := 0 + (0 + (0 + 0))) parts small _ fun left right short => ?_).mono (by omega)
  refine (costs_jump (by omega)).bind fun exit _ => (costs_jump (by omega)).bind fun exit' _ => ?_
  refine (costs_jump (by omega)).bind fun leave _ => costs_pure ?_
  simp only [List.length_append, List.length_cons, List.length_nil]
  omega

theorem costs_keepRight (parts : PartsCost n [a, b]) : PartCosts (n + 15) (keepRight a b) := by
  intro small base
  refine (costs_pair (k := 0 + (0 + (0 + 0))) parts small _ fun left right short => ?_).mono (by omega)
  refine (costs_jump (by omega)).bind fun exit _ => (costs_jump (by omega)).bind fun exit' _ => ?_
  refine (costs_jump (by omega)).bind fun leave _ => costs_pure ?_
  simp only [List.length_append, List.length_cons, List.length_nil]
  omega

theorem costs_followedBy (parts : PartsCost n [a, b]) : PartCosts (n + 15) (followedBy a b) := by
  intro small base
  refine (costs_pair (k := 0 + (0 + (0 + 0))) parts small _ fun left right short => ?_).mono (by omega)
  refine (costs_jump (by omega)).bind fun exit _ => (costs_jump (by omega)).bind fun exit' _ => ?_
  refine (costs_jump (by omega)).bind fun leave _ => costs_pure ?_
  simp only [List.length_append, List.length_cons, List.length_nil]
  omega

theorem costs_notFollowedBy (parts : PartsCost n [a, b]) (label : String) :
    PartCosts (n + 15) (notFollowedBy a b label) := by
  intro small base
  refine ((costs_table (Tables.adding_internLabel label)).bind fun index _ => ?_).mono
    (n := 1 + (n + (0 + (0 + (0 + 0))))) (by omega)
  refine costs_pair parts small _ fun left right short => ?_
  refine (costs_jump (by omega)).bind fun exit _ => (costs_jump (by omega)).bind fun exit' _ => ?_
  refine (costs_jump (by omega)).bind fun leave _ => costs_pure ?_
  simp only [List.length_append, List.length_cons, List.length_nil]
  omega

/-- Parts one after the other, with room for two words behind each. -/
theorem costs_parts {ps : List Part} (all : PartsCost n ps) (small : n < Word.reach) (start : Nat) :
    Costs n (parts 2 start ps) fun fragments => fragments.length = ps.length ∧ room 2 fragments ≤ n := by
  induction all generalizing start with
  | nil => exact (costs_pure ⟨rfl, Nat.zero_le _⟩).mono (Nat.zero_le _)
  | @cons n n' part rest first _ ih =>
      refine ((first (by omega) start).bind fun code short => ?_).mono (n := n + (n' + 0)) (by omega)
      refine (ih (by omega) _).bind fun others ⟨many, fit⟩ => costs_pure ⟨?_, ?_⟩
      · rw [List.length_cons, List.length_cons, many]
      · rw [room]
        omega

theorem costs_itemWords {fragments : List Fragment} {fail start : Nat}
    (low : start + room 2 fragments ≤ fail) (high : fail < start + Word.reach) :
    Costs 0 (itemWords fail start fragments) fun body => body.length = room 2 fragments := by
  induction fragments generalizing start with
  | nil => exact costs_pure rfl
  | cons code rest ih =>
      rw [room] at low
      refine ((costs_jump (by omega)).bind fun exit _ => ?_).mono (n := 0 + (0 + 0)) (Nat.le_refl _)
      refine (ih (by omega) (by omega)).bind fun others same => costs_pure ?_
      rw [room, ← same]
      simp only [List.length_append, List.length_cons, List.length_nil]

theorem costs_alternativeWords {fragments : List Fragment} {ok start : Nat}
    (low : start + room 2 fragments ≤ ok + 1) (high : ok < start + Word.reach) :
    Costs 0 (alternativeWords ok start fragments) fun body => body.length ≤ room 2 fragments := by
  induction fragments generalizing start with
  | nil => exact costs_pure (Nat.le_refl _)
  | cons code rest ih =>
      rw [room] at low
      refine ((costs_jump (by omega)).bind fun exit _ => ?_).mono (n := 0 + (0 + 0)) (Nat.le_refl _)
      refine (ih (by omega) (by omega)).bind fun others few => costs_pure ?_
      have again : (if rest.isEmpty then [] else [word .restart]).length ≤ 1 := by split <;> simp
      rw [room]
      simp only [List.length_append, List.length_cons, List.length_nil]
      omega

theorem costs_sequence {items : List Part} (all : PartsCost n items) (f : Option Combiner) :
    PartCosts (n + 15) (sequence items f) := by
  intro small base
  refine ((costs_parts all (by omega) _).bind fun fragments fit => ?_).mono
    (n := n + (1 + (0 + (1 + (0 + 0))))) (by omega)
  refine (costs_table (Tables.adding_addArity _ _)).bind fun arity _ => ?_
  refine (costs_itemWords (by split <;> omega) (by split <;> omega)).bind fun body same => ?_
  cases f with
  | none =>
      refine Costs.mono (n := 0 + (0 + 0)) ?_ (Nat.zero_le _)
      have nothing : Costs 0 (pure []) fun apply : Fragment => apply.length = 0 := costs_pure rfl
      refine nothing.bind fun apply same' => ?_
      refine (costs_jump (by split <;> omega)).bind fun leave _ => costs_pure ?_
      simp only [List.length_append, List.length_cons, List.length_nil]
      omega
  | some f =>
      refine Costs.mono (n := 1 + (0 + (0 + (0 + 0)))) ?_ (Nat.le_refl _)
      refine (costs_table (Tables.adding_addCombiner f)).bind fun index _ => ?_
      refine (costs_jump (by split <;> omega)).bind fun exit _ => ?_
      have apply_ : Costs 0 (pure [Word.instruction .combine index, exit]) fun apply : Fragment =>
          apply.length = 2 := costs_pure rfl
      refine apply_.bind fun apply same' => ?_
      refine (costs_jump (by split <;> omega)).bind fun leave _ => costs_pure ?_
      simp only [List.length_append, List.length_cons, List.length_nil]
      omega

theorem costs_choice {alternatives : List Part} (all : PartsCost n alternatives)
    (some_ : alternatives ≠ []) (label : String) : PartCosts (n + 15) (choice alternatives label) := by
  intro small base
  obtain ⟨first, rest, rfl⟩ := List.exists_cons_of_ne_nil some_
  refine ((costs_parts all (by omega) _).bind fun fragments fit => ?_).mono
    (n := n + (0 + (0 + 0))) (by omega)
  refine (costs_alternativeWords ?_ ?_).bind fun body few => ?_
  · omega
  · omega
  refine (costs_jump (by omega)).bind fun leave _ => costs_pure ?_
  simp only [List.length_append, List.length_cons, List.length_nil]
  omega

/-- Announcing a part takes one word. -/
theorem costs_announced (costs : PartCosts n body) (name : String) :
    PartCosts (n + 1) (announced name body) := by
  intro small base
  refine ((costs_table (Tables.adding_internLabel name)).bind fun index _ => ?_).mono
    (n := 1 + (n + 0)) (by omega)
  refine (costs (by omega) _).bind fun code short => costs_pure ?_
  rw [List.length_cons]
  omega

end Layouts

end Lower

/-! ## Trees -/

namespace Grammar

open Lower (PartCosts PartsCost)

/-- Written out as trees, some expressions have at most `n` nodes between them, none of them a forward
reference or an empty choice. -/
inductive Forest (g : Grammar) : Nat → List Ref → Prop
  | nil {n : Nat} : Forest g n []
  | cons {n n' : Nat} {r : Ref} {refs : List Ref} (closed : (g.expression r).isForward = false)
      (some_ : g.expression r ≠ .choice []) (branches : Forest g n (g.expression r).children)
      (others : Forest g n' refs) : Forest g (n + 1 + n') (r :: refs)

section Forest

variable {g g' : Grammar} {n n' : Nat} {r : Ref} {refs refs' : List Ref}

theorem Forest.mono (forest : g.Forest n refs) (le : n ≤ n') : g.Forest n' refs := by
  induction forest generalizing n' with
  | nil => exact .nil
  | @cons n m r refs closed some_ branches others _ ih =>
      obtain ⟨more, rfl⟩ : ∃ more, n' = n + 1 + more := ⟨n' - (n + 1), by omega⟩
      exact .cons closed some_ branches (ih (by omega))

theorem Forest.append (front : g.Forest n refs) (back : g.Forest n' refs') :
    g.Forest (n + n') (refs ++ refs') := by
  induction front with
  | nil => exact back.mono (Nat.le_add_left _ _)
  | cons closed some_ branches _ _ ih => exact (Forest.cons closed some_ branches ih).mono (by omega)

theorem Forest.split (forest : g.Forest n (refs ++ refs')) :
    ∃ m m', m + m' ≤ n ∧ g.Forest m refs ∧ g.Forest m' refs' := by
  induction refs generalizing n with
  | nil => exact ⟨0, n, by omega, .nil, forest⟩
  | cons r refs ih =>
      cases forest with
      | cons closed some_ branches others =>
          obtain ⟨m, m', le, front, back⟩ := ih others
          exact ⟨_, m', by omega, .cons closed some_ branches front, back⟩

theorem Forest.uncons (forest : g.Forest n (r :: refs)) :
    ∃ m m', m + m' ≤ n ∧ g.Forest m [r] ∧ g.Forest m' refs := by
  have both : g.Forest n ([r] ++ refs) := forest
  exact both.split

/-- A tree and further ones. -/
theorem Forest.join (tree : g.Forest n [r]) (others : g.Forest n' refs) :
    g.Forest (n + n') (r :: refs) := tree.append others

/-- A tree by the form of its root. -/
theorem forest_of {e : Expression} (form : g.expression r = e) (closed : e.isForward = false)
    (some_ : e ≠ .choice []) (branches : g.Forest n e.children) : g.Forest (n + 1) [r] := by
  subst form
  have last : g.Forest 0 [] := .nil
  exact .cons closed some_ branches last

theorem forest_leaf {e : Expression} (form : g.expression r = e) (leaf : e.isLeaf = true) :
    g.Forest 1 [r] := by
  have bare : e.isForward = false ∧ e ≠ .choice [] := by
    cases e with
    | forward | choice => nomatch leaf
    | _ => exact ⟨rfl, nofun⟩
  have none_ : g.Forest 0 e.children := by
    rw [children_of_leaf leaf]
    exact .nil
  exact forest_of form bare.1 bare.2 none_

theorem Forest.nested_items (tree : g.Forest n [r]) (limit : Nat) :
    g.Forest n (g.sequenceItems limit r) := by
  induction limit generalizing n r with
  | zero => exact tree
  | succ limit ih =>
      rw [sequenceItems]
      split
      · rename_i first second seq
        cases tree with
        | cons _ _ branches _ =>
            rw [seq] at branches
            obtain ⟨m, m', le, left, right⟩ := branches.uncons
            exact ((ih left).append right).mono (by omega)
      · exact tree

/-- The items of a sequence have no more nodes than its parts. -/
theorem Forest.items {a b : Ref} (seq : g.expression r = .seq a b) (inside : r < g.size)
    (branches : g.Forest n [a, b]) : g.Forest n (g.sequenceItems g.size r) := by
  obtain ⟨limit, size⟩ := Nat.exists_eq_succ_of_ne_zero (Nat.ne_of_gt (Nat.zero_lt_of_lt inside))
  obtain ⟨m, m', le, left, right⟩ := branches.uncons
  rw [size, sequenceItems, seq]
  exact ((left.nested_items limit).append right).mono le

/-- All that a tree reaches is a tree, and no larger. -/
theorem Forest.reaches {s : Ref} (tree : g.Forest n [r]) (reaches : g.Reaches r s) :
    g.Forest n [s] := by
  induction reaches with
  | refl => exact tree
  | tail _ child ih =>
      cases ih with
      | cons _ _ branches _ =>
          obtain ⟨front, back, split⟩ := List.append_of_mem child
          rw [split] at branches
          obtain ⟨_, m', le, -, inner⟩ := branches.split
          obtain ⟨m, _, le', own, -⟩ := inner.uncons
          exact own.mono (by omega)

/-- No choice in a tree is empty. -/
theorem Forest.avoids (tree : g.Forest n [r]) {s : Ref} (reaches : g.Reaches r s) :
    g.expression s ≠ .choice [] := by
  cases tree.reaches reaches with
  | cons _ some_ _ _ => exact some_

/-! ### Lowering -/

/-- What a form costs, given what its parts do. -/
theorem costs_form {part : Ref → Lower.Part} {e : Expression} (closed : e.isForward = false)
    (some_ : e ≠ .choice []) (parts : PartsCost n (e.children.map part))
    (items : ∀ a b, e = .seq a b → PartsCost n ((g.sequenceItems g.size r).map part)) :
    PartCosts (n + 15) (g.lowerExpression part r e) := by
  cases e with
  | char | oneOf | escaped | test => exact Lower.costs_entry (Tables.adding_addTest _ _)
  | scan => exact Lower.costs_entry (Tables.adding_addScan _ _ _)
  | literal | keyword => exact Lower.costs_entry (Tables.adding_addLiteral _ _ _)
  | finish => exact fun _ _ => (Lower.costs_pure (by simp)).mono (Nat.zero_le _)
  | seq a b => exact Lower.costs_sequence (items a b rfl) none
  | forward => nomatch closed
  | orElse => exact Lower.costs_choice parts (List.cons_ne_nil _ _) (g.label r)
  | choice alternatives =>
      refine Lower.costs_choice parts ?_ _
      rintro none_
      exact some_ (congrArg Expression.choice (List.map_eq_nil_iff.mp none_))
  | keepLeft => exact Lower.costs_keepLeft parts
  | keepRight => exact Lower.costs_keepRight parts
  | followedBy => exact Lower.costs_followedBy parts
  | notFollowedBy => exact Lower.costs_notFollowedBy parts _
  | combine => exact Lower.costs_sequence parts (some _)
  | optional => exact Lower.costs_optional parts _
  | many => exact Lower.costs_many parts _ _
  | transform => exact Lower.costs_transform _ parts
  | idiom =>
      obtain ⟨m, le, costs⟩ := parts.one
      exact costs.mono (by omega)

/-- Each node of a tree costs sixteen at most. -/
theorem Forest.costs (wellFormed : g.WellFormed) (traced : Bool) (forest : g.Forest n refs)
    {height : Nat} (low : ∀ r ∈ refs, r < height) :
    PartsCost (16 * n) (refs.map (g.lower traced height)) := by
  -- The items of a sequence are not its children, but they have fewer nodes than it has.
  induction n using Nat.strongRecOn generalizing refs height with
  | ind n ih =>
    cases forest with
    | nil => exact .nil
    | @cons m m' r refs closed some_ branches others =>
        obtain ⟨first_low, others_low⟩ := List.forall_mem_cons.mp low
        obtain ⟨height, rfl⟩ := Nat.exists_eq_succ_of_ne_zero (Nat.ne_of_gt (Nat.zero_lt_of_lt first_low))
        have below : r ≤ height := Nat.le_of_lt_succ first_low
        have children (child : Ref) (mem : child ∈ (g.expression r).children) : child < height := by
          have inside : r < g.size := inside_of_expression (by intro missing; rw [missing] at mem; nomatch mem)
          exact Nat.lt_of_lt_of_le ((wellFormed r inside child mem).2 closed) below
        have form : PartCosts (16 * m + 15)
            (g.lowerExpression (g.lower traced height) r (g.expression r)) := by
          refine costs_form closed some_ (ih m (by omega) branches children) ?_
          intro a b seq
          have inside : r < g.size := inside_of_expression (by rw [seq]; nofun)
          refine ih m (by omega) ?_ fun item mem => Nat.lt_of_lt_of_le
            ((items_earlier wellFormed inside item mem).2 (Nat.zero_lt_of_lt inside) a b seq) below
          rw [seq] at branches
          exact Forest.items seq inside branches
        rw [List.map_cons, show 16 * (m + 1 + m') = 16 * m + 16 + 16 * m' by omega]
        refine .cons ?_ (ih m' (by omega) others others_low)
        rcases g.lower_succ traced height r with same | ⟨name, same⟩
        · rw [same]
          exact form.mono (Nat.le_succ _)
        · rw [same]
          exact Lower.costs_announced form name

/-! ### Condensing -/

theorem Forest.dissolve (forest : g.Forest n refs) {flat : List Ref} (dissolves : Dissolves g refs flat) :
    g.Forest n flat := by
  induction dissolves generalizing n with
  | nil => exact .nil
  | keep _ ih =>
      cases forest with
      | cons closed some_ branches others => exact .cons closed some_ branches (ih others)
  | dissolve choice _ ih =>
      cases forest with
      | cons _ _ branches others =>
          rw [choice] at branches
          exact (branches.append (ih others)).mono (by omega)

theorem Forest.merge (forest : g.Forest n refs) {merged : List Ref} (merges : Merges g refs merged) :
    g.Forest n merged := by
  induction merges generalizing n with
  | nil => exact .nil
  | keep _ ih =>
      cases forest with
      | cons closed some_ branches others => exact .cons closed some_ branches (ih others)
  | merge folds test _ ih =>
      obtain ⟨m, m', le, front, back⟩ := forest.split
      have some_ : 0 < m := by
        cases front with
        | nil => exact absurd rfl folds.some
        | cons => omega
      exact ((forest_leaf test rfl).join (ih back)).mono (by omega)

/-- Only an empty choice has no alternatives. -/
theorem choice_of_childless {e : Expression} {refs : List Ref}
    (alternatives : e.alternatives? = some refs) (childless : e.children = []) : e = .choice [] := by
  cases e with
  | orElse => nomatch childless
  | choice => exact congrArg Expression.choice childless
  | _ => nomatch alternatives

/-- Condensed forms of trees are trees, and no larger. -/
theorem Condensation.forest {m : Ref → Ref → Prop} (condensation : Condensation g g' m)
    (forest : g.Forest n refs) (pairs : List.Forall₂ m refs refs') : g'.Forest n refs' := by
  induction forest generalizing refs' with
  | nil =>
      cases pairs
      exact .nil
  | @cons n n' r refs closed some_ branches others ih ih' =>
      cases pairs with
      | @cons _ r' _ refs' pair pairs =>
          have others := ih' pairs
          cases condensation.condenses r r' pair with
          | test _ form | merged _ _ _ _ form | run _ _ _ form =>
              exact ((forest_leaf form rfl).join others).mono (by omega)
          | leaf leaf =>
              have kept : g'.expression r = g.expression r :=
                congrArg Node.expression (condensation.kept r (condensation.inside _ _ pair))
              exact ((forest_leaf kept leaf).join others).mono (by omega)
          | same maps =>
              refine .cons ?_ ?_ (ih maps.children) others
              · generalize g.expression r = e at maps closed
                generalize g'.expression r' = e' at maps
                cases maps with
                | closed | opened => nomatch closed
                | _ => rfl
              · generalize g.expression r = e at maps
                generalize g'.expression r' = e' at maps
                cases maps <;> nofun
          | @choice _ _ condensed flat merged alternatives all dissolves merges form =>
              rw [← children_of_alternatives alternatives] at all
              have branches := ih all
              refine (forest_of form rfl ?_ ((branches.dissolve dissolves).merge merges)).join others
              -- Alternatives that are trees do not dissolve into nothing.
              rintro none_
              obtain rfl := merges.nil_iff.mpr (Expression.choice.inj none_)
              have gone := dissolves.nothing
              cases branches with
              | nil => exact some_ (choice_of_childless alternatives (List.forall₂_nil_right_iff.mp all))
              | cons _ some' _ _ => exact some' (gone _ (.head _))

/-! ### Compiling -/

/-- A tree of few nodes is lowered. -/
theorem Forest.lowers (wellFormed : g.WellFormed) (inside : r < g.size) (tree : g.Forest n [r])
    (small : 16 * n < Word.reach) (traced : Bool) : ∃ lowered, g.lowered traced r = .ok lowered := by
  have low : r < g.walkLimit := Nat.lt_of_lt_of_le (Nat.lt_succ_of_le (Nat.le_add_left r _))
    (ahead_le_walkLimit (fun _ => False) inside)
  have parts : PartsCost (16 * n) ([r].map (g.lower traced g.walkLimit)) :=
    tree.costs wellFormed traced (by simpa using low)
  obtain ⟨m, le, costs⟩ := parts.one
  obtain ⟨code, s, lowers, -, short⟩ := costs (by omega) 0 0 {} Tables.within_empty (by
    simp only [Word.reach, Word.operandLimit] at *
    omega)
  have fits : code.length < Word.codeLimit := by
    simp only [Word.reach, Word.codeLimit] at *
    omega
  have ran : (g.lower traced g.walkLimit r 0).run {} = .ok (code, s) := lowers
  have done : (g.lowered traced r).isOk = true := by
    rw [lowered, ran]
    show (ite (code.length < Word.codeLimit) _ _ : Except LoweringError Lowered).isOk = true
    rw [if_pos fits]
    rfl
  exact exists_of_isOk done

/-- A tree of few nodes is compiled, whatever else the grammar holds. -/
theorem Forest.compiles (wellFormed : g.WellFormed) (inside : r < g.size) (tree : g.Forest n [r])
    (small : 16 * n < Word.reach) (options : CompileOptions) :
    ∃ lowered, g.compile options r = .ok lowered := by
  obtain ⟨condense, traced⟩ := options
  cases condense with
  | false => exact tree.lowers wellFormed inside small traced
  | true =>
      obtain ⟨m, condensation, pair⟩ := condense_condensation wellFormed inside
      have tree' := condensation.forest tree (.cons pair .nil)
      obtain ⟨own, lowers⟩ :=
        tree'.lowers condensation.wellFormed (condensation.inside' _ _ pair) small traced
      exact ⟨_, bind_eq_ok.mpr ⟨own, lowers, rfl⟩⟩

end Forest

end Grammar

end PegMachine
