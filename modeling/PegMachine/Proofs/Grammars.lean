/-
# PegMachine.Proofs.Grammars — grammars that are put together

A grammar is put together by appending nodes, naming them and closing forward references
(`Built`). In such a grammar expressions refer to earlier ones, except for forward
references (`Built.wellFormed`).

So a walk over a grammar that follows every forward reference once at most comes to an
end: between two forward references the references descend, and there are only so many of
them. `ahead` bounds how deeply a walk nests; it is less with every step
(`ahead_child`, `ahead_target`) and never more than `walkLimit`.
-/
import Mathlib.Data.Finset.Card
import PegMachine.Grammar.Combinators

namespace PegMachine.Grammar

set_option autoImplicit false

variable {g : Grammar}

/-! ## Looking up after a change -/

@[simp] theorem size_add (n : Node) : (g.add n).2.size = g.size + 1 := by
  simp [add, size]

theorem node_add (n : Node) (r : Ref) :
    (g.add n).2.node r = if r = g.size then n else g.node r := by
  by_cases last : r = g.size
  · rw [if_pos last, last]
    simp [node, add, size]
  · rw [if_neg last]
    have other : r ≠ g.nodes.size := last
    simp [node, add, Array.getElem?_push, other]

@[simp] theorem size_setName (r : Ref) (name : String) : (g.setName r name).size = g.size := by
  simp [setName, size]

theorem expression_setName (r : Ref) (name : String) (s : Ref) :
    (g.setName r name).expression s = g.expression s := by
  simp only [expression, node, setName, Array.getElem?_modify]
  split
  · cases g.nodes[s]? <;> rfl
  · rfl

theorem node_setName_ne {r s : Ref} (other : s ≠ r) (name : String) :
    (g.setName r name).node s = g.node s := by
  simp only [node, setName, Array.getElem?_modify]
  rw [if_neg (Ne.symm other)]

/-- A node that was added and then named. -/
theorem setName_add (n : Node) (name : String) :
    (g.add n).2.setName (g.add n).1 name = (g.add ⟨n.expression, some name⟩).2 := by
  simp only [add, setName, Grammar.mk.injEq]
  apply Array.ext
  · simp
  · intro i inside inside'
    rw [Array.size_push] at inside'
    rw [Array.getElem_modify, Array.getElem_push, Array.getElem_push]
    by_cases last : g.nodes.size = i
    · simp [last]
    · rw [if_neg last, dif_pos (by omega), dif_pos (by omega)]

@[simp] theorem size_aim (r target : Ref) : (g.aim r target).size = g.size := by
  simp [aim, size]

theorem node_aim_ne {r s : Ref} (other : s ≠ r) (target : Ref) :
    (g.aim r target).node s = g.node s := by
  simp only [node, aim, Array.getElem?_modify]
  rw [if_neg (Ne.symm other)]

theorem name_aim (r target s : Ref) : (g.aim r target).name s = g.name s := by
  simp only [name, node, aim, Array.getElem?_modify]
  split
  · cases g.nodes[s]? <;> rfl
  · rfl

theorem expression_aim {r : Ref} (inside : r < g.size) (target : Ref) :
    (g.aim r target).expression r = .forward (some target) := by
  have here : g.nodes[r]? = some g.nodes[r] := Array.getElem?_eq_getElem inside
  simp [expression, node, aim, Array.getElem?_modify, here]

/-- There is nothing behind the last node. -/
theorem expression_missing {r : Ref} (outside : g.size ≤ r) : g.expression r = .finish := by
  simp only [expression, node]
  rw [Array.getElem?_eq_none outside]
  rfl

/-- What is not missing is one of the nodes. -/
theorem inside_of_expression {r : Ref} (some_ : g.expression r ≠ .finish) : r < g.size := by
  by_contra outside
  exact some_ (expression_missing (Nat.le_of_not_lt outside))

/-! ## Putting grammars together -/

/-- The grammars that can be put together. -/
inductive Built : Grammar → Prop
  | empty : Built {}
  | add {g : Grammar} {e : Expression} (built : Built g) (children : ∀ child ∈ e.children, child < g.size)
      (name : Option String) : Built (g.add ⟨e, name⟩).2
  | setName {g : Grammar} (built : Built g) (r : Ref) (name : String) : Built (g.setName r name)
  | close {g g' : Grammar} {r target : Ref} (built : Built g) (inside : target < g.size)
      (closed : g.close r target = .ok g') : Built g'

theorem wellFormed_add (wellFormed : g.WellFormed) {n : Node}
    (children : ∀ child ∈ n.expression.children, child < g.size) : (g.add n).2.WellFormed := by
  intro r inside child mem
  rw [size_add] at inside ⊢
  rw [expression, node_add] at mem ⊢
  by_cases last : r = g.size
  · rw [if_pos last] at mem ⊢
    have earlier := children child mem
    exact ⟨Nat.lt_succ_of_lt earlier, fun _ => last ▸ earlier⟩
  · rw [if_neg last] at mem ⊢
    have old : r < g.size := Nat.lt_of_le_of_ne (Nat.le_of_lt_succ inside) last
    exact ⟨Nat.lt_succ_of_lt (wellFormed r old child mem).1, (wellFormed r old child mem).2⟩

theorem wellFormed_aim (wellFormed : g.WellFormed) {r target : Ref} (target_lt : target < g.size) :
    (g.aim r target).WellFormed := by
  intro s inside child mem
  rw [size_aim] at inside ⊢
  by_cases here : s = r
  · subst here
    rw [expression_aim inside] at mem ⊢
    obtain rfl : child = target := by simpa [Expression.children] using mem
    exact ⟨target_lt, nofun⟩
  · rw [expression, node_aim_ne here] at mem ⊢
    exact wellFormed s inside child mem

theorem wellFormed_setName (wellFormed : g.WellFormed) (r : Ref) (name : String) :
    (g.setName r name).WellFormed := by
  intro s inside child mem
  rw [size_setName] at inside ⊢
  rw [expression_setName] at mem ⊢
  exact wellFormed s inside child mem

/-- Whatever is put together is well-formed. -/
theorem Built.wellFormed (built : g.Built) : g.WellFormed := by
  induction built with
  | empty => exact fun r inside => nomatch inside
  | add _ children name ih => exact wellFormed_add ih children
  | setName _ r name ih => exact wellFormed_setName ih r name
  | @close g g' r target _ inside closed ih =>
      rw [Grammar.close] at closed
      split at closed
      · obtain rfl := Except.ok.inj closed
        exact wellFormed_aim ih inside
      · nomatch closed
      · nomatch closed

/-- Sequences nest no deeper than there are earlier expressions. -/
theorem sequenceItems_enough (wellFormed : g.WellFormed) {limit limit' r : Nat}
    (inside : r < g.size) (enough : r < limit) (enough' : r < limit') :
    g.sequenceItems limit r = g.sequenceItems limit' r := by
  induction limit generalizing limit' r with
  | zero => omega
  | succ limit ih =>
      obtain ⟨limit', rfl⟩ : ∃ k, limit' = k + 1 := ⟨limit' - 1, by omega⟩
      rw [Grammar.sequenceItems, Grammar.sequenceItems]
      split
      · rename_i first second seq
        have order := wellFormed r inside first (by simp [seq, Expression.children])
        have earlier := order.2 (by rw [seq]; rfl)
        rw [ih order.1 (Nat.lt_of_lt_of_le earlier (Nat.le_of_lt_succ enough))
          (Nat.lt_of_lt_of_le earlier (Nat.le_of_lt_succ enough'))]
      · rfl

/-- Well-formedness can be decided. -/
instance : Decidable g.WellFormed :=
  inferInstanceAs (Decidable (∀ r, r < g.size → ∀ child ∈ (g.expression r).children,
    child < g.size ∧ ((g.expression r).isForward = false → child < r)))

/-- Letters in nested brackets and then a list of letters, as an example, and where it
starts. -/
def brackets : Grammar × Ref :=
  let build : Build Ref := do
    let group ← Build.forwardNamed "group"
    let inner ← Build.keepLeft (← Build.keepRight (← Build.char '(') group) (← Build.char ')')
    let letter ← Build.orElse (← Build.char 'x') (← Build.char 'y')
    Build.close group (← Build.orElse inner letter)
    Build.seq group (← Build.many letter)
  let (root, g) := build.run {}
  (g, root)

theorem brackets_wellFormed : brackets.1.WellFormed := by decide

theorem brackets_inside : brackets.2 < brackets.1.size := by decide

/-! ## Walks -/

open scoped Classical in
/-- The forward references that have not been seen. -/
noncomputable def unseen (g : Grammar) (seen : Ref → Prop) : Finset Ref :=
  (Finset.range g.size).filter fun r => (g.expression r).isForward = true ∧ ¬ seen r

/-- How deeply a walk from an expression nests that follows only forward references not seen
yet. -/
noncomputable def ahead (g : Grammar) (seen : Ref → Prop) (r : Ref) : Nat :=
  (g.unseen seen).card * (g.size + 1) + r + 1

variable {seen seen' : Ref → Prop}

theorem unseen_subset (more : ∀ r, seen r → seen' r) : g.unseen seen' ⊆ g.unseen seen := by
  intro r mem
  simp only [unseen, Finset.mem_filter] at mem ⊢
  exact ⟨mem.1, mem.2.1, fun before => mem.2.2 (more r before)⟩

/-- From an expression to one that it refers to. -/
theorem ahead_child (more : ∀ r, seen r → seen' r) {r child : Nat} (earlier : child < r) :
    g.ahead seen' child < g.ahead seen r := by
  have fewer := Nat.mul_le_mul_right (g.size + 1) (Finset.card_le_card (unseen_subset (g := g) more))
  simp only [ahead]
  omega

/-- From a forward reference that has been seen now to its target. -/
theorem ahead_target (more : ∀ r, seen r → seen' r) {r target : Nat} (inside : r < g.size)
    (forward : (g.expression r).isForward = true) (new : ¬ seen r) (now : seen' r)
    (aimed : target < g.size) : g.ahead seen' target < g.ahead seen r := by
  have fewer : (g.unseen seen').card < (g.unseen seen).card := by
    refine Finset.card_lt_card ⟨unseen_subset more, ?_⟩
    intro subset
    have mem : r ∈ g.unseen seen := by
      simp only [unseen, Finset.mem_filter, Finset.mem_range]
      exact ⟨inside, forward, new⟩
    have := subset mem
    simp only [unseen, Finset.mem_filter] at this
    exact this.2.2 now
  have rows := Nat.mul_le_mul_right (g.size + 1) (Nat.succ_le_of_lt fewer)
  rw [Nat.succ_mul] at rows
  simp only [ahead]
  omega

theorem ahead_le_walkLimit (seen : Ref → Prop) {r : Nat} (inside : r < g.size) :
    g.ahead seen r ≤ g.walkLimit := by
  have few : (g.unseen seen).card ≤ g.size := by
    rw [← Finset.card_range g.size]
    apply Finset.card_le_card
    intro r mem
    simp only [unseen, Finset.mem_filter] at mem
    exact mem.1
  have rows := Nat.mul_le_mul_right (g.size + 1) few
  simp only [ahead, walkLimit, Nat.add_mul (g.size) 1]
  omega

end PegMachine.Grammar
