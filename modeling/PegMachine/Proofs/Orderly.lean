/-
# PegMachine.Proofs.Orderly — programs keep grammars in order

A grammar is in order if it is well-formed and no repetition asks for more than one item, which is
all there is to ask of a grammar that expressions are appended to (`Grammar.Orderly`). What a
program appends refers to what it has been answered before: `Build.Grows refs x` says that a
program keeps a grammar in order that holds the references `refs`, and that its answer is one more
of them.

If what a program builds is a small tree, it can be compiled in any grammar that is in order
(`Grows.compiles`), and what it means there is not a matter of condensing or tracing.
-/
import PegMachine.Proofs.AnyCase
import PegMachine.Proofs.Idioms
import PegMachine.Proofs.Lowering.Costs
import PegMachine.Proofs.Meaning.Limited

namespace PegMachine

set_option autoImplicit false

theorem Expression.modest_iff {e : Expression} :
    e.modest = true ↔ ∀ body least, e = .many body least → least ≤ 1 := by
  cases e with
  | many => simp [Expression.modest]
  | _ => exact ⟨fun _ => nofun, fun _ => rfl⟩

namespace Grammar

/-- Expressions refer to earlier ones, and no repetition asks for more than one item. -/
structure Orderly (g : Grammar) : Prop where
  wellFormed : g.WellFormed
  modest : g.Modest

theorem brackets_orderly : Orderly brackets.1 := ⟨brackets_wellFormed, brackets_modest⟩

/-- A grammar that is well-formed, at least as large as another, and modest if the other is. -/
structure Outgrows (g' g : Grammar) : Prop where
  wellFormed : g'.WellFormed
  modest : g.Modest → g'.Modest
  size : g.size ≤ g'.size

section Outgrows

variable {g g' g'' : Grammar}

theorem Outgrows.refl (wellFormed : g.WellFormed) : g.Outgrows g :=
  ⟨wellFormed, id, Nat.le_refl _⟩

theorem Outgrows.trans (second : g''.Outgrows g') (first : g'.Outgrows g) : g''.Outgrows g :=
  ⟨second.wellFormed, second.modest ∘ first.modest, Nat.le_trans first.size second.size⟩

theorem outgrows_add (wellFormed : g.WellFormed) {n : Node}
    (children : ∀ child ∈ n.expression.children, child < g.size) (few : n.expression.modest = true) :
    (g.add n).2.Outgrows g := by
  refine ⟨wellFormed_add wellFormed children, ?_, by simp⟩
  intro modest r body least many
  rw [expression_add] at many
  split at many
  · exact Expression.modest_iff.mp few body least many
  · exact modest r body least many

theorem outgrows_setName (wellFormed : g.WellFormed) (r : Ref) (name : String) :
    (g.setName r name).Outgrows g := by
  refine ⟨wellFormed_setName wellFormed r name, ?_, by simp⟩
  intro modest s body least many
  rw [expression_setName] at many
  exact modest s body least many

end Outgrows

/-- A tree in a grammar that is in order is regular. -/
theorem Forest.regular {g : Grammar} {n : Nat} {root : Ref} (tree : g.Forest n [root])
    (orderly : g.Orderly) (inside : root < g.size) : g.Regular root :=
  ⟨orderly.wellFormed, inside, orderly.modest, fun _ => tree.avoids⟩

end Grammar

namespace Build

open Grammar (CompileOptions Forest Lowered Orderly)

/-- Where a grammar holds the references a program keeps it in order, and answers one more
reference. -/
def Grows (refs : List Ref) (x : Build Ref) : Prop :=
  ∀ g : Grammar, g.WellFormed → (∀ r ∈ refs, r < g.size) →
    (x g).2.Outgrows g ∧ (x g).1 < (x g).2.size

section Grows

variable {refs : List Ref} {x : Build Ref} {e : Expression}

theorem Grows.bind {f : Ref → Build Ref} (first : Grows refs x) (rest : ∀ r, Grows (r :: refs) (f r)) :
    Grows refs (x >>= f) := by
  intro g wellFormed inside
  obtain ⟨grown, answer⟩ := first g wellFormed inside
  have inside' : ∀ r ∈ (x g).1 :: refs, r < (x g).2.size :=
    List.forall_mem_cons.mpr ⟨answer, fun r mem => Nat.lt_of_lt_of_le (inside r mem) grown.size⟩
  obtain ⟨grown', answer'⟩ := rest _ _ grown.wellFormed inside'
  exact ⟨grown'.trans grown, answer'⟩

theorem grows_return {r : Ref} (known : r ∈ refs) : Grows refs (return r) :=
  fun _ wellFormed inside => ⟨.refl wellFormed, inside r known⟩

theorem grows_addNode (children : ∀ child ∈ e.children, child ∈ refs) (few : e.modest = true)
    (name : Option String) : Grows refs (modifyGet (·.add ⟨e, name⟩)) := by
  intro g wellFormed inside
  have more := Grammar.size_add (g := g) ⟨e, name⟩
  exact ⟨Grammar.outgrows_add wellFormed (fun child mem => inside child (children child mem)) few,
    Nat.lt_of_lt_of_eq (Nat.lt_succ_self _) more.symm⟩

theorem grows_add (children : ∀ child ∈ e.children, child ∈ refs) (few : e.modest = true) :
    Grows refs (add e) := grows_addNode children few none

theorem grows_addNamed (children : ∀ child ∈ e.children, child ∈ refs) (few : e.modest = true)
    (name : String) : Grows refs (addNamed e name) := grows_addNode children few (some name)

theorem modest_of_leaf (leaf : e.isLeaf = true) : e.modest = true := by
  cases e with
  | many => nomatch leaf
  | _ => rfl

/-- A leaf refers to nothing. -/
theorem grows_leaf (leaf : e.isLeaf = true) : Grows refs (add e) :=
  grows_add (by rw [Grammar.children_of_leaf leaf]; nofun) (modest_of_leaf leaf)

theorem grows_leafNamed (leaf : e.isLeaf = true) (name : String) : Grows refs (addNamed e name) :=
  grows_addNamed (by rw [Grammar.children_of_leaf leaf]; nofun) (modest_of_leaf leaf) name

theorem grows_named {r : Ref} (known : r ∈ refs) (name : String) : Grows refs (named r name) := by
  intro g wellFormed inside
  have grown := Grammar.outgrows_setName wellFormed r name
  exact ⟨grown, Nat.lt_of_lt_of_le (inside r known) grown.size⟩

theorem grows_enclosed {body envelope : Ref} (known : body ∈ refs) (known' : envelope ∈ refs) :
    Grows refs (enclosed body envelope) := by
  refine (grows_add (by simp [Expression.children, known, known']) rfl).bind fun left => ?_
  refine (grows_add (by simp [Expression.children, known']) rfl).bind fun whole => ?_
  exact grows_add (by simp [Expression.children]) rfl

theorem compile_eq (x : Build Ref) (g : Grammar) (options : CompileOptions) :
    compile x g options = (x g).2.compile options (x g).1 := rfl

/-- A small tree that a program builds is compiled in any grammar that is in order. -/
theorem Grows.compiles (grows : Grows [] x) {g : Grammar} (orderly : g.Orderly) {n : Nat}
    (tree : (x g).2.Forest n [(x g).1]) (small : 16 * n < Word.reach) (options : CompileOptions) :
    (x g).2.Regular (x g).1 ∧ ∃ lowered : Lowered, (x g).2.compile options (x g).1 = .ok lowered := by
  obtain ⟨grown, inside⟩ := grows g orderly.wellFormed fun _ mem => nomatch mem
  have orderly' : (x g).2.Orderly := ⟨grown.wellFormed, grown.modest orderly.modest⟩
  exact ⟨tree.regular orderly' inside, tree.compiles grown.wellFormed inside small options⟩

end Grows

end Build

end PegMachine
