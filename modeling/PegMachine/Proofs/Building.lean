/-
# PegMachine.Proofs.Building — what a grammar holds that was put together

A program that puts a grammar together answers references, and what stands behind them is
said of every later grammar: nodes are only appended, names do not matter, and closing a
forward reference changes nothing but an open one (`Grammar.Before`). So `Builds` carries a
property of later grammars, and nothing has to be carried over from one step to the next.

Which forward references are still open is kept beside it, for only those can be closed:
`Builds o x o' P` starts where the references in `o` are open, and leaves those in `o'` open.
-/
import PegMachine.Proofs.Grammars

namespace PegMachine

set_option autoImplicit false

namespace Grammar

/-- The second grammar holds what the first does, but for forward references that were open. -/
structure Before (g g' : Grammar) : Prop where
  size : g.size ≤ g'.size
  kept : ∀ r < g.size, g.expression r ≠ .forward none → g'.expression r = g.expression r

/-- Different forward references, all of them open. -/
def Opens (g : Grammar) (o : List Ref) : Prop :=
  o.Nodup ∧ ∀ r ∈ o, r < g.size ∧ g.expression r = .forward none

section Before

variable {g g' g'' : Grammar}

theorem Before.refl (g : Grammar) : g.Before g := ⟨Nat.le_refl _, fun _ _ _ => rfl⟩

theorem Before.trans (first : g.Before g') (second : g'.Before g'') : g.Before g'' := by
  refine ⟨Nat.le_trans first.size second.size, ?_⟩
  intro r inside closed
  have same := first.kept r inside closed
  rw [second.kept r (Nat.lt_of_lt_of_le inside first.size) (same ▸ closed), same]

theorem expression_add (n : Node) (r : Ref) :
    (g.add n).2.expression r = if r = g.size then n.expression else g.expression r := by
  rw [expression, node_add]
  split <;> rfl

theorem before_add (n : Node) : g.Before (g.add n).2 := by
  refine ⟨by simp, ?_⟩
  intro r inside _
  rw [expression_add, if_neg (Nat.ne_of_lt inside)]

/-- What was open is still open once a node has been appended. -/
theorem Opens.add {o : List Ref} (opens : g.Opens o) (n : Node) : (g.add n).2.Opens o := by
  refine ⟨opens.1, ?_⟩
  intro r mem
  obtain ⟨inside, opened⟩ := opens.2 r mem
  rw [size_add, expression_add, if_neg (Nat.ne_of_lt inside)]
  exact ⟨Nat.lt_succ_of_lt inside, opened⟩

theorem before_setName (r : Ref) (name : String) : g.Before (g.setName r name) :=
  ⟨by simp, fun s _ _ => expression_setName r name s⟩

theorem before_aim {r : Ref} (opened : g.expression r = .forward none) (target : Ref) :
    g.Before (g.aim r target) := by
  refine ⟨by simp, ?_⟩
  intro s _ closed
  have other : s ≠ r := by
    rintro rfl
    exact closed opened
  rw [expression, node_aim_ne other, expression]

end Before

end Grammar

/-! ## Programs -/

namespace Build

open Grammar (Before Opens)

/-- Where `o` are open a program leaves `o'` open, and whatever it answers has a property in every
later grammar. -/
def Builds {α : Type} (o : List Ref) (x : Build α) (o' : α → List Ref) (property : Grammar → α → Prop) :
    Prop :=
  ∀ g : Grammar, g.Opens o → g.Before (x g).2 ∧ (x g).2.Opens (o' (x g).1) ∧
    ∀ later, (x g).2.Before later → property later (x g).1

section Rules

variable {α β : Type} {o o' : List Ref} {property : Grammar → α → Prop}

/-- The second part may rely on what holds of the answer of the first. -/
theorem Builds.bind {o₁ : α → List Ref} {o₂ : β → List Ref} {x : Build α} {f : α → Build β}
    {property' : Grammar → β → Prop} (first : Builds o x o₁ property)
    (rest : ∀ a, Builds (o₁ a) (f a) o₂ fun later b => property later a → property' later b) :
    Builds o (x >>= f) o₂ property' := by
  intro g opens
  obtain ⟨before, opens, holds⟩ := first g opens
  obtain ⟨before', opens', holds'⟩ := rest _ _ opens
  exact ⟨before.trans before', opens', fun later le => holds' later le (holds later (before'.trans le))⟩

theorem Builds.mono {o₁ : α → List Ref} {x : Build α} {property' : Grammar → α → Prop}
    (builds : Builds o x o₁ property) (weaker : ∀ later a, property later a → property' later a) :
    Builds o x o₁ property' :=
  fun g opens => ⟨(builds g opens).1, (builds g opens).2.1,
    fun later le => weaker later _ ((builds g opens).2.2 later le)⟩

/-- What a program answers has the property in every later grammar, if nothing was left open before. -/
theorem Builds.later {x : Build α} (builds : Builds [] x (fun _ => []) property) (g : Grammar)
    {later : Grammar} (before : (x g).2.Before later) : property later (x g).1 := by
  have none_open : g.Opens [] := ⟨List.nodup_nil, fun r mem => by cases mem⟩
  exact (builds g none_open).2.2 later before

/-- So it has it in the grammar that the program leaves. -/
theorem Builds.holds {x : Build α} (builds : Builds [] x (fun _ => []) property) (g : Grammar) :
    property (x g).2 (x g).1 := builds.later g (.refl (x g).2)

/-- So has what it puts together from nothing. -/
theorem Builds.whole {x : Build α} (builds : Builds [] x (fun _ => []) property) :
    property (x {}).2 (x {}).1 := builds.holds {}

/-- A name makes no difference. -/
theorem builds_named (r : Ref) (name : String) : Builds o (named r name) (fun _ => o) fun _ s => s = r := by
  intro g opens
  refine ⟨Grammar.before_setName r name, ⟨opens.1, ?_⟩, fun _ _ => rfl⟩
  intro s mem
  obtain ⟨inside, opened⟩ := opens.2 s mem
  exact ⟨Nat.lt_of_lt_of_le inside (Grammar.before_setName r name).size,
    (Grammar.expression_setName r name s).trans opened⟩

/-- An expression that is appended stays, if it is no forward reference. -/
theorem builds_addNode {e : Expression} (other : e.isForward = false) (name : Option String) :
    Builds o (modifyGet (·.add ⟨e, name⟩)) (fun _ => o) fun later r => later.expression r = e := by
  intro g opens
  refine ⟨Grammar.before_add _, opens.add _, ?_⟩
  intro later le
  have le : (g.add ⟨e, name⟩).2.Before later := le
  have last : (g.add ⟨e, name⟩).2.expression g.size = e := by
    rw [Grammar.expression_add, if_pos rfl]
  have closed : e ≠ .forward none := by
    rintro rfl
    cases other
  have kept := le.kept g.size (by simp) (by rwa [last])
  exact kept.trans last

theorem builds_add {e : Expression} (other : e.isForward = false) :
    Builds o (add e) (fun _ => o) fun later r => later.expression r = e :=
  builds_addNode other none

theorem builds_addNamed {e : Expression} (other : e.isForward = false) (name : String) :
    Builds o (addNamed e name) (fun _ => o) fun later r => later.expression r = e :=
  builds_addNode other name

/-- A new forward reference is open. -/
theorem builds_forwardNamed (name : String) :
    Builds o (forwardNamed name) (fun r => r :: o) fun _ _ => True := by
  intro g opens
  refine ⟨Grammar.before_add _, ⟨List.nodup_cons.mpr ⟨?_, opens.1⟩, ?_⟩, fun _ _ => trivial⟩
  · intro old
    exact Nat.lt_irrefl _ (opens.2 g.size old).1
  · intro r mem
    rcases List.mem_cons.mp mem with rfl | mem
    · show g.size < (g.add _).2.size ∧ (g.add _).2.expression g.size = _
      rw [Grammar.size_add, Grammar.expression_add, if_pos rfl]
      exact ⟨Nat.lt_succ_self _, rfl⟩
    · exact (opens.add _).2 r mem

/-- Closing a forward reference that is open. -/
theorem builds_close (o o' : List Ref) (r target : Ref) :
    Builds (o ++ r :: o') (close r target) (fun _ => o ++ o') fun later _ =>
      later.expression r = .forward (some target) := by
  intro g opens
  obtain ⟨distinct, opened⟩ := opens
  obtain ⟨inside, here⟩ := opened r (by simp)
  have closes : (close r target g).2 = g.aim r target := by
    simp only [close, modify, modifyGet, MonadStateOf.modifyGet, StateT.modifyGet, Grammar.close, here]
    rfl
  have aimed : (g.aim r target).expression r = .forward (some target) :=
    Grammar.expression_aim inside target
  rw [closes]
  refine ⟨Grammar.before_aim here target, ⟨(List.nodup_middle.mp distinct).of_cons, ?_⟩, ?_⟩
  · intro s mem
    have other : s ≠ r := by
      rintro rfl
      exact (List.nodup_cons.mp (List.nodup_middle.mp distinct)).1 mem
    obtain ⟨inside', opened'⟩ := opened s (by simp only [List.mem_append, List.mem_cons] at mem ⊢; tauto)
    rw [Grammar.size_aim, Grammar.expression, Grammar.node_aim_ne other]
    exact ⟨inside', opened'⟩
  · intro later le
    rw [le.kept r (by simpa using inside) (by rw [aimed]; rintro ⟨⟩), aimed]

end Rules

end Build

end PegMachine
