/-
# PegMachine.Proofs.Lowering.Reaches — which expressions can be unfolded

In a well-formed grammar an expression can be unfolded if and only if every expression that
it reaches is complete, that is, neither an open forward reference nor a choice with
nothing to choose from (`complete_of_unfold`, `unfold_of_complete`). There is always enough
height, since a walk that follows each forward reference once nests no deeper than
`walkLimit`.
-/
import Mathlib.Logic.Relation
import PegMachine.Proofs.Grammars
import PegMachine.Proofs.Lowering.Simulates

namespace PegMachine

set_option autoImplicit false

open Machine (Code)

namespace Grammar

/-- Whether one expression can be reached from another. -/
def Reaches (g : Grammar) : Ref → Ref → Prop :=
  Relation.ReflTransGen fun r child => child ∈ (g.expression r).children

section Reaches

variable {g : Grammar} {traced : Bool} {height : Nat} {root r : Ref} {c : Code} {v : Unfolding}

/-- Of the forward references that an unfolding met, the targets are covered. -/
theorem targets_of_unfold (unfolds : g.unfold traced height root {} = some (c, v)) (known : r ∈ v.met) :
    g.RoutineCovered v.met r := by
  obtain ⟨-, targets⟩ :=
    g.unfold_covers traced v.met height root (List.nil_subset _) unfolds (List.prefix_refl _)
  obtain ⟨i, found⟩ := List.mem_iff_getElem?.mp known
  exact targets i r (Nat.zero_le _) found

/-- Whatever can be reached from an expression that has been unfolded is covered. -/
theorem covered_of_unfold (unfolds : g.unfold traced height root {} = some (c, v))
    (reaches : g.Reaches root r) : g.Covered v.met r := by
  induction reaches with
  | refl =>
      exact (g.unfold_covers traced v.met height root (List.nil_subset _) unfolds
        (List.prefix_refl _)).1
  | tail _ child ih =>
      cases ih with
      | forward _ known =>
          obtain ⟨t, aimed, covered⟩ := targets_of_unfold unfolds known
          rw [aimed] at child
          obtain rfl := List.mem_singleton.mp child
          exact covered
      | form _ _ children => exact children _ child

/-- So it is complete. -/
theorem complete_of_unfold (unfolds : g.unfold traced height root {} = some (c, v))
    (reaches : g.Reaches root r) : (g.expression r).complete = true := by
  cases covered_of_unfold unfolds reaches with
  | forward _ known =>
      obtain ⟨t, aimed, -⟩ := targets_of_unfold unfolds known
      rw [aimed]
      rfl
  | form _ complete => exact complete

/-- And if it is a forward reference, it was met. -/
theorem met_of_unfold (unfolds : g.unfold traced height root {} = some (c, v))
    (reaches : g.Reaches root r) (forward : (g.expression r).isForward = true) : r ∈ v.met := by
  cases covered_of_unfold unfolds reaches with
  | forward _ known => exact known
  | form other => cases forward.symm.trans other

end Reaches

end Grammar

/-! ## Unfoldings that succeed -/

namespace Unfold

/-- An unfolding comes to something once some forward references have been met. -/
def Succeeds {α : Type} (met : List Ref) (u : Unfold α) : Prop :=
  ∀ v : Unfolding, met <+: v.met → ∃ a v', u v = some (a, v')

section Succeeds

variable {α β : Type} {met : List Ref} {part : Ref → Unfold Code}

theorem succeeds_pure (a : α) : Succeeds met (return a) := by
  intro v more
  exact ⟨a, v, rfl⟩

theorem Succeeds.bind {u : Unfold α} {f : α → Unfold β} (first : Succeeds met u) (grow : Grows u)
    (rest : ∀ a, Succeeds met (f a)) : Succeeds met (u >>= f) := by
  intro v more
  obtain ⟨a, v', done⟩ := first v more
  obtain ⟨b, v'', done'⟩ := rest a v' (more.trans (grow done).met)
  exact ⟨b, v'', bind_eq_some.mpr ⟨a, v', done, done'⟩⟩

theorem Succeeds.last {u : Unfold α} (first : Succeeds met u) (f : α → β) :
    Succeeds met (u >>= fun a => return f a) := by
  intro v more
  obtain ⟨a, v', done⟩ := first v more
  exact ⟨f a, v', bind_eq_some.mpr ⟨a, v', done, rfl⟩⟩

theorem succeeds_parts {refs : List Ref} (succeed : ∀ r ∈ refs, Succeeds met (part r))
    (grow : ∀ r, Grows (part r)) : Succeeds met (parts (refs.map part)) := by
  induction refs with
  | nil => exact succeeds_pure []
  | cons r refs ih =>
      have rest := ih fun r mem => succeed r (.tail _ mem)
      exact (succeed r (.head _)).bind (grow r) fun _ => rest.last _

theorem succeeds_choice {refs : List Ref} (succeed : ∀ r ∈ refs, Succeeds met (part r))
    (grow : ∀ r, Grows (part r)) (some : refs ≠ []) : Succeeds met (choice (refs.map part)) := by
  intro v more
  obtain ⟨cs, v', done⟩ := succeeds_parts succeed grow v more
  cases refs with
  | nil => exact absurd rfl some
  | cons r refs =>
      obtain ⟨c, u, cs', -, -, rfl⟩ := parts_cons.mp done
      exact ⟨_, v', choice_eq_some.mpr ⟨c, cs', done, rfl⟩⟩

/-- A forward reference is called if it was met before, and unfolds its target otherwise. -/
theorem succeeds_forward {r t : Ref}
    (target : ∀ before, met <+: before → r ∉ before → Succeeds (before ++ [r]) (part t)) :
    Succeeds met (forward r (some (part t))) := by
  intro v more
  cases known : v.met.idxOf? r with
  | some index =>
      refine ⟨.call index, v, ?_⟩
      simp only [forward, known]
  | none =>
      have fresh : r ∉ v.met := List.idxOf?_eq_none_iff.mp known
      obtain ⟨c, u, done⟩ :=
        target v.met more fresh { v with met := v.met ++ [r] } (List.prefix_refl _)
      refine ⟨c, u.complete v.met.length c, ?_⟩
      simp only [forward, known, done, Option.bind_eq_bind, Option.bind_some]
      rfl

end Succeeds

end Unfold

namespace Grammar

section Complete

variable {g : Grammar} {traced : Bool}

/-- The items of a sequence are reached from it. -/
theorem reaches_item {limit : Nat} {r item : Ref} (mem : item ∈ g.sequenceItems limit r) :
    g.Reaches r item := by
  induction limit generalizing r with
  | zero =>
      obtain rfl := List.mem_singleton.mp mem
      exact .refl
  | succ limit ih =>
      rw [sequenceItems] at mem
      split at mem
      · rename_i first second seq
        have step {child : Ref} (mem : child ∈ [first, second]) : g.Reaches r child :=
          .single (by rw [seq]; exact mem)
        rcases List.mem_append.mp mem with mem | mem
        · exact (step (.head _)).trans (ih mem)
        · obtain rfl := List.mem_singleton.mp mem
          exact step (.tail _ (.head _))
      · obtain rfl := List.mem_singleton.mp mem
        exact .refl

/-- The items of a sequence are earlier than the sequence, unless it is no sequence. -/
theorem items_earlier (wellFormed : g.WellFormed) {limit r : Nat} (inside : r < g.size) :
    ∀ item ∈ g.sequenceItems limit r, item ≤ r ∧
      (0 < limit → ∀ first second, g.expression r = .seq first second → item < r) := by
  induction limit generalizing r with
  | zero =>
      intro item mem
      obtain rfl := List.mem_singleton.mp mem
      exact ⟨Nat.le_refl _, fun more => absurd more (Nat.lt_irrefl 0)⟩
  | succ limit ih =>
      intro item mem
      rw [sequenceItems] at mem
      split at mem
      · rename_i first second seq
        have children : ∀ child ∈ [first, second], child < g.size ∧ child < r := by
          intro child mem
          have known := wellFormed r inside child (by rw [seq]; exact mem)
          exact ⟨known.1, known.2 (by rw [seq]; rfl)⟩
        rcases List.mem_append.mp mem with mem | mem
        · obtain ⟨size, earlier⟩ := children first (.head _)
          have less : item < r := Nat.lt_of_le_of_lt (ih size item mem).1 earlier
          exact ⟨Nat.le_of_lt less, fun _ _ _ _ => less⟩
        · obtain rfl := List.mem_singleton.mp mem
          have less : item < r := (children item (.tail _ (.head _))).2
          exact ⟨Nat.le_of_lt less, fun _ _ _ _ => less⟩
      · rename_i other
        obtain rfl := List.mem_singleton.mp mem
        exact ⟨Nat.le_refl _, fun _ first second seq => absurd seq (other first second)⟩

open Unfold in
/-- A form comes to code if its parts do, and the target of a forward reference that is met for
the first time. -/
theorem succeeds_form {part : Ref → Unfold Code} {r : Ref} {met : List Ref}
    (grow : ∀ s, Grows (part s)) (complete : (g.expression r).complete = true)
    (parts : (g.expression r).isForward = false →
      ∀ s ∈ (g.expression r).children, Succeeds met (part s))
    (items : ∀ a b, g.expression r = .seq a b →
      ∀ item ∈ g.sequenceItems g.size r, Succeeds met (part item))
    (target : ∀ t, g.expression r = .forward (some t) → ∀ before, met <+: before → r ∉ before →
      Succeeds (before ++ [r]) (part t)) :
    Succeeds met (g.unfoldExpression part r (g.expression r)) := by
  cases form : g.expression r with
  | char | oneOf | escaped | test | scan | literal | keyword | finish => exact succeeds_pure _
  | seq first second => exact (succeeds_parts (items first second form) grow).last _
  | orElse first second =>
      rw [form] at parts
      exact succeeds_choice (parts rfl) grow (List.cons_ne_nil _ _)
  | choice alternatives =>
      rw [form] at parts complete
      apply succeeds_choice (parts rfl) grow
      rintro rfl
      cases complete
  | keepLeft first second | keepRight first second | followedBy first second
  | notFollowedBy first second =>
      rw [form] at parts
      have left := parts rfl first (.head _)
      have right := parts rfl second (.tail _ (.head _))
      exact left.bind (grow first) fun _ => right.last _
  | combine f items =>
      rw [form] at parts
      exact (succeeds_parts (parts rfl) grow).last _
  | optional body | many body | transform f body =>
      rw [form] at parts
      have inner := parts rfl body (.head _)
      exact inner.last _
  | idiom kind body =>
      rw [form] at parts
      exact parts rfl body (.head _)
  | forward aim =>
      cases aim with
      | none =>
          rw [form] at complete
          cases complete
      | some t => exact succeeds_forward (target t form)

open Unfold in
theorem succeeds_unfold (wellFormed : g.WellFormed) {height r : Nat} {met : List Ref}
    (inside : r < g.size) (complete : ∀ s, g.Reaches r s → (g.expression s).complete = true)
    (enough : g.ahead (· ∈ met) r ≤ height) : Succeeds met (g.unfold traced height r) := by
  induction height generalizing r met with
  | zero => exact absurd enough (by simp [ahead])
  | succ height ih =>
      have size {s : Nat} (reaches : g.Reaches r s) : s < g.size := by
        induction reaches with
        | refl => exact inside
        | tail _ child ih => exact (wellFormed _ ih _ child).1
      -- What is reached further down is earlier, so there is height left for it.
      have below {s : Nat} (reaches : g.Reaches r s) (earlier : s < r) :
          Succeeds met (g.unfold traced height s) := by
        have less : g.ahead (· ∈ met) s < g.ahead (· ∈ met) r :=
          ahead_child (fun _ seen => seen) earlier
        apply ih (size reaches) _ (Nat.le_of_lt_succ (Nat.lt_of_lt_of_le less enough))
        intro t further
        exact complete t (reaches.trans further)
      have form : Succeeds met
          (g.unfoldExpression (g.unfold traced height) r (g.expression r)) := by
        apply succeeds_form (g.grows_unfold traced height) (complete r .refl)
        · intro other s mem
          exact below (.single mem) ((wellFormed r inside s mem).2 other)
        · intro a b form item mem
          have reaches := reaches_item mem
          obtain ⟨-, earlier⟩ := @items_earlier g wellFormed g.size r inside item mem
          exact below reaches (earlier (Nat.lt_of_le_of_lt (Nat.zero_le _) inside) a b form)
        · intro t form before more fresh
          have reaches : g.Reaches r t := by
            apply Relation.ReflTransGen.single
            rw [form]
            exact .head _
          have forward : (g.expression r).isForward = true := by
            rw [form]
            rfl
          have less : g.ahead (· ∈ before ++ [r]) t < g.ahead (· ∈ met) r := by
            apply ahead_target _ inside forward (fun mem => fresh (more.subset mem)) (by simp)
              (size reaches)
            intro s mem
            exact List.mem_append_left _ (more.subset mem)
          apply ih (size reaches) _ (Nat.le_of_lt_succ (Nat.lt_of_lt_of_le less enough))
          intro s further
          exact complete s (reaches.trans further)
      simp only [unfold]
      split
      · exact form.last _
      · exact form

/-- An expression can be unfolded if whatever it reaches is complete. -/
theorem unfold_of_complete (wellFormed : g.WellFormed) {root : Nat} (inside : root < g.size)
    (complete : ∀ r, g.Reaches root r → (g.expression r).complete = true) :
    ∃ c v, g.unfold traced g.walkLimit root {} = some (c, v) :=
  succeeds_unfold wellFormed inside complete (ahead_le_walkLimit _ inside) {} (List.prefix_refl _)

end Complete

end Grammar

end PegMachine
