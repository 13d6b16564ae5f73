/-
# PegMachine.Proofs.Meaning.Determined — an expression has one meaning at most

More fuel never changes a result (`evaluate_refines`), so what an expression comes to at a
position is determined (`means_unique`): two results, each reached with some amount of
fuel, are both reached with the larger amount.
-/
import PegMachine.Grammar.Meaning

namespace PegMachine.Grammar

set_option autoImplicit false

namespace Evaluation

/-- Whatever the first evaluation comes to, the second comes to as well. -/
def Refines {α : Type} (x y : Evaluation α) : Prop :=
  ∀ entered z, x entered = some z → y entered = some z

section Refines

variable {α β : Type}

theorem Refines.refl (x : Evaluation α) : Refines x x := fun _ _ done => done

theorem refines_exhausted (x : Evaluation α) : Refines exhausted x := nofun

theorem bind_eq_some {x : Evaluation α} {f : α → Evaluation β} {entered : Entered}
    {z : β × Entered} :
    (x >>= f) entered = some z ↔ ∃ a between, x entered = some (a, between) ∧ f a between = some z := by
  show (x entered).bind (fun p => f p.1 p.2) = _ ↔ _
  simp only [Option.bind_eq_some_iff, Prod.exists]

theorem Refines.bind {x y : Evaluation α} {f f' : α → Evaluation β} (first : Refines x y)
    (rest : ∀ a, Refines (f a) (f' a)) : Refines (x >>= f) (y >>= f') := by
  intro entered z done
  obtain ⟨a, between, before, after⟩ := bind_eq_some.mp done
  exact bind_eq_some.mpr ⟨a, between, first _ _ before, rest a _ _ after⟩

end Refines

/-! ## Combinations of evaluations -/

section Combinations

variable {eval eval' : Ref → Nat → Evaluation Result}

theorem items_refines (refines : ∀ r pos, Refines (eval r pos) (eval' r pos)) (refs : List Ref)
    (pos : Nat) : Refines (items eval refs pos) (items eval' refs pos) := by
  induction refs generalizing pos with
  | nil => exact .refl _
  | cons r rest ih =>
      apply (refines r pos).bind
      intro result
      cases result with
      | failed at' => exact .refl _
      | matched value stop => exact (ih stop).bind fun _ => .refl _

theorem sequence_refines (refines : ∀ r pos, Refines (eval r pos) (eval' r pos))
    (parts : List Ref) (f : Combiner) (pos : Nat) :
    Refines (sequence eval parts f pos) (sequence eval' parts f pos) :=
  (items_refines refines parts pos).bind fun _ => .refl _

theorem choice_refines (refines : ∀ r pos, Refines (eval r pos) (eval' r pos)) (refs : List Ref)
    (pos : Nat) : Refines (choice eval refs pos) (choice eval' refs pos) := by
  induction refs with
  | nil => exact .refl _
  | cons r rest ih =>
      cases rest with
      | nil => exact refines r pos
      | cons next rest =>
          apply (refines r pos).bind
          intro result
          cases result with
          | matched value stop => exact .refl _
          | failed at' => exact ih

theorem repeated_refines {eval eval' : Nat → Evaluation Result}
    (refines : ∀ pos, Refines (eval pos) (eval' pos)) {fuel more : Nat} (le : fuel ≤ more)
    (pos : Nat) : Refines (repeated eval fuel pos) (repeated eval' more pos) := by
  induction fuel generalizing more pos with
  | zero => exact refines_exhausted _
  | succ fuel ih =>
      obtain ⟨more, rfl⟩ : ∃ k, more = k + 1 := ⟨more - 1, by omega⟩
      apply (refines pos).bind
      intro result
      cases result with
      | failed at' => exact .refl _
      | matched value stop =>
          simp only
          split
          · exact (ih (by omega) stop).bind fun _ => .refl _
          · exact .refl _

theorem provided_refines (refines : ∀ r pos, Refines (eval r pos) (eval' r pos))
    (first second : Ref) (pos : Nat) (decide : Datum → Nat → Result → Result) :
    Refines (provided eval first second pos decide) (provided eval' first second pos decide) := by
  apply (refines first pos).bind
  intro result
  cases result with
  | failed at' => exact .refl _
  | matched value stop => exact (refines second stop).bind fun _ => .refl _

end Combinations

end Evaluation

open Evaluation

theorem evaluateForm_refines (g : Grammar) (input : Array Char) {fuel more : Nat} (le : fuel ≤ more)
    {eval eval' : Ref → Nat → Evaluation Result}
    (refines : ∀ r pos, Refines (eval r pos) (eval' r pos)) (r : Ref) (pos : Nat) (e : Expression) :
    Refines (g.evaluateForm input fuel eval r pos e) (g.evaluateForm input more eval' r pos e) := by
  cases e with
  | char | oneOf | escaped | test | literal | keyword | finish => exact .refl _
  | scan t least itemLabel => exact (repeated_refines (fun _ => .refl _) le pos).bind fun _ => .refl _
  | seq => exact sequence_refines refines _ _ pos
  | orElse | choice => exact choice_refines refines _ pos
  | keepLeft | keepRight | followedBy | notFollowedBy => exact provided_refines refines _ _ pos _
  | combine f parts => exact sequence_refines refines parts f pos
  | optional body fallback => exact (refines body pos).bind fun _ => .refl _
  | many body least => exact (repeated_refines (refines body) le pos).bind fun _ => .refl _
  | transform f body => exact (refines body pos).bind fun _ => .refl _
  | idiom kind body => exact refines body pos
  | forward target =>
      cases target with
      | none => exact .refl _
      | some target => exact refines target pos

theorem evaluate_refines (g : Grammar) (input : Array Char) {fuel more : Nat} (le : fuel ≤ more)
    (r : Ref) (pos : Nat) : Refines (g.evaluate input fuel r pos) (g.evaluate input more r pos) := by
  induction fuel generalizing more r pos with
  | zero => exact refines_exhausted _
  | succ fuel ih =>
      obtain ⟨more, rfl⟩ : ∃ k, more = k + 1 := ⟨more - 1, by omega⟩
      have le : fuel ≤ more := by omega
      exact (Refines.refl _).bind fun _ =>
        g.evaluateForm_refines input le (fun r pos => ih le r pos) r pos _

/-- An expression comes to one result at a position, and enters the same named expressions
on the way. -/
theorem means_unique {g : Grammar} {input : Array Char} {r : Ref} {pos : Nat}
    {result result' : Result} {entered entered' : List (String × Nat)}
    (first : g.Means input r pos result entered) (second : g.Means input r pos result' entered') :
    result = result' ∧ entered = entered' := by
  obtain ⟨fuel, done⟩ := first
  obtain ⟨fuel', done'⟩ := second
  have left := g.evaluate_refines input (Nat.le_max_left fuel fuel') r pos _ _ done
  have right := g.evaluate_refines input (Nat.le_max_right fuel fuel') r pos _ _ done'
  have same := Option.some.inj (left.symm.trans right)
  exact ⟨(Prod.mk.inj same).1, List.reverse_inj.mp (Prod.mk.inj same).2⟩

/-- An expression comes to this result at a position. -/
def Comes (g : Grammar) (input : Array Char) (r : Ref) (pos : Nat) (result : Result) : Prop :=
  ∃ entered, g.Means input r pos result entered

theorem Means.comes_iff {g : Grammar} {input : Array Char} {r : Ref} {pos : Nat}
    {result result' : Result} {entered : List (String × Nat)}
    (means : g.Means input r pos result entered) :
    g.Comes input r pos result' ↔ result' = result := by
  constructor
  · rintro ⟨entered', means'⟩
    exact (means_unique means' means).1
  · rintro rfl
    exact ⟨_, means⟩

end PegMachine.Grammar
