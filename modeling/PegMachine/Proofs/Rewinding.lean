/-
# PegMachine.Proofs.Rewinding — where failures leave the cursor

A behaviour rewinds if its failures leave the cursor where it began. All layouts go back
to a mark on failure but one: a repetition that comes to too few items stays where it
got to. If it asks for one item at most, it has found none then and has not moved
(`many_rewinds`).

So the code of an expression rewinds unless the expression is a greater repetition, or
comes down to one through idioms and forward references (`Grammar.Strays`); then the cursor
is left at the position that the failure is about (`code_rewindsUnless`). Whatever a greater
repetition is a part of puts the cursor back itself, and so does a call. The code of a
grammar without greater repetitions rewinds (`code_rewinds`).
-/
import PegMachine.Proofs.Grammars
import PegMachine.Proofs.Lowering.Compiled

namespace PegMachine

set_option autoImplicit false

open Machine

/-- No repetition asks for more than one item. -/
def Grammar.Modest (g : Grammar) : Prop :=
  ∀ r body least, g.expression r = .many body least → least ≤ 1

/-- Whether an expression is no repetition that asks for more than one item. -/
def Expression.modest : Expression → Bool
  | .many _ least => least ≤ 1
  | _ => true

/-- It is enough to look at the nodes there are. -/
instance (g : Grammar) : Decidable g.Modest :=
  decidable_of_iff (∀ r, r < g.size → (g.expression r).modest = true) <| by
    constructor
    · intro all r body least many
      by_cases inside : r < g.size
      · have := all r inside
        rw [many] at this
        simpa [Expression.modest] using this
      · rw [Grammar.expression_missing (Nat.le_of_not_lt inside)] at many
        nomatch many
    · intro modest r _
      cases form : g.expression r with
      | many body least => simpa [Expression.modest] using modest r body least form
      | _ => rfl

theorem Grammar.brackets_modest : Grammar.brackets.1.Modest := by decide

/-- An expression that is a repetition that asks for more than one item, or comes down to one. -/
inductive Grammar.Strays (g : Grammar) : Ref → Prop
  | many {r body : Ref} {least : Nat} (form : g.expression r = .many body least)
      (greater : 1 < least) : Strays g r
  | idiom {r body : Ref} {kind : Idiom} (form : g.expression r = .idiom kind body)
      (inner : Strays g body) : Strays g r
  | forward {r target : Ref} (form : g.expression r = .forward (some target))
      (aimed : Strays g target) : Strays g r

theorem Grammar.Modest.not_strays {g : Grammar} (modest : g.Modest) {r : Ref} : ¬ g.Strays r := by
  intro strays
  induction strays with
  | many form greater => exact absurd (modest _ _ _ form) (Nat.not_le.mpr greater)
  | idiom _ _ ih | forward _ _ ih => exact ih

/-- Failures leave the cursor where it was. -/
def Rewinds {input : Array Char} (body : Behaviour input) : Prop :=
  ∀ pos e, (body pos).register = .error e → (body pos).cursor = pos

/-- Failures leave the cursor where it was, or on a condition at the position they are about. -/
def RewindsUnless (condition : Prop) {input : Array Char} (body : Behaviour input) : Prop :=
  ∀ pos e, (body pos).register = .error e →
    (body pos).cursor = pos ∨ (condition ∧ (body pos).cursor = e.pos)

section Forms

variable {input : Array Char}

theorem Rewinds.unless {body : Behaviour input} (rewinds : Rewinds body) (condition : Prop) :
    RewindsUnless condition body := fun pos e failed => .inl (rewinds pos e failed)

theorem RewindsUnless.mono {condition condition' : Prop} {body : Behaviour input}
    (rewinds : RewindsUnless condition body) (weaker : condition → condition') :
    RewindsUnless condition' body :=
  fun pos e failed => (rewinds pos e failed).imp id fun ⟨holds, there⟩ => ⟨weaker holds, there⟩

theorem orBack_rewinds {o : Outcome} {pos : Nat} {e : Diagnostic}
    (failed : (o.orBack pos).register = .error e) : (o.orBack pos).cursor = pos := by
  rw [Outcome.orBack_register] at failed
  rw [Outcome.orBack_error failed]

theorem test_rewinds (entry : TestEntry) : Rewinds (Behaviour.test entry : Behaviour input) := by
  intro pos e failed
  simp only [Behaviour.test, readTest] at *
  split at failed
  · cases failed
  · rfl

theorem literal_rewinds (entry : LiteralEntry) (value : Datum) :
    Rewinds (Behaviour.literal entry value : Behaviour input) := by
  intro pos e failed
  simp only [Behaviour.literal, readLiteral] at *
  split at failed
  · rfl
  · cases failed

theorem scan_rewinds (entry : ScanEntry) : Rewinds (Behaviour.scan entry : Behaviour input) := by
  intro pos e failed
  simp only [Behaviour.scan, readRun] at *
  split at failed
  · cases failed
  · rename_i short
    rw [if_neg short]

theorem finish_rewinds : Rewinds (Behaviour.finish : Behaviour input) := by
  intro pos e failed
  simp only [Behaviour.finish, readEnd] at *
  split <;> rfl

theorem optional_rewinds (body : Behaviour input) (fallback : Datum) :
    Rewinds (Behaviour.optional body fallback) := by
  intro pos e failed
  simp only [Behaviour.optional] at failed
  split at failed
  · rename_i d done
    cases done.symm.trans failed
  · cases failed

/-- A repetition yields a list; as long as it has no more items than before, it has not
moved. -/
theorem loop_list (body : Behaviour input) (most : Nat) (collected : List Datum) (pos : Nat) :
    ∃ ds, (Behaviour.loop body most collected pos).register = .ok (.list ds) ∧
      collected.length ≤ ds.length ∧
      (ds.length = collected.length → (Behaviour.loop body most collected pos).cursor = pos) := by
  -- A round that adds no item ends the loop, so as many items as before means not a single round.
  induction most generalizing collected pos with
  | zero => exact ⟨collected.reverse, rfl, by simp, fun _ => rfl⟩
  | succ most ih =>
      rw [Behaviour.loop]
      split
      · exact ⟨collected.reverse, rfl, by simp, fun _ => rfl⟩
      · rename_i d done
        split
        · obtain ⟨ds, ok, more, -⟩ := ih (d :: collected) (body pos).cursor
          rw [List.length_cons] at more
          exact ⟨ds, ok, by omega, fun same => by omega⟩
        · exact ⟨(d :: collected).reverse, rfl, by simp, fun same => by simp at same⟩

theorem many_rewinds (body : Behaviour input) {arity : Arity} (modest : arity.least ≤ 1) :
    Rewinds (Behaviour.many body arity) := by
  intro pos e failed
  obtain ⟨ds, ok, -, stayed⟩ := loop_list body (Behaviour.rounds input pos) [] pos
  have list : (Datum.list ds).items = ds := rfl
  simp only [Behaviour.many] at *
  rw [Outcome.andThen_ok ok, Outcome.after_register, Behaviour.enough, list] at failed
  rw [Outcome.andThen_ok ok, Outcome.after_cursor, Behaviour.enough, list]
  split at failed
  · cases failed
  · rename_i short
    rw [if_neg short]
    exact stayed (by simp only [List.length_nil]; omega)

/-- A repetition that comes to too few items complains about where it got to. -/
theorem many_rewindsUnless (body : Behaviour input) (arity : Arity) :
    RewindsUnless (1 < arity.least) (Behaviour.many body arity) := by
  rcases Nat.lt_or_ge 1 arity.least with greater | modest
  · intro pos e failed
    obtain ⟨ds, ok, -⟩ := loop_list body (Behaviour.rounds input pos) [] pos
    simp only [Behaviour.many] at *
    rw [Outcome.andThen_ok ok, Outcome.after_register, Behaviour.enough] at failed
    rw [Outcome.andThen_ok ok, Outcome.after_cursor, Behaviour.enough]
    split at failed
    · cases failed
    · rename_i short
      cases failed
      rw [if_neg short]
      exact .inr ⟨greater, rfl⟩
  · exact (many_rewinds body modest).unless _

theorem called_rewinds (label : Nat) (body : Behaviour input) :
    Rewinds (Behaviour.called label body) := fun _ _ failed => orBack_rewinds failed

end Forms

section Codes

variable {g : Grammar} {input : Array Char}

/-- The code of a form that goes back to a mark rewinds, whatever the codes of the parts do; that of
an idiom does what the code of its body does. -/
theorem rewindsUnless_of_assembled {env : Surroundings input} {r : Ref} {c : Code}
    (assembled : g.Assembled (fun r c => RewindsUnless (g.Strays r) (c input env)) r
      (g.expression r) c) : RewindsUnless (g.Strays r) (c input env) := by
  generalize form : g.expression r = e at assembled
  cases assembled with
  | char | oneOf | escaped | test => exact (test_rewinds _).unless _
  | scan => exact (scan_rewinds _).unless _
  | literal | keyword => exact (literal_rewinds _ _).unless _
  | finish => exact finish_rewinds.unless _
  | seq | orElse | choice | keepLeft | keepRight | followedBy | notFollowedBy | combine | transform =>
      exact Rewinds.unless (fun pos e failed => orBack_rewinds failed) _
  | optional => exact (optional_rewinds _ _).unless _
  | many => exact (many_rewindsUnless _ _).mono (.many form)
  | idiom inner => exact inner.mono (.idiom form)

open Unfold in
/-- The code of an expression rewinds unless the expression strays, if calls rewind. -/
theorem unfold_rewindsUnless {env : Surroundings input} (calls : ∀ i, Rewinds (env.call i))
    (traced : Bool) (final : List Ref) (height : Nat) (r : Ref) :
    Upholds (fun _ _ => True) [] final (g.unfold traced height r)
      (fun c => RewindsUnless (g.Strays r) (c input env)) := by
  apply Grammar.unfold_upholds fun r c => RewindsUnless (g.Strays r) (c input env)
  · intro r c assembled
    exact rewindsUnless_of_assembled assembled
  · intro i r _ _
    exact (calls i).unless _
  · intro r t c form _ _ rewinds
    exact ⟨rewinds.mono (.forward form), trivial⟩
  · intro r name c _ _ rewinds
    exact rewinds
  · intro r c _ rewinds
    exact rewinds

/-- However many calls may be nested, they rewind. -/
theorem calls_rewind (b : Bytecode) (bodies : Nat → Code) (depth i : Nat) :
    Rewinds ((b.surroundings bodies depth input).call i) := by
  cases depth with
  | zero => exact fun _ _ _ => rfl
  | succ depth => exact called_rewinds _ _

section Root

variable {traced : Bool} {height : Nat} {root : Ref} {c : Code} {v : Unfolding}

/-- The code of an expression rewinds unless the expression strays. -/
theorem code_rewindsUnless (unfolds : g.unfold traced height root {} = some (c, v)) (b : Bytecode)
    (depth : Nat) : RewindsUnless (g.Strays root) (c input (b.surroundings v.bodies depth input)) :=
  (unfold_rewindsUnless (calls_rewind b v.bodies depth) traced v.met height root (List.nil_subset _)
    unfolds (List.prefix_refl _)).1

/-- The code of an expression of a grammar without greater repetitions rewinds. -/
theorem code_rewinds (modest : g.Modest) (unfolds : g.unfold traced height root {} = some (c, v))
    (b : Bytecode) (depth : Nat) : Rewinds (c input (b.surroundings v.bodies depth input)) :=
  fun pos e failed => (code_rewindsUnless unfolds b depth pos e failed).resolve_right
    fun ⟨strays, _⟩ => modest.not_strays strays

end Root

end Codes

end PegMachine
