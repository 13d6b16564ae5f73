/-
# PegMachine.Proofs.Meaning.Attains — meanings are attained with enough calls

Evaluation nests no deeper than its fuel. So if an expression comes to a result with some
fuel, its code comes to the same result where that many calls may be nested, and none is
refused on the way (`unfold_attains`, `calls_attain`). This is the converse of
`Proofs.Meaning.Denotes`, and has the same shape: one statement for each way of combining
evaluations, then all forms of expressions, then calls by induction on how many of them may
be nested.

Together: an expression means just what its code comes to with some number of nested
calls, provided that none of them is refused (`comes_iff`).
-/
import PegMachine.Proofs.Meaning.Denotes

namespace PegMachine

set_option autoImplicit false

open Grammar (Evaluation Result Entered)
open Machine

/-- Whatever an evaluation comes to is an outcome's result, and no call was refused. -/
def Attained (x : Evaluation Result) (o : Outcome) : Prop :=
  ∀ ⦃entered result entered'⦄, x entered = some (result, entered') →
    o.result = result ∧ Unrefused o.events

namespace Attained

variable {x : Evaluation Result} {o o' : Outcome} {result : Result}

theorem pure (same : o.result = result) (clean : Unrefused o.events) :
    Attained (Pure.pure result) o := by
  intro entered result' entered' done
  obtain ⟨rfl, -⟩ := Prod.mk.inj (Option.some.inj done)
  exact ⟨same, clean⟩

/-- Go on with the result of an evaluation. -/
theorem bind {f : Result → Evaluation Result} (first : Attained x o)
    (rest : Unrefused o.events → Attained (f o.result) o') : Attained (x >>= f) o' := by
  intro entered result entered' done
  obtain ⟨mid, between, done, after⟩ := Grammar.Evaluation.bind_eq_some.mp done
  obtain ⟨rfl, clean⟩ := first done
  exact rest clean after

/-- The same result, and refused calls only where there were any. -/
theorem of_same (attained : Attained x o) (same : o'.result = o.result)
    (clean : Unrefused o.events → Unrefused o'.events) : Attained x o' := by
  intro entered result entered' done
  obtain ⟨rfl, unrefused⟩ := attained done
  exact ⟨same, clean unrefused⟩

theorem orBack (attained : Attained x o) (pos : Nat) : Attained x (o.orBack pos) :=
  attained.of_same (Outcome.result_orBack o pos) (by rw [Outcome.orBack_events]; exact id)

end Attained

/-! ## Lists and rounds -/

section Lists

variable {input : Array Char} {eval : Ref → Nat → Evaluation Result}

/-- The same from every position. -/
def AttainedAt (eval : Nat → Evaluation Result) (body : Behaviour input) : Prop :=
  ∀ pos, Attained (eval pos) (body pos)

theorem items_attained {refs : List Ref} {parts : List (Behaviour input)}
    (all : List.Forall₂ (fun r part => AttainedAt (eval r) part) refs parts) {collected : List Datum}
    {pos : Nat} {entered entered' : Entered} {result : Except Nat (List Datum × Nat)}
    (done : Evaluation.items eval refs pos entered = some (result, entered')) :
    Unrefused (Behaviour.items parts collected pos).events ∧
      match result with
      | .error at' => ∃ e, (Behaviour.items parts collected pos).register = .error e ∧ e.pos = at'
      | .ok (values, stop) =>
        (Behaviour.items parts collected pos).register = .ok (.list (collected.reverse ++ values)) ∧
          (Behaviour.items parts collected pos).cursor = stop := by
  induction all generalizing collected pos entered entered' result with
  | nil =>
      obtain ⟨rfl, rfl⟩ := Prod.mk.inj (Option.some.inj done)
      exact ⟨unrefused_nil, by simp [Behaviour.items], rfl⟩
  | @cons r part refs parts first _ ih =>
      obtain ⟨mid, between, done, after⟩ := Grammar.Evaluation.bind_eq_some.mp done
      obtain ⟨rfl, clean⟩ := first pos done
      rw [Behaviour.items]
      cases reg : (part pos).register with
      | error e =>
          rw [Outcome.result_error reg] at after
          obtain ⟨rfl, rfl⟩ := Prod.mk.inj (Option.some.inj after)
          rw [Outcome.andThen_error reg]
          exact ⟨clean, e, reg, rfl⟩
      | ok d =>
          rw [Outcome.result_ok reg] at after
          obtain ⟨others, last, rest, made⟩ := Grammar.Evaluation.bind_eq_some.mp after
          obtain ⟨cleanRest, same⟩ := @ih (d :: collected) _ _ _ _ rest
          rw [Outcome.andThen_ok reg, Outcome.after_events, Outcome.after_register,
            Outcome.after_cursor]
          refine ⟨unrefused_append.mpr ⟨cleanRest, clean⟩, ?_⟩
          cases others with
          | error at' =>
              obtain ⟨rfl, rfl⟩ := Prod.mk.inj (Option.some.inj made)
              exact same
          | ok found =>
              obtain ⟨values, stop⟩ := found
              obtain ⟨rfl, rfl⟩ := Prod.mk.inj (Option.some.inj made)
              simpa using same

theorem choice_attained {r : Ref} {refs : List Ref} {first : Behaviour input}
    {rest : List (Behaviour input)} (head : AttainedAt (eval r) first)
    (tail : List.Forall₂ (fun r part => AttainedAt (eval r) part) refs rest) (pos : Nat) :
    Attained (Evaluation.choice eval (r :: refs) pos) (Behaviour.choose first rest pos) := by
  induction tail generalizing r first with
  | nil => exact head pos
  | @cons r' next refs rest attained _ ih =>
      apply (head pos).bind
      intro clean
      rw [Behaviour.choose]
      cases done : (first pos).register with
      | ok d =>
          rw [Outcome.result_ok done]
          exact .pure (Outcome.result_ok done) clean
      | error e =>
          rw [Outcome.result_error done]
          apply (ih attained).of_same (Outcome.result_after _ _)
          intro cleanRest
          exact unrefused_append.mpr ⟨cleanRest, clean⟩

/-- What the rounds of a repetition come to, if `collected` holds the data before them. -/
theorem loop_attained {body : Behaviour input} {eval : Nat → Evaluation Result}
    (attained : AttainedAt eval body) {turns most pos : Nat} {collected values : List Datum}
    {stop : Nat} {entered entered' : Entered} (many : Behaviour.rounds input pos ≤ most)
    (done : Evaluation.repeated eval turns pos entered = some ((values, stop), entered')) :
    Unrefused (Behaviour.loop body most collected pos).events ∧
      (Behaviour.loop body most collected pos).register =
        .ok (.list (collected.reverse ++ values)) ∧
      (Behaviour.loop body most collected pos).cursor = stop := by
  induction turns generalizing most pos collected values stop entered entered' with
  | zero => nomatch done
  | succ turns ih =>
      -- The evaluator counts turns and the behaviour rounds; there are always enough of both.
      obtain ⟨most, rfl⟩ : ∃ k, most = k + 1 := ⟨most - 1, by simp [Behaviour.rounds] at many; omega⟩
      obtain ⟨mid, between, done, after⟩ := Grammar.Evaluation.bind_eq_some.mp done
      obtain ⟨rfl, clean⟩ := attained pos done
      have within := body.within pos
      rw [Behaviour.loop]
      cases reg : (body pos).register with
      | error e =>
          rw [Outcome.result_error reg] at after
          obtain ⟨same, rfl⟩ := Prod.mk.inj (Option.some.inj after)
          obtain ⟨rfl, rfl⟩ := Prod.mk.inj same
          exact ⟨clean, by simp, rfl⟩
      | ok d =>
          rw [Outcome.result_ok reg] at after
          by_cases moved : pos < (body pos).cursor
          · simp only [moved, if_true] at after ⊢
            have fewer : Behaviour.rounds input (body pos).cursor ≤ most := by
              simp only [Behaviour.rounds, Outcome.Within] at *
              omega
            obtain ⟨⟨others, stop'⟩, last, rest, made⟩ := Grammar.Evaluation.bind_eq_some.mp after
            obtain ⟨cleanRest, ok, ends⟩ := @ih _ _ (d :: collected) _ _ _ _ fewer rest
            obtain ⟨same, rfl⟩ := Prod.mk.inj (Option.some.inj made)
            obtain ⟨rfl, rfl⟩ := Prod.mk.inj same
            rw [Outcome.after_events, Outcome.after_register, Outcome.after_cursor]
            exact ⟨unrefused_append.mpr ⟨cleanRest, clean⟩, by simpa using ok, ends⟩
          · simp only [moved, if_false] at after ⊢
            obtain ⟨same, rfl⟩ := Prod.mk.inj (Option.some.inj after)
            obtain ⟨rfl, rfl⟩ := Prod.mk.inj same
            exact ⟨clean, by simp, rfl⟩

end Lists

/-! ## Forms -/

section Forms

variable {g : Grammar} {input : Array Char} {bound : Nat}

/-- Whatever evaluating an expression comes to with up to so much fuel, a behaviour comes to. -/
def Attains (g : Grammar) (bound : Nat) (r : Ref) (body : Behaviour input) : Prop :=
  ∀ fuel ≤ bound, AttainedAt (g.evaluate input fuel r) body

/-- The same for the form of an expression, which is evaluated with one unit less. -/
def AttainsForm (g : Grammar) (bound : Nat) (r : Ref) (e : Expression) (body : Behaviour input) :
    Prop :=
  ∀ fuel < bound,
    AttainedAt (fun pos => g.evaluateForm input fuel (g.evaluate input fuel) r pos e) body

theorem Attains.lists {refs : List Ref} {parts : List (Behaviour input)}
    (attain : List.Forall₂ (Attains g bound) refs parts) {fuel : Nat} (less : fuel < bound) :
    List.Forall₂ (fun r part => AttainedAt (g.evaluate input fuel r) part) refs parts :=
  attain.imp fun _ _ attains => attains fuel (Nat.le_of_lt less)

theorem scan_attains (t : CharTest) (least label : Nat) (r : Ref) (itemLabel : String) :
    AttainsForm g bound r (.scan t least itemLabel)
      (Behaviour.scan ⟨t, least, label⟩ : Behaviour input) := by
  intro fuel _ pos entered result entered' done
  obtain ⟨⟨values, stop⟩, between, done, made⟩ := Grammar.Evaluation.bind_eq_some.mp done
  have single : AttainedAt (fun pos => return Evaluation.testAt t input pos)
      (Behaviour.test ⟨t, label⟩ : Behaviour input) := by
    intro pos
    exact .pure (test_result _ pos) unrefused_nil
  obtain ⟨-, ok, ends⟩ := @loop_attained input (.test ⟨t, label⟩) _ single _ (input.size - pos + 1)
    _ [] _ _ _ _ (Nat.le_refl _) done
  rw [Behaviour.loop_test ⟨t, label⟩ (Nat.le_refl _)] at ok ends
  obtain rfl : (acceptRun t input (input.size - pos) pos).1 = values := by simpa using ok
  obtain rfl : (acceptRun t input (input.size - pos) pos).2 = stop := ends
  obtain ⟨rfl, -⟩ := Prod.mk.inj (Option.some.inj made)
  exact ⟨scan_result t least label pos, unrefused_nil⟩

variable {refs : List Ref} {parts : List (Behaviour input)}

theorem sequence_attained {eval : Ref → Nat → Evaluation Result}
    (all : List.Forall₂ (fun r part => AttainedAt (eval r) part) refs parts) {f : Combiner}
    {f' : Option Combiner}
    (same : ∀ ds pos, (Behaviour.made f' (.list ds) pos).result = Evaluation.applied (f ds) pos)
    (pos : Nat) :
    Attained (Evaluation.sequence eval refs f pos) (Behaviour.sequence parts f' pos) := by
  intro entered result entered' done
  obtain ⟨made, between, done, after⟩ := Grammar.Evaluation.bind_eq_some.mp done
  obtain ⟨clean, found⟩ := items_attained all done
  rw [Behaviour.sequence_events, Behaviour.sequence_result]
  refine ⟨?_, clean⟩
  cases made with
  | error at' =>
      obtain ⟨e, failed, rfl⟩ := found
      obtain ⟨rfl, -⟩ := Prod.mk.inj (Option.some.inj after)
      rw [Outcome.andThen_error failed, Outcome.result_error failed]
  | ok made =>
      obtain ⟨values, stop⟩ := made
      obtain ⟨ok, rfl⟩ := found
      obtain ⟨rfl, -⟩ := Prod.mk.inj (Option.some.inj after)
      rw [Outcome.andThen_ok ok, Outcome.result_after, List.reverse_nil, List.nil_append, same]

theorem seq_attains (attain : List.Forall₂ (Attains g bound) refs parts) {r a b : Ref}
    (chain : g.sequenceItems g.size r = refs) :
    AttainsForm g bound r (.seq a b) (.sequence parts none) := by
  intro fuel less pos
  simp only [Grammar.evaluateForm, chain]
  exact sequence_attained (Attains.lists attain less) (fun _ _ => rfl) pos

theorem combine_attains (attain : List.Forall₂ (Attains g bound) refs parts) (r : Ref)
    (f : Combiner) :
    AttainsForm g bound r (.combine f refs) (.sequence parts (some f)) := by
  intro fuel less pos
  exact sequence_attained (Attains.lists attain less) (combined_result f) pos

theorem choice_attains {first : Behaviour input}
    (attain : List.Forall₂ (Attains g bound) refs (first :: parts)) {fuel : Nat}
    (less : fuel < bound) (pos : Nat) :
    Attained (Evaluation.choice (g.evaluate input fuel) refs pos)
      (Behaviour.choice first parts pos) := by
  have all := Attains.lists attain less
  cases all with
  | cons head tail => exact (choice_attained head tail pos).orBack pos

section Single

variable {r r' : Ref} {body : Behaviour input}

theorem optional_attains (attains : Attains g bound r' body) (fallback : Datum) :
    AttainsForm g bound r (.optional r' fallback) (.optional body fallback) := by
  intro fuel less pos
  apply (attains fuel (Nat.le_of_lt less) pos).bind
  intro clean
  simp only [Behaviour.optional]
  cases done : (body pos).register with
  | ok d =>
      rw [Outcome.result_ok done]
      exact .pure (Outcome.result_ok done) clean
  | error e =>
      rw [Outcome.result_error done]
      exact .pure rfl clean

theorem many_attains (attains : Attains g bound r' body) (least label : Nat) :
    AttainsForm g bound r (.many r' least) (.many body ⟨least, label⟩) := by
  intro fuel less pos entered result entered' done
  obtain ⟨⟨values, stop⟩, between, done, made⟩ := Grammar.Evaluation.bind_eq_some.mp done
  obtain ⟨clean, ok, rfl⟩ := @loop_attained input body _ (attains fuel (Nat.le_of_lt less)) _ _ _ [] _ _ _ _
    (Nat.le_refl (Behaviour.rounds input pos)) done
  obtain ⟨rfl, -⟩ := Prod.mk.inj (Option.some.inj made)
  rw [Behaviour.many_events]
  rw [List.reverse_nil, List.nil_append] at ok
  exact ⟨many_result ok, clean⟩

theorem transform_attains (attains : Attains g bound r' body) (f : Transform) :
    AttainsForm g bound r (.transform f r') (.transform f body) := by
  intro fuel less pos
  apply (attains fuel (Nat.le_of_lt less) pos).bind
  intro clean
  simp only [Behaviour.transform]
  refine .orBack ?_ pos
  cases done : (body pos).register with
  | error e =>
      rw [Outcome.result_error done, Outcome.andThen_error done]
      exact .pure (Outcome.result_error done) clean
  | ok d =>
      rw [Outcome.result_ok done, Outcome.andThen_ok done]
      refine .pure ?_ (by simpa using clean)
      simp only [Outcome.result, Register.ofResult, Evaluation.applied]
      cases f d <;> rfl

end Single

section Pairs

variable {r a b : Ref} {first second : Behaviour input}

/-- A part, and what follows from a second part behind it. -/
theorem provided_attains (left : Attains g bound a first) (right : Attains g bound b second)
    {decide : Datum → Nat → Result → Result} {next : Datum → Nat → Outcome}
    (decides : Decides second decide next) {fuel : Nat} (less : fuel < bound) (pos : Nat) :
    Attained (Evaluation.provided (g.evaluate input fuel) a b pos decide)
      (((first pos).andThen next).orBack pos) := by
  refine .orBack ((left fuel (Nat.le_of_lt less) pos).bind ?_) pos
  intro clean
  cases done : (first pos).register with
  | error e =>
      rw [Outcome.result_error done, Outcome.andThen_error done]
      exact .pure (Outcome.result_error done) clean
  | ok d =>
      rw [Outcome.result_ok done, Outcome.andThen_ok done]
      obtain ⟨events, result⟩ := decides d (first pos).cursor
      apply (right fuel (Nat.le_of_lt less) _).bind
      intro cleanRight
      refine Attained.pure result ?_
      rw [Outcome.after_events, events]
      exact unrefused_append.mpr ⟨cleanRight, clean⟩

theorem keepLeft_attains (left : Attains g bound a first) (right : Attains g bound b second) :
    AttainsForm g bound r (.keepLeft a b) (.keepLeft first second) := by
  intro fuel less
  exact provided_attains left right (keepLeft_decides second) less

theorem keepRight_attains (left : Attains g bound a first) (right : Attains g bound b second) :
    AttainsForm g bound r (.keepRight a b) (.keepRight first second) := by
  intro fuel less
  exact provided_attains left right (fun _ _ => ⟨rfl, rfl⟩) less

theorem followedBy_attains (left : Attains g bound a first) (right : Attains g bound b second) :
    AttainsForm g bound r (.followedBy a b) (.provided first second Behaviour.demand) := by
  intro fuel less
  exact provided_attains left right (demand_decides second) less

theorem notFollowedBy_attains (left : Attains g bound a first) (right : Attains g bound b second)
    (label : Nat) :
    AttainsForm g bound r (.notFollowedBy a b)
      (.provided first second (Behaviour.forbid input label)) := by
  intro fuel less
  exact provided_attains left right (forbid_decides second label) less

end Pairs

/-! ## Names -/

theorem attains_of_form {r : Ref} {body : Behaviour input}
    (attains : AttainsForm g bound r (g.expression r) body) : Attains g bound r body := by
  intro fuel le pos entered result entered' done
  cases fuel with
  | zero => nomatch done
  | succ fuel =>
      obtain ⟨_, between, -, done⟩ := Grammar.Evaluation.bind_eq_some.mp done
      exact attains fuel (by omega) pos done

theorem announced_attains {r : Ref} {body : Behaviour input} (label : Nat)
    (attains : Attains g bound r body) : Attains g bound r (.announced label body) := by
  intro fuel le pos
  refine (attains fuel le pos).of_same rfl ?_
  intro clean
  exact unrefused_append.mpr ⟨clean, fun l p mem => by simp at mem⟩

end Forms

/-! ## Codes -/

/-- What a subroutine has to attain with fewer calls: whatever the target of its forward
reference comes to. -/
def RoutineAttains (g : Grammar) (bound : Nat) (r : Ref) {input : Array Char}
    (body : Behaviour input) : Prop :=
  ∃ target, g.expression r = .forward (some target) ∧ Attains g bound target body

section Codes

variable {g : Grammar} {input : Array Char} {traced : Bool} {final : List Ref} {bound : Nat}

/-- The code of a form attains what the form comes to, if those of the parts do. -/
theorem attains_of_assembled {env : Surroundings input} {r : Ref} {e : Expression} {c : Code}
    (assembled : g.Assembled (fun r c => Attains g bound r (c input env)) r e c) :
    AttainsForm g bound r e (c input env) := by
  cases assembled with
  | char | oneOf | escaped | test =>
      intro fuel _ pos
      exact .pure (test_result _ pos) unrefused_nil
  | scan => exact scan_attains _ _ _ _ _
  | literal | keyword =>
      intro fuel _ pos
      exact .pure (text_result ..) unrefused_nil
  | finish =>
      intro fuel _ pos
      exact .pure (finish_result ..) unrefused_nil
  | seq items => exact seq_attains (List.forall₂_map_right_iff.mpr items) rfl
  | orElse parts | choice parts =>
      intro fuel less
      exact choice_attains (List.forall₂_map_right_iff.mpr parts) less
  | keepLeft left right => exact keepLeft_attains left right
  | keepRight left right => exact keepRight_attains left right
  | followedBy left right => exact followedBy_attains left right
  | notFollowedBy left right => exact notFollowedBy_attains left right _
  | combine parts => exact combine_attains (List.forall₂_map_right_iff.mpr parts) r _
  | optional inner => exact optional_attains inner _
  | many inner => exact many_attains inner _ _
  | transform inner => exact transform_attains inner _
  | idiom inner =>
      intro fuel less
      exact inner fuel (Nat.le_of_lt less)

open Unfold in
/-- The code of an expression attains what it comes to, and so do those of the subroutines, if
calls do. -/
theorem unfold_attains {env : Surroundings input}
    (calls : ∀ i r, final[i]? = some r → AttainsForm g bound r (g.expression r) (env.call i))
    (height : Nat) (r : Ref) :
    Upholds (fun r c => RoutineAttains g bound r (c input env)) [] final (g.unfold traced height r)
      (fun c => Attains g bound r (c input env)) := by
  apply Grammar.unfold_upholds fun r c => AttainsForm g bound r (g.expression r) (c input env)
  · intro r c assembled
    exact attains_of_assembled assembled
  · intro i r known _
    exact calls i r known
  · intro r t c form _ _ attains
    rw [form]
    have own : AttainsForm g bound r (.forward (some t)) (c input env) := by
      intro fuel less
      exact attains fuel (Nat.le_of_lt less)
    exact ⟨own, t, form, attains⟩
  · intro r name c _ _ attains
    exact announced_attains _ (attains_of_form attains)
  · intro r c _ attains
    exact attains_of_form attains

/-- A call attains whatever its subroutine does. -/
theorem called_attains {eval : Nat → Evaluation Result} {body : Behaviour input} (label : Nat)
    (attained : AttainedAt eval body) : AttainedAt eval (.called label body) := by
  intro pos
  refine (attained pos).of_same (Outcome.result_orBack (body pos) pos) ?_
  intro clean l p mem
  simp only [Behaviour.called, Outcome.orBack_events, List.mem_cons, List.mem_append,
    reduceCtorEq, List.not_mem_nil, false_or, or_false] at mem
  exact clean l p mem

/-- Where so many calls may be nested, calls attain whatever the targets come to with so much
fuel. -/
theorem calls_attain {b : Bytecode} {height : Nat} {root : Ref} {c : Code} {v : Unfolding}
    (unfolds : g.unfold traced height root {} = some (c, v)) (depth i : Nat) (r : Ref)
    (known : v.met[i]? = some r) :
    AttainsForm g depth r (g.expression r) ((b.surroundings v.bodies depth input).call i) := by
  induction depth generalizing i r with
  | zero =>
      intro fuel less
      exact absurd less (Nat.not_lt_zero _)
  | succ depth ih =>
      have routines := (unfold_attains ih height root (List.nil_subset _) unfolds (List.prefix_refl _)).2
      obtain ⟨t, aimed, attains⟩ := routines i r (Nat.zero_le _) known
      rw [aimed]
      intro fuel less
      exact called_attains _ (attains fuel (Nat.le_of_lt_succ less))

/-- An expression comes to just those results that its code comes to, in whatever bytecode, where
enough calls may be nested that none is refused. -/
theorem comes_iff {height : Nat} {root : Ref} {c : Code} {v : Unfolding}
    (unfolds : g.unfold traced height root {} = some (c, v)) (b : Bytecode) (pos : Nat)
    (result : Result) : g.Comes input root pos result ↔
      ∃ depth, Unrefused (c input (b.surroundings v.bodies depth input) pos).events ∧
        (c input (b.surroundings v.bodies depth input) pos).result = result := by
  constructor
  · rintro ⟨entered, fuel, done⟩
    have calls := @calls_attain g input traced b height root c v unfolds fuel
    have attains := (unfold_attains calls height root (List.nil_subset _) unfolds (List.prefix_refl _)).1
    obtain ⟨same, clean⟩ := attains fuel (Nat.le_refl _) pos done
    exact ⟨fuel, clean, same⟩
  · rintro ⟨depth, clean, rfl⟩
    exact (comes_of_settles (code_denotes unfolds depth pos clean) _).mpr rfl

end Codes

end PegMachine
