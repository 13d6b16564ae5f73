/-
# PegMachine.Proofs.Condensing.Simulation — condensed forms do the same

An expression and a condensed form of it come to alike codes, if both come to something
(`condensed_simulates`). The proof follows the unfolding of the original expression. Where
the two forms differ, the unfolding of the condensed one is taken back step by step to what
it was made from: folded tests are unfolded one by one again (`merges_unfold`), and
alternatives of dissolved choices as those choices (`dissolves_unfold`).
-/
import PegMachine.Proofs.Condensing.Relation
import PegMachine.Proofs.Lowering.Simulates
import PegMachine.Proofs.Rewinding

namespace PegMachine

set_option autoImplicit false

open Machine (Behaviour Code)
open Machine.Code (Announces Regroups)

namespace Grammar

section Unfolding

variable {g : Grammar} {traced : Bool}

/-! ## Unfolding forms -/

theorem unfold_succ (height : Nat) (r : Ref) :
    g.unfold traced (height + 1) r =
        g.unfoldExpression (g.unfold traced height) r (g.expression r) ∨
      ∃ name, g.unfold traced (height + 1) r = do
        return .announced name
          (← g.unfoldExpression (g.unfold traced height) r (g.expression r)) := by
  simp only [unfold]
  split
  · exact .inr ⟨_, rfl⟩
  · exact .inl rfl

/-- What an expression comes to is what its form comes to, announced or not. -/
theorem unfold_eq_some {height : Nat} {r : Ref} {v v' : Unfolding} {c : Code}
    (done : g.unfold traced (height + 1) r v = some (c, v')) :
    ∃ c₀, g.unfoldExpression (g.unfold traced height) r (g.expression r) v = some (c₀, v') ∧
      Announces c c₀ := by
  rcases @unfold_succ g traced height r with form | ⟨name, form⟩
  · rw [form] at done
    exact ⟨c, done, .inl rfl⟩
  · rw [form] at done
    obtain ⟨c₀, made, rfl⟩ := Unfold.last_eq_some.mp done
    exact ⟨c₀, made, .inr ⟨name, rfl⟩⟩

/-- What the code of an expression is made of, if its form is known. -/
theorem unfold_form {height : Nat} {r : Ref} {e : Expression} {v v' : Unfolding} {c : Code}
    (form : g.expression r = e) (done : g.unfold traced height r v = some (c, v')) :
    ∃ limit c₀, limit + 1 = height ∧
      g.unfoldExpression (g.unfold traced limit) r e v = some (c₀, v') ∧ Announces c c₀ := by
  subst form
  cases height with
  | zero => cases done
  | succ limit =>
      obtain ⟨c₀, made, announces⟩ := unfold_eq_some done
      exact ⟨limit, c₀, rfl, made, announces⟩

theorem unfold_of_form {height : Nat} {r : Ref} {v v' : Unfolding} {c₀ : Code}
    (done : g.unfoldExpression (g.unfold traced height) r (g.expression r) v = some (c₀, v')) :
    ∃ c, g.unfold traced (height + 1) r v = some (c, v') ∧ Announces c c₀ := by
  rcases @unfold_succ g traced height r with form | ⟨name, form⟩
  · exact ⟨c₀, by rw [form, done], .inl rfl⟩
  · refine ⟨.announced name c₀, ?_, .inr ⟨name, rfl⟩⟩
    rw [form]
    exact Unfold.bind_eq_some.mpr ⟨c₀, v', done, rfl⟩

theorem unfoldExpression_of_alternatives {part : Ref → Unfold Code} {r : Ref} {e : Expression}
    {refs : List Ref} (alternatives : e.alternatives? = some refs) :
    g.unfoldExpression part r e = Unfold.choice (refs.map part) := by
  cases e with
  | orElse | choice => cases alternatives; rfl
  | _ => nomatch alternatives

theorem unfoldExpression_of_charTest {part : Ref → Unfold Code} {r : Ref} {e : Expression}
    {t : CharTest} (single : e.charTest? = some t) :
    g.unfoldExpression part r e = return .test t (g.label r) := by
  cases e with
  | char | oneOf | escaped | test => cases single; rfl
  | _ => nomatch single

/-- A test comes to the code of that test, whatever was met before. -/
theorem unfold_test {r : Ref} {t : CharTest} (test : g.expression r = .test t) (height : Nat)
    (v : Unfolding) :
    ∃ c, g.unfold traced (height + 1) r v = some (c, v) ∧ Announces c (.test t (g.label r)) := by
  apply unfold_of_form
  rw [test]
  rfl

/-! ## Back to what was condensed -/

/-- Tests that fold to one can be tried one by one. -/
theorem folds_unfold {refs : List Ref} {t : CharTest} (folds : Folds g refs t) (height : Nat)
    (label : String) (v : Unfolding) :
    ∃ cs, Unfold.parts (refs.map (g.unfold traced (height + 1))) v = some (cs, v) ∧
      Regroups cs [.test t label] := by
  induction folds generalizing label with
  | one test =>
      obtain ⟨c, done, announces⟩ := @unfold_test g traced _ _ test height v
      refine ⟨[c], Unfold.parts_cons.mpr ⟨c, v, [], done, rfl, rfl⟩, ?_⟩
      intro _ env
      exact (announces.behaves env).trans (Behaviour.test_alike _ _ _)
  | @snoc refs s r t _ test merge ih =>
      obtain ⟨c, done, announces⟩ := @unfold_test g traced _ _ test height v
      obtain ⟨cs, front, regroups⟩ := ih label
      refine ⟨cs ++ [c], ?_, ?_⟩
      · rw [List.map_append, Unfold.parts_append]
        exact ⟨cs, [c], v, front, Unfold.parts_cons.mpr ⟨c, v, [], done, rfl, rfl⟩, rfl⟩
      · intro input env
        have last : Regroups [c] [.test t (g.label r)] := fun _ env => announces.behaves env
        exact ((regroups.append last) env).trans (Behaviour.tests_alike merge _ _ _)

/-- Where tests have been folded, the tests themselves can be tried. -/
theorem merges_unfold {refs merged : List Ref} (merges : Merges g refs merged) {height : Nat}
    {v v' : Unfolding} {cs : List Code}
    (done : Unfold.parts (merged.map (g.unfold traced height)) v = some (cs, v')) :
    ∃ ds, Unfold.parts (refs.map (g.unfold traced height)) v = some (ds, v') ∧ Regroups ds cs := by
  induction merges generalizing v cs with
  | nil => exact ⟨cs, done, .refl cs⟩
  | keep _ ih =>
      obtain ⟨c, u, cs, first, rest, rfl⟩ := Unfold.parts_cons.mp done
      obtain ⟨ds, rest', regroups⟩ := ih rest
      exact ⟨c :: ds, Unfold.parts_cons.mpr ⟨c, u, ds, first, rest', rfl⟩,
        (Regroups.refl [c]).append regroups⟩
  | @merge front t r refs merged folds test _ ih =>
      obtain ⟨c, u, cs, first, rest, rfl⟩ := Unfold.parts_cons.mp done
      obtain ⟨ds, rest', regroups⟩ := ih rest
      cases height with
      | zero => nomatch first
      | succ height =>
          obtain ⟨c', again, announces⟩ := @unfold_test g traced _ _ test height v
          obtain ⟨same, rfl⟩ := Prod.mk.inj (Option.some.inj (first.symm.trans again))
          subst same
          obtain ⟨es, tests, folded⟩ := @folds_unfold g traced _ _ folds height (g.label r) u
          refine ⟨es ++ ds, ?_, ?_⟩
          · rw [List.map_append, Unfold.parts_append]
            exact ⟨es, ds, u, tests, rest', rfl⟩
          · have back : Regroups [.test t (g.label r)] [c] :=
              fun _ env => (announces.behaves env).symm
            exact (folded.trans back).append regroups

/-- Where choices have been dissolved, the choices themselves can be tried. -/
theorem dissolves_unfold {refs flat : List Ref} (dissolves : Dissolves g refs flat)
    (some_ : ∀ r ∈ refs, g.expression r ≠ .choice []) {height : Nat} {v v' : Unfolding}
    {cs : List Code} (done : Unfold.parts (flat.map (g.unfold traced height)) v = some (cs, v')) :
    ∃ us ds, List.Forall₂ (fun r u => ∃ height, u = g.unfold traced height r) refs us ∧
      Unfold.parts us v = some (ds, v') ∧ Regroups ds cs := by
  induction dissolves generalizing v cs with
  | nil => exact ⟨[], cs, .nil, done, .refl cs⟩
  | keep _ ih =>
      obtain ⟨c, u, cs, first, rest, rfl⟩ := Unfold.parts_cons.mp done
      obtain ⟨us, ds, all, rest', regroups⟩ := ih (fun r mem => some_ r (.tail _ mem)) rest
      exact ⟨_ :: us, c :: ds, .cons ⟨height, rfl⟩ all,
        Unfold.parts_cons.mpr ⟨c, u, ds, first, rest', rfl⟩, (Regroups.refl [c]).append regroups⟩
  | @dissolve r alternatives refs flat choice _ ih =>
      rw [List.map_append, Unfold.parts_append] at done
      obtain ⟨own, others, u, first, rest, rfl⟩ := done
      obtain ⟨us, ds, all, rest', regroups⟩ := ih (fun r mem => some_ r (.tail _ mem)) rest
      cases own with
      | nil =>
          cases alternatives with
          | nil => exact absurd choice (some_ r (.head _))
          | cons =>
              obtain ⟨_, _, _, _, _, none⟩ := Unfold.parts_cons.mp first
              nomatch none
      | cons d own =>
          obtain ⟨c, made, announces⟩ := @unfold_of_form g traced height r v u (.choice d own) (by
              rw [choice]
              exact Unfold.choice_eq_some.mpr ⟨d, own, first, rfl⟩)
          refine ⟨_ :: us, c :: ds, .cons ⟨height + 1, rfl⟩ all,
            Unfold.parts_cons.mpr ⟨c, u, ds, made, rest', rfl⟩, ?_⟩
          have alone : Regroups [c] (d :: own) := fun _ env =>
            Behaviour.AlikeLists.trans (show Behaviour.AlikeLists [_] [_] from announces.behaves env)
              (Behaviour.choice_alike _ _)
          exact alone.append regroups

end Unfolding

/-! ## Sequences -/

section Condensation

variable {g g' : Grammar} {m : Ref → Ref → Prop} {traced traced' : Bool}

theorem Condensation.kept_expression (condensation : Condensation g g' m) {r : Ref}
    (inside : r < g.size) : g'.expression r = g.expression r := by
  rw [expression, expression, condensation.kept r inside]

/-- The condensed form of a sequence is one. -/
theorem Condensation.seq (condensation : Condensation g g' m) {r r' first second : Ref}
    (pair : m r r') (seq : g.expression r = .seq first second) :
    ∃ first' second', g'.expression r' = .seq first' second' ∧ m first first' ∧ m second second' := by
  cases condensation.condenses r r' pair with
  | test single => rw [seq] at single; nomatch single
  | leaf leaf => rw [seq] at leaf; nomatch leaf
  | same maps =>
      rw [seq] at maps
      generalize same : g'.expression r' = e at maps
      cases maps with
      | seq left right => exact ⟨_, _, rfl, left, right⟩
  | run many => rw [seq] at many; nomatch many
  | choice alternatives => rw [seq] at alternatives; nomatch alternatives
  | merged alternatives => rw [seq] at alternatives; nomatch alternatives

/-- Nothing else has a sequence for a condensed form. -/
theorem Condensation.seq_of_condensed (condensation : Condensation g g' m)
    {r r' first' second' : Ref} (pair : m r r') (seq : g'.expression r' = .seq first' second') :
    ∃ first second, g.expression r = .seq first second := by
  cases condensation.condenses r r' pair with
  | test _ test => rw [seq] at test; nomatch test
  | leaf leaf =>
      rw [← condensation.kept_expression (condensation.inside _ _ pair), seq] at leaf
      nomatch leaf
  | same maps =>
      rw [seq] at maps
      generalize same : g.expression r = e at maps
      cases maps with
      | seq => exact ⟨_, _, rfl⟩
  | run _ _ _ scan => rw [seq] at scan; nomatch scan
  | choice _ _ _ _ choice => rw [seq] at choice; nomatch choice
  | merged _ _ _ _ test => rw [seq] at test; nomatch test

theorem Condensation.sequenceItems (condensation : Condensation g g' m) (limit : Nat) {r r' : Ref}
    (pair : m r r') :
    List.Forall₂ m (g.sequenceItems limit r) (g'.sequenceItems limit r') := by
  induction limit generalizing r r' with
  | zero => exact .cons pair .nil
  | succ limit ih =>
      by_cases nested : ∃ first second, g.expression r = .seq first second
      · obtain ⟨first, second, seq⟩ := nested
        obtain ⟨first', second', seq', left, right⟩ := condensation.seq pair seq
        simp only [Grammar.sequenceItems, seq, seq']
        exact List.rel_append (ih left) (.cons right .nil)
      · have single : g.sequenceItems (limit + 1) r = [r] := by
          rw [Grammar.sequenceItems]
          split
          · exact absurd ⟨_, _, ‹_›⟩ nested
          · rfl
        have single' : g'.sequenceItems (limit + 1) r' = [r'] := by
          rw [Grammar.sequenceItems]
          split
          · exact absurd (condensation.seq_of_condensed pair ‹_›) nested
          · rfl
        rw [single, single']
        exact .cons pair .nil

/-! ## Choices -/

/-- What comes to something has no empty choice for a condensed form. -/
theorem Condensation.choice_nonempty (condensation : Condensation g g' m) {height : Nat}
    {r r' : Ref} {v v' : Unfolding} {c : Code} (pair : m r r')
    (done : g.unfold traced height r v = some (c, v')) : g'.expression r' ≠ .choice [] := by
  induction height generalizing r r' v c v' with
  | zero => nomatch done
  | succ height ih =>
      intro empty
      obtain ⟨c₀, form, -⟩ := unfold_eq_some done
      cases condensation.condenses r r' pair with
      | test _ test => rw [empty] at test; nomatch test
      | leaf leaf =>
          rw [← condensation.kept_expression (condensation.inside _ _ pair), empty] at leaf
          nomatch leaf
      | same maps =>
          rw [empty] at maps
          generalize g.expression r = e at maps
          nomatch maps
      | run _ _ _ scan => rw [empty] at scan; nomatch scan
      | merged _ _ _ _ test => rw [empty] at test; nomatch test
      | @choice _ refs refs' flat merged alternatives condensed dissolves merges choice =>
          obtain rfl : merged = [] := (Expression.choice.inj (empty.symm.trans choice)).symm
          have none : flat = [] := by
            cases merges
            rfl
          rw [unfoldExpression_of_alternatives alternatives] at form
          obtain ⟨first, rest, parts, -⟩ := Unfold.choice_eq_some.mp form
          cases condensed with
          | nil => nomatch parts
          | cons head _ =>
              obtain ⟨u, c, u', part⟩ := Unfold.parts_each parts (.head _)
              subst none
              generalize same : [] = flat at dissolves
              cases dissolves with
              | keep => nomatch same
              | dissolve choice rest =>
                  obtain ⟨rfl, -⟩ := List.append_eq_nil_iff.mp same.symm
                  exact ih head part choice

theorem Condensation.alternatives_nonempty (condensation : Condensation g g' m) {height : Nat}
    {refs refs' : List Ref} (condensed : List.Forall₂ m refs refs') {v v' : Unfolding}
    {cs : List Code} (done : Unfold.parts (refs.map (g.unfold traced height)) v = some (cs, v')) :
    ∀ r' ∈ refs', g'.expression r' ≠ .choice [] := by
  induction condensed generalizing v cs with
  | nil => exact fun _ mem => nomatch mem
  | cons pair _ ih =>
      obtain ⟨c, u, cs', first, rest, -⟩ := Unfold.parts_cons.mp done
      intro r' mem
      cases mem with
      | head => exact condensation.choice_nonempty pair first
      | tail _ mem => exact ih rest r' mem

/-! ## All forms -/

/-- Wherever it is unfolded, a condensed form does what an expression does. -/
def Simulated (g g' : Grammar) (m : Ref → Ref → Prop) (traced' : Bool) (part : Ref → Unfold Code) :
    Prop :=
  ∀ r r', m r r' → ∀ height, Unfold.Simulates Code.Alike (Forwards g m) (part r) (g'.unfold traced' height r')
    Code.Alike

section Forms

variable {part : Ref → Unfold Code}

theorem Simulated.parts (simulated : Simulated g g' m traced' part) (height : Nat)
    {refs refs' : List Ref} (condensed : List.Forall₂ m refs refs') :
    Unfold.Simulates Code.Alike (Forwards g m) (Unfold.parts (refs.map part))
      (Unfold.parts (refs'.map (g'.unfold traced' height))) (List.Forall₂ Code.Alike) := by
  apply Unfold.simulates_parts
  rw [List.forall₂_map_left_iff, List.forall₂_map_right_iff]
  exact condensed.imp fun r r' pair => simulated r r' pair height

/-- A repetition of what has become a test is a run of characters. -/
theorem run_simulates (simulated : Simulated g g' m traced' part) {body inner : Ref}
    (pair : m body inner) {t : CharTest} (test : g'.expression inner = .test t) {least : Nat}
    (modest : least ≤ 1) (label itemLabel : String) :
    Unfold.Simulates Code.Alike (Forwards g m) (return .many (← part body) least label)
      (return .scan t least itemLabel) Code.Alike := by
  intro v w v' w' c c' alike done done'
  obtain ⟨a, rounds, rfl⟩ := Unfold.last_eq_some.mp done
  obtain ⟨rfl, rfl⟩ := Unfold.pure_eq_some.mp done'
  obtain ⟨b, again, announces⟩ := @unfold_test g' traced' _ _ test 0 w
  obtain ⟨alike', single⟩ := simulated body inner pair 1 alike rounds again
  refine ⟨alike', ?_⟩
  intro input env env' calls
  have each := (single env env' calls).trans (announces.behaves env')
  exact (Behaviour.many_alike each least _ (env'.indexOf label)).trans
    (Behaviour.many_alike_scan t modest _ _ _)

/-- A choice, and what has become of its alternatives. -/
theorem alternatives_simulate (simulated : Simulated g g' m traced' part) {refs refs' flat : List Ref}
    (condensed : List.Forall₂ m refs refs') (dissolves : Dissolves g' refs' flat)
    (some_ : ∀ r ∈ refs', g'.expression r ≠ .choice []) (height : Nat) {v w v' w' : Unfolding}
    {cs ds : List Code} (alike : v.Alike Code.Alike (Forwards g m) w)
    (done : Unfold.parts (refs.map part) v = some (cs, v'))
    (done' : Unfold.parts (flat.map (g'.unfold traced' height)) w = some (ds, w')) :
    v'.Alike Code.Alike (Forwards g m) w' ∧ ∃ es, List.Forall₂ Code.Alike cs es ∧ Regroups es ds := by
  obtain ⟨us, es, all, parts, regroups⟩ := dissolves_unfold dissolves some_ done'
  have each : List.Forall₂ (fun u u' => Unfold.Simulates Code.Alike (Forwards g m) u u' Code.Alike)
      (refs.map part) us := by
    rw [List.forall₂_map_left_iff]
    clear dissolves some_ done done' parts regroups
    induction condensed generalizing us with
    | nil => cases all; exact .nil
    | cons pair _ ih =>
        cases all with
        | cons unfolds rest =>
            obtain ⟨height, rfl⟩ := unfolds
            exact .cons (simulated _ _ pair height) (ih _ rest)
  obtain ⟨alike', codes⟩ := Unfold.simulates_parts each alike done parts
  exact ⟨alike', es, codes, regroups⟩

end Forms

theorem Condensation.same_forward (condensation : Condensation g g' m) {r r' s s' : Ref}
    (here : Forwards g m r r') (there : Forwards g m s s') : s = r ↔ s' = r' := by
  constructor
  · rintro rfl
    exact condensation.single s s' r' there.2 there.1 here.1
  · rintro rfl
    exact condensation.apart s r s' there.2 here.2 there.1 here.1

theorem leaf_simulates {part part' : Ref → Unfold Code} {e : Expression} (leaf : e.isLeaf = true)
    (r r' : Ref) :
    Unfold.Simulates Code.Alike (Forwards g m) (g.unfoldExpression part r e) (g'.unfoldExpression part' r' e)
      Code.Alike := by
  cases e with
  | char | oneOf | escaped | test =>
      apply Unfold.simulates_pure
      intro input env env' calls
      exact Behaviour.test_alike _ _ _
  | scan =>
      apply Unfold.simulates_pure
      intro input env env' calls
      exact Behaviour.scan_alike _ _ _ _
  | literal | keyword | finish =>
      apply Unfold.simulates_pure
      intro input env env' calls
      exact .refl _
  | _ => cases leaf

section Compound

variable {height : Nat} {r r' : Ref}

/-- The same form over what the parts have become. -/
theorem maps_simulate (condensation : Condensation g g' m) (wellFormed : g.WellFormed)
    (simulated : Simulated g g' m traced' (g.unfold traced height)) (pair : m r r')
    (maps : Maps m (g.expression r) (g'.expression r')) (height' : Nat) :
    Unfold.Simulates Code.Alike (Forwards g m)
      (g.unfoldExpression (g.unfold traced height) r (g.expression r))
      (g'.unfoldExpression (g'.unfold traced' height') r' (g'.expression r')) Code.Alike := by
  generalize form : g.expression r = e, form' : g'.expression r' = e' at maps
  cases maps with
  | seq =>
      have inside := condensation.inside r r' pair
      have larger := condensation.larger
      have items := condensation.sequenceItems g'.size pair
      rw [sequenceItems_enough wellFormed inside (Nat.lt_of_lt_of_le inside larger) inside] at items
      apply (simulated.parts height' items).last
      intro cs cs' all input env env' calls
      exact Behaviour.sequence_alike (Machine.Code.behaviours_alike all calls) none
  | keepLeft first second =>
      apply (simulated _ _ first height').both (simulated _ _ second height')
      intro c c' d d' left right input env env' calls
      exact Behaviour.keepLeft_alike (left env env' calls) (right env env' calls)
  | keepRight first second =>
      apply (simulated _ _ first height').both (simulated _ _ second height')
      intro c c' d d' left right input env env' calls
      exact Behaviour.keepRight_alike (left env env' calls) (right env env' calls)
  | followedBy first second =>
      apply (simulated _ _ first height').both (simulated _ _ second height')
      intro c c' d d' left right input env env' calls
      exact Behaviour.followedBy_alike (left env env' calls) (right env env' calls)
  | notFollowedBy first second =>
      apply (simulated _ _ first height').both (simulated _ _ second height')
      intro c c' d d' left right input env env' calls
      exact Behaviour.notFollowedBy_alike (left env env' calls) (right env env' calls) _ _
  | combine all =>
      apply (simulated.parts height' all).last
      intro cs cs' all input env env' calls
      exact Behaviour.sequence_alike (Machine.Code.behaviours_alike all calls) _
  | optional inner =>
      apply (simulated _ _ inner height').last
      intro c c' body input env env' calls
      exact Behaviour.optional_alike (body env env' calls) _
  | many inner =>
      apply (simulated _ _ inner height').last
      intro c c' body input env env' calls
      exact Behaviour.many_alike (body env env' calls) _ _ _
  | transform inner =>
      apply (simulated _ _ inner height').last
      intro c c' body input env env' calls
      exact Behaviour.transform_alike (body env env' calls) _
  | idiom inner => exact simulated _ _ inner height'
  | closed aimed =>
      have here : Forwards g m r r' := ⟨pair, by rw [form]; rfl⟩
      exact Unfold.simulates_forward Code.call_alike here (fun _ _ => condensation.same_forward here)
        (simulated _ _ aimed height')
  | opened =>
      have here : Forwards g m r r' := ⟨pair, by rw [form]; rfl⟩
      exact Unfold.simulates_open Code.call_alike here fun _ _ => condensation.same_forward here

/-- A choice from what is left of the alternatives. -/
theorem choice_simulates (condensation : Condensation g g' m)
    (simulated : Simulated g g' m traced' (g.unfold traced height)) {refs refs' flat left : List Ref}
    (condensed : List.Forall₂ m refs refs') (dissolves : Dissolves g' refs' flat)
    (merges : Merges g' flat left) (height' : Nat) :
    Unfold.Simulates Code.Alike (Forwards g m) (Unfold.choice (refs.map (g.unfold traced height)))
      (Unfold.choice (left.map (g'.unfold traced' height'))) Code.Alike := by
  intro v w v' w' c c' alike done done'
  obtain ⟨first, rest, parts, rfl⟩ := Unfold.choice_eq_some.mp done
  obtain ⟨first', rest', parts', rfl⟩ := Unfold.choice_eq_some.mp done'
  obtain ⟨ds, flat, merged⟩ := merges_unfold merges parts'
  have some_ := condensation.alternatives_nonempty condensed parts
  obtain ⟨alike', es, codes, regroups⟩ :=
    alternatives_simulate simulated condensed dissolves some_ height' alike parts flat
  exact ⟨alike', Machine.Code.choice_alike codes (regroups.trans merged)⟩

/-- A single test that all alternatives have been merged to. -/
theorem merged_simulates (condensation : Condensation g g' m)
    (simulated : Simulated g g' m traced' (g.unfold traced height)) {refs refs' flat : List Ref}
    (condensed : List.Forall₂ m refs refs') (dissolves : Dissolves g' refs' flat) {t : CharTest}
    (folds : Folds g' flat t) (label : String) :
    Unfold.Simulates Code.Alike (Forwards g m) (Unfold.choice (refs.map (g.unfold traced height)))
      (return .test t label) Code.Alike := by
  intro v w v' w' c c' alike done done'
  obtain ⟨first, rest, parts, rfl⟩ := Unfold.choice_eq_some.mp done
  obtain ⟨rfl, rfl⟩ := Unfold.pure_eq_some.mp done'
  obtain ⟨ds, flat, merged⟩ := @folds_unfold g' traced' _ _ folds 0 label w
  have some_ := condensation.alternatives_nonempty condensed parts
  obtain ⟨alike', es, codes, regroups⟩ :=
    alternatives_simulate simulated condensed dissolves some_ 1 alike parts flat
  refine ⟨alike', ?_⟩
  intro input env env' calls
  exact (Machine.Code.choice_alike codes (regroups.trans merged) env env' calls).trans
    (Behaviour.choice_alike _ _)

theorem form_simulates (condensation : Condensation g g' m) (wellFormed : g.WellFormed)
    (modest : g.Modest) (simulated : Simulated g g' m traced' (g.unfold traced height))
    (pair : m r r') (height' : Nat) :
    Unfold.Simulates Code.Alike (Forwards g m)
      (g.unfoldExpression (g.unfold traced height) r (g.expression r))
      (g'.unfoldExpression (g'.unfold traced' height') r' (g'.expression r')) Code.Alike := by
  cases condensation.condenses r r' pair with
  | test single test =>
      rw [unfoldExpression_of_charTest single, test]
      apply Unfold.simulates_pure
      intro input env env' calls
      exact Behaviour.test_alike _ _ _
  | leaf leaf =>
      rw [condensation.kept_expression (condensation.inside r r pair)]
      exact leaf_simulates leaf r r
  | same maps => exact maps_simulate condensation wellFormed simulated pair maps height'
  | run many condensed test scan =>
      rw [many, scan]
      exact run_simulates simulated condensed test (modest r _ _ many) _ _
  | choice alternatives condensed dissolves merges choice =>
      rw [unfoldExpression_of_alternatives alternatives, choice]
      exact choice_simulates condensation simulated condensed dissolves merges height'
  | merged alternatives condensed dissolves folds test =>
      rw [unfoldExpression_of_alternatives alternatives, test]
      exact merged_simulates condensation simulated condensed dissolves folds _

end Compound

/-- A condensed form does what an expression does, if both can be unfolded. -/
theorem condensed_simulates (condensation : Condensation g g' m) (wellFormed : g.WellFormed)
    (modest : g.Modest) (height : Nat) :
    Simulated g g' m traced' (g.unfold traced height) := by
  -- The induction is on the height of the expression alone: its condensed form may be unfolded with
  -- any other.
  induction height with
  | zero => exact fun _ _ _ _ _ _ _ _ _ _ _ done => nomatch done
  | succ height ih =>
      intro r r' pair height' v w v' w' c c' alike done done'
      cases height' with
      | zero => nomatch done'
      | succ height' =>
          obtain ⟨c₀, form, announces⟩ := unfold_eq_some done
          obtain ⟨c₀', form', announces'⟩ := unfold_eq_some done'
          obtain ⟨alike', codes⟩ :=
            form_simulates condensation wellFormed modest ih pair height' alike form form'
          exact ⟨alike', announces.alike announces' codes⟩

end Condensation

end Grammar

end PegMachine
