/-
# PegMachine.Proofs.Meaning.Limited — what the limit of calls changes

A refused call is a failure like any other, and an option, a repetition, a choice or a
negative condition around it takes it for one. So a parse that is nested too deeply need
not fail; it may match less than the expression does. `chain` is such an expression: of
a text of `n` letters it matches all (`chain_comes`), but a parse with it stops after as
many letters as calls may be nested (`chain_parses`).

A match is right if and only if it does not depend on the limit: the same match is found
where enough calls may be nested that none is refused (`match_meant_iff`). That is so in
particular if none was refused in the parse itself.
-/
import PegMachine.Proofs.Condensing.Transparent
import PegMachine.Proofs.Meaning.Attains
import PegMachine.Proofs.Meaning.Parsing

namespace PegMachine

set_option autoImplicit false

open Machine

namespace Grammar

/-! ## A match that is too short -/

/-- A letter and the same again, or nothing. -/
def chain : Grammar × Ref :=
  let build : Build Ref := do
    let rest ← Build.forward
    Build.close rest (← Build.optional (← Build.keepRight (← Build.char 'a') rest))
    return rest
  let (root, g) := build.run {}
  (g, root)

/-- The code of the chain. -/
def chainCode : Code :=
  .optional (.keepRight (.test (.plain (.single 'a' false)) "Char(a)") (.call 0)) .null

theorem unfold_chain : chain.1.unfold false chain.1.walkLimit chain.2 {} =
    some (chainCode, ({ met := [0] } : Unfolding).complete 0 chainCode) := by
  rfl

/-- A text of `n` letters. -/
def letters (n : Nat) : Array Char := Array.replicate n 'a'

theorem accept?_letter {n pos : Nat} (inside : pos < n) :
    (CharTest.plain (.single 'a' false)).accept? (letters n) pos = some ('a', 1) := by
  have here : (letters n)[pos]? = some 'a' := by simp [letters, inside]
  have member : (CharClass.single 'a' false).contains 'a' = true := by decide
  simp [CharTest.accept?, CharTest.escapeAt?, CharTest.plainAt?, CharTest.plain, here, member]

theorem accept?_end (n : Nat) :
    (CharTest.plain (.single 'a' false)).accept? (letters n) n = none := by
  simp [CharTest.accept?, CharTest.escapeAt?, CharTest.plainAt?, letters]

/-- The chain consumes a letter and calls itself, or matches nothing. -/
theorem chainCode_apply {input : Array Char} (env : Surroundings input) (pos : Nat) :
    chainCode input env pos =
      match (CharTest.plain (.single 'a' false)).accept? input pos with
      | none => ⟨.ok .null, pos, []⟩
      | some (_, width) =>
        match (env.call 0 (pos + width)).register with
        | .ok _ => env.call 0 (pos + width)
        | .error _ => ⟨.ok .null, pos, (env.call 0 (pos + width)).events⟩ := by
  simp only [chainCode, Code.optional, Code.keepRight, Code.test, Code.call, Behaviour.optional,
    Behaviour.keepRight, Behaviour.test, readTest]
  cases (CharTest.plain (.single 'a' false)).accept? input pos with
  | none => rfl
  | some found =>
      obtain ⟨c, width⟩ := found
      cases done : (env.call 0 (pos + width)).register with
      | ok d =>
          simp only [Outcome.andThen, Outcome.orBack, Outcome.after, done, List.append_nil]
          rw [← done]
      | error e => simp only [Outcome.andThen, Outcome.orBack, Outcome.after, done, List.append_nil]

/-- If `depth` more calls may be nested, the chain takes as many letters. -/
theorem chainCode_letters {b : Bytecode} {bodies : Nat → Code} (own : bodies 0 = chainCode)
    (n depth : Nat) {pos : Nat} (inside : pos ≤ n) :
    (chainCode (letters n) (b.surroundings bodies depth (letters n)) pos).register = .ok .null ∧
      (chainCode (letters n) (b.surroundings bodies depth (letters n)) pos).cursor =
        min (pos + depth) n := by
  induction depth generalizing pos with
  | zero =>
      rw [chainCode_apply]
      rcases Nat.lt_or_eq_of_le inside with more | rfl
      · rw [accept?_letter more]
        exact ⟨rfl, (Nat.min_eq_left inside).symm⟩
      · rw [accept?_end]
        exact ⟨rfl, (Nat.min_self _).symm⟩
  | succ depth ih =>
      rw [chainCode_apply]
      rcases Nat.lt_or_eq_of_le inside with more | rfl
      · obtain ⟨done, cursor⟩ := @ih (pos + 1) more
        have call : (b.surroundings bodies (depth + 1) (letters n)).call 0 =
            .called (b.routineLabel 0)
              (chainCode (letters n) (b.surroundings bodies depth (letters n))) := by
          rw [← own]
          rfl
        have back := Outcome.orBack_ok done (pos + 1)
        simp only [accept?_letter more, call, Behaviour.called, back, done]
        exact ⟨trivial, by omega⟩
      · rw [accept?_end]
        exact ⟨rfl, by simp⟩

theorem evaluate_unnamed {g : Grammar} {r : Ref} {e : Expression} (unnamed : g.name r = none)
    (form : g.expression r = e) (input : Array Char) (fuel pos : Nat) :
    g.evaluate input (fuel + 1) r pos =
      g.evaluateForm input fuel (g.evaluate input fuel) r pos e := by
  rw [evaluate, unnamed, form]
  rfl

/-- Evaluating the chain consumes a letter and evaluates it again, or matches nothing. -/
theorem evaluate_chain (input : Array Char) (fuel pos : Nat) :
    chain.1.evaluate input (fuel + 4) chain.2 pos =
      match Evaluation.testAt (.plain (.single 'a' false)) input pos with
      | .failed _ => return .matched .null pos
      | .matched _ stop => do
        match ← chain.1.evaluate input (fuel + 1) chain.2 stop with
        | .matched value stop => return .matched value stop
        | .failed _ => return .matched .null pos := by
  have outer : chain.1.evaluate input (fuel + 4) chain.2 pos = chain.1.evaluate input (fuel + 3) 3 pos :=
    evaluate_unnamed rfl rfl input (fuel + 3) pos
  have option : chain.1.evaluate input (fuel + 3) 3 pos = do
      match ← chain.1.evaluate input (fuel + 2) 2 pos with
      | .matched value stop => return .matched value stop
      | .failed _ => return .matched .null pos :=
    evaluate_unnamed rfl rfl input (fuel + 2) pos
  have both : chain.1.evaluate input (fuel + 2) 2 pos =
      Evaluation.provided (chain.1.evaluate input (fuel + 1)) 1 chain.2 pos fun _ _ result => result :=
    evaluate_unnamed rfl rfl input (fuel + 1) pos
  have letter : chain.1.evaluate input (fuel + 1) 1 pos =
      return Evaluation.testAt (.plain (.single 'a' false)) input pos :=
    evaluate_unnamed rfl rfl input fuel pos
  rw [outer, option, both, Evaluation.provided, letter]
  cases Evaluation.testAt (.plain (.single 'a' false)) input pos with
  | failed p => rfl
  | matched value stop => simp only [pure_bind, bind_assoc]

/-- The chain means all letters. -/
theorem chain_comes {n pos : Nat} (inside : pos ≤ n) :
    chain.1.Comes (letters n) chain.2 pos (.matched .null n) := by
  suffices ∀ left pos, pos + left = n →
      chain.1.evaluate (letters n) (3 * left + 4) chain.2 pos [] = some (.matched .null n, []) from
    ⟨[], _, this (n - pos) pos (by omega)⟩
  intro left
  induction left with
  | zero =>
      rintro pos rfl
      rw [evaluate_chain, Evaluation.testAt, Nat.add_zero, accept?_end]
      rfl
  | succ left ih =>
      intro pos rest
      rw [show 3 * (left + 1) + 4 = 3 * left + 3 + 4 by omega, evaluate_chain, Evaluation.testAt,
        accept?_letter (by omega)]
      exact Evaluation.bind_eq_some.mpr ⟨_, _, ih (pos + 1) (by omega), rfl⟩

/-- A parse with the chain stops after as many letters as calls may be nested. -/
theorem chain_parses {lowered : Lowered}
    (compiled : chain.1.compile ⟨false, false⟩ chain.2 = .ok lowered) (n : Nat) :
    lowered.bytecode.Parses (letters n) 0 (.ok ⟨.null, min callLimit n⟩) := by
  have lowers : chain.1.lowered false chain.2 = .ok lowered := compiled
  obtain ⟨c, v, unfolds, runs⟩ := compiled_of_lowered lowers
  obtain ⟨rfl, rfl⟩ := Prod.mk.inj (Option.some.inj (unfold_chain.symm.trans unfolds))
  have own : (({ met := [0] } : Unfolding).complete 0 chainCode).bodies 0 = chainCode := rfl
  obtain ⟨done, cursor⟩ := @chainCode_letters lowered.bytecode _ own n callLimit 0 (Nat.zero_le n)
  refine ⟨_, runs.ends (letters n) 0, ?_⟩
  rw [Outcome.verdict, done, cursor, Nat.zero_add]

/-- The match is what the chain means as long as there are no more letters than that. -/
theorem chain_right_iff (n : Nat) :
    chain.1.Comes (letters n) chain.2 0 (.matched .null (min callLimit n)) ↔ n ≤ callLimit := by
  obtain ⟨entered, means⟩ := @chain_comes n 0 (Nat.zero_le n)
  constructor
  · rintro ⟨entered', means'⟩
    have stop : min callLimit n = n := (Result.matched.inj (means_unique means' means).1).2
    omega
  · intro few
    rw [Nat.min_eq_right few]
    exact ⟨entered, means⟩

/-- So a parse may match although the expression does not mean that match. -/
theorem refused_match :
    ∃ lowered, chain.1.compile ⟨false, false⟩ chain.2 = .ok lowered ∧
      ∃ m, lowered.bytecode.Parses (letters 1001) 0 (.ok m) ∧
        ¬ chain.1.Comes (letters 1001) chain.2 0 (.matched m.value m.stop) := by
  obtain ⟨lowered, compiled⟩ : ∃ lowered, chain.1.compile ⟨false, false⟩ chain.2 = .ok lowered :=
    exists_of_isOk (by decide +kernel)
  refine ⟨lowered, compiled, _, chain_parses compiled 1001, ?_⟩
  intro comes
  exact absurd ((chain_right_iff 1001).mp comes) (by decide)

/-! ## Which matches are right -/

/-- An expression of a grammar as it is put together: its repetitions ask for one item at most,
and no choice that it reaches has nothing to choose from. -/
structure Regular (g : Grammar) (root : Ref) : Prop where
  wellFormed : g.WellFormed
  inside : root < g.size
  modest : g.Modest
  some_ : ∀ r, g.Reaches root r → g.expression r ≠ .choice []

section Right

variable {g : Grammar} {options : CompileOptions} {root : Ref} {lowered : Lowered}

/-- Whatever an expression was compiled to, and whether or not it was condensed, parses end like
its own code, however many calls may be nested. -/
theorem ends_like_code (compiled : g.compile options root = .ok lowered)
    (regular : options.condense = true → g.Regular root) :
    ∃ c v, g.unfold options.traced g.walkLimit root {} = some (c, v) ∧
      ∀ (limit : Nat) (input : Array Char) (pos : Nat),
        ∃ o, lowered.bytecode.EndsWithin limit input pos o ∧
          (c input (lowered.bytecode.surroundings v.bodies limit input) pos).Alike o := by
  obtain ⟨condense, traced⟩ := options
  cases condense with
  | false =>
      have lowers : g.lowered traced root = .ok lowered := compiled
      obtain ⟨c, v, unfolds, runs⟩ := compiled_of_lowered lowers
      refine ⟨c, v, unfolds, ?_⟩
      intro limit input pos
      exact ⟨_, runs.ends_within limit input pos, .refl _⟩
  | true =>
      obtain ⟨wellFormed, inside, modest, some_⟩ := regular rfl
      obtain ⟨c, v, unfolds⟩ := unfolds_of_condensed wellFormed inside compiled some_
      obtain ⟨c', v', runs', alike, -⟩ :=
        condensed_codes wellFormed inside modest unfolds compiled
      refine ⟨c, v, unfolds, ?_⟩
      intro limit input pos
      exact ⟨_, runs'.ends_within limit input pos, alike lowered.bytecode limit input pos⟩

theorem verdict_eq_ok {o : Outcome} {tables : Tables} {m : Match} :
    o.verdict tables = .ok m ↔ o.result = .matched m.value m.stop := by
  obtain ⟨value, stop⟩ := m
  cases done : o.register with
  | ok d => simp [Outcome.result_ok done, Outcome.verdict, done]
  | error e => simp [Outcome.result_error done, Outcome.verdict, done]

/-- A match is what the expression means if and only if the same match is found with some limit on
nested calls at which none is refused. So it is if none was refused in the parse itself. -/
theorem match_meant_iff (compiled : g.compile options root = .ok lowered)
    (regular : options.condense = true → g.Regular root) (input : Array Char) (pos : Nat) :
    ∃ o, lowered.bytecode.Ends input pos o ∧
      ∀ m, o.verdict lowered.bytecode.toTables = .ok m →
        (g.Comes input root pos (.matched m.value m.stop) ↔
          ∃ limit o', lowered.bytecode.EndsWithin limit input pos o' ∧ Unrefused o'.events ∧
            o'.verdict lowered.bytecode.toTables = .ok m) := by
  obtain ⟨c, v, unfolds, ends⟩ := ends_like_code compiled regular
  obtain ⟨o, ended, -⟩ := ends callLimit input pos
  refine ⟨o, ended, ?_⟩
  intro m _
  rw [comes_iff unfolds lowered.bytecode]
  constructor
  · rintro ⟨limit, clean, same⟩
    obtain ⟨o', ended', alike⟩ := ends limit input pos
    exact ⟨limit, o', ended', alike.2.mp clean, verdict_eq_ok.mpr (alike.1.symm.trans same)⟩
  · rintro ⟨limit, o', ⟨fuel, ran⟩, clean, matched⟩
    obtain ⟨o'', ⟨fuel', ran'⟩, alike⟩ := ends limit input pos
    obtain rfl := run_unique ran' ran
    exact ⟨limit, alike.2.mpr clean, alike.1.trans (verdict_eq_ok.mp matched)⟩

/-- Where every node can be lowered, there is no empty choice. -/
theorem choices_of_complete {g : Grammar}
    (all : ∀ r, r < g.size → (g.expression r).complete = true) (r : Ref) :
    g.expression r ≠ .choice [] := by
  intro empty
  by_cases inside : r < g.size
  · have complete := all r inside
    rw [empty] at complete
    cases complete
  · have missing := expression_missing (Nat.le_of_not_lt inside)
    cases empty.symm.trans missing

theorem brackets_choices (r : Ref) : brackets.1.expression r ≠ .choice [] :=
  choices_of_complete (by decide) r

/-- Condensed, the grammar of letters in brackets matches what it means. -/
theorem brackets_match_meant :
    ∃ lowered, brackets.1.compile ⟨true, false⟩ brackets.2 = .ok lowered ∧
      brackets.1.Regular brackets.2 ∧ ∃ o m, lowered.bytecode.Ends #['(', 'y', ')', 'x'] 0 o ∧
        o.verdict lowered.bytecode.toTables = .ok m ∧
          brackets.1.Comes #['(', 'y', ')', 'x'] brackets.2 0 (.matched m.value m.stop) := by
  obtain ⟨lowered, compiled⟩ := brackets_compiles ⟨true, false⟩
  have regular : brackets.1.Regular brackets.2 :=
    ⟨brackets_wellFormed, brackets_inside, brackets_modest, fun r _ => brackets_choices r⟩
  obtain ⟨o, ends, right⟩ :=
    match_meant_iff compiled (fun _ => regular) #['(', 'y', ')', 'x'] 0
  have evaluated : (brackets.1.compile ⟨true, false⟩ brackets.2).toOption.any
      (·.bytecode.endsIn #['(', 'y', ')', 'x'] 0 100 fun o =>
        decide (Unrefused o.events) && o.register.isOk) = true := by decide +kernel
  rw [compiled] at evaluated
  have known := of_endsIn evaluated ends
  rw [Bool.and_eq_true] at known
  obtain ⟨d, done⟩ := exists_of_isOk known.2
  have matched : o.verdict lowered.bytecode.toTables = .ok ⟨d, o.cursor⟩ := by
    rw [Outcome.verdict, done]
  have clean : Unrefused o.events := of_decide_eq_true known.1
  have means := (right _ matched).mpr ⟨callLimit, o, ends, clean, matched⟩
  exact ⟨lowered, compiled, regular, o, _, ends, matched, means⟩

end Right

end Grammar

end PegMachine
