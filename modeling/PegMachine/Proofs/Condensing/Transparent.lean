/-
# PegMachine.Proofs.Condensing.Transparent — condensing makes no difference

Bytecode compiled from an expression and bytecode compiled from its condensed form come to
the same verdict on every input, from every position: the same datum and end, or failures
about the same position that leave the cursor at the same place
(`condensing_transparent`). That holds where calls are refused, too: the two runs have
calls refused on the same occasions or on none.

Whether rules are announced may differ between the two. What the messages say is not
compared; a condensed test is called after all the tests it was merged from.
-/
import PegMachine.Proofs.Condensing.Completeness
import PegMachine.Proofs.Condensing.Simulation
import PegMachine.Proofs.Condensing.Visit

namespace PegMachine

set_option autoImplicit false

open Machine

/-- The same datum and end, or failures about the same position that leave the cursor at the
same place. -/
def Verdict.Agrees : Verdict → Verdict → Prop
  | .ok m, .ok m' => m.value = m'.value ∧ m.stop = m'.stop
  | .error f, .error f' => f.pos = f'.pos ∧ f.errorPos = f'.errorPos
  | _, _ => False

/-- Alike outcomes that rewind give verdicts that agree. -/
theorem Machine.Outcome.Alike.agrees {o o' : Outcome} (alike : o.Alike o') {pos : Nat}
    (rewinds : ∀ e, o.register = .error e → o.cursor = pos)
    (rewinds' : ∀ e, o'.register = .error e → o'.cursor = pos) (tables tables' : Tables) :
    (o.verdict tables).Agrees (o'.verdict tables') := by
  rcases alike.cases with ⟨d, done, done', cursor⟩ | ⟨e, e', done, done', about⟩
  · simp only [Outcome.verdict, done, done', Verdict.Agrees]
    exact ⟨trivial, cursor⟩
  · simp only [Outcome.verdict, done, done', Verdict.Agrees]
    exact ⟨(rewinds e done).trans (rewinds' e' done').symm, about⟩

namespace Grammar

section Transparent

variable {g : Grammar} {traced traced' : Bool} {root : Ref} {lowered lowered' : Lowered}

/-- Condensing asks for no more repetitions. -/
theorem Condensation.modest {g' : Grammar} {m : Ref → Ref → Prop}
    (condensation : Condensation g g' m) (modest : g.Modest) : g'.Modest := by
  intro r body least many
  obtain ⟨r', body', many'⟩ := condensation.repeats r body least many
  exact modest r' body' least many'

/-- An expression whose condensed form was compiled can be unfolded itself, as long as every choice
has something to choose from. -/
theorem unfolds_of_condensed (wellFormed : g.WellFormed) (inside : root < g.size)
    (condensed : g.compile ⟨true, traced'⟩ root = .ok lowered')
    (some_ : ∀ r, g.Reaches root r → g.expression r ≠ .choice []) :
    ∃ c v, g.unfold traced g.walkLimit root {} = some (c, v) := by
  obtain ⟨m, condensation, pair⟩ := condense_condensation wellFormed inside
  obtain ⟨own, lowers', same⟩ := bind_eq_ok.mp condensed
  obtain ⟨c', v', unfolds', -⟩ := compiled_of_lowered lowers'
  exact condensation.unfolds wellFormed pair unfolds' some_

/-- The code of an expression and that of its condensed form are alike, however many calls may be
nested. For the first the bytecode does not matter. -/
theorem condensed_codes (wellFormed : g.WellFormed) (inside : root < g.size) (modest : g.Modest)
    {c : Code} {v : Unfolding} (unfolds : g.unfold traced g.walkLimit root {} = some (c, v))
    (condensed : g.compile ⟨true, traced'⟩ root = .ok lowered') :
    ∃ c' v', Compiled lowered'.bytecode c' v' ∧
      (∀ (b : Bytecode) (limit : Nat) (input : Array Char),
        (c input (b.surroundings v.bodies limit input)).Alike
          (c' input (lowered'.bytecode.surroundings v'.bodies limit input))) ∧
      ∀ (limit : Nat) (input : Array Char),
        Rewinds (c' input (lowered'.bytecode.surroundings v'.bodies limit input)) := by
  obtain ⟨m, condensation, pair⟩ := condense_condensation wellFormed inside
  obtain ⟨own, lowers', same⟩ := bind_eq_ok.mp condensed
  obtain rfl := Except.ok.inj same
  obtain ⟨c', v', unfolds', runs'⟩ := compiled_of_lowered lowers'
  have start : Unfolding.Alike Machine.Code.Alike (Forwards g m) {} {} := ⟨.nil, fun _ _ _ _ _ => .refl _⟩
  obtain ⟨alike, codes⟩ := condensed_simulates condensation wellFormed modest g.walkLimit root _ pair
    _ start unfolds unfolds'
  refine ⟨c', v', runs', ?_, ?_⟩
  · intro b limit input
    exact codes _ _ (calls_alike _ _ _ _ alike.bodies limit)
  · intro limit input
    exact code_rewinds (condensation.modest modest) unfolds' _ limit

/-- Condensing changes no verdict. -/
theorem condensing_transparent (wellFormed : g.WellFormed) (inside : root < g.size)
    (modest : g.Modest) (plain : g.compile ⟨false, traced⟩ root = .ok lowered)
    (condensed : g.compile ⟨true, traced'⟩ root = .ok lowered') (input : Array Char) (pos : Nat) :
    ∃ v v', lowered.bytecode.Parses input pos v ∧ lowered'.bytecode.Parses input pos v' ∧
      v.Agrees v' := by
  have lowers : g.lowered traced root = .ok lowered := plain
  obtain ⟨c, v, unfolds, runs⟩ := compiled_of_lowered lowers
  obtain ⟨c', v', runs', alike, rewinds'⟩ :=
    condensed_codes wellFormed inside modest unfolds condensed
  have rewinds : Rewinds (c input (lowered.bytecode.surroundings v.bodies callLimit input)) :=
    code_rewinds modest unfolds lowered.bytecode callLimit
  have agrees := (alike lowered.bytecode callLimit input pos).agrees (rewinds pos)
    (rewinds' callLimit input pos) lowered.bytecode.toTables lowered'.bytecode.toTables
  exact ⟨_, _, ⟨_, runs.ends input pos, rfl⟩, ⟨_, runs'.ends input pos, rfl⟩, agrees⟩

/-- Letters in brackets are read alike as they are and condensed. -/
theorem brackets_transparent :
    brackets.1.WellFormed ∧ brackets.1.Modest ∧ ∃ lowered lowered',
      brackets.1.compile ⟨false, true⟩ brackets.2 = .ok lowered ∧
      brackets.1.compile ⟨true, false⟩ brackets.2 = .ok lowered' ∧
      ∃ v v', lowered.bytecode.Parses #['(', 'y', ')', 'x'] 0 v ∧
        lowered'.bytecode.Parses #['(', 'y', ')', 'x'] 0 v' ∧ v.Agrees v' := by
  obtain ⟨lowered, plain⟩ := brackets_compiles ⟨false, true⟩
  obtain ⟨lowered', condensed⟩ := brackets_compiles ⟨true, false⟩
  exact ⟨brackets_wellFormed, brackets_modest, lowered, lowered', plain, condensed,
    condensing_transparent brackets_wellFormed brackets_inside brackets_modest plain condensed _ _⟩

end Transparent

end Grammar

end PegMachine
