/-
# PegMachine.Proofs.Termination — every parse ends

Hand-written code may loop. Code that an expression was compiled to does not, whatever
the expression: a forward reference that leads back to itself runs out of calls, and a
repetition stops at a round that consumes nothing. That every run has an end is known
from the path it takes (`Compiled.entry_path`), whose length is not bounded by anything
simpler: the cursor goes back, and jumps go both ways.

What is reported on the way makes no difference (`run_same`): two runs of the same
bytecode that report different things execute the same words.
-/
import PegMachine.Proofs.Lowering.Sealed

namespace PegMachine

set_option autoImplicit false

namespace Machine

/-! ## Runs that report differently -/

/-- The same end of two runs, up to what they have reported. -/
inductive Run.Same : Run → Run → Prop
  | ended {register : Register} {cursor : Nat} {events events' : List Event} :
      Same (.ended ⟨register, cursor, events⟩) (.ended ⟨register, cursor, events'⟩)
  | fault {pc : Nat} : Same (.fault pc) (.fault pc)
  | exhausted : Same .exhausted .exhausted

/-- Events never influence a run: not those from before, and not whether words are reported. -/
theorem run_same (b : Bytecode) (input : Array Char) (reportWords reportWords' : Bool)
    (fuel depth stop : Nat) (events events' : List Event) (s : State) :
    (run ⟨b, input, reportWords⟩ fuel depth stop events s).Same
      (run ⟨b, input, reportWords'⟩ fuel depth stop events' s) := by
  -- Both runs do the same words with the same fuel, so they use it up together.
  induction fuel generalizing depth stop events events' s with
  | zero => exact .exhausted
  | succ fuel ih =>
      rw [run, run]
      by_cases left : stop ≤ s.pc
      · rw [if_pos left, if_pos left]
        exact .ended
      · rw [if_neg left, if_neg left]
        cases found : b.code[s.pc]? with
        | none => exact .fault
        | some w =>
            simp only
            cases step b input s w with
            | next next => exact ih ..
            | announce label next => exact ih ..
            | fault => exact .fault
            | call index =>
                simp only
                cases known : b.subroutines[index]? with
                | none => exact .fault
                | some sub =>
                    cases depth with
                    | zero => exact ih ..
                    | succ depth =>
                        -- the subroutine ends in the same way, and so does what follows it
                        simp only
                        generalize inner : run ⟨b, input, reportWords⟩ fuel depth _ _ _ = ran
                        generalize inner' : run ⟨b, input, reportWords'⟩ fuel depth _ _ _ = ran'
                        have same : ran.Same ran' := by
                          rw [← inner, ← inner']
                          exact ih ..
                        cases same with
                        | ended => exact ih ..
                        | fault => exact .fault
                        | exhausted => exact .exhausted

/-- A run that ends does so whatever is reported. -/
theorem ended_of_same {ran ran' : Run} (same : ran.Same ran') {o : Outcome} (ended : ran = .ended o) :
    ∃ o', ran' = .ended o' := by
  subst ended
  cases same
  exact ⟨_, rfl⟩

end Machine

namespace Grammar

open Machine (runRange)

/-- However an expression was compiled, every parse with the bytecode leaves the entry range after
finitely many words, from every position of every input and whatever is reported. More fuel does not
change where it ends. -/
theorem compiled_terminates {g : Grammar} {options : CompileOptions} {root : Ref} {lowered : Lowered}
    (compiled : g.compile options root = .ok lowered) (input : Array Char) (pos : Nat)
    (reportWords : Bool) :
    ∃ fuel o, ∀ more, fuel ≤ more →
      runRange ⟨lowered.bytecode, input, reportWords⟩ more lowered.bytecode.entry pos = .ended o := by
  obtain ⟨c, v, -, runs⟩ := compiled_of_compile compiled
  -- The code is followed to its end by the layout of each form, so there is no measure to go down:
  -- a repetition stops where nothing is consumed, and calls where no more may be nested.
  obtain ⟨fuel, ran⟩ := runs.ends input pos
  obtain ⟨o, ended⟩ := Machine.ended_of_same (Machine.run_same _ input false reportWords ..) ran
  refine ⟨fuel, o, ?_⟩
  intro more le
  rw [runRange, Machine.run_mono _ (by rw [ended]; nofun) le, ended]

/-- A forward reference that leads to itself. -/
def circle : Grammar × Ref :=
  let build : Build Ref := do
    let self ← Build.forward
    Build.close self self
    return self
  let (root, g) := build.run {}
  (g, root)

/-- Even a parse with an expression that is nothing but itself ends, with every word reported. -/
theorem circle_terminates :
    ∃ lowered, circle.1.compile ⟨true, true⟩ circle.2 = .ok lowered ∧
      ∃ fuel o, ∀ more, fuel ≤ more →
        runRange ⟨lowered.bytecode, #['a'], true⟩ more lowered.bytecode.entry 0 = .ended o := by
  obtain ⟨lowered, compiled⟩ : ∃ lowered, circle.1.compile ⟨true, true⟩ circle.2 = .ok lowered :=
    exists_of_isOk (by decide +kernel)
  exact ⟨lowered, compiled, compiled_terminates compiled #['a'] 0 true⟩

end Grammar

end PegMachine
