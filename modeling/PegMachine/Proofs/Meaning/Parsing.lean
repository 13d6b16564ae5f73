/-
# PegMachine.Proofs.Meaning.Parsing — a parse finds the meaning of its grammar

Where no call is refused, a parse with bytecode compiled from an expression comes to just
what the expression means: it matches if the expression does, with the same datum and the
same end, and otherwise its failure is about the same position and leaves the cursor
where the parse began (`parses_as_meant`).
-/
import PegMachine.Proofs.Meaning.Denotes
import PegMachine.Proofs.Rewinding

namespace PegMachine

set_option autoImplicit false

open Machine

/-- A verdict tells what an expression means at a position: a match is its match, and a
failure is about the position of its failure, the cursor being back where it was. -/
def Verdict.Tells (v : Verdict) (g : Grammar) (input : Array Char) (r : Ref) (pos : Nat) : Prop :=
  match v with
  | .ok m => ∀ result, g.Comes input r pos result ↔ result = .matched m.value m.stop
  | .error f => f.pos = pos ∧ ∀ result, g.Comes input r pos result ↔ result = .failed f.errorPos

section Parsing

variable {g : Grammar} {traced : Bool} {root : Ref} {lowered : Grammar.Lowered}

/-- Every parse with bytecode that was compiled from an expression as it is ends. Unless a call
was refused, the outcome is what the expression means. -/
theorem ends_as_meant (compiled : g.compile ⟨false, traced⟩ root = .ok lowered)
    (input : Array Char) (pos : Nat) :
    ∃ o, lowered.bytecode.Ends input pos o ∧
      (Unrefused o.events → ∀ result, g.Comes input root pos result ↔ result = o.result) ∧
      (g.Modest → ∀ e, o.register = .error e → o.cursor = pos) := by
  have lowers : g.lowered traced root = .ok lowered := compiled
  obtain ⟨c, v, unfolds, runs⟩ := Grammar.compiled_of_lowered lowers
  refine ⟨_, runs.ends input pos, ?_, ?_⟩
  · intro clean
    exact comes_of_settles (code_denotes unfolds callLimit pos clean)
  · intro modest
    exact code_rewinds modest unfolds lowered.bytecode callLimit pos

/-- A parse tells what the expression means, unless a call was refused. -/
theorem parses_as_meant (compiled : g.compile ⟨false, traced⟩ root = .ok lowered)
    (modest : g.Modest) (input : Array Char) (pos : Nat) :
    ∃ o, lowered.bytecode.Ends input pos o ∧
      (Unrefused o.events → (o.verdict lowered.bytecode.toTables).Tells g input root pos) := by
  obtain ⟨o, ends, meant, rewinds⟩ := ends_as_meant compiled input pos
  refine ⟨o, ends, ?_⟩
  intro clean
  have meant := meant clean
  cases done : o.register with
  | ok d =>
      rw [Outcome.result_ok done] at meant
      simp only [Outcome.verdict, done, Verdict.Tells]
      exact meant
  | error e =>
      rw [Outcome.result_error done] at meant
      simp only [Outcome.verdict, done, Verdict.Tells]
      exact ⟨rewinds modest e done, meant⟩

/-- Whether a parse comes to an end with so much fuel, and to an outcome of some kind. -/
def Bytecode.endsIn (b : Bytecode) (input : Array Char) (pos fuel : Nat) (kind : Outcome → Bool) :
    Bool :=
  match runRange ⟨b, input, false⟩ fuel b.entry pos with
  | .ended o => kind o
  | _ => false

theorem of_endsIn {b : Bytecode} {input : Array Char} {pos fuel : Nat} {kind : Outcome → Bool}
    {o : Outcome} (known : b.endsIn input pos fuel kind = true) (ends : b.Ends input pos o) :
    kind o = true := by
  simp only [Bytecode.endsIn] at known
  split at known
  · rename_i o' ran
    rwa [Bytecode.ends_unique ends ⟨fuel, ran⟩]
  · nomatch known

/-- Letters in brackets are read without a refused call, and so as they are meant. -/
theorem brackets_parsed :
    ∃ lowered, Grammar.brackets.1.compile ⟨false, false⟩ Grammar.brackets.2 = .ok lowered ∧
      ∃ o, lowered.bytecode.Ends #['(', 'y', ')', 'x'] 0 o ∧ Unrefused o.events ∧
        (o.verdict lowered.bytecode.toTables).Tells Grammar.brackets.1 #['(', 'y', ')', 'x']
          Grammar.brackets.2 0 := by
  obtain ⟨lowered, compiled⟩ := Grammar.brackets_compiles ⟨false, false⟩
  obtain ⟨o, ends, tells⟩ :=
    parses_as_meant compiled Grammar.brackets_modest #['(', 'y', ')', 'x'] 0
  have evaluated : (Grammar.brackets.1.compile ⟨false, false⟩ Grammar.brackets.2).toOption.any
      (·.bytecode.endsIn #['(', 'y', ')', 'x'] 0 100 fun o => decide (Unrefused o.events)) =
        true := by decide +kernel
  rw [compiled] at evaluated
  have clean : Unrefused o.events := of_decide_eq_true (of_endsIn evaluated ends)
  exact ⟨lowered, compiled, o, ends, clean, tells clean⟩

end Parsing

end PegMachine
