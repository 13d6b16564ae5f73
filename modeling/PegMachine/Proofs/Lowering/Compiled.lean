/-
# PegMachine.Proofs.Lowering.Compiled — runs of compiled bytecode

Bytecode that was lowered from an expression does what the unfolding of the expression
says, in surroundings where calls do what the unfolded subroutines say
(`Compiled.ends`). Calls may be nested only so deep, which is where the surroundings begin:
with no call left every call is refused, and with one more allowed a call does what its
subroutine does in the surroundings with one less (`Compiled.answers`).

So every parse with compiled bytecode comes to an end, and to which one is a matter of
codes alone.
-/
import PegMachine.Machine.Parse
import PegMachine.Proofs.Grammars
import PegMachine.Proofs.Lowering.Follows

namespace PegMachine

set_option autoImplicit false

open Machine (At Behaviour Code Path Ready Runs Surroundings)

namespace Bytecode

/-- A parse from `pos` comes to this outcome if no more than `limit` calls may be nested. -/
def EndsWithin (b : Bytecode) (limit : Nat) (input : Array Char) (pos : Nat)
    (o : Machine.Outcome) : Prop :=
  ∃ fuel, Machine.run ⟨b, input, false⟩ fuel limit b.entry.stop [] (.begin b.entry.start pos) =
    .ended o

/-- What a subroutine is called. -/
def routineLabel (b : Bytecode) (index : Nat) : Nat :=
  (b.subroutines[index]?.map (·.label)).getD 0

/-- Surroundings in which the subroutines have the given code. -/
def surroundings (b : Bytecode) (bodies : Nat → Code) (depth : Nat) (input : Array Char) :
    Surroundings input :=
  ⟨b.indexOf, Machine.calls input b.indexOf b.routineLabel bodies depth⟩

end Bytecode

/-- The code `c` that bytecode was lowered to, and the codes of its subroutines. -/
structure Compiled (b : Bytecode) (c : Code) (v : Unfolding) : Prop where
  sound : b.Sound
  count : b.subroutines.size = v.met.length
  placed : ∀ index < v.met.length, Placed b b.toTables index (v.bodies index)
  realizes : Realizes b b.entry.stop b.entry.start b.entry.stop c

namespace Compiled

variable {b : Bytecode} {c : Code} {v : Unfolding} {input : Array Char}

/-- A call with no further one allowed is refused. -/
theorem refused_runs {stop pc index : Nat} {sub : Subroutine} (fits : index < Word.operandLimit)
    (known : b.subroutines[index]? = some sub)
    (here : At b stop pc (Word.instruction .call index)) :
    Runs b input 0 stop pc (pc + 1) (.refused sub.label) := by
  intro pos register marks collections
  have ready : Ready b stop ⟨pc, pos, register, marks, collections⟩ _ .call :=
    ⟨here.1, here.2, Word.opcode?_instruction _ _, trivial⟩
  have path := Path.refuse ready (congrArg Machine.Step.call (Word.operand_instruction _ fits)) known
    (.stay : Path b input 0 stop _ [] _)
  exact path

/-- A call does what its subroutine does with one call less allowed. -/
theorem called_runs {stop pc index depth : Nat} {sub : Subroutine} {body : Behaviour input}
    (fits : index < Word.operandLimit) (known : b.subroutines[index]? = some sub)
    (here : At b stop pc (Word.instruction .call index))
    (runs : Runs b input depth sub.range.stop sub.range.start sub.range.stop body) :
    Runs b input (depth + 1) stop pc (pc + 1) (.called sub.label body) := by
  intro pos register marks collections
  have ready : Ready b stop ⟨pc, pos, register, marks, collections⟩ _ .call :=
    ⟨here.1, here.2, Word.opcode?_instruction _ _, trivial⟩
  have path := Path.call ready (congrArg Machine.Step.call (Word.operand_instruction _ fits)) known
    (runs pos (.ok .null) [] []) (Nat.le_refl _) ⟨rfl, rfl⟩
    (.stay : Path b input (depth + 1) stop _ [] _)
  simp only [Behaviour.called]
  cases done : (body pos).register with
  | ok d =>
      rw [done] at path
      rw [Machine.Outcome.orBack_ok done, done]
      exact path
  | error e =>
      rw [done] at path
      rw [Machine.Outcome.orBack_error done, done]
      exact path

/-- Calls do what the surroundings say. -/
theorem answers (compiled : Compiled b c v) (input : Array Char) (depth : Nat) :
    Answers b input depth (b.surroundings v.bodies depth input).call := by
  -- With no calls left a call is refused; otherwise the subroutine runs with one call less.
  induction depth with
  | zero =>
      intro index inside stop pc here
      have known : b.subroutines[index]? = some b.subroutines[index] :=
        Array.getElem?_eq_getElem inside
      have fits := compiled.sound.subroutines_fit
      have runs : Runs b input 0 stop pc (pc + 1) _ := refused_runs (by omega) known here
      simpa only [Bytecode.surroundings, Machine.calls, Bytecode.routineLabel, known,
        Option.map_some, Option.getD_some] using runs
  | succ depth ih =>
      intro index inside stop pc here
      obtain ⟨sub, known, realizes⟩ := compiled.placed index (compiled.count ▸ inside)
      have fits := compiled.sound.subroutines_fit
      have runs := called_runs (by omega) known here (realizes input depth _ ih)
      simpa only [Bytecode.surroundings, Machine.calls, Bytecode.routineLabel, known,
        Option.map_some, Option.getD_some] using runs

/-- The path of a parse from its beginning to the end of the entry range. -/
theorem entry_path (compiled : Compiled b c v) (input : Array Char) (pos depth : Nat) :
    Path b input depth b.entry.stop (.begin b.entry.start pos)
      (c input (b.surroundings v.bodies depth input) pos).events
      ⟨b.entry.stop, (c input (b.surroundings v.bodies depth input) pos).cursor,
        (c input (b.surroundings v.bodies depth input) pos).register, [], []⟩ :=
  compiled.realizes input depth _ (compiled.answers input depth) pos (.ok .null) [] []

/-- Every parse ends as the code says, however many calls may be nested. -/
theorem ends_within (compiled : Compiled b c v) (limit : Nat) (input : Array Char) (pos : Nat) :
    b.EndsWithin limit input pos (c input (b.surroundings v.bodies limit input) pos) :=
  (compiled.entry_path input pos limit).ends (Nat.le_refl _)

theorem ends (compiled : Compiled b c v) (input : Array Char) (pos : Nat) :
    b.Ends input pos (c input (b.surroundings v.bodies callLimit input) pos) :=
  compiled.ends_within callLimit input pos

end Compiled

namespace Grammar

/-- The words of bytecode stand where they are. -/
theorem laid_self {b : Bytecode} {code : Fragment} (same : b.code = code.toArray) :
    Laid b code.length 0 code := by
  suffices ∀ (before rest : Fragment), code = before ++ rest →
      Laid b code.length before.length rest from this [] code rfl
  intro before rest
  induction rest generalizing before with
  | nil => exact fun _ => trivial
  | cons w rest ih =>
      intro split
      refine ⟨⟨by simp [split], by simp [same, split]⟩, ?_⟩
      simpa using ih (before ++ [w]) (by simp [split])

/-- Bytecode that an expression was lowered to is that of its unfolding. -/
theorem compiled_of_lowered {g : Grammar} {traced : Bool} {root : Ref} {lowered : Lowered}
    (ok : g.lowered traced root = .ok lowered) :
    ∃ c v, g.unfold traced g.walkLimit root {} = some (c, v) ∧ Compiled lowered.bytecode c v := by
  obtain ⟨⟨code, s⟩, lowers, ok⟩ := bind_eq_ok.mp ok
  simp only at ok
  split at ok
  · rename_i small
    obtain rfl := Except.ok.inj ok
    obtain ⟨c, v, unfolds, moves, runs⟩ := g.follows_lower traced g.walkLimit root lowers tracks_empty
    have hosts : Hosts { s.tables with code := code.toArray, entry := ⟨0, code.length⟩, traced }
        s.tables := ⟨.refl _, Nat.le_of_lt (by simpa using small)⟩
    obtain ⟨realizes, placed⟩ := runs hosts (laid_self rfl)
    refine ⟨c, v, unfolds, moves.tracks.sound, moves.tracks.count,
      fun index inside => placed index (Nat.zero_le _) inside, ?_⟩
    simpa using realizes
  · nomatch ok

/-- Letters in brackets can be compiled. -/
theorem brackets_compiles (options : CompileOptions) :
    ∃ lowered, brackets.1.compile options brackets.2 = .ok lowered := by
  obtain ⟨condense, traced⟩ := options
  refine exists_of_isOk ?_
  cases condense <;> cases traced <;> decide +kernel

end Grammar

end PegMachine
