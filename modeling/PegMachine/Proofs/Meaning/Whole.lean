/-
# PegMachine.Proofs.Meaning.Whole — a forward reference up to the end of the input

A grammar of nested expressions is one forward reference and the end of the input. The target
stands in the place of the reference, where it costs no call, and any further reference to it is a
call: so as many may be nested within it as calls are allowed. A parse is then told from both
sides, by what the target takes and by what it derives (`whole_parses_iff`).
-/
import PegMachine.Proofs.Meaning.Derives

namespace PegMachine

set_option autoImplicit false

open Machine

variable {g : Grammar} {root sum target finish : Ref} {input : Array Char}

theorem Machine.Code.Announces.match? {c c₀ : Code} (announces : Code.Announces c c₀)
    (env : Surroundings input) (pos : Nat) : (c input env pos).match? = (c₀ input env pos).match? := by
  rcases announces with rfl | ⟨name, rfl⟩
  · rfl
  · rfl

/-- The target of a forward reference that has been met matches what the target derives. -/
theorem entered_derived {traced : Bool} {limit : Nat} {body : Code} {u : Unfolding}
    (isSum : g.expression sum = .forward (some target))
    (entered : g.unfold traced limit target { met := [sum] } = some (body, u)) (b : Bytecode)
    (depth : Nat) :
    Derived g [sum] depth target
      (body input (b.surroundings (u.complete 0 body).bodies depth input)) := by
  have covers := (g.unfold_covers traced u.met limit target (List.nil_subset _) entered
    (List.prefix_refl _)).2
  obtain ⟨rest, same⟩ := (g.grows_unfold _ _ _ entered).met
  have is_sum {r : Ref} (known : u.met[0]? = some r) : r = sum := by
    rw [← same] at known
    exact (Option.some.inj known).symm
  have aimed (i : Nat) (r : Ref) (known : u.met[i]? = some r) :
      ∃ target, g.expression r = .forward (some target) := by
    cases i with
    | zero => exact ⟨target, by rw [is_sum known, isSum]⟩
    | succ i => exact (covers (i + 1) r (by simp) known).imp fun _ => And.left
  -- The first subroutine is the target itself; the others were completed while it was unfolded.
  have calls (i : Nat) (r : Ref) (known : u.met[i]? = some r) :
      Derived g [sum] depth r ((b.surroundings (u.complete 0 body).bodies depth input).call i) := by
    refine calls_derived (v := u.complete 0 body) aimed ?_ depth i r known
    intro depth calls i r known
    have derived := unfold_derived calls limit target (List.Subset.refl _) entered (List.prefix_refl _)
    cases i with
    | zero =>
        refine ⟨target, by rw [is_sum known, isSum], ?_⟩
        simpa [Unfolding.complete] using derived.1
    | succ i => simpa [Unfolding.complete] using derived.2 (i + 1) r (by simp) known
  exact (unfold_derived calls limit target (List.Subset.refl _) entered (List.prefix_refl _)).1

/-- What a call that may be made with one more reads and what its subroutine reads. -/
theorem Reads.of_called {k label : Nat} {r : Ref} {body : Behaviour input}
    (form : g.expression r = .forward (some target))
    (reads : Reads g (k + 1) r (Behaviour.called label body)) : Reads g k target body where
  takes := by
    intro j text rest d pos le takes stands
    rw [← Behaviour.match?_called label body pos]
    exact reads.takes (Nat.succ_le_succ le) (.of form (.forward takes)) stands
  refuses := by
    intro j rest pos le refuses stands
    rw [← Behaviour.match?_called label body pos]
    exact reads.refuses (Nat.succ_le_succ le) (.of form (.forward refuses)) stands

variable (isRoot : g.expression root = .keepLeft sum finish)
variable (isSum : g.expression sum = .forward (some target))
variable (isFinish : g.expression finish = .finish)

include isRoot isSum isFinish in
/-- The target stands in the place of the forward reference, which has been met from then on. -/
theorem unfold_whole {traced : Bool} {height : Nat} {c : Code} {v : Unfolding}
    (unfolds : g.unfold traced height root {} = some (c, v)) :
    ∃ limit body u, g.unfold traced limit target { met := [sum] } = some (body, u) ∧
      v = u.complete 0 body ∧ ∀ (input : Array Char) (env : Surroundings input) (pos : Nat),
        (c input env pos).match? = (Behaviour.keepLeft (body input env) .finish pos).match? := by
  obtain ⟨_, c₀, -, rootForm, whole⟩ := Grammar.unfold_form isRoot unfolds
  obtain ⟨left, u₁, first, parts⟩ := Unfold.bind_eq_some.mp rootForm
  obtain ⟨right, second, rfl⟩ := Unfold.last_eq_some.mp parts
  obtain ⟨limit, body, rfl, sumForm, front⟩ := Grammar.unfold_form isSum first
  have sumForm : Unfold.forward sum (Option.map (g.unfold traced limit) (some target)) {} =
    some (body, u₁) := sumForm
  obtain ⟨t, u, aimed, entered, rfl⟩ := Unfold.forward_eq_some sumForm rfl
  obtain rfl := Option.some.inj aimed
  obtain ⟨_, last, -, finishForm, back⟩ := Grammar.unfold_form isFinish second
  obtain ⟨rfl, rfl⟩ := Unfold.pure_eq_some.mp finishForm
  refine ⟨limit, body, u, entered, rfl, ?_⟩
  intro input env pos
  rw [whole.match?, Code.keepLeft, Behaviour.match?_keepLeft, Behaviour.match?_keepLeft,
    front.match?]
  simp only [back.match?]
  rfl

include isRoot isSum isFinish in
/-- A parse of a whole input matches what the target of the forward reference does, which reads what
the target takes and matches what it derives, with all the calls there may be. -/
theorem whole_parses_iff {options : Grammar.CompileOptions} {lowered : Grammar.Lowered}
    (compiled : g.compile options root = .ok lowered)
    (regular : options.condense = true → g.Regular root) (input : Array Char) (pos : Nat) :
    ∃ body : Behaviour input, Reads g callLimit target body ∧
      Derived g [sum] callLimit target body ∧ ∀ m : Match,
        lowered.bytecode.Parses input pos (.ok m) ↔
          (body pos).match? = some (m.value, m.stop) ∧ input.toList.drop m.stop = [] := by
  obtain ⟨c, v, unfolds, ends⟩ := Grammar.ends_like_code compiled regular
  obtain ⟨limit, body, u, entered, rfl, whole⟩ := unfold_whole isRoot isSum isFinish unfolds
  have first : (u.complete 0 body).met[0]? = some sum := by
    obtain ⟨rest, same⟩ := (g.grows_unfold _ _ _ entered).met
    rw [Unfolding.complete, ← same]
    rfl
  have own : (u.complete 0 body).bodies 0 = body := by simp [Unfolding.complete]
  refine ⟨body input (lowered.bytecode.surroundings (u.complete 0 body).bodies callLimit input),
    ?_, ?_, ?_⟩
  · -- A call with one more allowed does what the body does here.
    have reads : Reads g (callLimit + 1) sum ((lowered.bytecode.surroundings _ _ input).call 0) :=
      calls_read unfolds (callLimit + 1) 0 sum first
    have reads := Reads.of_called isSum reads
    rwa [own] at reads
  · exact entered_derived isSum entered lowered.bytecode callLimit
  · intro m
    obtain ⟨o, ended, alike⟩ := ends callLimit input pos
    rw [parses_iff_match? ended, ← Outcome.match?_congr alike.1, whole, Behaviour.match?_keepLeft,
      Option.bind_eq_some_iff]
    constructor
    · rintro ⟨⟨d, mid⟩, found, matched⟩
      rw [match?_finish rfl] at matched
      split at matched
      · rename_i nothing
        obtain ⟨rfl, rfl⟩ := Prod.mk.inj (Option.some.inj matched)
        exact ⟨found, nothing⟩
      · cases matched
    · rintro ⟨found, nothing⟩
      refine ⟨_, found, ?_⟩
      rw [match?_finish nothing]
      rfl

end PegMachine
