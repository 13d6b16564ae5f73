/-
# PegMachine.Proofs.Failing — where a failed parse leaves the cursor

A parse that fails leaves the cursor where it was started, whatever the expression is put
together from and whether or not it was condensed. There is one exception
(`failed_parse_rewinds`): the expression parsed with is itself a repetition that asks for
more than one item, and found some but too few. There is no mark left to go back to then,
and the cursor stays behind the items found, where the failure is about (`strayed_failure`).

Condensing makes no expression stray that did not (`Condensation.strays`). It helps one
that did if its body comes to a single test, since a run of characters rewinds.
-/
import PegMachine.Proofs.Condensing.Visit
import PegMachine.Proofs.Lowering.Sealed
import PegMachine.Proofs.Meaning.Parsing

namespace PegMachine

set_option autoImplicit false

namespace Grammar

section Straying

variable {g g' : Grammar} {m : Ref → Ref → Prop} {options : CompileOptions} {root : Ref}
variable {lowered : Lowered}

/-- A condensed form that is neither a leaf nor a choice has the form of what it was condensed from. -/
theorem Condensation.maps (condensation : Condensation g g' m) {r r' : Ref} (pair : m r r')
    (compound : (g'.expression r').isLeaf = false) (ordered : (g'.expression r').alternatives? = none) :
    Maps m (g.expression r) (g'.expression r') := by
  cases condensation.condenses r r' pair with
  | same maps => exact maps
  | leaf leaf =>
      have kept := condensation.kept r (condensation.inside r r pair)
      rw [expression, kept] at compound
      exact absurd (leaf.symm.trans compound) (by decide)
  | test _ form | run _ _ _ form | merged _ _ _ _ form =>
      rw [form] at compound
      cases compound
  | choice _ _ _ _ form =>
      rw [form] at ordered
      cases ordered

/-- If a condensed form strays, the expression does. -/
theorem Condensation.strays (condensation : Condensation g g' m) {r r' : Ref} (pair : m r r')
    (strays : g'.Strays r') : g.Strays r := by
  -- The rules for straying follow forms that condensing keeps, so each has its own counterpart.
  induction strays generalizing r with
  | many form greater =>
      have maps := condensation.maps pair (by rw [form]; rfl) (by rw [form]; rfl)
      generalize own : g.expression r = e at maps
      rw [form] at maps
      cases maps
      exact .many own greater
  | idiom form _ ih =>
      have maps := condensation.maps pair (by rw [form]; rfl) (by rw [form]; rfl)
      generalize own : g.expression r = e at maps
      rw [form] at maps
      cases maps with
      | idiom inner => exact .idiom own (ih inner)
  | forward form _ ih =>
      have maps := condensation.maps pair (by rw [form]; rfl) (by rw [form]; rfl)
      generalize own : g.expression r = e at maps
      rw [form] at maps
      cases maps with
      | closed aimed => exact .forward own (ih aimed)

/-- What is lowered strays only if the expression compiled does. -/
theorem strays_of_prepared (regular : options.condense = true → g.WellFormed ∧ root < g.size)
    (strays : (g.prepared options root).1.Strays (g.prepared options root).2) : g.Strays root := by
  obtain ⟨condense, traced⟩ := options
  cases condense with
  | false => exact strays
  | true =>
      obtain ⟨wellFormed, inside⟩ := regular rfl
      obtain ⟨m, condensation, pair⟩ := condense_condensation wellFormed inside
      exact condensation.strays pair strays

/-- A parse that fails leaves the cursor where it was started, unless the expression strays; then it
may be left where the failure is about. -/
theorem failed_parse_rewinds (compiled : g.compile options root = .ok lowered)
    (regular : options.condense = true → g.WellFormed ∧ root < g.size) (input : Array Char)
    (pos : Nat) :
    ∃ v, lowered.bytecode.Parses input pos v ∧
      ∀ f, v = .error f → f.pos = pos ∨ (g.Strays root ∧ f.pos = f.errorPos) := by
  obtain ⟨c, v, unfolds, runs⟩ := compiled_of_compile compiled
  refine ⟨_, ⟨_, runs.ends input pos, rfl⟩, ?_⟩
  intro f failed
  obtain ⟨e, done, rfl⟩ := Machine.Outcome.verdict_eq_error.mp failed
  -- The code is that of the condensed expression: what strays there has to stray before as well.
  rcases code_rewindsUnless unfolds lowered.bytecode callLimit pos e done with back | ⟨strays, there⟩
  · exact .inl back
  · exact .inr ⟨strays_of_prepared regular strays, there⟩

/-- Letters in brackets that are not closed: the cursor is left where the parse was started. -/
theorem brackets_failed :
    ∃ lowered, brackets.1.compile ⟨true, false⟩ brackets.2 = .ok lowered ∧
      brackets.1.WellFormed ∧ brackets.2 < brackets.1.size ∧
        ∃ v, lowered.bytecode.Parses #['x', '(', 'y'] 1 v ∧ ∀ f, v = .error f → f.pos = 1 := by
  obtain ⟨lowered, compiled⟩ := brackets_compiles ⟨true, false⟩
  obtain ⟨v, parses, rewinds⟩ :=
    failed_parse_rewinds compiled (fun _ => ⟨brackets_wellFormed, brackets_inside⟩) #['x', '(', 'y'] 1
  refine ⟨lowered, compiled, brackets_wellFormed, brackets_inside, v, parses, ?_⟩
  intro f failed
  exact (rewinds f failed).resolve_right fun ⟨strays, _⟩ => brackets_modest.not_strays strays

/-- A text, at least twice. -/
def twice : Grammar × Ref :=
  let build : Build Ref := do
    Build.add (.many (← Build.literal "ab") 2)
  let (root, g) := build.run {}
  (g, root)

/-- Once is not enough, and the cursor is left behind it. -/
theorem strayed_failure :
    ∃ lowered, twice.1.compile ⟨false, false⟩ twice.2 = .ok lowered ∧
      ∃ f, lowered.bytecode.Parses #['a', 'b'] 0 (.error f) ∧ f.pos = 2 := by
  obtain ⟨lowered, compiled⟩ : ∃ lowered, twice.1.compile ⟨false, false⟩ twice.2 = .ok lowered :=
    exists_of_isOk (by decide +kernel)
  obtain ⟨c, v, -, runs⟩ := compiled_of_compile compiled
  have ends := runs.ends #['a', 'b'] 0
  have evaluated : (twice.1.compile ⟨false, false⟩ twice.2).toOption.any
      (·.bytecode.endsIn #['a', 'b'] 0 100 fun o => !o.register.isOk && o.cursor == 2) = true := by
    decide +kernel
  rw [compiled] at evaluated
  have known := of_endsIn evaluated ends
  rw [Bool.and_eq_true, beq_iff_eq] at known
  generalize c #['a', 'b'] _ 0 = o at ends known
  cases done : o.register with
  | ok d =>
      rw [done] at known
      nomatch known.1
  | error e =>
      have failed : o.verdict lowered.bytecode.toTables = .error _ :=
        Machine.Outcome.verdict_eq_error.mpr ⟨e, done, rfl⟩
      exact ⟨lowered, compiled, _, ⟨o, ends, failed.symm⟩, known.2⟩

end Straying

end Grammar

end PegMachine
