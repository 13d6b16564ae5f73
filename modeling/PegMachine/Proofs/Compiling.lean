/-
# PegMachine.Proofs.Compiling — which expressions can be compiled

Unless an operand or a table overflows, an expression can be compiled just if no forward
reference that it reaches is open and no choice that it reaches is empty; otherwise the
error names one that is (`compile_ok_iff`). That is so for an expression as it is. If it is
condensed first, empty choices among the alternatives of a choice are not reported: they are
gone before lowering looks for them (`dissolved_choice`). What is reported then are the
vacant choices that are no alternatives (`Grammar.Shows`), and open forward references as
before.
-/
import PegMachine.Proofs.Condensing.Vacancy
import PegMachine.Proofs.Condensing.Visit
import PegMachine.Proofs.Lowering.Blames
import PegMachine.Proofs.Lowering.Sealed

namespace PegMachine.Grammar

set_option autoImplicit false

/-- No forward reference that is reached is open, and no choice is empty; if the expression is
condensed first, no choice is that lowering gets to see. -/
def Intact (g : Grammar) (condense : Bool) (root : Ref) : Prop :=
  g.Avoids (.forward none) root ∧ if condense then ¬ g.Shows root else g.Avoids (.choice []) root

section Compiling

variable {g : Grammar} {options : CompileOptions} {root : Ref} {lowered : Lowered} {e : LoweringError}

/-- A vacant choice reaches an empty one. -/
theorem Vacant.reaches {r : Ref} (vacant : g.Vacant r) : ∃ s, g.Reaches r s ∧ g.expression s = .choice [] := by
  induction vacant with
  | @of_alternatives r refs alternatives all ih =>
      cases form : g.expression r with
      | orElse first second =>
          rw [form] at alternatives
          obtain rfl := Option.some.inj alternatives
          obtain ⟨s, reaches, empty⟩ := ih first (.head _)
          exact ⟨s, .head (by rw [form]; exact .head _) reaches, empty⟩
      | choice own =>
          rw [form] at alternatives
          obtain rfl := Option.some.inj alternatives
          cases own with
          | nil => exact ⟨r, .refl, form⟩
          | cons a rest =>
              obtain ⟨s, reaches, empty⟩ := ih a (.head _)
              exact ⟨s, .head (by rw [form]; exact .head _) reaches, empty⟩
      | _ => rw [form] at alternatives; nomatch alternatives

/-- If no choice that is reached is empty, none is shown. -/
theorem Avoids.not_shows (avoids : g.Avoids (.choice []) root) : ¬ g.Shows root := by
  rintro (vacant | ⟨r, reaches, -, child, mem, vacant⟩)
  · obtain ⟨s, further, empty⟩ := vacant.reaches
    exact avoids s further empty
  · obtain ⟨s, further, empty⟩ := vacant.reaches
    exact avoids s ((reaches.tail mem).trans further) empty

theorem intact_of_avoids (closed : g.Avoids (.forward none) root) (avoids : g.Avoids (.choice []) root)
    (condense : Bool) : g.Intact condense root := by
  refine ⟨closed, ?_⟩
  cases condense with
  | false => exact avoids
  | true => exact avoids.not_shows

/-- What is lowered is well-formed, and intact if and only if the expression is. -/
theorem prepared_intact_iff (wellFormed : g.WellFormed) (inside : root < g.size) :
    (g.prepared options root).1.WellFormed ∧
      (g.prepared options root).2 < (g.prepared options root).1.size ∧
      ((g.prepared options root).1.Intact false (g.prepared options root).2 ↔
        g.Intact options.condense root) := by
  obtain ⟨condense, traced⟩ := options
  cases condense with
  | false => exact ⟨wellFormed, inside, .rfl⟩
  | true =>
      obtain ⟨m, condensation, pair⟩ := condense_condensation wellFormed inside
      exact ⟨condensation.wellFormed, condensation.inside' _ _ pair,
        and_congr (condensation.closed_iff wellFormed pair) (condensation.shows_iff wellFormed pair)⟩

/-- What has been lowered is intact. -/
theorem intact_of_lowered {traced : Bool} (ok : g.lowered traced root = .ok lowered) :
    g.Intact false root := by
  obtain ⟨c, v, unfolds, -⟩ := compiled_of_lowered ok
  have complete (r : Ref) (reaches : g.Reaches root r) :=
    Expression.complete_iff.mp (complete_of_unfold unfolds reaches)
  exact ⟨fun r reaches => (complete r reaches).1, fun r reaches => (complete r reaches).2⟩

/-- Nothing is wrong with what an intact expression reaches. -/
theorem Intact.not_faults (intact : g.Intact false root) {r : Ref} (reaches : g.Reaches root r) :
    ¬ g.Faults r e := by
  intro faults
  cases faults with
  | opened form => exact intact.1 r reaches form
  | empty form => exact intact.2 r reaches form

theorem error_of_compile (failed : g.compile options root = .error e) :
    (g.prepared options root).1.lowered options.traced (g.prepared options root).2 = .error e := by
  obtain ⟨condense, traced⟩ := options
  cases condense with
  | false => exact failed
  | true =>
      rcases bind_eq_error.mp failed with failed | ⟨own, -, failed⟩
      · exact failed
      · nomatch failed

/-- An expression can be compiled if and only if it is intact, as long as nothing overflows. If not,
the error names what is wrong in what was to be lowered. -/
theorem compile_ok_iff (wellFormed : g.WellFormed) (inside : root < g.size)
    (fits : ∀ e, g.compile options root = .error e → e.overflows = false) :
    ((∃ lowered, g.compile options root = .ok lowered) ↔ g.Intact options.condense root) ∧
      ∀ e, g.compile options root = .error e →
        ∃ r, (g.prepared options root).1.Reaches (g.prepared options root).2 r ∧
          (g.prepared options root).1.Faults r e := by
  obtain ⟨wellFormed', inside', intact_iff⟩ := @prepared_intact_iff g options root wellFormed inside
  have blames (e : LoweringError) (failed : g.compile options root = .error e) :
      ∃ r, (g.prepared options root).1.Reaches (g.prepared options root).2 r ∧
        (g.prepared options root).1.Faults r e := by
    rcases lowered_blames wellFormed' inside' (error_of_compile failed) with overflows | faults
    · nomatch (fits e failed).symm.trans overflows
    · exact faults
  refine ⟨⟨?_, ?_⟩, blames⟩
  · rintro ⟨lowered, compiled⟩
    obtain ⟨own, lowers, -⟩ := lowered_of_compile compiled
    exact intact_iff.mp (intact_of_lowered lowers)
  · intro intact
    cases done : g.compile options root with
    | ok lowered => exact ⟨lowered, rfl⟩
    | error e =>
        obtain ⟨r, reaches, faults⟩ := blames e done
        exact absurd faults ((intact_iff.mpr intact).not_faults reaches)

/-- Letters in brackets are compiled, condensed or not, and so they show no empty choice. -/
theorem brackets_intact :
    brackets.1.WellFormed ∧ brackets.2 < brackets.1.size ∧
      (∀ e, brackets.1.compile ⟨true, false⟩ brackets.2 = .error e → e.overflows = false) ∧
      ¬ brackets.1.Shows brackets.2 := by
  obtain ⟨lowered, compiled⟩ := brackets_compiles ⟨true, false⟩
  have fits (e : LoweringError) (failed : brackets.1.compile ⟨true, false⟩ brackets.2 = .error e) :
      e.overflows = false := by
    rw [compiled] at failed
    nomatch failed
  have intact := (compile_ok_iff brackets_wellFormed brackets_inside fits).1.mp ⟨lowered, compiled⟩
  exact ⟨brackets_wellFormed, brackets_inside, fits, intact.2⟩

/-- A choice between nothing and a letter. -/
def hollow : Grammar × Ref :=
  let build : Build Ref := do
    Build.choice [← Build.choice [], ← Build.char 'a']
  let (root, g) := build.run {}
  (g, root)

/-- Condensed, it is compiled although it reaches an empty choice; as it is, that is an error. -/
theorem dissolved_choice :
    (∃ lowered, hollow.1.compile ⟨true, false⟩ hollow.2 = .ok lowered) ∧
      (∃ r, hollow.1.Reaches hollow.2 r ∧ hollow.1.expression r = .choice []) ∧
      hollow.1.compile ⟨false, false⟩ hollow.2 = .error (.emptyChoice "Choice(0)") := by
  refine ⟨exists_of_isOk (by decide +kernel), ⟨0, .single ?_, rfl⟩, ?_⟩
  · exact .head _
  · rfl

end Compiling

end PegMachine.Grammar
