/-
# PegMachine.Proofs.Machine.Labels — runs only name labels that are there

A diagnostic and an event may name a label by its index. Where the words of a piece of
bytecode and the entries of its tables refer to labels that are there, so does whatever a
run leaves in the register and whatever it reports. One word keeps this (`step_labelled`),
and so a whole run does (`run_labelled`), with the runs of the subroutines it calls.

Nothing else is asked of the bytecode: it may be written by hand, and leave its run without
marks and collections where it needs them.
-/
import PegMachine.Proofs.Lowering.Tables
import PegMachine.Proofs.Machine.Visits

namespace PegMachine

set_option autoImplicit false

/-- The label that a diagnostic names. -/
def Diagnostic.label? : Diagnostic → Option Nat
  | .expected label _ _ => some label
  | .tooFew _ label _ => some label
  | _ => none

/-- The label that an event names. -/
def Machine.Event.label? : Machine.Event → Option Nat
  | .rule label _ => some label
  | .enter label _ => some label
  | .leave label _ _ => some label
  | .refused label _ => some label
  | .word .. => none

/-- If a label is named, it is there. -/
def Tables.Labels (t : Tables) (named : Option Nat) : Prop := ∀ label ∈ named, label < t.labels.size

/-- Words that name a label in their operand, and entries of the tables, name labels that are
there. -/
structure Bytecode.Labelled (b : Bytecode) : Prop where
  entries : b.Sound
  words : ∀ w ∈ b.code, ∀ op, Word.opcode? w = some op → op = .refuse ∨ op = .announce →
    Word.operand w < b.labels.size

namespace Machine

/-- The diagnostic in the register names a label that is there. -/
def Register.Labelled (t : Tables) (register : Register) : Prop :=
  ∀ e, register = .error e → t.Labels e.label?

section Labelled

variable {b : Bytecode} {input : Array Char} {s : State}

theorem labels_none {t : Tables} : t.Labels none := fun _ mem => by cases mem

theorem labels_some {t : Tables} {label : Nat} : t.Labels (some label) ↔ label < t.labels.size := by
  simp [Tables.Labels]

theorem labelled_ok {t : Tables} (d : Datum) : Register.Labelled t (.ok d) := fun _ failed => by cases failed

theorem labelled_error {t : Tables} {e : Diagnostic} (names : t.Labels e.label?) :
    Register.Labelled t (.error e) := by
  rintro e ⟨⟩
  exact names

/-! ## Reading the input -/

theorem readTest_labelled {t : Tables} {entry : TestEntry} (inside : entry.label < t.labels.size)
    (pos : Nat) : Register.Labelled t (readTest entry input pos).1 := by
  rw [readTest]
  split
  · exact labelled_ok _
  · exact labelled_error (labels_some.mpr inside)

/-- A text that breaks off is named by its own characters. -/
theorem mismatch?_label? {anyCase : Bool} {chars : List Char} {pos : Nat} {e : Diagnostic}
    (differs : mismatch? anyCase input pos chars = some e) : e.label? = none := by
  induction chars generalizing pos with
  | nil => cases differs
  | cons c rest ih =>
      rw [mismatch?] at differs
      split at differs
      · cases differs
        rfl
      · split at differs
        · exact ih differs
        · cases differs
          rfl

theorem readLiteral_labelled {t : Tables} (entry : LiteralEntry) (value : Datum) (pos : Nat) :
    Register.Labelled t (readLiteral entry value input pos).1 := by
  rw [readLiteral]
  split
  · rename_i e differs
    refine labelled_error ?_
    rw [mismatch?_label? differs]
    exact labels_none
  · exact labelled_ok _

theorem readRun_labelled {t : Tables} {entry : ScanEntry} (inside : entry.label < t.labels.size)
    (pos : Nat) : Register.Labelled t (readRun entry input pos).1 := by
  simp only [readRun]
  split
  · exact labelled_ok _
  · exact labelled_error (labels_some.mpr inside)

theorem readEnd_labelled {t : Tables} (pos : Nat) : Register.Labelled t (readEnd input pos).1 := by
  rw [readEnd]
  split
  · exact labelled_ok _
  · exact labelled_error labels_none

/-! ## One word -/

/-- What a word comes to names labels that are there. -/
def Step.Labelled (t : Tables) : Step → Prop
  | .next s => s.register.Labelled t
  | .announce label s => label < t.labels.size ∧ s.register.Labelled t
  | .call _ | .fault => True

theorem withEntry_labelled {t : Tables} {α : Type} {table : Array α} {index : Nat} {f : α → State}
    (each : ∀ entry ∈ table, (f entry).register.Labelled t) : (withEntry table index f).Labelled t := by
  rw [withEntry]
  split
  · rename_i entry found
    exact each entry (Array.mem_of_getElem? found)
  · trivial

theorem branch_labelled {w : Word} {taken : Bool} {t : Tables} (before : s.register.Labelled t) :
    (s.branch w taken).register.Labelled t := by
  rw [State.branch]
  split <;> exact before

theorem loop_labelled {w : Word} {t : Tables} (before : s.register.Labelled t) :
    (s.loop w).register.Labelled t := by
  rw [State.loop]
  split
  · exact before
  · exact branch_labelled before

theorem accepted_labelled {t : Tables} (result : Except String Datum) :
    (s.accepted result).Labelled t := by
  cases result with
  | ok d => exact labelled_ok d
  | error message => exact labelled_error labels_none

theorem execute_labelled (labelled : b.Labelled) (before : s.register.Labelled b.toTables) {w : Word}
    (mem : w ∈ b.code) {op : Opcode} (known : Word.opcode? w = some op) :
    (execute b input s w op).Labelled b.toTables := by
  cases op with
  | test => exact withEntry_labelled fun entry mem => readTest_labelled (labelled.entries.tests entry mem) _
  | literal | keyword =>
      simp only [execute, stepLiteral]
      split
      · trivial
      · exact withEntry_labelled fun value _ => readLiteral_labelled _ value _
  | scan => exact withEntry_labelled fun entry mem => readRun_labelled (labelled.entries.scans entry mem) _
  | finish => exact readEnd_labelled _
  | jump | jumpIfOk | jumpIfFailed => exact branch_labelled before
  | loop => exact loop_labelled before
  | mark | unmark | rewind | restart | collect | discard => exact before
  | push =>
      simp only [execute, Step.Labelled, State.push]
      split
      · exact labelled_ok _
      · exact before
  | pop =>
      simp only [execute, Step.Labelled, State.pop]
      split <;> exact labelled_ok _
  | gather =>
      apply withEntry_labelled
      intro arity mem
      simp only [State.gather]
      split
      · exact labelled_ok _
      · exact labelled_error (labels_some.mpr (labelled.entries.arities arity mem))
  | transform =>
      simp only [execute]
      split
      · apply withEntry_labelled
        intro f _
        rw [State.transform]
        split
        · exact accepted_labelled _
        · exact before
      · exact before
  | combine =>
      simp only [execute]
      split
      · apply withEntry_labelled
        intro f _
        rw [State.combine]
        split
        · exact accepted_labelled _
        · exact before
      · exact before
  | default =>
      simp only [execute]
      split
      · exact before
      · apply withEntry_labelled
        intro d _
        rw [State.orDefault]
        split
        · exact before
        · exact labelled_ok _
  | refuse => exact labelled_error (labels_some.mpr (labelled.words w mem _ known (.inl rfl)))
  | call => trivial
  | announce => exact ⟨labelled.words w mem _ known (.inr rfl), before⟩

/-- A word names labels that are there, if the register did before. -/
theorem step_labelled (labelled : b.Labelled) (before : s.register.Labelled b.toTables) {w : Word}
    (mem : w ∈ b.code) : (step b input s w).Labelled b.toTables := by
  rw [step]
  split
  · rename_i op known
    exact execute_labelled labelled before mem known
  · exact before

/-! ## Whole runs -/

/-- An outcome names labels that are there, in its register and in what it reports. -/
structure Outcome.Labelled (t : Tables) (o : Outcome) : Prop where
  register : o.register.Labelled t
  events : ∀ event ∈ o.events, t.Labels event.label?

/-- A word that is reported names no label. -/
theorem report_labelled {t : Tables} {m : Setting} {events : List Event} {w : Word}
    (reported : ∀ event ∈ events, t.Labels event.label?) :
    ∀ event ∈ m.report events s w, t.Labels event.label? := by
  rw [Setting.report]
  split
  · exact List.forall_mem_cons.mpr ⟨labels_none, reported⟩
  · exact reported

/-- A run names labels that are there, if what was before it did. -/
theorem run_labelled (labelled : b.Labelled) {reportWords : Bool} {fuel depth stop : Nat}
    {events : List Event} {o : Outcome}
    (ran : run ⟨b, input, reportWords⟩ fuel depth stop events s = .ended o)
    (before : s.register.Labelled b.toTables)
    (reported : ∀ event ∈ events, b.toTables.Labels event.label?) : o.Labelled b.toTables := by
  have finishes := Finishes.of_run ran
  clear ran
  -- The run of a subroutine begins with what was reported before its call.
  induction finishes with
  | left => exact ⟨before, reported⟩
  | @next _ _ _ s _ w _ _ found stepped _ ih =>
      have names : (step b input s w).Labelled b.toTables :=
        step_labelled labelled before (Array.mem_of_getElem? found)
      rw [stepped] at names
      exact ih names (report_labelled reported)
  | @announce _ _ _ _ s _ w _ _ found stepped _ ih =>
      have names : (step b input s w).Labelled b.toTables :=
        step_labelled labelled before (Array.mem_of_getElem? found)
      rw [stepped] at names
      exact ih names.2 (List.forall_mem_cons.mpr ⟨labels_some.mpr names.1, report_labelled reported⟩)
  | refuse _ _ _ known _ ih =>
      have inside := labels_some.mpr (labelled.entries.subroutines _ (Array.mem_of_getElem? known))
      exact ih (labelled_error labels_none)
        (List.forall_mem_cons.mpr ⟨inside, report_labelled reported⟩)
  | call _ _ _ known _ _ ihBody ih =>
      have inside := labels_some.mpr (labelled.entries.subroutines _ (Array.mem_of_getElem? known))
      have within := ihBody (labelled_ok _)
        (List.forall_mem_cons.mpr ⟨inside, report_labelled reported⟩)
      exact ih within.register (List.forall_mem_cons.mpr ⟨inside, within.events⟩)

end Labelled

end Machine

end PegMachine
