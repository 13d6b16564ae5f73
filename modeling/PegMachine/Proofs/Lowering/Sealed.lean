/-
# PegMachine.Proofs.Lowering.Sealed — compiled bytecode is sealed

Bytecode that an expression was compiled to never makes the machine do without something.
Its operands refer to entries, and these to labels and data that are there; a run of the
entry range or of a subroutine, at whatever depth and from whatever position, has the
mark, the collection or the list that its next word needs, and leaves no mark and no
collection behind (`Bytecode.Sealed`). The jumps of every fragment lead to addresses of
the fragment or just behind it (`Fragment.Closed`).

So whatever a parse with it reports, or fails with, names labels that are there
(`outcome_labelled`).

What words refer to is known from how they were laid out (`Proofs.Lowering.Closed`), and
what they find from the path that a run takes (`Proofs.Lowering.Compiled`).
-/
import PegMachine.Proofs.Grammars
import PegMachine.Proofs.Lowering.Closed
import PegMachine.Proofs.Lowering.Compiled
import PegMachine.Proofs.Machine.Labels
import PegMachine.Proofs.Machine.Visits

namespace PegMachine

set_option autoImplicit false

open Machine (Secure State)

/-- The ranges that are run: that of a parse, and those of the subroutines. -/
def Bytecode.ranges (b : Bytecode) : List CodeRange :=
  b.entry :: b.subroutines.toList.map (·.range)

/-- Bytecode that refers to nothing that is not there. -/
structure Bytecode.Sealed (b : Bytecode) : Prop where
  entries : b.Sound
  words : ∀ w ∈ b.code, ∃ op, Word.opcode? w = some op ∧ b.Has (Word.operand w) op
  runs : ∀ range ∈ b.ranges, ∀ input depth pos, Secure b input depth range pos

/-- The jumps of a fragment that stands at an address lead to addresses of the fragment, or just
behind it. -/
def Fragment.Closed (base : Nat) (fragment : Fragment) : Prop :=
  ∀ i w op, fragment[i]? = some w → Word.opcode? w = some op → op.jumps = true →
    base ≤ Word.target (base + i) w ∧ Word.target (base + i) w ≤ base + fragment.length

namespace Compiled

variable {b : Bytecode} {c : Machine.Code} {v : Unfolding}

theorem secure_entry (compiled : Compiled b c v) (input : Array Char) (depth pos : Nat) :
    Secure b input depth b.entry pos :=
  (compiled.entry_path input pos depth).secures (Nat.le_refl _) ⟨rfl, rfl⟩

theorem secure_subroutine (compiled : Compiled b c v) {sub : Subroutine}
    (mem : sub ∈ b.subroutines) (input : Array Char) (depth pos : Nat) :
    Secure b input depth sub.range pos := by
  obtain ⟨index, inside, rfl⟩ := Array.mem_iff_getElem.mp mem
  obtain ⟨sub, known, realizes⟩ := compiled.placed index (compiled.count ▸ inside)
  obtain rfl := Option.some.inj ((Array.getElem?_eq_getElem inside).symm.trans known)
  have path := realizes input depth _ (compiled.answers input depth) pos (.ok .null) [] []
  exact path.secures (Nat.le_refl _) ⟨rfl, rfl⟩

theorem secure (compiled : Compiled b c v) {range : CodeRange} (mem : range ∈ b.ranges)
    (input : Array Char) (depth pos : Nat) : Secure b input depth range pos := by
  rcases List.mem_cons.mp mem with rfl | mem
  · exact compiled.secure_entry input depth pos
  · obtain ⟨sub, listed, rfl⟩ := List.mem_map.mp mem
    exact compiled.secure_subroutine (Array.mem_def.mpr listed) input depth pos

end Compiled

/-- There is room for words where they stand. -/
theorem Laid.room {b : Bytecode} {stop base : Nat} {code : Fragment} (laid : Laid b stop base code)
    (some : code ≠ []) : base + code.length ≤ stop := by
  induction code generalizing base with
  | nil => exact absurd rfl some
  | cons w rest ih =>
      rw [List.length_cons]
      cases rest with
      | nil => exact laid.1.1
      | cons next rest =>
          have := ih laid.2 (List.cons_ne_nil _ _)
          omega

namespace Grammar

/-- What is lowered if an expression is compiled: the expression or its condensed form. -/
def prepared (g : Grammar) (options : CompileOptions) (root : Ref) : Grammar × Ref :=
  if options.condense then ((g.condense root).grammar, (g.condense root).root) else (g, root)

section Sealed

variable {g : Grammar} {options : CompileOptions} {traced : Bool} {root : Ref} {lowered : Lowered}

theorem lowered_of_compile (compiled : g.compile options root = .ok lowered) :
    ∃ own, (g.prepared options root).1.lowered options.traced (g.prepared options root).2 = .ok own ∧
      own.bytecode = lowered.bytecode := by
  obtain ⟨condense, traced⟩ := options
  cases condense with
  | true =>
      obtain ⟨own, lowers, made⟩ := bind_eq_ok.mp compiled
      obtain rfl := Except.ok.inj made
      exact ⟨own, lowers, rfl⟩
  | false => exact ⟨lowered, compiled, rfl⟩

/-- Bytecode that an expression was compiled to is that of the unfolding of what was lowered. -/
theorem compiled_of_compile (compiled : g.compile options root = .ok lowered) :
    ∃ c v, (g.prepared options root).1.unfold options.traced (g.prepared options root).1.walkLimit
        (g.prepared options root).2 {} = some (c, v) ∧ Compiled lowered.bytecode c v := by
  obtain ⟨own, lowers, same⟩ := lowered_of_compile compiled
  obtain ⟨c, v, unfolds, runs⟩ := compiled_of_lowered lowers
  exact ⟨c, v, unfolds, same ▸ runs⟩

/-- The code is the fragment of the expression, which stands where it was lowered. -/
theorem fragment_of_lowered (lowers : g.lowered traced root = .ok lowered) :
    ∃ fragment s, g.lower traced g.walkLimit root 0 {} = .ok (fragment, s) ∧
      fragment.length < Word.codeLimit ∧ lowered.bytecode.toTables = s.tables ∧
        lowered.bytecode.code = fragment.toArray := by
  obtain ⟨⟨fragment, s⟩, lowersRoot, made⟩ := bind_eq_ok.mp lowers
  simp only at made
  split at made
  · rename_i small
    obtain rfl := Except.ok.inj made
    exact ⟨fragment, s, lowersRoot, small, rfl, rfl⟩
  · nomatch made

theorem sealed_of_lowered (lowers : g.lowered traced root = .ok lowered) :
    lowered.bytecode.Sealed := by
  obtain ⟨c, v, -, compiled⟩ := compiled_of_lowered lowers
  refine ⟨compiled.sound, ?_, fun range mem => compiled.secure mem⟩
  intro w mem
  obtain ⟨fragment, s, lowersRoot, small, tables, code⟩ := fragment_of_lowered lowers
  rw [code, List.mem_toArray] at mem
  obtain ⟨i, inside, rfl⟩ := List.mem_iff_getElem.mp mem
  obtain ⟨-, tight⟩ := g.tidy_lower traced g.walkLimit root lowersRoot
  have fit := (tight s.tables (.refl _) (by omega)).get (List.getElem?_eq_getElem inside)
  obtain ⟨op, known, -, has⟩ := fit
  exact ⟨op, known, tables ▸ has Lowering.consistent_empty⟩

/-- A fragment of an expression that stands at its address is closed. -/
theorem closed_of_laid {b : Bytecode} (small : b.code.size < Word.codeLimit) {height base : Nat}
    {r : Ref} {s s' : Lowering} {fragment : Fragment}
    (lowers : g.lower traced height r base s = .ok (fragment, s'))
    (laid : Laid b b.code.size base fragment) : fragment.Closed base := by
  intro i w op here known jumps
  have some : fragment ≠ [] := by
    rintro rfl
    nomatch here
  obtain ⟨-, tight⟩ := g.tidy_lower traced height r lowers
  have fit := (tight s'.tables (.refl _) (by have := laid.room some; omega)).get here
  obtain ⟨op', known', inside, -⟩ := fit
  obtain rfl := Option.some.inj (known.symm.trans known')
  exact inside jumps

/-- Bytecode that was compiled, with whatever options, is sealed, and every fragment in it that an
expression was lowered to is closed. -/
theorem compiled_sealed (compiled : g.compile options root = .ok lowered) :
    lowered.bytecode.Sealed ∧
      ∀ {height base : Nat} {r : Ref} {s s' : Lowering} {fragment : Fragment},
        (g.prepared options root).1.lower options.traced height r base s = .ok (fragment, s') →
        Laid lowered.bytecode lowered.bytecode.code.size base fragment → fragment.Closed base := by
  obtain ⟨own, lowers, same⟩ := lowered_of_compile compiled
  obtain ⟨fragment, s, -, small, -, code⟩ := fragment_of_lowered lowers
  have small : lowered.bytecode.code.size < Word.codeLimit := by
    rw [← same, code, List.size_toArray]
    exact small
  exact ⟨same ▸ sealed_of_lowered lowers, fun lowersPart laid => closed_of_laid small lowersPart laid⟩

/-- Condensed and announced, letters in brackets are compiled to such bytecode, which is all one
fragment. -/
theorem brackets_sealed :
    ∃ lowered fragment s, brackets.1.compile ⟨true, true⟩ brackets.2 = .ok lowered ∧
      lowered.bytecode.Sealed ∧ (brackets.1.prepared ⟨true, true⟩ brackets.2).1.lower true
        (brackets.1.prepared ⟨true, true⟩ brackets.2).1.walkLimit
        (brackets.1.prepared ⟨true, true⟩ brackets.2).2 0 {} = .ok (fragment, s) ∧
      Laid lowered.bytecode lowered.bytecode.code.size 0 fragment ∧ fragment.Closed 0 := by
  obtain ⟨lowered, compiled⟩ := brackets_compiles ⟨true, true⟩
  obtain ⟨isSealed, closed⟩ := compiled_sealed compiled
  obtain ⟨own, lowers, same⟩ := lowered_of_compile compiled
  obtain ⟨fragment, s, lowersRoot, -, -, code⟩ := fragment_of_lowered lowers
  have laid : Laid lowered.bytecode lowered.bytecode.code.size 0 fragment := by
    rw [← same, code, List.size_toArray]
    exact laid_self code
  exact ⟨lowered, fragment, s, compiled, isSealed, lowersRoot, laid, closed lowersRoot laid⟩

/-- Compiled bytecode names labels that are there. -/
theorem labelled_of_compile (compiled : g.compile options root = .ok lowered) :
    lowered.bytecode.Labelled := by
  obtain ⟨isSealed, -⟩ := compiled_sealed compiled
  refine ⟨isSealed.entries, ?_⟩
  intro w mem op known naming
  obtain ⟨op', known', has⟩ := isSealed.words w mem
  obtain rfl := Option.some.inj (known.symm.trans known')
  rcases naming with rfl | rfl <;> exact has

/-- So do the outcomes of its parses. -/
theorem outcome_labelled (compiled : g.compile options root = .ok lowered)
    {input : Array Char} {pos : Nat} {o : Machine.Outcome} (ends : lowered.bytecode.Ends input pos o) :
    o.Labelled lowered.bytecode.toTables := by
  obtain ⟨fuel, ran⟩ := ends
  exact Machine.run_labelled (labelled_of_compile compiled) ran (Machine.labelled_ok _)
    fun _ mem => by cases mem

end Sealed

end Grammar

end PegMachine
