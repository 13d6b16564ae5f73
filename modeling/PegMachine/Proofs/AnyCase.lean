/-
# PegMachine.Proofs.AnyCase — texts and characters in any case

A text in any case is lowered as a whole when the grammar is made, and the characters found
are folded one by one when it is matched. The two agree unless the text has a capital I with
a dot, whose lower case is longer, or a capital sigma that ends a word, whose lower case is
final: exactly such a text does not match where it stands itself
(`anyCase_matches_itself_iff`).

A character in any case is tested against the characters of its lower and of its upper case,
one by one. Where both are single characters these are variants of it. Where one is longer,
its characters are accepted just as well, and one of them is no variant: what is accepted are
variants only if neither case is longer (`charAnyCase_variants_iff`).

All of this is so in every grammar, condensed or not, traced or not.
-/
import PegMachine.Proofs.Building
import PegMachine.Proofs.Casing
import PegMachine.Proofs.Leaves

namespace PegMachine

set_option autoImplicit false

open Grammar (CompileOptions Lowered)

/-! ## Texts -/

/-- A text agrees in any case with what its characters fold to. -/
theorem Text.spells_anyCase_iff {found expected : List Char} :
    Text.Spells true found expected ↔ found.map Text.fold = expected := by
  rw [← List.forall₂_eq_eq_eq, List.forall₂_map_left_iff]
  simp only [Text.Spells, Text.agrees, if_true, beq_iff_eq]

section Texts

variable {g : Grammar} {root : Ref} {options : CompileOptions} {lowered : Lowered}
variable {text : String} {value : Datum}

/-- Where the text stands, it is matched just if it is lowered character by character. -/
theorem Grammar.anyCase_occurs_iff
    (form : (g.expression root).text? = some (Text.lowerText text, true, value))
    (compiled : g.compile options root = .ok lowered) {input : Array Char} {pos : Nat}
    {rest : List Char} (stands : input.toList.drop pos = text.toList ++ rest) (d : Datum) :
    lowered.bytecode.Parses input pos (.ok ⟨d, pos + text.length⟩) ↔
      ('İ' ∉ text.toList ∧ ¬ Text.EndsWord [] text.toList) ∧ d = value := by
  rw [parses_text_iff form compiled, ← Text.lowerAfter_eq_map_iff, Text.lowerText,
    String.toList_ofList]
  constructor
  · rintro ⟨found, rest', split, spells, same⟩
    obtain ⟨rfl, ends⟩ := Match.mk.inj same
    have length : text.toList.length = found.length := by
      rw [String.length_toList]
      omega
    obtain ⟨rfl, -⟩ := List.append_inj (stands.symm.trans split) length
    exact ⟨(Text.spells_anyCase_iff.mp spells).symm, rfl⟩
  · rintro ⟨folds, rfl⟩
    exact ⟨text.toList, rest, stands, Text.spells_anyCase_iff.mpr folds.symm, by rw [String.length_toList]⟩

end Texts

/-! ## Characters -/

theorem single_contains_anyCase (c x : Char) :
    (CharClass.single c true).contains x = true ↔ (x = c ∨ x ∈ Text.lower c ++ Text.upper c) := by
  rw [CharClass.single, if_pos rfl, CharClass.contains_ofList, List.contains_iff_mem, List.mem_append,
    List.mem_singleton]
  exact or_comm

section Characters

variable {g : Grammar} {root : Ref} {options : CompileOptions} {lowered : Lowered} {c : Char}

/-- What a character in any case accepts: itself, and the characters of its lower and upper case. -/
theorem Grammar.charAnyCase_parses_iff (form : g.expression root = .char c true)
    (compiled : g.compile options root = .ok lowered) (input : Array Char) (pos : Nat) (m : Match) :
    lowered.bytecode.Parses input pos (.ok m) ↔
      ∃ x, input[pos]? = some x ∧ (x = c ∨ x ∈ Text.lower c ++ Text.upper c) ∧
        m = ⟨.char x, pos + 1⟩ := by
  have single : (g.expression root).charTest? = some (.plain (.single c true)) := by rw [form]; rfl
  rw [parses_class_iff single compiled]
  simp only [single_contains_anyCase]

end Characters

/-! ## What is built -/

namespace Build

/-- Compile what is put together in a grammar. -/
def compile (make : Build Ref) (g : Grammar) (options : CompileOptions) :
    Except LoweringError Lowered :=
  let (root, g) := make.run g
  g.compile options root

theorem expression_add (e : Expression) (g : Grammar) :
    ((add e).run g).2.expression ((add e).run g).1 = e := by
  show (g.add ⟨e, none⟩).2.expression g.size = e
  rw [Grammar.expression_add, if_pos rfl]

theorem leaf_compiles {e : Expression} (leaf : e.isLeaf = true) (g : Grammar) (options : CompileOptions) :
    ∃ lowered, (add e).compile g options = .ok lowered :=
  Grammar.leaf_compiles ((congrArg Expression.isLeaf (expression_add e g)).trans leaf) options

/-- Where a text stands, the same text in any case matches it, as a literal or as a keyword, just if
the text has no capital I with a dot and no capital sigma that ends a word. -/
theorem anyCase_matches_itself_iff (g : Grammar) (options : CompileOptions) (text : String)
    (value : Datum) :
    ∃ literal keyword : Lowered,
      (literalAnyCase text).compile g options = .ok literal ∧
      (keywordAnyCase text value).compile g options = .ok keyword ∧
      ∀ (input : Array Char) (pos : Nat) (rest : List Char),
        input.toList.drop pos = text.toList ++ rest → ∀ d : Datum,
          (literal.bytecode.Parses input pos (.ok ⟨d, pos + text.length⟩) ↔
            ('İ' ∉ text.toList ∧ ¬ Text.EndsWord [] text.toList) ∧ d = .text (Text.lowerText text)) ∧
          (keyword.bytecode.Parses input pos (.ok ⟨d, pos + text.length⟩) ↔
            ('İ' ∉ text.toList ∧ ¬ Text.EndsWord [] text.toList) ∧ d = value) := by
  have isLiteral := expression_add (.literal (Text.lowerText text) true) g
  have isKeyword := expression_add (.keyword (Text.lowerText text) value true) g
  obtain ⟨literal, compiled⟩ := leaf_compiles (e := .literal (Text.lowerText text) true) rfl g options
  obtain ⟨keyword, compiled'⟩ :=
    leaf_compiles (e := .keyword (Text.lowerText text) value true) rfl g options
  refine ⟨literal, keyword, compiled, compiled', ?_⟩
  intro input pos rest stands d
  exact ⟨Grammar.anyCase_occurs_iff (congrArg Expression.text? isLiteral) compiled stands d,
    Grammar.anyCase_occurs_iff (congrArg Expression.text? isKeyword) compiled' stands d⟩

/-- A capital sigma at the beginning of a word is found, and yielded as a small one. -/
theorem initial_sigma_matched :
    ∃ literal, (literalAnyCase "ΣΑ").compile {} ⟨true, false⟩ = .ok literal ∧
      literal.bytecode.Parses #['x', 'Σ', 'Α'] 1 (.ok ⟨.text "σα", 3⟩) := by
  obtain ⟨literal, _, compiled, -, occurs⟩ :=
    anyCase_matches_itself_iff {} ⟨true, false⟩ "ΣΑ" .null
  have stands : #['x', 'Σ', 'Α'].toList.drop 1 = "ΣΑ".toList ++ [] := by decide
  refine ⟨literal, compiled, (occurs _ 1 [] stands (.text "σα")).1.mpr ⟨⟨?_, ?_⟩, ?_⟩⟩
  · decide
  · decide
  · exact congrArg Datum.text (by decide)

/-- At the end of a word it is not found: the text is kept with a final sigma, and the input is
folded to one that is not. -/
theorem final_sigma_missed :
    ∃ literal, (literalAnyCase "ΑΣ").compile {} ⟨true, false⟩ = .ok literal ∧
      #['Α', 'Σ'].toList.drop 0 = "ΑΣ".toList ++ [] ∧
        ¬ ∃ d, literal.bytecode.Parses #['Α', 'Σ'] 0 (.ok ⟨d, 2⟩) := by
  obtain ⟨literal, compiled⟩ :=
    leaf_compiles (e := .literal (Text.lowerText "ΑΣ") true) rfl {} ⟨true, false⟩
  have form := congrArg Expression.text? (expression_add (.literal (Text.lowerText "ΑΣ") true) {})
  have stands : #['Α', 'Σ'].toList.drop 0 = "ΑΣ".toList ++ [] := by decide
  refine ⟨literal, compiled, stands, ?_⟩
  rintro ⟨d, parses⟩
  have length : 0 + "ΑΣ".length = 2 := by decide
  rw [← length] at parses
  obtain ⟨⟨-, inner⟩, -⟩ := (Grammar.anyCase_occurs_iff form compiled stands d).mp parses
  exact absurd inner (by decide)

/-- A character in any case accepts itself and the characters of its lower and upper case, and all of
these are variants of it just if neither case is longer. -/
theorem charAnyCase_variants_iff (g : Grammar) (options : CompileOptions) (c : Char) :
    ∃ lowered, (charAnyCase c).compile g options = .ok lowered ∧
      (∀ (input : Array Char) (pos : Nat) (m : Match), lowered.bytecode.Parses input pos (.ok m) ↔
        ∃ x, input[pos]? = some x ∧ (x = c ∨ x ∈ Text.lower c ++ Text.upper c) ∧
          m = ⟨.char x, pos + 1⟩) ∧
      ((∀ (input : Array Char) (pos : Nat) (x : Char) (stop : Nat),
          lowered.bytecode.Parses input pos (.ok ⟨.char x, stop⟩) → Text.Variant c x) ↔
        (Text.lower c).length = 1 ∧ (Text.upper c).length = 1) := by
  have form := expression_add (.char c true) g
  obtain ⟨lowered, compiled⟩ := leaf_compiles (e := .char c true) rfl g options
  have parses := Grammar.charAnyCase_parses_iff form compiled
  refine ⟨lowered, compiled, parses, ?_⟩
  rw [← Text.variants_iff]
  constructor
  · intro variants x mem
    exact variants #[x] 0 x 1 ((parses _ _ _).mpr ⟨x, rfl, .inr mem, rfl⟩)
  · intro variants input pos x stop matched
    obtain ⟨y, -, among, same⟩ := (parses _ _ _).mp matched
    obtain ⟨⟨⟩, -⟩ := Match.mk.inj same
    rcases among with own | mem
    · exact .inl own
    · exact variants x mem

/-- A sharp s in any case accepts a capital S, which is none in any case. -/
theorem sharp_s_accepts_s :
    ∃ lowered, (charAnyCase 'ß').compile {} ⟨true, false⟩ = .ok lowered ∧
      lowered.bytecode.Parses #['S'] 0 (.ok ⟨.char 'S', 1⟩) ∧ ¬ Text.Variant 'ß' 'S' := by
  obtain ⟨lowered, compiled⟩ := leaf_compiles (e := .char 'ß' true) rfl {} ⟨true, false⟩
  refine ⟨lowered, compiled, ?_, by decide⟩
  rw [Grammar.charAnyCase_parses_iff (expression_add (.char 'ß' true) {}) compiled]
  exact ⟨'S', rfl, .inr (by decide), rfl⟩

end Build

end PegMachine
