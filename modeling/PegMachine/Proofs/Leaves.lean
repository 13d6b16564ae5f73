/-
# PegMachine.Proofs.Leaves — expressions that refer to no others

A leaf is lowered to one word, behind one that announces it if it has a name and the
bytecode is traced. So nothing can overflow, and it is compiled whatever else the grammar
holds, which need not even be well-formed (`leaf_compiles`). Condensing changes a leaf only
if it is for a single character, into the test that it comes to (`prepared_leaf`).

What a parse with it matches is then said by the input alone: with an expression for a
single character what its test accepts (`parses_charTest_iff`), with one for a text what
spells the text (`parses_text_iff`).
-/
import PegMachine.Proofs.Condensing.Visit
import PegMachine.Proofs.Lowering.Sealed
import PegMachine.Proofs.Meaning.Whole

namespace PegMachine

set_option autoImplicit false

/-- What an expression for a text is about: the text, whether in any case, and what it yields. -/
def Expression.text? : Expression → Option (String × Bool × Datum)
  | literal text anyCase => some (text, anyCase, .text text)
  | keyword text value anyCase => some (text, anyCase, value)
  | _ => none

/-- A plain test accepts a character of its class, and no more than that. -/
theorem CharTest.accept?_plain_eq_some {chars : CharClass} {input : Array Char} {pos : Nat} {c : Char}
    {width : Nat} : (CharTest.plain chars).accept? input pos = some (c, width) ↔
      input[pos]? = some c ∧ chars.contains c = true ∧ width = 1 := by
  have same : (CharTest.plain chars).chars = chars := rfl
  rw [accept?_plain, plainAt?, same]
  cases input[pos]? with
  | none => simp
  | some found =>
      dsimp only
      by_cases holds : chars.contains found = true
      · rw [if_pos holds]
        constructor
        · rintro ⟨⟩
          exact ⟨rfl, holds, rfl⟩
        · rintro ⟨⟨⟩, -, rfl⟩
          rfl
      · rw [if_neg holds]
        refine iff_of_false (by rintro ⟨⟩) ?_
        rintro ⟨⟨⟩, holds', -⟩
        exact holds holds'

/-! ## Lowering -/

namespace Tables

/-- There is room for one more entry in each table that a leaf refers to. -/
structure Roomy (t : Tables) : Prop where
  tests : t.tests.size < Word.operandLimit
  literals : t.literals.size < Word.operandLimit
  scans : t.scans.size < Word.operandLimit
  values : t.values.size < Word.operandLimit
  labels : t.labels.size < Word.operandLimit

variable {t : Tables}

theorem nextIndex_of_lt {table : TableName} {size : Nat} (room : size < Word.operandLimit) :
    nextIndex table size = .ok size := if_pos room

theorem roomy_empty : Roomy {} := ⟨by decide, by decide, by decide, by decide, by decide⟩

/-- A label changes nothing but the labels, of which there is one more at most. -/
theorem Roomy.internLabel (roomy : t.Roomy) (label : String) :
    ∃ index labels, t.internLabel label = .ok (index, { t with labels }) ∧
      labels.size ≤ t.labels.size + 1 := by
  rw [Tables.internLabel]
  split
  · exact ⟨_, t.labels, rfl, Nat.le_succ _⟩
  · rw [nextIndex_of_lt roomy.labels]
    exact ⟨_, _, rfl, Nat.le_of_eq (Array.size_push _)⟩

theorem Roomy.addTest (roomy : t.Roomy) (test : CharTest) (label : String) :
    ∃ added, t.addTest test label = .ok added := by
  obtain ⟨index, labels, interned, -⟩ := roomy.internLabel label
  exact ⟨_, bind_eq_ok.mpr ⟨_, interned, bind_eq_ok.mpr ⟨_, nextIndex_of_lt roomy.tests, rfl⟩⟩⟩

theorem Roomy.addScan (roomy : t.Roomy) (test : CharTest) (least : Nat) (label : String) :
    ∃ added, t.addScan test least label = .ok added := by
  obtain ⟨index, labels, interned, -⟩ := roomy.internLabel label
  exact ⟨_, bind_eq_ok.mpr ⟨_, interned, bind_eq_ok.mpr ⟨_, nextIndex_of_lt roomy.scans, rfl⟩⟩⟩

theorem Roomy.addLiteral (roomy : t.Roomy) (text : String) (anyCase : Bool) (value : Datum) :
    ∃ added, t.addLiteral text anyCase value = .ok added := by
  have valued : t.addValue value = .ok (t.values.size, { t with values := t.values.push value }) :=
    bind_eq_ok.mpr ⟨_, nextIndex_of_lt roomy.values, rfl⟩
  exact ⟨_, bind_eq_ok.mpr ⟨_, valued, bind_eq_ok.mpr ⟨_, nextIndex_of_lt roomy.literals, rfl⟩⟩⟩

end Tables

namespace Lower

/-- An instruction whose operand is a new entry. -/
theorem entry_lowers {op : Opcode} {add : Tables → Except LoweringError (Nat × Tables)} {s : Lowering}
    (fits : ∃ added, add s.tables = .ok added) :
    ∃ w s', (do return [Word.instruction op (← table add)] : Lower Fragment) s = .ok ([w], s') := by
  obtain ⟨⟨index, t⟩, added⟩ := fits
  exact ⟨_, _, bind_eq_ok.mpr ⟨index, _, table_eq_ok.mpr ⟨t, added, rfl⟩, rfl⟩⟩

end Lower

namespace Grammar

open Machine (Code Surroundings)
open Tables (Roomy roomy_empty)

section Leaves

variable {g : Grammar} {root : Ref} {options : CompileOptions} {lowered : Lowered}

/-- The form of a leaf is lowered to one word. -/
theorem leafForm_lowers {part : Ref → Lower.Part} {r : Ref} {e : Expression} (leaf : e.isLeaf = true)
    (base : Nat) {s : Lowering} (roomy : s.tables.Roomy) :
    ∃ w s', g.lowerExpression part r e base s = .ok ([w], s') := by
  cases e with
  | char | oneOf | escaped | test => exact Lower.entry_lowers (roomy.addTest _ _)
  | scan => exact Lower.entry_lowers (roomy.addScan _ _ _)
  | literal | keyword => exact Lower.entry_lowers (roomy.addLiteral _ _ _)
  | finish => exact ⟨_, s, rfl⟩
  | _ => nomatch leaf

/-- What an expression is lowered to is what its form is lowered to, announced or not. -/
theorem lower_succ (traced : Bool) (height : Nat) (r : Ref) :
    g.lower traced (height + 1) r =
        g.lowerExpression (g.lower traced height) r (g.expression r) ∨
      ∃ name, g.lower traced (height + 1) r =
        Lower.announced name (g.lowerExpression (g.lower traced height) r (g.expression r)) := by
  simp only [lower]
  split
  · exact .inr ⟨_, rfl⟩
  · exact .inl rfl

/-- A leaf is lowered to one word, or to two if it is announced. -/
theorem leaf_lowers (leaf : (g.expression root).isLeaf = true) (traced : Bool) (height : Nat) :
    ∃ fragment s, g.lower traced (height + 1) root 0 {} = .ok (fragment, s) ∧ fragment.length ≤ 2 := by
  rcases g.lower_succ traced height root with form | ⟨name, form⟩
  · obtain ⟨w, s, lowers⟩ := @leafForm_lowers g (g.lower traced height) root _ leaf 0 {} roomy_empty
    exact ⟨[w], s, by rw [form, lowers], by simp⟩
  · obtain ⟨index, labels, interned, few⟩ := roomy_empty.internLabel name
    have roomy : Roomy { labels } :=
      { roomy_empty with labels := Nat.lt_of_le_of_lt few (by decide) }
    obtain ⟨w, s, lowers⟩ := @leafForm_lowers g (g.lower traced height) root _ leaf 1
      { tables := { labels } } roomy
    refine ⟨[Word.instruction .announce index, w], s, ?_, by simp⟩
    have named : Lower.table (·.internLabel name) {} = .ok (index, { tables := { labels } }) :=
      Lower.table_eq_ok.mpr ⟨_, interned, rfl⟩
    rw [form]
    exact Lower.bind_eq_ok.mpr ⟨_, _, named, Lower.bind_eq_ok.mpr ⟨_, _, lowers, rfl⟩⟩

theorem exists_walkLimit (g : Grammar) : ∃ height, g.walkLimit = height + 1 :=
  Nat.exists_eq_succ_of_ne_zero (Nat.ne_of_gt (Nat.mul_pos (Nat.succ_pos _) (Nat.succ_pos _)))

/-- An expression for a single character is condensed to its test. -/
theorem condenseNode_of_charTest {visit : Ref → Condense Ref} {r : Ref} {node : Node} {t : CharTest}
    (single : node.expression.charTest? = some t) :
    Condense.condenseNode visit r node = Condense.add ⟨.test t, some node.label⟩ := by
  rw [Condense.condenseNode, single]

/-- Other leaves stay. -/
theorem condenseNode_of_leaf {visit : Ref → Condense Ref} {r : Ref} {node : Node}
    (leaf : node.expression.isLeaf = true) (other : node.expression.charTest? = none) :
    Condense.condenseNode visit r node = return r := by
  rw [Condense.condenseNode, other]
  cases form : node.expression with
  | scan | literal | keyword | finish => rfl
  | char | oneOf | escaped | test => rw [form] at other; cases other
  | _ => rw [form] at leaf; cases leaf

/-- A leaf is condensed to itself or to the test that it comes to. -/
theorem condense_leaf (leaf : (g.expression root).isLeaf = true) :
    (g.condense root).grammar.expression (g.condense root).root = g.expression root ∨
      ∃ t, (g.expression root).charTest? = some t ∧
        (g.condense root).grammar.expression (g.condense root).root = .test t := by
  obtain ⟨height, limit⟩ := g.exists_walkLimit
  have plain : (g.node root).expression.isForward = false := by
    rw [expression] at leaf
    cases form : (g.node root).expression with
    | forward => rw [form] at leaf; cases leaf
    | _ => rfl
  have visited : Condense.visit (height + 1) root { grammar := g } = _ :=
    Condense.visit_other (by simp) plain
  rw [Condense.bind_apply, ← limit] at visited
  have condensed : (g.condense root).grammar.expression (g.condense root).root =
      (Condense.visit g.walkLimit root { grammar := g }).2.grammar.expression
        (Condense.visit g.walkLimit root { grammar := g }).1 := rfl
  rw [condensed, visited]
  cases single : (g.node root).expression.charTest? with
  | some t =>
      refine .inr ⟨t, single, ?_⟩
      rw [condenseNode_of_charTest single]
      show (g.add ⟨.test t, some (g.node root).label⟩).2.expression g.size = .test t
      rw [expression, node_add, if_pos rfl]
  | none =>
      rw [condenseNode_of_leaf leaf single]
      exact .inl rfl

/-- What is lowered for a leaf is the leaf, or the test that it comes to. -/
theorem prepared_leaf (leaf : (g.expression root).isLeaf = true) :
    (g.prepared options root).1.expression (g.prepared options root).2 = g.expression root ∨
      ∃ t, (g.expression root).charTest? = some t ∧
        (g.prepared options root).1.expression (g.prepared options root).2 = .test t := by
  obtain ⟨condense, traced⟩ := options
  cases condense with
  | false => exact .inl rfl
  | true => exact condense_leaf leaf

theorem lowered_leaf (leaf : (g.expression root).isLeaf = true) (traced : Bool) :
    ∃ lowered, g.lowered traced root = .ok lowered := by
  obtain ⟨height, limit⟩ := g.exists_walkLimit
  obtain ⟨fragment, s, lowers, short⟩ := leaf_lowers leaf traced height
  have small : fragment.length < Word.codeLimit := Nat.lt_of_le_of_lt short (by decide)
  have ran : (g.lower traced g.walkLimit root 0).run {} = .ok (fragment, s) := limit ▸ lowers
  have done : (g.lowered traced root).isOk = true := by
    rw [lowered, ran]
    show (ite (fragment.length < Word.codeLimit) _ _ : Except LoweringError Lowered).isOk = true
    rw [if_pos small]
    rfl
  exact exists_of_isOk done

/-- A leaf can be compiled, whatever else the grammar holds. -/
theorem leaf_compiles (leaf : (g.expression root).isLeaf = true) (options : CompileOptions) :
    ∃ lowered, g.compile options root = .ok lowered := by
  have leaf' : ((g.prepared options root).1.expression (g.prepared options root).2).isLeaf = true := by
    rcases @prepared_leaf g root options leaf with same | ⟨t, -, test⟩
    · rw [same, leaf]
    · rw [test]
      rfl
  obtain ⟨own, lowers⟩ := lowered_leaf leaf' options.traced
  obtain ⟨condense, traced⟩ := options
  cases condense with
  | false => exact ⟨own, lowers⟩
  | true => exact ⟨_, bind_eq_ok.mpr ⟨own, lowers, rfl⟩⟩

/-! ## Parsing -/

/-- A parse matches what the code of the form does that was lowered. -/
theorem parses_form_iff (compiled : g.compile options root = .ok lowered) {c₀ : Code}
    (form : ∀ part v, (g.prepared options root).1.unfoldExpression part (g.prepared options root).2
      ((g.prepared options root).1.expression (g.prepared options root).2) v = some (c₀, v))
    (input : Array Char) (pos : Nat) :
    ∃ env : Surroundings input, ∀ m : Match,
      lowered.bytecode.Parses input pos (.ok m) ↔
        (c₀ input env pos).match? = some (m.value, m.stop) := by
  obtain ⟨c, v, unfolds, runs⟩ := compiled_of_compile compiled
  obtain ⟨height, limit⟩ := (g.prepared options root).1.exists_walkLimit
  rw [limit] at unfolds
  obtain ⟨c₁, unfolded, announces⟩ := unfold_eq_some unfolds
  obtain ⟨rfl, -⟩ := Prod.mk.inj (Option.some.inj ((form _ _).symm.trans unfolded))
  refine ⟨lowered.bytecode.surroundings v.bodies callLimit input, fun m => ?_⟩
  rw [parses_iff_match? (runs.ends input pos), announces.match?]

theorem prepared_charTest {t : CharTest} (single : (g.expression root).charTest? = some t) :
    ((g.prepared options root).1.expression (g.prepared options root).2).charTest? = some t := by
  have leaf : (g.expression root).isLeaf = true := by
    cases form : g.expression root with
    | char | oneOf | escaped | test => rfl
    | _ => rw [form] at single; nomatch single
  rcases @prepared_leaf g root options leaf with same | ⟨t', single', test⟩
  · rw [same, single]
  · rw [test, ← single, single']
    rfl

/-- With an expression for a single character a parse matches what its test accepts. -/
theorem parses_charTest_iff {t : CharTest} (single : (g.expression root).charTest? = some t)
    (compiled : g.compile options root = .ok lowered) (input : Array Char) (pos : Nat) (m : Match) :
    lowered.bytecode.Parses input pos (.ok m) ↔
      ∃ c width, t.accept? input pos = some (c, width) ∧ m = ⟨.char c, pos + width⟩ := by
  obtain ⟨env, parses⟩ := parses_form_iff compiled
    (fun part v => by rw [unfoldExpression_of_charTest (prepared_charTest single)]; rfl) input pos
  obtain ⟨value, stop⟩ := m
  rw [parses, Code.test, match?_test _ rfl, ← accept?_of_drop t rfl]
  simp [eq_comm]

/-- With an expression for one character of a class a parse matches such a character. -/
theorem parses_class_iff {chars : CharClass}
    (single : (g.expression root).charTest? = some (.plain chars))
    (compiled : g.compile options root = .ok lowered) (input : Array Char) (pos : Nat) (m : Match) :
    lowered.bytecode.Parses input pos (.ok m) ↔
      ∃ c, input[pos]? = some c ∧ chars.contains c = true ∧ m = ⟨.char c, pos + 1⟩ := by
  rw [parses_charTest_iff single compiled]
  simp only [CharTest.accept?_plain_eq_some]
  constructor
  · rintro ⟨c, _, ⟨here, holds, rfl⟩, same⟩
    exact ⟨c, here, holds, same⟩
  · rintro ⟨c, here, holds, same⟩
    exact ⟨c, 1, ⟨here, holds, rfl⟩, same⟩

variable {text : String} {anyCase : Bool} {value : Datum}

theorem prepared_text (form : (g.expression root).text? = some (text, anyCase, value)) :
    ((g.prepared options root).1.expression (g.prepared options root).2).text? =
      some (text, anyCase, value) := by
  have leaf : (g.expression root).isLeaf = true ∧ (g.expression root).charTest? = none := by
    cases e : g.expression root with
    | literal | keyword => exact ⟨rfl, rfl⟩
    | _ => rw [e] at form; nomatch form
  rcases @prepared_leaf g root options leaf.1 with same | ⟨t, single, -⟩
  · rw [same, form]
  · nomatch leaf.2.symm.trans single

/-- With an expression for a text a parse matches what spells it. -/
theorem parses_text_iff (form : (g.expression root).text? = some (text, anyCase, value))
    (compiled : g.compile options root = .ok lowered) (input : Array Char) (pos : Nat) (m : Match) :
    lowered.bytecode.Parses input pos (.ok m) ↔
      ∃ found rest, input.toList.drop pos = found ++ rest ∧
        Text.Spells anyCase found text.toList ∧ m = ⟨value, pos + found.length⟩ := by
  have unfolds (part : Ref → Unfold Code) (v : Unfolding) :
      (g.prepared options root).1.unfoldExpression part (g.prepared options root).2
        ((g.prepared options root).1.expression (g.prepared options root).2) v =
          some (.text text anyCase value, v) := by
    have prepared := @prepared_text g root options text anyCase value form
    cases e : (g.prepared options root).1.expression (g.prepared options root).2 with
    | literal | keyword => rw [e] at prepared; cases prepared; rfl
    | _ => rw [e] at prepared; nomatch prepared
  obtain ⟨env, parses⟩ := parses_form_iff compiled unfolds input pos
  rw [parses, Code.text, match?_literal]
  constructor
  · intro matched
    split at matched
    · rename_i agrees
      obtain ⟨found, rest, split, spells⟩ := (mismatch?_eq_none_iff rfl).mp agrees
      obtain ⟨yields, ends⟩ := Prod.mk.inj (Option.some.inj matched)
      exact ⟨found, rest, split, spells, by rw [spells.length_eq, yields, ends]⟩
    · nomatch matched
  · rintro ⟨found, rest, split, spells, rfl⟩
    rw [if_pos ((mismatch?_eq_none_iff rfl).mpr ⟨found, rest, split, spells⟩), spells.length_eq]

end Leaves

end Grammar

end PegMachine
