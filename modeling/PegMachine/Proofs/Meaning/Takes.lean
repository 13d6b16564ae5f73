/-
# PegMachine.Proofs.Meaning.Takes — which texts an expression takes

`Takes g k r text rest d` says that where `text` and then `rest` stand, the expression `r`
takes the text and yields `d`, and `Refuses g k r rest` that it takes nothing of `rest`. Both
are put together by rules, one or two for each form, so that neither positions nor fuel
occur and a text can be followed from left to right.

The number `k` is how many calls of forward references may be nested at least. A text is
taken if that many suffice; where none is left, a call is refused, and so a forward reference
refuses whatever its target refuses. Runs of characters are left out: only condensing makes
them, of repetitions.

That a parse finds what is taken is shown in `Proofs.Meaning.Reads`.
-/
import Mathlib.Data.List.Forall2
import PegMachine.Proofs.Grammars

namespace PegMachine

set_option autoImplicit false

/-- The test accepts a text, as one character. -/
def CharTest.Takes (t : CharTest) (text rest : List Char) (c : Char) : Prop :=
  t.accept? (text ++ rest).toArray 0 = some (c, text.length)

/-- The test accepts nothing in front of a text. -/
def CharTest.Refuses (t : CharTest) (rest : List Char) : Prop := t.accept? rest.toArray 0 = none

/-- A text agrees with an expected one, character by character. -/
def Text.Spells (anyCase : Bool) (text expected : List Char) : Prop :=
  List.Forall₂ (fun found expected => Text.agrees anyCase found expected = true) text expected

namespace Grammar

mutual

/-- In front of the rest, an expression takes a text and yields a datum. -/
inductive Takes (g : Grammar) : Nat → Ref → List Char → List Char → Datum → Prop
  | of {k : Nat} {r : Ref} {e : Expression} {text rest : List Char} {d : Datum}
      (form : g.expression r = e) (takes : FormTakes g k r e text rest d) : Takes g k r text rest d

/-- The same by the form of the expression. -/
inductive FormTakes (g : Grammar) : Nat → Ref → Expression → List Char → List Char → Datum → Prop
  | char {k : Nat} {r : Ref} {c : Char} {anyCase : Bool} {text rest : List Char} {found : Char}
      (accepted : (CharTest.plain (.single c anyCase)).Takes text rest found) :
      FormTakes g k r (.char c anyCase) text rest (.char found)
  | oneOf {k : Nat} {r : Ref} {chars : CharClass} {text rest : List Char} {found : Char}
      (accepted : (CharTest.plain chars).Takes text rest found) :
      FormTakes g k r (.oneOf chars) text rest (.char found)
  | escaped {k : Nat} {r : Ref} {c : Char} {text rest : List Char} {found : Char}
      (accepted : (CharTest.escaped (.single c false)).Takes text rest found) :
      FormTakes g k r (.escaped c) text rest (.char found)
  | test {k : Nat} {r : Ref} {t : CharTest} {text rest : List Char} {found : Char}
      (accepted : t.Takes text rest found) : FormTakes g k r (.test t) text rest (.char found)
  | literal {k : Nat} {r : Ref} {expected : String} {anyCase : Bool} {text rest : List Char}
      (spells : Text.Spells anyCase text expected.toList) :
      FormTakes g k r (.literal expected anyCase) text rest (.text expected)
  | keyword {k : Nat} {r : Ref} {expected : String} {value : Datum} {anyCase : Bool}
      {text rest : List Char} (spells : Text.Spells anyCase text expected.toList) :
      FormTakes g k r (.keyword expected value anyCase) text rest value
  | finish {k : Nat} {r : Ref} : FormTakes g k r .finish [] [] .null
  | seq {k : Nat} {r a b : Ref} {text rest : List Char} {ds : List Datum}
      (items : Row g k (g.sequenceItems g.size r) text rest ds) :
      FormTakes g k r (.seq a b) text rest (.list ds)
  | combine {k : Nat} {r : Ref} {f : Combiner} {refs : List Ref} {text rest : List Char}
      {ds : List Datum} {d : Datum} (items : Row g k refs text rest ds) (made : f ds = .ok d) :
      FormTakes g k r (.combine f refs) text rest d
  | orElse {k : Nat} {r a b : Ref} {text rest : List Char} {d : Datum}
      (picks : Picks g k [a, b] text rest d) : FormTakes g k r (.orElse a b) text rest d
  | choice {k : Nat} {r : Ref} {refs : List Ref} {text rest : List Char} {d : Datum}
      (picks : Picks g k refs text rest d) : FormTakes g k r (.choice refs) text rest d
  | keepLeft {k : Nat} {r a b : Ref} {text text' rest : List Char} {d d' : Datum}
      (left : Takes g k a text (text' ++ rest) d) (right : Takes g k b text' rest d') :
      FormTakes g k r (.keepLeft a b) (text ++ text') rest d
  | keepRight {k : Nat} {r a b : Ref} {text text' rest : List Char} {d d' : Datum}
      (left : Takes g k a text (text' ++ rest) d) (right : Takes g k b text' rest d') :
      FormTakes g k r (.keepRight a b) (text ++ text') rest d'
  | followedBy {k : Nat} {r a b : Ref} {text text' rest : List Char} {d d' : Datum}
      (left : Takes g k a text (text' ++ rest) d) (right : Takes g k b text' rest d') :
      FormTakes g k r (.followedBy a b) text (text' ++ rest) d
  | notFollowedBy {k : Nat} {r a b : Ref} {text rest : List Char} {d : Datum}
      (left : Takes g k a text rest d) (right : Refuses g k b rest) :
      FormTakes g k r (.notFollowedBy a b) text rest d
  | present {k : Nat} {r body : Ref} {fallback : Datum} {text rest : List Char} {d : Datum}
      (inner : Takes g k body text rest d) : FormTakes g k r (.optional body fallback) text rest d
  | absent {k : Nat} {r body : Ref} {fallback : Datum} {rest : List Char}
      (inner : Refuses g k body rest) : FormTakes g k r (.optional body fallback) [] rest fallback
  | many {k : Nat} {r body : Ref} {least : Nat} {text rest : List Char} {ds : List Datum}
      (rounds : Rounds g k body text rest ds) (enough : least ≤ ds.length) :
      FormTakes g k r (.many body least) text rest (.list ds)
  | transform {k : Nat} {r body : Ref} {f : Transform} {text rest : List Char} {d d' : Datum}
      (inner : Takes g k body text rest d) (made : f d = .ok d') :
      FormTakes g k r (.transform f body) text rest d'
  | idiom {k : Nat} {r body : Ref} {kind : Idiom} {text rest : List Char} {d : Datum}
      (inner : Takes g k body text rest d) : FormTakes g k r (.idiom kind body) text rest d
  | forward {k : Nat} {r target : Ref} {text rest : List Char} {d : Datum}
      (inner : Takes g k target text rest d) :
      FormTakes g (k + 1) r (.forward (some target)) text rest d

/-- Expressions take a text one after the other. -/
inductive Row (g : Grammar) : Nat → List Ref → List Char → List Char → List Datum → Prop
  | nil {k : Nat} {rest : List Char} : Row g k [] [] rest []
  | cons {k : Nat} {r : Ref} {refs : List Ref} {text text' rest : List Char} {d : Datum}
      {ds : List Datum} (first : Takes g k r text (text' ++ rest) d)
      (others : Row g k refs text' rest ds) : Row g k (r :: refs) (text ++ text') rest (d :: ds)

/-- The first alternative that does not refuse takes a text. -/
inductive Picks (g : Grammar) : Nat → List Ref → List Char → List Char → Datum → Prop
  | here {k : Nat} {r : Ref} {refs : List Ref} {text rest : List Char} {d : Datum}
      (takes : Takes g k r text rest d) : Picks g k (r :: refs) text rest d
  | later {k : Nat} {r : Ref} {refs : List Ref} {text rest : List Char} {d : Datum}
      (refuses : Refuses g k r (text ++ rest)) (others : Picks g k refs text rest d) :
      Picks g k (r :: refs) text rest d

/-- An expression takes a text round by round; one that takes nothing is the last. -/
inductive Rounds (g : Grammar) : Nat → Ref → List Char → List Char → List Datum → Prop
  | none {k : Nat} {r : Ref} {rest : List Char} (refuses : Refuses g k r rest) : Rounds g k r [] rest []
  | idle {k : Nat} {r : Ref} {rest : List Char} {d : Datum} (takes : Takes g k r [] rest d) :
      Rounds g k r [] rest [d]
  | round {k : Nat} {r : Ref} {text text' rest : List Char} {d : Datum} {ds : List Datum}
      (takes : Takes g k r text (text' ++ rest) d) (some_ : text ≠ [])
      (others : Rounds g k r text' rest ds) : Rounds g k r (text ++ text') rest (d :: ds)

/-- An expression takes nothing of a text. -/
inductive Refuses (g : Grammar) : Nat → Ref → List Char → Prop
  | of {k : Nat} {r : Ref} {e : Expression} {rest : List Char} (form : g.expression r = e)
      (refuses : FormRefuses g k r e rest) : Refuses g k r rest

/-- The same by the form of the expression. -/
inductive FormRefuses (g : Grammar) : Nat → Ref → Expression → List Char → Prop
  | char {k : Nat} {r : Ref} {c : Char} {anyCase : Bool} {rest : List Char}
      (accepted : (CharTest.plain (.single c anyCase)).Refuses rest) :
      FormRefuses g k r (.char c anyCase) rest
  | oneOf {k : Nat} {r : Ref} {chars : CharClass} {rest : List Char}
      (accepted : (CharTest.plain chars).Refuses rest) : FormRefuses g k r (.oneOf chars) rest
  | escaped {k : Nat} {r : Ref} {c : Char} {rest : List Char}
      (accepted : (CharTest.escaped (.single c false)).Refuses rest) :
      FormRefuses g k r (.escaped c) rest
  | test {k : Nat} {r : Ref} {t : CharTest} {rest : List Char} (accepted : t.Refuses rest) :
      FormRefuses g k r (.test t) rest
  | literal {k : Nat} {r : Ref} {expected : String} {anyCase : Bool} {rest : List Char}
      (differs : ∀ text rest', rest = text ++ rest' → ¬ Text.Spells anyCase text expected.toList) :
      FormRefuses g k r (.literal expected anyCase) rest
  | keyword {k : Nat} {r : Ref} {expected : String} {value : Datum} {anyCase : Bool} {rest : List Char}
      (differs : ∀ text rest', rest = text ++ rest' → ¬ Text.Spells anyCase text expected.toList) :
      FormRefuses g k r (.keyword expected value anyCase) rest
  | finish {k : Nat} {r : Ref} {c : Char} {rest : List Char} : FormRefuses g k r .finish (c :: rest)
  | seq {k : Nat} {r a b : Ref} {rest : List Char}
      (stops : Stops g k (g.sequenceItems g.size r) rest) : FormRefuses g k r (.seq a b) rest
  | combine {k : Nat} {r : Ref} {f : Combiner} {refs : List Ref} {rest : List Char}
      (stops : Stops g k refs rest) : FormRefuses g k r (.combine f refs) rest
  | combineRejected {k : Nat} {r : Ref} {f : Combiner} {refs : List Ref} {text rest : List Char}
      {ds : List Datum} {message : String} (items : Row g k refs text rest ds)
      (made : f ds = .error message) : FormRefuses g k r (.combine f refs) (text ++ rest)
  | orElse {k : Nat} {r a b : Ref} {rest : List Char} (all : ∀ s ∈ [a, b], Refuses g k s rest) :
      FormRefuses g k r (.orElse a b) rest
  | choice {k : Nat} {r : Ref} {refs : List Ref} {rest : List Char}
      (all : ∀ s ∈ refs, Refuses g k s rest) : FormRefuses g k r (.choice refs) rest
  | keepLeft {k : Nat} {r a b : Ref} {rest : List Char} (stops : Stops g k [a, b] rest) :
      FormRefuses g k r (.keepLeft a b) rest
  | keepRight {k : Nat} {r a b : Ref} {rest : List Char} (stops : Stops g k [a, b] rest) :
      FormRefuses g k r (.keepRight a b) rest
  | followedBy {k : Nat} {r a b : Ref} {rest : List Char} (stops : Stops g k [a, b] rest) :
      FormRefuses g k r (.followedBy a b) rest
  | notFollowedBy {k : Nat} {r a b : Ref} {rest : List Char} (left : Refuses g k a rest) :
      FormRefuses g k r (.notFollowedBy a b) rest
  | followed {k : Nat} {r a b : Ref} {text text' rest : List Char} {d d' : Datum}
      (left : Takes g k a text (text' ++ rest) d) (right : Takes g k b text' rest d') :
      FormRefuses g k r (.notFollowedBy a b) (text ++ (text' ++ rest))
  | many {k : Nat} {r body : Ref} {least : Nat} {text rest : List Char} {ds : List Datum}
      (rounds : Rounds g k body text rest ds) (few : ds.length < least) :
      FormRefuses g k r (.many body least) (text ++ rest)
  | transform {k : Nat} {r body : Ref} {f : Transform} {rest : List Char}
      (inner : Refuses g k body rest) : FormRefuses g k r (.transform f body) rest
  | transformRejected {k : Nat} {r body : Ref} {f : Transform} {text rest : List Char} {d : Datum}
      {message : String} (inner : Takes g k body text rest d) (made : f d = .error message) :
      FormRefuses g k r (.transform f body) (text ++ rest)
  | idiom {k : Nat} {r body : Ref} {kind : Idiom} {rest : List Char}
      (inner : Refuses g k body rest) : FormRefuses g k r (.idiom kind body) rest
  | forward {k : Nat} {r target : Ref} {rest : List Char} (inner : Refuses g (k - 1) target rest) :
      FormRefuses g k r (.forward (some target)) rest

/-- Of expressions one after the other, one refuses what those before it have left. -/
inductive Stops (g : Grammar) : Nat → List Ref → List Char → Prop
  | here {k : Nat} {r : Ref} {refs : List Ref} {rest : List Char} (refuses : Refuses g k r rest) :
      Stops g k (r :: refs) rest
  | later {k : Nat} {r : Ref} {refs : List Ref} {text rest : List Char} {d : Datum}
      (first : Takes g k r text rest d) (others : Stops g k refs rest) :
      Stops g k (r :: refs) (text ++ rest)

end

/-! ## Single characters and fixed texts -/

section Reading

variable {g : Grammar} {k : Nat} {r : Ref} {rest : List Char}

theorem plain_takes {chars : CharClass} {c : Char} (holds : chars.contains c = true) :
    (CharTest.plain chars).Takes [c] rest c := by
  rw [CharTest.Takes, CharTest.accept?_plain]
  simp [CharTest.plainAt?, CharTest.plain, holds]

theorem plain_refuses {chars : CharClass} (fails : ∀ c ∈ rest.head?, chars.contains c = false) :
    (CharTest.plain chars).Refuses rest := by
  rw [CharTest.Refuses, CharTest.accept?_plain]
  cases rest with
  | nil => simp [CharTest.plainAt?]
  | cons c rest => simp [CharTest.plainAt?, CharTest.plain, fails c rfl]

theorem single_contains (c d : Char) : (CharClass.single c false).contains d = (d == c) := by
  rw [CharClass.single, if_neg (by decide), CharClass.contains_ofList, Bool.eq_iff_iff]
  simp

theorem takes_char {c : Char} (form : g.expression r = .char c false) :
    g.Takes k r [c] rest (.char c) :=
  .of form (.char (plain_takes (by rw [single_contains, beq_self_eq_true])))

theorem refuses_char {c : Char} (form : g.expression r = .char c false)
    (other : ∀ d ∈ rest.head?, d ≠ c) : g.Refuses k r rest := by
  refine .of form (.char (plain_refuses ?_))
  intro d here
  rw [single_contains, beq_eq_false_iff_ne]
  exact other d here

theorem takes_oneOf {chars : List Char} (form : g.expression r = .oneOf (.ofList chars)) {c : Char}
    (mem : c ∈ chars) : g.Takes k r [c] rest (.char c) :=
  .of form (.oneOf (plain_takes (by rw [CharClass.contains_ofList, List.contains_iff_mem.mpr mem])))

theorem refuses_oneOf {chars : List Char} (form : g.expression r = .oneOf (.ofList chars))
    (other : ∀ c ∈ rest.head?, c ∉ chars) : g.Refuses k r rest := by
  refine .of form (.oneOf (plain_refuses ?_))
  intro c here
  simpa [CharClass.contains_ofList] using other c here

theorem takes_escaped {c : Char} (form : g.expression r = .escaped c) :
    g.Takes k r ['\\', c] rest (.char c) := by
  refine .of form (.escaped ?_)
  rw [CharTest.Takes, CharTest.accept?_escaped]
  simp [CharTest.escapeAt?, CharTest.escaped, single_contains]

/-- Whatever does not begin with a backslash and the character is refused. -/
theorem refuses_escaped {c : Char} (form : g.expression r = .escaped c)
    (other : ∀ rest', rest ≠ '\\' :: c :: rest') : g.Refuses k r rest := by
  refine .of form (.escaped ?_)
  rw [CharTest.Refuses, CharTest.accept?_escaped, CharTest.escapeAt?]
  rcases rest with - | ⟨b, - | ⟨d, rest⟩⟩
  · rfl
  · simp
  · have differs : ¬ (b = '\\' ∧ d = c) := by
      rintro ⟨rfl, rfl⟩
      exact other rest rfl
    simp only [List.getElem?_toArray, List.getElem?_cons_zero, List.getElem?_cons_succ]
    split
    · simp_all [CharTest.escaped, single_contains]
    · rfl

/-- As it is, only the text itself spells it. -/
theorem spells_iff {text expected : List Char} : Text.Spells false text expected ↔ text = expected := by
  rw [← List.forall₂_eq_eq_eq]
  simp only [Text.Spells, Text.agrees, Bool.false_eq_true, if_false, beq_iff_eq]

theorem takes_literal {text : String} (form : g.expression r = .literal text false) :
    g.Takes k r text.toList rest (.text text) := .of form (.literal (spells_iff.mpr rfl))

theorem refuses_literal {text : String} (form : g.expression r = .literal text false)
    (other : ¬ text.toList <+: rest) : g.Refuses k r rest := by
  refine .of form (.literal ?_)
  rintro found rest' rfl spells
  obtain rfl := spells_iff.mp spells
  exact other (List.prefix_append _ _)

theorem takes_keyword {text : String} {value : Datum}
    (form : g.expression r = .keyword text value false) : g.Takes k r text.toList rest value :=
  .of form (.keyword (spells_iff.mpr rfl))

/-- A text that begins with another character is refused. -/
theorem refuses_keyword {text : String} {value : Datum} {first : Char} {others : List Char}
    (form : g.expression r = .keyword text value false) (split : text.toList = first :: others)
    (other : ∀ c ∈ rest.head?, c ≠ first) : g.Refuses k r rest := by
  refine .of form (.keyword ?_)
  rintro text rest' rfl spells
  obtain rfl := spells_iff.mp spells
  exact other first (by rw [split]; rfl) rfl

end Reading

/-! ## Alternatives -/

/-- Alternatives that refuse make no difference to those behind them. -/
theorem picks_append {g : Grammar} {k : Nat} {front refs : List Ref} {text rest : List Char} {d : Datum}
    (refuse : ∀ r ∈ front, g.Refuses k r (text ++ rest)) (picks : g.Picks k refs text rest d) :
    g.Picks k (front ++ refs) text rest d := by
  induction front with
  | nil => exact picks
  | cons r front ih => exact .later (refuse r (.head _)) (ih fun s mem => refuse s (.tail _ mem))

/-! ## Pairs -/

section Pairs

variable {g : Grammar} {k : Nat} {r a b : Ref} {text text' rest : List Char} {d d' : Datum}

/-- The items of a sequence of two, the first of which is no sequence itself. -/
theorem sequenceItems_pair (form : g.expression r = .seq a b)
    (single : ∀ x y, g.expression a ≠ .seq x y) : g.sequenceItems g.size r = [a, b] := by
  have inside : r < g.size := inside_of_expression (by rw [form]; rintro ⟨⟩)
  -- Flattening is bounded by the size of the grammar, which is not zero.
  obtain ⟨limit, size⟩ : ∃ limit, g.size = limit + 1 :=
    Nat.exists_eq_succ_of_ne_zero (Nat.ne_of_gt (Nat.zero_lt_of_lt inside))
  rw [size, sequenceItems, form]
  have alone : g.sequenceItems limit a = [a] := by
    cases limit with
    | zero => rfl
    | succ limit =>
        rw [sequenceItems]
        split
        · rename_i x y seq
          exact absurd seq (single x y)
        · rfl
  simp only [alone, List.cons_append, List.nil_append]

theorem takes_pair (form : g.expression r = .seq a b) (single : ∀ x y, g.expression a ≠ .seq x y)
    (first : g.Takes k a text (text' ++ rest) d) (second : g.Takes k b text' rest d') :
    g.Takes k r (text ++ text') rest (.list [d, d']) := by
  refine .of form (.seq ?_)
  rw [sequenceItems_pair form single]
  have row : g.Row k [a, b] (text ++ (text' ++ [])) rest [d, d'] :=
    .cons (by rwa [List.append_nil]) (.cons second .nil)
  rwa [List.append_nil] at row

theorem refuses_pair (form : g.expression r = .seq a b) (single : ∀ x y, g.expression a ≠ .seq x y)
    (first : g.Refuses k a rest) : g.Refuses k r rest := by
  refine .of form (.seq ?_)
  rw [sequenceItems_pair form single]
  exact .here first

end Pairs

/-! ## Repetitions -/

/-- Rounds for the parts of a text, if each part is taken where what follows is good, and the end is
good as well. -/
theorem rounds_flatMap {α : Type} {g : Grammar} {k : Nat} {r : Ref} {xs : List α} {rest : List Char}
    {write : α → List Char} {yield : α → Datum} {good : List Char → Prop}
    (each : ∀ x ∈ xs, ∀ rest, good rest → g.Takes k r (write x) rest (yield x))
    (some_ : ∀ x ∈ xs, write x ≠ []) (starts : ∀ x ∈ xs, ∀ rest, good (write x ++ rest))
    (ends : good rest) (refuses : g.Refuses k r rest) :
    g.Rounds k r (xs.flatMap write) rest (xs.map yield) := by
  induction xs with
  | nil => exact .none refuses
  | cons x xs ih =>
      -- Behind a part stands the next one or the end.
      have good_behind : good (xs.flatMap write ++ rest) := by
        cases xs with
        | nil => exact ends
        | cons y ys =>
            rw [List.flatMap_cons, List.append_assoc]
            exact starts y (.tail _ (.head _)) _
      exact .round (each x (.head _) _ good_behind) (some_ x (.head _))
        (ih (fun y mem => each y (.tail _ mem)) (fun y mem => some_ y (.tail _ mem))
          fun y mem => starts y (.tail _ mem))

/-- Rounds that take one character each. -/
theorem rounds_chars {g : Grammar} {k : Nat} {r : Ref} {cs rest : List Char}
    (each : ∀ c ∈ cs, ∀ rest, g.Takes k r [c] rest (.char c)) (refuses : g.Refuses k r rest) :
    g.Rounds k r cs rest (cs.map .char) := by
  have rounds := rounds_flatMap (fun c mem rest (_ : True) => each c mem rest) (by simp)
    (fun _ _ _ => trivial) trivial refuses
  have same : cs.flatMap (fun c => [c]) = cs := by simp
  rwa [same] at rounds

end Grammar

end PegMachine
