/-
# PegMachine.Proofs.Lexing — what ready-made expressions can have matched

What is derived from an expression is taken apart here, form by form (`Derives.keepLeft`), and
then for the idioms and the ready-made expressions: what is derived from white space is white
space (`Skips.derives`), what is derived from a number is a numeral that denotes something
(`Numbers.derives`), and what is derived from a quoted string is a text between quotes whose last
character is no backslash (`Quotes.derives`), for a backslash there would have escaped the quote.
-/
import PegMachine.Proofs.Lexemes
import PegMachine.Proofs.Meaning.Derives

namespace PegMachine

set_option autoImplicit false

/-! ## Single characters -/

namespace CharTest

variable {chars : CharClass} {text rest : List Char} {c : Char}

theorem takes_plain_iff : (plain chars).Takes text rest c ↔ text = [c] ∧ chars.contains c = true := by
  rw [Takes, accept?_plain, Option.map_eq_some_iff]
  rcases text with - | ⟨first, - | ⟨second, others⟩⟩
  · simp
  · simp only [plainAt?, plain, List.getElem?_toArray, List.cons_append, List.getElem?_cons_zero]
    constructor
    · rintro ⟨found, holds, same⟩
      obtain ⟨contains, here⟩ := Option.ite_none_right_eq_some.mp holds
      obtain rfl := Option.some.inj here
      obtain ⟨rfl, -⟩ := Prod.mk.inj same
      exact ⟨rfl, contains⟩
    · rintro ⟨⟨⟩, contains⟩
      exact ⟨c, if_pos contains, rfl⟩
  · simp

theorem takes_escaped_iff :
    (escaped chars).Takes text rest c ↔ text = ['\\', c] ∧ chars.contains c = true := by
  rw [Takes, accept?_escaped, Option.map_eq_some_iff]
  rcases text with - | ⟨first, - | ⟨second, - | ⟨third, others⟩⟩⟩
  · simp
  · simp
  · simp only [escapeAt?, escaped, List.getElem?_toArray, List.cons_append, List.getElem?_cons_zero,
      List.getElem?_cons_succ]
    constructor
    · rintro ⟨found, holds, same⟩
      obtain ⟨rfl, -⟩ := Prod.mk.inj same
      split at holds
      · rename_i slash here
        obtain ⟨contains, same⟩ := Option.ite_none_right_eq_some.mp holds
        obtain rfl := Option.some.inj same
        obtain rfl := Option.some.inj slash
        obtain rfl := Option.some.inj here
        exact ⟨rfl, contains⟩
      · cases holds
    · rintro ⟨⟨⟩, contains⟩
      exact ⟨c, if_pos contains, rfl⟩
  · simp

/-- Where an escaped character is refused, it does not stand. -/
theorem not_escaped {c : Char} (refuses : (escaped (.single c false)).Refuses rest)
    (rest' : List Char) : rest ≠ '\\' :: c :: rest' := by
  rintro rfl
  have takes : (escaped (.single c false)).Takes ['\\', c] rest' c :=
    takes_escaped_iff.mpr ⟨rfl, by rw [Grammar.single_contains, beq_self_eq_true]⟩
  rw [Refuses] at refuses
  rw [Takes, List.cons_append, List.cons_append, List.nil_append, refuses] at takes
  cases takes

end CharTest

namespace Grammar

section Forms

variable {g : Grammar} {start : List Ref} {k : Nat} {r a b : Ref} {text rest : List Char} {d : Datum}
variable (derives : g.Derives start k r text rest d)

include derives in
theorem Derives.char {c : Char} (form : g.expression r = .char c false) :
    text = [c] ∧ d = .char c := by
  cases derives.form form with
  | char accepted =>
      obtain ⟨rfl, holds⟩ := CharTest.takes_plain_iff.mp accepted
      rw [single_contains, beq_iff_eq] at holds
      exact ⟨by rw [holds], by rw [holds]⟩

include derives in
theorem Derives.oneOf {chars : List Char} (form : g.expression r = .oneOf (.ofList chars)) :
    ∃ c ∈ chars, text = [c] ∧ d = .char c := by
  cases derives.form form with
  | @oneOf _ _ _ _ _ found accepted =>
      obtain ⟨rfl, holds⟩ := CharTest.takes_plain_iff.mp accepted
      rw [CharClass.contains_ofList] at holds
      exact ⟨found, List.contains_iff_mem.mp holds, rfl, rfl⟩

include derives in
theorem Derives.escaped {c : Char} (form : g.expression r = .escaped c) :
    text = ['\\', c] ∧ d = .char c := by
  cases derives.form form with
  | escaped accepted =>
      obtain ⟨rfl, holds⟩ := CharTest.takes_escaped_iff.mp accepted
      rw [single_contains, beq_iff_eq] at holds
      exact ⟨by rw [holds], by rw [holds]⟩

include derives in
theorem Derives.keyword {word : String} {value : Datum}
    (form : g.expression r = .keyword word value false) : text = word.toList ∧ d = value := by
  cases derives.form form with
  | keyword spells => exact ⟨spells_iff.mp spells, rfl⟩

include derives in
theorem Derives.finish (form : g.expression r = .finish) : text = [] ∧ rest = [] := by
  cases derives.form form
  exact ⟨rfl, rfl⟩

include derives in
theorem Derives.keepLeft (form : g.expression r = .keepLeft a b) :
    ∃ front back d', text = front ++ back ∧ g.Derives start k a front (back ++ rest) d ∧
      g.Derives start k b back rest d' := by
  cases derives.form form with
  | keepLeft left right => exact ⟨_, _, _, rfl, left, right⟩

include derives in
theorem Derives.keepRight (form : g.expression r = .keepRight a b) :
    ∃ front back d', text = front ++ back ∧ g.Derives start k a front (back ++ rest) d' ∧
      g.Derives start k b back rest d := by
  cases derives.form form with
  | keepRight left right => exact ⟨_, _, _, rfl, left, right⟩

include derives in
theorem Derives.pair (form : g.expression r = .seq a b)
    (single : ∀ x y, g.expression a ≠ .seq x y) :
    ∃ front back d₁ d₂, text = front ++ back ∧ d = .list [d₁, d₂] ∧
      g.Derives start k a front (back ++ rest) d₁ ∧ g.Derives start k b back rest d₂ := by
  cases derives.form form with
  | seq items =>
      rw [sequenceItems_pair form single] at items
      rcases items with - | ⟨left, - | ⟨right, ⟨⟩⟩⟩
      rw [List.append_nil]
      exact ⟨_, _, _, _, rfl, rfl, by simpa using left, right⟩

include derives in
theorem Derives.orElse (form : g.expression r = .orElse a b) :
    g.Derives start k a text rest d ∨ g.Derives start k b text rest d := by
  cases derives.form form with
  | orElse chosen =>
      rcases chosen with left | ⟨-, right | ⟨-, ⟨⟩⟩⟩
      · exact .inl left
      · exact .inr right

include derives in
/-- A transform comes from what its body derives. -/
theorem Derives.transform {f : Transform} (form : g.expression r = .transform f a) :
    ∃ d', g.Derives start k a text rest d' ∧ f d' = .ok d := by
  cases derives.form form with
  | transform inner made => exact ⟨_, inner, made⟩

include derives in
/-- A forward reference stands for its target, with as many calls or with one less. -/
theorem Derives.forward (form : g.expression r = .forward (some a)) :
    ∃ j, g.Derives start j a text rest d := by
  cases derives.form form with
  | inlined _ inner => exact ⟨_, inner⟩
  | called inner => exact ⟨_, inner⟩

include derives in
theorem Derives.optional {fallback : Datum} (form : g.expression r = .optional a fallback) :
    g.Derives start k a text rest d ∨ text = [] ∧ d = fallback := by
  cases derives.form form with
  | present inner => exact .inl inner
  | absent => exact .inr ⟨rfl, rfl⟩

end Forms

/-! ## Repetitions -/

section Rounds

variable {g : Grammar} {start : List Ref} {k : Nat} {r : Ref}

/-- The rounds of a repetition, if it is known what each round derives in front of the others. -/
theorem DerivesAll.rounds {α : Type} {write : α → List Char} {yield : α → Datum}
    {good : α → List Char → Prop}
    (each : ∀ {text rest d}, g.Derives start k r text rest d →
      ∃ x, text = write x ∧ d = yield x ∧ good x rest) {n : Nat} {text rest : List Char}
    {ds : List Datum} (all : g.DerivesAll start k (List.replicate n r) text rest ds) :
    ∃ xs : List α, text = xs.flatMap write ∧ ds = xs.map yield ∧
      ∀ front x back, xs = front ++ x :: back → good x (back.flatMap write ++ rest) := by
  induction n generalizing text ds with
  | zero =>
      cases all
      exact ⟨[], rfl, rfl, fun front x back split => by simp at split⟩
  | succ n ih =>
      cases all with
      | cons first others =>
          obtain ⟨xs, rfl, rfl, good_behind⟩ := ih others
          obtain ⟨x, rfl, rfl, good_here⟩ := each first
          refine ⟨x :: xs, rfl, rfl, ?_⟩
          intro front y back split
          cases front with
          | nil =>
              obtain ⟨rfl, rfl⟩ := List.cons.inj split
              exact good_here
          | cons z front => exact good_behind front y back (List.cons.inj split).2

/-- The same where nothing is asked of what stands behind a round. -/
theorem DerivesAll.rounds_mem {α : Type} {write : α → List Char} {yield : α → Datum} {good : α → Prop}
    (each : ∀ {text rest d}, g.Derives start k r text rest d →
      ∃ x, text = write x ∧ d = yield x ∧ good x) {n : Nat} {text rest : List Char} {ds : List Datum}
    (all : g.DerivesAll start k (List.replicate n r) text rest ds) :
    ∃ xs : List α, text = xs.flatMap write ∧ ds = xs.map yield ∧ ∀ x ∈ xs, good x := by
  have anywhere {text rest : List Char} {d : Datum} (derives : g.Derives start k r text rest d) :
      ∃ x, text = write x ∧ d = yield x ∧ (fun x (_ : List Char) => good x) x rest := each derives
  obtain ⟨xs, same, made, split⟩ := all.rounds anywhere
  refine ⟨xs, same, made, ?_⟩
  intro x mem
  obtain ⟨front, back, whole⟩ := List.append_of_mem mem
  exact split front x back whole

/-- Rounds of one character each. -/
theorem DerivesAll.chars {chars : List Char}
    (each : ∀ {text rest d}, g.Derives start k r text rest d → ∃ c ∈ chars, text = [c] ∧ d = .char c)
    {n : Nat} {text rest : List Char} {ds : List Datum}
    (all : g.DerivesAll start k (List.replicate n r) text rest ds) :
    ds = text.map .char ∧ ∀ c ∈ text, c ∈ chars := by
  have single {text rest : List Char} {d : Datum} (derives : g.Derives start k r text rest d) :
      ∃ c, text = [c] ∧ d = .char c ∧ c ∈ chars := by
    obtain ⟨c, mem, same, made⟩ := each derives
    exact ⟨c, same, made, mem⟩
  obtain ⟨cs, rfl, rfl, good⟩ := all.rounds_mem single
  have same : cs.flatMap (fun c => [c]) = cs := by simp
  rw [same]
  exact ⟨rfl, good⟩

end Rounds

/-! ## Idioms -/

section Idioms

variable {g : Grammar} {start : List Ref} {k : Nat} {r : Ref} {text rest : List Char} {d : Datum}
variable (derived : g.Derives start k r text rest d)

include derived in
theorem Encloses.derives {body envelope : Ref} (encloses : g.Encloses body envelope r) :
    ∃ front middle back d₁ d₂, text = front ++ middle ++ back ∧
      g.Derives start k envelope front (middle ++ (back ++ rest)) d₁ ∧
      g.Derives start k body middle (back ++ rest) d ∧ g.Derives start k envelope back rest d₂ := by
  obtain ⟨isIdiom, isWhole, isLeft⟩ := encloses
  cases derived.form isIdiom with
  | idiom inner =>
      obtain ⟨before, back, d₂, rfl, left, closed⟩ := inner.keepLeft isWhole
      obtain ⟨front, middle, d₁, rfl, opened, body⟩ := left.keepRight isLeft
      exact ⟨front, middle, back, d₁, d₂, rfl, opened, body, closed⟩

include derived in
/-- Items behind commas, and perhaps one in front of them. -/
theorem Separates.derives {item comma : Ref} (separates : g.Separates item comma r)
    (isComma : g.expression comma = .char ',' false) :
    ∃ (first : List Char) (others : List (List Char)), text = first ++ others.flatMap (',' :: ·) ∧
      (first = [] ∨ ∃ rest d, g.Derives start k item first rest d) ∧
      ∀ other ∈ others, ∃ rest d, g.Derives start k item other rest d := by
  obtain @⟨_, _, pair, _, _, isIdiom, isWhole, isFirst, isBoxed, isOthers, isPair⟩ := separates
  have each {text rest : List Char} {d : Datum} (derives : g.Derives start k pair text rest d) :
      ∃ x : List Char × Datum, text = ',' :: x.1 ∧ d = x.2 ∧
        ∃ rest d, g.Derives start k item x.1 rest d := by
    obtain ⟨front, back, d', rfl, separator, body⟩ := derives.keepRight isPair
    obtain ⟨rfl, -⟩ := separator.char isComma
    exact ⟨(back, d), rfl, rfl, _, _, body⟩
  cases derived.form isIdiom with
  | idiom inner =>
      cases inner.form isWhole with
      | combine items _ =>
          rcases items with - | ⟨front, - | ⟨behind, ⟨⟩⟩⟩
          cases behind.form isOthers with
          | many rounds _ =>
              obtain ⟨xs, rfl, -, good⟩ := rounds.rounds_mem each
              refine ⟨_, xs.map Prod.fst, by rw [List.flatMap_map, List.append_nil], ?_, ?_⟩
              · rcases front.optional isFirst with boxed | ⟨rfl, -⟩
                · obtain ⟨_, inner, -⟩ := boxed.transform isBoxed
                  exact .inr ⟨_, _, inner⟩
                · exact .inl rfl
              · simp only [List.forall_mem_map]
                exact good

end Idioms

/-! ## White space and numbers -/

section Lexemes

variable {g : Grammar} {start : List Ref} {k : Nat} {r : Ref} {text rest : List Char} {d : Datum}
variable (derived : g.Derives start k r text rest d)

include derived in
theorem Skips.derives (skips : g.Skips r) : IsSpace text := by
  obtain ⟨isRun, isEither, isBlank, isNewline⟩ := skips
  cases derived.form isRun with
  | many rounds _ =>
      refine (rounds.chars ?_).2
      intro text rest d derives
      rcases derives.orElse isEither with blank | newline
      · obtain ⟨c, mem, same⟩ := blank.oneOf isBlank
        exact ⟨c, List.mem_append_left _ mem, same⟩
      · obtain ⟨c, mem, same⟩ := newline.oneOf isNewline
        exact ⟨c, List.mem_append_right _ mem, same⟩

include derived in
theorem Padded.derives {blank inner : Ref} (padded : Padded g blank inner r) (skips : g.Skips blank) :
    ∃ front middle back rest, text = front ++ middle ++ back ∧ IsSpace front ∧ IsSpace back ∧
      g.Derives start k inner middle rest d := by
  obtain ⟨isWhole, isFront⟩ := padded
  obtain ⟨before, back, _, rfl, left, last⟩ := derived.keepLeft isWhole
  obtain ⟨front, middle, _, rfl, first, simple⟩ := left.keepRight isFront
  exact ⟨front, middle, back, _, rfl, skips.derives first, skips.derives last, simple⟩

include derived in
/-- A sign that may be missing. -/
theorem derives_sign {minus : Ref} (isSign : g.expression r = .optional minus .null)
    (isMinus : g.expression minus = .char '-' false) :
    ∃ negative, text = Decimal.sign negative ∧ d = Lexeme.Numeral.signDatum negative := by
  rcases derived.optional isSign with inner | nothing
  · exact ⟨true, inner.char isMinus⟩
  · exact ⟨false, nothing⟩

include derived in
/-- Digits, at least as many as there must be. -/
theorem derives_digits {digit : Ref} {least : Nat} (isDigits : g.expression r = .many digit least)
    (isDigit : g.expression digit = .oneOf (.ofList Lexeme.digits)) :
    d = .list (text.map .char) ∧ least ≤ text.length ∧ ∀ c ∈ text, Decimal.isDigit c = true := by
  cases derived.form isDigits with
  | many rounds enough =>
      obtain ⟨rfl, all⟩ := rounds.chars fun derives => derives.oneOf isDigit
      exact ⟨rfl, by simpa using enough, fun c mem => Lexeme.mem_digits_iff.mp (all c mem)⟩

include derived in
/-- A point and digits, which may be missing. -/
theorem derives_fraction {both point decimals decimal : Ref}
    (isFraction : g.expression r = .optional both .null)
    (isBoth : g.expression both = .seq point decimals)
    (isPoint : g.expression point = .char '.' false)
    (isDecimals : g.expression decimals = .many decimal 0)
    (isDecimal : g.expression decimal = .oneOf (.ofList Lexeme.digits)) :
    ∃ digits : Option (List Char), text = digits.elim [] ('.' :: ·) ∧
      d = Lexeme.Numeral.fractionDatum digits ∧
      ∀ cs ∈ digits, ∀ c ∈ cs, Decimal.isDigit c = true := by
  rcases derived.optional isFraction with inner | ⟨rfl, rfl⟩
  · obtain ⟨front, cs, _, _, rfl, rfl, first, run⟩ :=
      inner.pair isBoth (by rw [isPoint]; rintro x y ⟨⟩)
    obtain ⟨rfl, rfl⟩ := first.char isPoint
    obtain ⟨rfl, -, all⟩ := derives_digits run isDecimals isDecimal
    refine ⟨some cs, rfl, rfl, ?_⟩
    rintro _ ⟨⟩
    exact all
  · exact ⟨none, rfl, rfl, by rintro cs ⟨⟩⟩

include derived in
open Lexeme (Numeral Number) in
/-- What is derived from a number is a numeral, and the datum is what it denotes. -/
theorem Numbers.derives (numbers : g.Numbers r) :
    ∃ (n : Numeral) (v : Number), n.text = text ∧ n.value? = some v ∧ v.datum = d := by
  obtain ⟨isWhole, isSign, isMinus, isDigits, isDigit, isFraction, isBoth, isPoint, isDecimals,
    isDecimal⟩ := numbers
  cases derived.form isWhole with
  | combine items made =>
      rcases items with - | ⟨sign, - | ⟨digits, - | ⟨fraction, ⟨⟩⟩⟩⟩
      obtain ⟨negative, rfl, rfl⟩ := derives_sign sign isSign isMinus
      obtain ⟨rfl, some_, whole⟩ := derives_digits digits isDigits isDigit
      obtain ⟨decimals, rfl, rfl, behind⟩ :=
        derives_fraction fraction isFraction isBoth isPoint isDecimals isDecimal
      let n : Numeral := ⟨negative, _, decimals, List.length_pos_iff.mp some_, whole, behind⟩
      obtain ⟨v, value, same⟩ := (Lexeme.toNumber_eq_ok (n := n)).mp made
      refine ⟨n, v, ?_, value, same⟩
      simp [n, Numeral.text, Numeral.fraction]

end Lexemes

/-! ## Quoted strings -/

section Quotes

variable {g : Grammar} {start : List Ref} {k : Nat} {r : Ref} {text rest : List Char} {d : Datum}
variable (derived : g.Derives start k r text rest d)

include derived in
/-- One character between quotes, as it is encoded; if it is a backslash, no quote follows. -/
theorem QuotedChar.derives {quote : Char} (quotes : quote = '"' ∨ quote = '\'')
    (one : QuotedChar quote g r) :
    ∃ c, text = Lexeme.encodeChar quote c ∧ d = .char c ∧
      (c ∈ Lexeme.quotable ∧ (c = '\\' → ∀ next ∈ rest.head?, next ≠ quote)) := by
  obtain ⟨slash_ne, no_letter, no_digit, no_blank⟩ := Lexeme.not_mem_of_quote quotes
  obtain ⟨choice, isLetter, isDigit, isBlank, isOther, isEscape, isSlash⟩ := one
  -- A character of one of the classes is neither the quote nor a backslash.
  have plain {s : Ref} {chars : List Char} (form : g.expression s = .oneOf (.ofList chars))
      (derives : g.Derives start k s text rest d) (no_quote : quote ∉ chars) (no_slash : '\\' ∉ chars)
      (within : ∀ c ∈ chars, c ∈ Lexeme.quotable) :
      ∃ c, text = Lexeme.encodeChar quote c ∧ d = .char c ∧
        (c ∈ Lexeme.quotable ∧ (c = '\\' → ∀ next ∈ rest.head?, next ≠ quote)) := by
    obtain ⟨c, mem, rfl, rfl⟩ := derives.oneOf form
    have other : c ≠ quote := fun same => no_quote (same ▸ mem)
    have no_slash : c ≠ '\\' := fun same => no_slash (same ▸ mem)
    exact ⟨c, by rw [Lexeme.encodeChar, if_neg other], rfl, within c mem,
      fun slash => absurd slash no_slash⟩
  cases derived.form choice with
  | choice chosen =>
      rcases chosen with
        letter | ⟨-, digit | ⟨-, blank | ⟨-, other | ⟨-, escape | ⟨passed, slash | ⟨-, ⟨⟩⟩⟩⟩⟩⟩⟩
      · refine plain isLetter letter no_letter (by decide) fun c mem => ?_
        exact List.mem_append_left _ (List.mem_append_left _ (List.mem_append_left _ mem))
      · refine plain isDigit digit no_digit (by decide) fun c mem => ?_
        exact List.mem_append_left _ (List.mem_append_left _ (List.mem_append_right _ mem))
      · refine plain isBlank blank no_blank (by decide) fun c mem => ?_
        exact List.mem_append_left _ (List.mem_append_right _ mem)
      · refine plain isOther other (by simp [Lexeme.others]) (by simp [Lexeme.others]) fun c mem => ?_
        exact List.mem_append_right _ (List.mem_of_mem_filter mem)
      · obtain ⟨rfl, rfl⟩ := escape.escaped isEscape
        refine ⟨quote, by rw [Lexeme.encodeChar, if_pos rfl], rfl, ?_, fun slash => absurd slash slash_ne⟩
        rcases quotes with rfl | rfl <;> decide
      · obtain ⟨rfl, rfl⟩ := slash.char isSlash
        refine ⟨'\\', by rw [Lexeme.encodeChar, if_neg slash_ne.symm], rfl, by decide, ?_⟩
        have refuses := CharTest.not_escaped (passed _ (by rw [isEscape]; rfl))
        rintro _ next next' rfl
        obtain ⟨rest', split⟩ := List.head?_eq_some_iff.mp next'
        exact refuses rest' (by rw [split]; rfl)

/-- In front of the closing quote, an encoded text; it does not end with a backslash, which would
have escaped the quote. -/
theorem Fills.derives {quote : Char} (quotes : quote = '"' ∨ quote = '\'') (fills : Fills quote g r)
    (derived : g.Derives start k r text (quote :: rest) d) :
    ∃ inner, text = Lexeme.encode quote inner ∧ d = .list (inner.map .char) ∧
      (∀ c ∈ inner, c ∈ Lexeme.quotable) ∧ inner.getLast? ≠ some '\\' := by
  obtain ⟨isRun, chars⟩ := fills
  cases derived.form isRun with
  | many rounds _ =>
      obtain ⟨inner, rfl, rfl, good⟩ := rounds.rounds fun derives => chars.derives derives quotes
      refine ⟨inner, rfl, rfl, ?_, ?_⟩
      · intro c mem
        obtain ⟨front, back, split⟩ := List.append_of_mem mem
        exact (good front c back split).1
      · intro last
        obtain ⟨front, split⟩ := List.getLast?_eq_some_iff.mp last
        exact (good front _ [] split).2 rfl quote rfl rfl

include derived in
/-- What is derived from a quoted string is a text between two quotes of one kind. -/
theorem Quotes.derives (quotes : g.Quotes r) :
    ∃ quote inner, (quote = '"' ∨ quote = '\'') ∧ text = quote :: Lexeme.encode quote inner ++ [quote] ∧
      (∀ c ∈ inner, c ∈ Lexeme.quotable) ∧ inner.getLast? ≠ some '\\' ∧
        d = .text (String.ofList inner) := by
  obtain ⟨isWhole, isEither, inDoubles, inSingles, fills, fills', isDouble, isSingle⟩ := quotes
  have between {body envelope s : Ref} {text rest : List Char} {d : Datum} {quote : Char}
      (isQuote : quote = '"' ∨ quote = '\'') (encloses : g.Encloses body envelope s)
      (fills : Fills quote g body) (isEnvelope : g.expression envelope = .char quote false)
      (derives : g.Derives start k s text rest d) :
      ∃ inner, text = quote :: Lexeme.encode quote inner ++ [quote] ∧
        (∀ c ∈ inner, c ∈ Lexeme.quotable) ∧ inner.getLast? ≠ some '\\' ∧
          d = .list (inner.map .char) := by
    obtain ⟨front, middle, back, d₁, d₂, rfl, opened, body, closed⟩ := encloses.derives derives
    obtain ⟨rfl, -⟩ := opened.char isEnvelope
    obtain ⟨rfl, -⟩ := closed.char isEnvelope
    obtain ⟨inner, rfl, rfl, all, last⟩ := fills.derives isQuote body
    exact ⟨inner, rfl, all, last, rfl⟩
  obtain ⟨chars, quoted, made⟩ := derived.transform isWhole
  obtain rfl := Except.ok.inj made
  rcases quoted.orElse isEither with double | single
  · obtain ⟨inner, rfl, all, last, rfl⟩ := between (.inl rfl) inDoubles fills isDouble double
    exact ⟨_, inner, .inl rfl, rfl, all, last, Datum.asText_chars inner⟩
  · obtain ⟨inner, rfl, all, last, rfl⟩ := between (.inr rfl) inSingles fills' isSingle single
    exact ⟨_, inner, .inr rfl, rfl, all, last, Datum.asText_chars inner⟩

end Quotes

end Grammar

end PegMachine
