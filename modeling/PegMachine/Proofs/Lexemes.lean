/-
# PegMachine.Proofs.Lexemes — which texts the ready-made expressions take

What stands behind the references that `Build` answers for white space, numbers and quoted
strings is named by its parts (`Skips`, `Numbers`, `Quotes`), in whatever grammar they stand.
Each of them takes what it is meant for where the rest does not go on with it, and refuses a
text by its first character.

A number is a numeral, and it is taken if it denotes something. A text is taken between quotes
with its own quotes escaped. The writer escapes more than that; the texts it is compared with
here are bare (`Text.Bare`), so that there is nothing else to escape.
-/
import PegMachine.Datum.Printer
import PegMachine.Proofs.Idioms
import PegMachine.Proofs.Numerals

namespace PegMachine

set_option autoImplicit false

theorem Datum.asText_chars (cs : List Char) :
    Datum.asText (.list (cs.map .char)) = .text (String.ofList cs) := by
  simp only [asText, joinedText?, Lexeme.joined?_chars, Option.map_some]

/-- What holds of characters that are listed is checked one after the other. Put as a statement about
all characters that are in the list, it would be checked for every character there is. -/
theorem Lexeme.forall_of_all {chars : List Char} {property : Char → Prop} [DecidablePred property]
    (all : chars.all (fun c => decide (property c)) = true) : ∀ c ∈ chars, property c := by
  simpa using all

/-! ## White space -/

namespace Grammar

/-- Blanks and newlines. -/
def space : List Char := Lexeme.blanks ++ Lexeme.newlines

/-- White space. -/
def IsSpace (text : List Char) : Prop := ∀ c ∈ text, c ∈ space

theorem isSpace_nil : IsSpace [] := fun _ mem => by cases mem

/-- The expression is one for white space: any number of blanks and newlines. -/
inductive Skips (g : Grammar) (r : Ref) : Prop
  | of {either blank newline : Ref} (isRun : g.expression r = .many either 0)
      (isEither : g.expression either = .orElse blank newline)
      (isBlank : g.expression blank = .oneOf (.ofList Lexeme.blanks))
      (isNewline : g.expression newline = .oneOf (.ofList Lexeme.newlines)) : Skips g r

section Skips

variable {g : Grammar} {r : Ref} (skips : g.Skips r) (k : Nat) {text rest : List Char}

include skips in
/-- All white space there is is taken. -/
theorem Skips.takes (spaces : ∀ c ∈ text, c ∈ space) (behind : ∀ c ∈ rest.head?, c ∉ space) :
    g.Takes k r text rest (.list (text.map .char)) := by
  obtain ⟨isRun, isEither, isBlank, isNewline⟩ := skips
  refine .of isRun (.many (rounds_chars ?_ (.of isEither (.orElse ?_))) (Nat.zero_le _))
  · intro c mem rest
    refine .of isEither (.orElse ?_)
    by_cases blank : c ∈ Lexeme.blanks
    · exact .here (takes_oneOf isBlank blank)
    · have newline := (List.mem_append.mp (spaces c mem)).resolve_left blank
      refine .later (refuses_oneOf isBlank ?_) (.here (takes_oneOf isNewline newline))
      rintro d ⟨⟩
      exact blank
  · simp only [List.forall_mem_cons]
    exact ⟨refuses_oneOf isBlank fun c here mem => behind c here (List.mem_append_left _ mem),
      refuses_oneOf isNewline fun c here mem => behind c here (List.mem_append_right _ mem),
      fun _ mem => by cases mem⟩

include skips in
/-- No white space is taken where there is none. -/
theorem Skips.nothing (none_ : ∀ c ∈ rest.head?, c ∉ space) : g.Takes k r [] rest (.list []) :=
  skips.takes k (fun _ mem => by cases mem) none_

end Skips

/-- White space in front of an expression and behind it. -/
inductive Padded (g : Grammar) (blank inner r : Ref) : Prop
  | of {front : Ref} (isWhole : g.expression r = .keepLeft front blank)
      (isFront : g.expression front = .keepRight blank inner) : Padded g blank inner r

section Padded

variable {g : Grammar} {k : Nat} {blank inner r : Ref} (padded : Padded g blank inner r)
variable (skips : g.Skips blank) {text rest : List Char} {d : Datum}

include padded skips in
theorem Padded.takes {front back : List Char} (before : IsSpace front) (behind : IsSpace back)
    (takes : g.Takes k inner text (back ++ rest) d)
    (visible : ∀ c ∈ (text ++ (back ++ rest)).head?, c ∉ space) (ends : ∀ c ∈ rest.head?, c ∉ space) :
    g.Takes k r (front ++ text ++ back) rest d := by
  obtain ⟨isWhole, isFront⟩ := padded
  exact .of isWhole (.keepLeft (.of isFront (.keepRight (skips.takes k before visible) takes))
    (skips.takes k behind ends))

include padded skips in
/-- The same with no white space behind the text. -/
theorem Padded.takes_front {front : List Char} (before : IsSpace front)
    (takes : g.Takes k inner text rest d) (visible : ∀ c ∈ (text ++ rest).head?, c ∉ space)
    (ends : ∀ c ∈ rest.head?, c ∉ space) : g.Takes k r (front ++ text) rest d := by
  have whole := padded.takes skips before isSpace_nil takes visible ends
  rwa [List.append_nil] at whole

include padded skips in
theorem Padded.refuses (refuses : g.Refuses k inner rest) (visible : ∀ c ∈ rest.head?, c ∉ space) :
    g.Refuses k r rest := by
  obtain ⟨isWhole, isFront⟩ := padded
  exact .of isWhole (.keepLeft (.here (.of isFront
    (.keepRight (.later (skips.nothing k visible) (.here refuses))))))

end Padded

end Grammar

namespace Build

open Grammar (Skips)

theorem builds_whitespace {o : List Ref} : Builds o whitespace (fun _ => o) Skips := by
  refine (builds_addNamed rfl _).bind fun blank => ?_
  refine (builds_addNamed rfl _).bind fun newline => ?_
  refine (builds_add rfl).bind fun either => ?_
  refine (builds_add rfl).bind fun run => ?_
  refine (builds_named _ _).mono ?_
  rintro later r rfl isRun isEither isNewline isBlank
  exact .of isRun isEither isBlank isNewline

end Build

/-! ## Numbers -/

theorem Lexeme.mem_digits_iff {c : Char} : c ∈ Lexeme.digits ↔ Decimal.isDigit c = true := by
  have below (n : Nat) (small : n < 58) :
      Decimal.isDigit (Char.ofNat n) = true → Char.ofNat n ∈ Lexeme.digits := by
    revert n
    decide
  have every : Lexeme.digits.all Decimal.isDigit = true := by decide
  refine ⟨List.all_eq_true.mp every c, ?_⟩
  intro digit
  have small : c.toNat < 58 := by
    simp only [Decimal.isDigit, Decimal.digitValue?] at digit
    split at digit
    · rename_i within
      have high : c.toNat ≤ '9'.toNat := within.2
      exact Nat.lt_succ_of_le high
    · cases digit
  rw [← Char.ofNat_toNat c] at digit ⊢
  exact below c.toNat small digit

namespace Grammar

/-- A numeral does not begin with white space. -/
theorem numeral_visible (n : Lexeme.Numeral) (rest : List Char) :
    ∀ c ∈ (n.text ++ rest).head?, c ∉ space := by
  have no_digit : ∀ c ∈ space, Decimal.isDigit c = false := Lexeme.forall_of_all (by decide)
  obtain ⟨c, others, split, rfl | digit⟩ := n.text_begins
  · rw [split]
    rintro d ⟨⟩
    decide
  · rw [split]
    rintro d ⟨⟩ mem
    rw [no_digit c mem] at digit
    cases digit

/-- The expression is one for numbers: a sign, digits and a fraction. -/
inductive Numbers (g : Grammar) (r : Ref) : Prop
  | of {sign minus digits digit fraction both point decimals decimal : Ref}
      (isWhole : g.expression r = .combine Lexeme.toNumber [sign, digits, fraction])
      (isSign : g.expression sign = .optional minus .null)
      (isMinus : g.expression minus = .char '-' false)
      (isDigits : g.expression digits = .many digit 1)
      (isDigit : g.expression digit = .oneOf (.ofList Lexeme.digits))
      (isFraction : g.expression fraction = .optional both .null)
      (isBoth : g.expression both = .seq point decimals)
      (isPoint : g.expression point = .char '.' false)
      (isDecimals : g.expression decimals = .many decimal 0)
      (isDecimal : g.expression decimal = .oneOf (.ofList Lexeme.digits)) : Numbers g r

/-- Digits do not begin with a sign. -/
theorem head?_digits {digits rest : List Char} (some_ : digits ≠ [])
    (all : ∀ c ∈ digits, Decimal.isDigit c = true) : ∀ c ∈ (digits ++ rest).head?, c ≠ '-' := by
  obtain ⟨first, others, rfl⟩ := List.exists_cons_of_ne_nil some_
  rintro c ⟨⟩ rfl
  nomatch all '-' (.head _)

/-- A minus sign is taken where there is one. -/
theorem takes_sign {g : Grammar} {k : Nat} {sign minus : Ref} {rest : List Char}
    (isSign : g.expression sign = .optional minus .null)
    (isMinus : g.expression minus = .char '-' false) {negative : Bool}
    (plain : negative = false → ∀ c ∈ rest.head?, c ≠ '-') :
    g.Takes k sign (Decimal.sign negative) rest (Lexeme.Numeral.signDatum negative) := by
  cases negative with
  | true => exact .of isSign (.present (takes_char isMinus))
  | false => exact .of isSign (.absent (refuses_char isMinus (plain rfl)))

section Digits

variable {g : Grammar} {k least : Nat} {digits digit : Ref} {rest : List Char}
variable (isDigits : g.expression digits = .many digit least)
variable (isDigit : g.expression digit = .oneOf (.ofList Lexeme.digits))

include isDigits isDigit in
theorem takes_digits {cs : List Char} (all : ∀ c ∈ cs, Decimal.isDigit c = true)
    (enough : least ≤ cs.length) (behind : ∀ c ∈ rest.head?, c ∉ Lexeme.digits) :
    g.Takes k digits cs rest (.list (cs.map .char)) := by
  refine .of isDigits (.many (rounds_chars ?_ (refuses_oneOf isDigit behind)) (by simpa using enough))
  intro c mem rest
  exact takes_oneOf isDigit (Lexeme.mem_digits_iff.mpr (all c mem))

include isDigits isDigit in
theorem refuses_digits (some_ : 0 < least) (other : ∀ c ∈ rest.head?, c ∉ Lexeme.digits) :
    g.Refuses k digits rest :=
  .of isDigits (.many (.none (refuses_oneOf isDigit other)) some_)

end Digits

section Numbers

open Lexeme (Numeral Number)

variable {g : Grammar} {r : Ref} (numbers : g.Numbers r) (k : Nat) {rest : List Char}

include numbers in
/-- A numeral is taken where neither digits nor a point follow. -/
theorem Numbers.takes {n : Numeral} {v : Number} (value : n.value? = some v)
    (behind : ∀ c ∈ rest.head?, c ∉ Lexeme.digits ∧ c ≠ '.') : g.Takes k r n.text rest v.datum := by
  obtain @⟨sign, _, digits, _, fraction, _, _, _, _, isWhole, isSign, isMinus, isDigits, isDigit,
    isFraction, isBoth, isPoint, isDecimals, isDecimal⟩ := numbers
  have made : Lexeme.toNumber n.parts = .ok v.datum := Lexeme.toNumber_eq_ok.mpr ⟨v, value, rfl⟩
  have signed : g.Takes k sign (Decimal.sign n.negative) (n.whole ++ (n.fraction ++ rest))
      (Numeral.signDatum n.negative) :=
    takes_sign isSign isMinus fun _ => head?_digits n.some_ n.wholeDigits
  have decimals : g.Takes k fraction n.fraction rest (Numeral.fractionDatum n.decimals) := by
    rw [Numeral.fraction]
    cases decimals : n.decimals with
    | none =>
        refine .of isFraction (.absent (refuses_pair isBoth ?_ ?_))
        · rw [isPoint]
          rintro x y ⟨⟩
        · exact refuses_char isPoint fun c here => (behind c here).2
    | some cs =>
        have run : g.Takes k _ cs rest _ := takes_digits isDecimals isDecimal
          (n.decimalDigits cs decimals) (Nat.zero_le _) fun c here => (behind c here).1
        have point : g.Takes k _ ['.'] (cs ++ rest) (.char '.') := takes_char isPoint
        exact .of isFraction (.present (takes_pair isBoth (by rw [isPoint]; rintro x y ⟨⟩) point run))
  have whole : g.Takes k digits n.whole (n.fraction ++ rest) (.list (n.whole.map .char)) := by
    refine takes_digits isDigits isDigit n.wholeDigits (List.length_pos_iff.mpr n.some_) ?_
    rw [Numeral.fraction]
    cases n.decimals with
    | none => exact fun c here => (behind c here).1
    | some cs =>
        rintro c ⟨⟩
        decide
  have row : g.Row k [sign, digits, fraction]
      (Decimal.sign n.negative ++ (n.whole ++ (n.fraction ++ []))) rest n.parts :=
    .cons (by simpa using signed) (.cons (by simpa using whole) (.cons (by simpa using decimals) .nil))
  rw [List.append_nil, ← List.append_assoc] at row
  exact .of isWhole (.combine row made)

include numbers in
/-- An integer is taken as it is written. -/
theorem Numbers.takes_int (i : Int64) (behind : ∀ c ∈ rest.head?, c ∉ Lexeme.digits ∧ c ≠ '.') :
    g.Takes k r (Decimal.ofInt i.toInt) rest (.int i) := by
  rw [← Lexeme.text_ofInt]
  exact numbers.takes k (Lexeme.value?_ofInt i) behind

include numbers in
theorem Numbers.refuses (other : ∀ c ∈ rest.head?, c ∉ Lexeme.digits ∧ c ≠ '-') :
    g.Refuses k r rest := by
  obtain ⟨isWhole, isSign, isMinus, isDigits, isDigit, -⟩ := numbers
  have no_sign : g.Takes k _ [] rest .null :=
    .of isSign (.absent (refuses_char isMinus fun c here => (other c here).2))
  have no_digits : g.Refuses k _ rest :=
    refuses_digits isDigits isDigit Nat.zero_lt_one fun c here => (other c here).1
  exact .of isWhole (.combine (.later no_sign (.here no_digits)))

end Numbers

end Grammar

namespace Build

open Grammar (Numbers)

theorem builds_number {o : List Ref} : Builds o number (fun _ => o) Numbers := by
  refine (builds_add rfl).bind fun minus => ?_
  refine (builds_add rfl).bind fun sign => ?_
  refine (builds_addNamed rfl _).bind fun digit => ?_
  refine (builds_add rfl).bind fun digits => ?_
  refine (builds_add rfl).bind fun point => ?_
  refine (builds_addNamed rfl _).bind fun decimal => ?_
  refine (builds_add rfl).bind fun decimals => ?_
  refine (builds_add rfl).bind fun both => ?_
  refine (builds_add rfl).bind fun fraction => ?_
  refine (builds_add rfl).bind fun whole => ?_
  refine (builds_named _ _).mono ?_
  rintro later r rfl isWhole isFraction isBoth isDecimals isDecimal isPoint isDigits isDigit isSign isMinus
  exact .of isWhole isSign isMinus isDigits isDigit isFraction isBoth isPoint isDecimals isDecimal

end Build

/-! ## Quoted strings -/

namespace Lexeme

/-- The characters that may stand in a quoted string. -/
def quotable : List Char := letters ++ digits ++ blanks ++ punctuation

/-- A character between quotes: the quote behind a backslash, any other as it is. -/
def encodeChar (quote c : Char) : List Char := if c = quote then ['\\', c] else [c]

/-- A text between quotes. -/
def encode (quote : Char) (text : List Char) : List Char := text.flatMap (encodeChar quote)

/-- The punctuation that stands for itself between quotes. -/
def others (quote : Char) : List Char := punctuation.filter fun c => c != quote && c != '\\'

/-- Quotes are not among the other characters. -/
theorem not_mem_of_quote {quote : Char} (quotes : quote = '"' ∨ quote = '\'') :
    quote ≠ '\\' ∧ quote ∉ letters ∧ quote ∉ digits ∧ quote ∉ blanks := by
  rcases quotes with rfl | rfl <;> decide

/-- A text that does not end with a backslash goes on, behind one, with no quote. -/
theorem head?_encode {quote : Char} (quotes : quote = '"' ∨ quote = '\'') {text : List Char}
    (some_ : text ≠ []) (rest : List Char) : ∀ c ∈ (encode quote text ++ rest).head?, c ≠ quote := by
  have slash := (not_mem_of_quote quotes).1
  obtain ⟨c, others, rfl⟩ := List.exists_cons_of_ne_nil some_
  rw [encode, List.flatMap_cons, encodeChar]
  by_cases same : c = quote
  · rw [if_pos same]
    rintro d ⟨⟩
    exact slash.symm
  · rw [if_neg same]
    rintro d ⟨⟩
    exact same

end Lexeme

namespace Grammar

/-- An expression for one character between quotes: of one of four classes, the quote behind a
backslash, or a backslash. -/
inductive QuotedChar (quote : Char) (g : Grammar) (r : Ref) : Prop
  | of {letter digit blank other escape slash : Ref}
      (choice : g.expression r = .choice [letter, digit, blank, other, escape, slash])
      (isLetter : g.expression letter = .oneOf (.ofList Lexeme.letters))
      (isDigit : g.expression digit = .oneOf (.ofList Lexeme.digits))
      (isBlank : g.expression blank = .oneOf (.ofList Lexeme.blanks))
      (isOther : g.expression other = .oneOf (.ofList (Lexeme.others quote)))
      (isEscape : g.expression escape = .escaped quote)
      (isSlash : g.expression slash = .char '\\' false) : QuotedChar quote g r

section QuotedChar

variable {quote : Char} {g : Grammar} {r : Ref} (one : QuotedChar quote g r)
variable (quotes : quote = '"' ∨ quote = '\'')

include one in
/-- A character that belongs to a class, and so is neither the quote nor a backslash. -/
theorem QuotedChar.takes_plain {c : Char} (mem : c ∈ Lexeme.quotable) (other : c ≠ quote)
    (plain : c ≠ '\\') (k : Nat) (rest : List Char) : g.Takes k r [c] rest (.char c) := by
  obtain ⟨choice, isLetter, isDigit, isBlank, isOther, -, -⟩ := one
  refine .of choice (.choice ?_)
  have refuses {s : Ref} {chars : List Char} (form : g.expression s = .oneOf (.ofList chars))
      (not_mem : c ∉ chars) : g.Refuses k s ([c] ++ rest) := by
    refine refuses_oneOf form ?_
    rintro d ⟨⟩
    exact not_mem
  by_cases letter : c ∈ Lexeme.letters
  · exact .here (takes_oneOf isLetter letter)
  refine .later (refuses isLetter letter) ?_
  by_cases digit : c ∈ Lexeme.digits
  · exact .here (takes_oneOf isDigit digit)
  refine .later (refuses isDigit digit) ?_
  by_cases blank : c ∈ Lexeme.blanks
  · exact .here (takes_oneOf isBlank blank)
  refine .later (refuses isBlank blank) (.here (takes_oneOf isOther ?_))
  simp only [Lexeme.quotable, List.mem_append, letter, digit, blank, false_or] at mem
  simpa [Lexeme.others] using ⟨mem, other, plain⟩

include one quotes in
/-- A character that belongs to no class is left to the last two alternatives. -/
theorem QuotedChar.refuses_classes {c : Char} (special : c = quote ∨ c = '\\') (k : Nat)
    (rest : List Char) : ∃ classes escape slash, g.expression r = .choice (classes ++ [escape, slash]) ∧
      (∀ s ∈ classes, g.Refuses k s (c :: rest)) ∧ g.expression escape = .escaped quote ∧
        g.expression slash = .char '\\' false := by
  obtain ⟨-, no_letter, no_digit, no_blank⟩ := Lexeme.not_mem_of_quote quotes
  obtain ⟨choice, isLetter, isDigit, isBlank, isOther, isEscape, isSlash⟩ := one
  have refuses {s : Ref} {chars : List Char} (form : g.expression s = .oneOf (.ofList chars))
      (not_quote : quote ∉ chars) (not_slash : '\\' ∉ chars) : g.Refuses k s (c :: rest) := by
    refine refuses_oneOf form ?_
    rintro d ⟨⟩
    rcases special with rfl | rfl
    · exact not_quote
    · exact not_slash
  refine ⟨[_, _, _, _], _, _, choice, ?_, isEscape, isSlash⟩
  simp only [List.forall_mem_cons]
  exact ⟨refuses isLetter no_letter (by decide), refuses isDigit no_digit (by decide),
    refuses isBlank no_blank (by decide), refuses isOther (by simp [Lexeme.others])
      (by simp [Lexeme.others]), fun _ mem => by cases mem⟩

include one quotes in
theorem QuotedChar.takes {c : Char} (mem : c ∈ Lexeme.quotable) (k : Nat) {rest : List Char}
    (behind : c = '\\' → ∀ d ∈ rest.head?, d ≠ quote) :
    g.Takes k r (Lexeme.encodeChar quote c) rest (.char c) := by
  rw [Lexeme.encodeChar]
  by_cases same : c = quote
  · subst same
    obtain ⟨classes, escape, slash, choice, refuse, isEscape, -⟩ :=
      one.refuses_classes quotes (.inr rfl) k (c :: rest)
    rw [if_pos rfl]
    exact .of choice (.choice (picks_append refuse (.here (takes_escaped isEscape))))
  rw [if_neg same]
  by_cases plain : c = '\\'
  -- A backslash that escapes nothing comes to the last alternative, as long as no quote follows.
  · subst plain
    obtain ⟨classes, escape, slash, choice, refuse, isEscape, isSlash⟩ :=
      one.refuses_classes quotes (.inr rfl) k rest
    have unescaped : g.Refuses k escape (['\\'] ++ rest) := by
      refine refuses_escaped isEscape ?_
      rintro rest' next
      obtain rfl := List.append_cancel_left next
      exact behind rfl quote rfl rfl
    exact .of choice (.choice (picks_append refuse (.later unescaped (.here (takes_char isSlash)))))
  · exact one.takes_plain mem same plain k rest

include one quotes in
/-- The quote by itself ends the text. -/
theorem QuotedChar.refuses (k : Nat) (rest : List Char) : g.Refuses k r (quote :: rest) := by
  obtain ⟨classes, escape, slash, choice, refuse, isEscape, isSlash⟩ :=
    one.refuses_classes quotes (.inl rfl) k rest
  have slash_ne := (Lexeme.not_mem_of_quote quotes).1
  refine .of choice (.choice ?_)
  intro s mem
  have mem : s ∈ classes ∨ s = escape ∨ s = slash := by simpa using mem
  rcases mem with mem | rfl | rfl
  · exact refuse s mem
  · refine refuses_escaped isEscape ?_
    rintro rest' ⟨⟩
    exact slash_ne rfl
  · refine refuses_char isSlash ?_
    rintro d ⟨⟩
    exact slash_ne

include one quotes in
/-- The characters of a text, of which each but the last is followed by the next. -/
theorem QuotedChar.rounds {text : List Char} (all : ∀ c ∈ text, c ∈ Lexeme.quotable)
    (last : text.getLast? ≠ some '\\') (k : Nat) (rest : List Char) :
    g.Rounds k r (Lexeme.encode quote text) (quote :: rest) (text.map .char) := by
  induction text with
  | nil => exact .none (one.refuses quotes k rest)
  | cons c others ih =>
      refine .round (one.takes quotes (all c (.head _)) k ?_) ?_ (ih ?_ ?_)
      -- What follows a backslash has been encoded itself, so it begins with no quote.
      · rintro rfl
        have some_ : others ≠ [] := by
          rintro rfl
          exact last rfl
        exact Lexeme.head?_encode quotes some_ _
      · rw [Lexeme.encodeChar]
        split <;> exact List.cons_ne_nil _ _
      · exact fun d mem => all d (.tail _ mem)
      · intro slash
        have some_ : others ≠ [] := by
          rintro rfl
          cases slash
        exact last (by rwa [List.getLast?_cons_of_ne_nil some_])

end QuotedChar

/-- The expression is one for what stands between quotes. -/
inductive Fills (quote : Char) (g : Grammar) (r : Ref) : Prop
  | of {one : Ref} (isRun : g.expression r = .many one 0) (chars : QuotedChar quote g one) :
      Fills quote g r

/-- In front of the closing quote the expression takes what an encoded text holds. -/
theorem Fills.takes {quote : Char} {g : Grammar} {r : Ref} (fills : Fills quote g r)
    (quotes : quote = '"' ∨ quote = '\'') (k : Nat) {text : List Char}
    (all : ∀ c ∈ text, c ∈ Lexeme.quotable) (last : text.getLast? ≠ some '\\') (rest : List Char) :
    g.Takes k r (Lexeme.encode quote text) (quote :: rest) (.list (text.map .char)) := by
  obtain ⟨isRun, chars⟩ := fills
  exact .of isRun (.many (chars.rounds quotes all last k rest) (Nat.zero_le _))

/-- The expression is one for texts in double or in single quotes. -/
inductive Quotes (g : Grammar) (r : Ref) : Prop
  | of {either inDouble inSingle double single doubleQuote singleQuote : Ref}
      (isWhole : g.expression r = .transform (fun d => .ok d.asText) either)
      (isEither : g.expression either = .orElse inDouble inSingle)
      (inDoubles : g.Encloses double doubleQuote inDouble)
      (inSingles : g.Encloses single singleQuote inSingle)
      (fills : Fills '"' g double) (fills' : Fills '\'' g single)
      (isDouble : g.expression doubleQuote = .char '"' false)
      (isSingle : g.expression singleQuote = .char '\'' false) : Quotes g r

section Quotes

variable {g : Grammar} {r : Ref} (quotes : g.Quotes r) (k : Nat) {rest : List Char}

include quotes in
/-- A text in quotes is taken, if each of its characters may stand there. -/
theorem Quotes.takes {quote : Char} (isQuote : quote = '"' ∨ quote = '\'') {text : List Char}
    (all : ∀ c ∈ text, c ∈ Lexeme.quotable) (last : text.getLast? ≠ some '\\') :
    g.Takes k r (quote :: Lexeme.encode quote text ++ [quote]) rest (.text (String.ofList text)) := by
  obtain @⟨either, _, _, _, _, _, _, isWhole, isEither, inDoubles, inSingles, fills, fills', isDouble,
    isSingle⟩ := quotes
  have whole : g.Takes k either (quote :: Lexeme.encode quote text ++ [quote]) rest
      (.list (text.map .char)) := by
    refine .of isEither (.orElse ?_)
    rcases isQuote with rfl | rfl
    · exact .here (inDoubles.takes (takes_char isDouble) (fills.takes (.inl rfl) k all last rest)
        (takes_char isDouble))
    · refine .later (inDoubles.refuses (refuses_char isDouble ?_))
        (.here (inSingles.takes (takes_char isSingle) (fills'.takes (.inr rfl) k all last rest)
          (takes_char isSingle)))
      rintro c ⟨⟩
      decide
  exact .of isWhole (.transform whole (by rw [Datum.asText_chars]))

include quotes in
/-- Nothing is taken without a quote in front. -/
theorem Quotes.refuses (other : ∀ c ∈ rest.head?, c ≠ '"' ∧ c ≠ '\'') : g.Refuses k r rest := by
  obtain ⟨isWhole, isEither, inDoubles, inSingles, -, -, isDouble, isSingle⟩ := quotes
  refine .of isWhole (.transform (.of isEither (.orElse ?_)))
  simp only [List.forall_mem_cons]
  exact ⟨inDoubles.refuses (refuses_char isDouble fun c here => (other c here).1),
    inSingles.refuses (refuses_char isSingle fun c here => (other c here).2),
    fun _ mem => by cases mem⟩

end Quotes

end Grammar

namespace Build

open Grammar (Fills Quotes)

theorem builds_quotedBody {o : List Ref} (quote : Char) (label : String) :
    Builds o (quotedBody quote label) (fun _ => o) (Fills quote) := by
  refine (builds_addNamed rfl _).bind fun letter => ?_
  refine (builds_addNamed rfl _).bind fun digit => ?_
  refine (builds_addNamed rfl _).bind fun blank => ?_
  refine (builds_addNamed rfl _).bind fun other => ?_
  refine (builds_add rfl).bind fun escape => ?_
  refine (builds_add rfl).bind fun slash => ?_
  refine (builds_add rfl).bind fun one => ?_
  refine (builds_add rfl).mono ?_
  intro later r isRun isChoice isSlash isEscape isOther isBlank isDigit isLetter
  exact .of isRun (.of isChoice isLetter isDigit isBlank isOther isEscape isSlash)

theorem builds_quotedString {o : List Ref} : Builds o quotedString (fun _ => o) Quotes := by
  refine (builds_quotedBody '"' _).bind fun double => ?_
  refine (builds_quotedBody '\'' _).bind fun single => ?_
  refine (builds_add rfl).bind fun doubleQuote => ?_
  refine (builds_enclosed double doubleQuote).bind fun inDouble => ?_
  refine (builds_add rfl).bind fun singleQuote => ?_
  refine (builds_enclosed single singleQuote).bind fun inSingle => ?_
  refine (builds_add rfl).bind fun either => ?_
  refine (builds_add rfl).bind fun whole => ?_
  refine (builds_named _ _).mono ?_
  rintro later r rfl isWhole isEither inSingles isSingle inDoubles isDouble fills' fills
  exact .of isWhole isEither inDoubles inSingles fills fills' isDouble isSingle

end Build

/-! ## Bare texts -/

namespace Text

/-- A printable ASCII character other than the backslash. -/
def Bare (c : Char) : Prop := 0x20 ≤ c.toNat ∧ c.toNat ≤ 0x7e ∧ c ≠ '\\'

/-- What holds of all the characters there are between the blank and the tilde. -/
theorem Bare.induction {property : Char → Prop}
    (all : ∀ n < 0x7f, 0x20 ≤ n → property (Char.ofNat n)) {c : Char} (bare : Bare c) : property c := by
  rw [← Char.ofNat_toNat c]
  exact all c.toNat (Nat.lt_succ_of_le bare.2.1) bare.1

theorem Bare.quotable {c : Char} (bare : Bare c) : c ∈ Lexeme.quotable := by
  have all : ∀ n < 0x7f, 0x20 ≤ n → Char.ofNat n ∈ Lexeme.quotable := by decide +kernel
  exact bare.induction all

theorem Bare.isPlain {c : Char} (bare : Bare c) : Text.isPlain c = true := by
  have all : ∀ n < 0x7f, 0x20 ≤ n → Text.isPlain (Char.ofNat n) = true := by decide +kernel
  exact @Bare.induction (Text.isPlain · = true) all c bare

/-- Of a bare text nothing is escaped but the quotes. -/
theorem quote_bare {text : List Char} (bare : ∀ c ∈ text, Bare c) :
    quote isPlain '"' text = '"' :: Lexeme.encode '"' text ++ ['"'] := by
  have each : ∀ c ∈ text, quoteChar isPlain '"' c = Lexeme.encodeChar '"' c := by
    intro c mem
    have visible (d : Char) (control : d.toNat < 0x20) : c ≠ d := by
      rintro rfl
      exact absurd (bare c mem).1 (Nat.not_le.mpr control)
    rw [quoteChar, if_neg (visible _ (by decide)), if_neg (visible _ (by decide)),
      if_neg (visible _ (by decide)), if_neg (visible _ (by decide)), if_neg (bare c mem).2.2,
      if_pos (bare c mem).isPlain, Lexeme.encodeChar]
    split <;> rename_i same
    · rw [same]
    · rfl
  rw [quote, Lexeme.encode, List.flatMap_congr each]

end Text

/-- A bare text is taken as it is written. -/
theorem Grammar.Quotes.takes_bare {g : Grammar} {r : Ref} (quotes : g.Quotes r) (k : Nat) {s : String}
    (bare : ∀ c ∈ s.toList, Text.Bare c) (rest : List Char) :
    g.Takes k r (Text.quote Text.isPlain '"' s.toList) rest (.text s) := by
  have last : s.toList.getLast? ≠ some '\\' := by
    intro last
    exact (bare '\\' (List.mem_of_getLast? last)).2.2 rfl
  have takes : g.Takes k r ('"' :: Lexeme.encode '"' s.toList ++ ['"']) rest _ :=
    quotes.takes k (.inl rfl) (fun c mem => (bare c mem).quotable) last
  rwa [String.ofList_toList, ← Text.quote_bare bare] at takes

end PegMachine
