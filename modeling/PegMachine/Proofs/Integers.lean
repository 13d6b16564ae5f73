/-
# PegMachine.Proofs.Integers — integers are read as they are written

An integer of 64 bits is written as an optional minus sign and digits, any number of them and
with leading zeros or not (`Lexeme.Writes`). The expression for integers takes all digits there
are, so that it comes to the same whether the rest of the input is looked at from the left or it
is asked what can stand there: in front of any rest, either such a text stands and is taken, or
everything is refused (`Integers.takes_or_refuses`). It is refused where no digit follows the
sign, and where the number is out of range.

So a parse matches exactly the integers of 64 bits, up to the last digit
(`integer_parses_iff`), and every one of them is read back from its display.
-/
import Mathlib.Data.List.TakeWhile
import PegMachine.Proofs.Lexing
import PegMachine.Proofs.Orderly

namespace PegMachine

set_option autoImplicit false

open Grammar (CompileOptions Lowered Orderly)

/-! ## Integers as they are written -/

/-- Behind an optional sign, digits are read as the number they denote, if that has 64 bits. -/
theorem Decimal.readInt64_sign {negative : Bool} {digits : List Char} (some_ : digits ≠ [])
    (all : ∀ c ∈ digits, isDigit c = true) {i : Int64} :
    readInt64 (sign negative ++ digits) = .ok i ↔ i.toInt = signed negative (ofDigits digits) := by
  have reads (n : Int) : readInteger .int64 (sign negative ++ digits) = .ok n ↔
      n = signed negative (ofDigits digits) ∧ IntegerRange.int64.Holds n :=
    readInteger_sign ⟨by decide, by decide⟩ (fun _ => by decide) some_ all
  rw [readInt64]
  constructor
  · intro read
    cases found : readInteger .int64 (sign negative ++ digits) with
    | error e =>
        rw [found] at read
        cases read
    | ok n =>
        obtain ⟨same, low, high⟩ := (reads n).mp found
        rw [found] at read
        obtain rfl := Except.ok.inj read
        rw [← same]
        exact Int64.toInt_ofInt_of_le low (Int.lt_add_one_of_le high)
  · intro same
    have holds : IntegerRange.int64.Holds i.toInt :=
      ⟨Int64.le_toInt i, Int.le_of_lt_add_one (Int64.toInt_lt i)⟩
    rw [(reads i.toInt).mpr ⟨same, holds⟩]
    exact congrArg Except.ok (Int64.ofInt_toInt i)

namespace Lexeme

/-- A text is an optional sign and digits that denote an integer of 64 bits. -/
inductive Writes (i : Int64) : List Char → Prop
  | of {negative : Bool} {digits : List Char} (some_ : digits ≠ [])
      (all : ∀ c ∈ digits, Decimal.isDigit c = true)
      (value : i.toInt = Decimal.signed negative (Decimal.ofDigits digits)) :
      Writes i (Decimal.sign negative ++ digits)

/-- Every integer is written like that by the printer. -/
theorem writes_ofInt (i : Int64) : Writes i (Decimal.ofInt i.toInt) := by
  rw [Decimal.ofInt_eq]
  exact .of (Decimal.digits_ne_nil _) (Decimal.digits_all _) (Decimal.signed_ofDigits _).symm

/-- What is made of a sign and digits is the integer they denote, if it has 64 bits. -/
theorem toInteger_eq_ok {negative : Bool} {digits : List Char} (some_ : digits ≠ [])
    (all : ∀ c ∈ digits, Decimal.isDigit c = true) {d : Datum} :
    toInteger [Numeral.signDatum negative, .list (digits.map .char)] = .ok d ↔
      ∃ i : Int64, i.toInt = Decimal.signed negative (Decimal.ofDigits digits) ∧ d = .int i := by
  have text : numberText [Numeral.signDatum negative, .list (digits.map .char)] =
      Decimal.sign negative ++ digits := by
    rw [numberText, List.filterMap_cons_some (joined?_sign negative),
      List.filterMap_cons_some (joined?_chars digits)]
    simp
  simp only [← Decimal.readInt64_sign some_ all]
  rw [toInteger, readInteger, text]
  cases Decimal.readInt64 (Decimal.sign negative ++ digits) with
  | ok i => simp [eq_comm]
  | error e => simp

end Lexeme

/-! ## The expression for integers -/

namespace Grammar

/-- The expression is one for integers: a sign and digits. -/
inductive Integers (g : Grammar) (r : Ref) : Prop
  | of {sign minus digits digit : Ref}
      (isWhole : g.expression r = .combine Lexeme.toInteger [sign, digits])
      (isSign : g.expression sign = .optional minus .null)
      (isMinus : g.expression minus = .char '-' false)
      (isDigits : g.expression digits = .many digit 1)
      (isDigit : g.expression digit = .oneOf (.ofList Lexeme.digits)) : Integers g r

section Integers

variable {g : Grammar} {r : Ref} {k : Nat} {rest : List Char}

theorem Integers.forest (integers : g.Integers r) : g.Forest 5 [r] := by
  obtain ⟨isWhole, isSign, isMinus, isDigits, isDigit⟩ := integers
  have sign := forest_of isSign rfl nofun (forest_leaf isMinus rfl)
  have digits := forest_of isDigits rfl nofun (forest_leaf isDigit rfl)
  exact forest_of isWhole rfl nofun (sign.join digits)

end Integers

theorem not_mem_digits {rest : List Char} (behind : ∀ c ∈ rest.head?, Decimal.isDigit c = false) :
    ∀ c ∈ rest.head?, c ∉ Lexeme.digits := by
  intro c first mem
  nomatch (Lexeme.mem_digits_iff.mp mem).symm.trans (behind c first)

/-- Every text is digits and a rest that begins with none. -/
theorem exists_digits (text : List Char) :
    ∃ digits rest, text = digits ++ rest ∧ (∀ c ∈ digits, Decimal.isDigit c = true) ∧
      ∀ c ∈ rest.head?, Decimal.isDigit c = false := by
  refine ⟨text.takeWhile Decimal.isDigit, text.dropWhile Decimal.isDigit,
    List.takeWhile_append_dropWhile.symm, fun c => List.mem_takeWhile_imp, ?_⟩
  intro c first
  have stopped := List.head?_dropWhile_not Decimal.isDigit text
  rw [first] at stopped
  exact stopped

/-- Every text is a sign or none, digits, and a rest that does not go on with them. -/
theorem exists_sign_digits (text : List Char) :
    ∃ negative digits rest, text = Decimal.sign negative ++ (digits ++ rest) ∧
      (∀ c ∈ digits, Decimal.isDigit c = true) ∧ (∀ c ∈ rest.head?, Decimal.isDigit c = false) ∧
        (negative = false → ∀ c ∈ (digits ++ rest).head?, c ≠ '-') := by
  by_cases signed : text.head? = some '-'
  · obtain ⟨behind, rfl⟩ := List.head?_eq_some_iff.mp signed
    obtain ⟨digits, rest, rfl, all, behind⟩ := exists_digits behind
    exact ⟨true, digits, rest, rfl, all, behind, nofun⟩
  · obtain ⟨digits, rest, rfl, all, behind⟩ := exists_digits text
    refine ⟨false, digits, rest, rfl, all, behind, ?_⟩
    rintro - c first rfl
    exact signed first

section Integers

variable {g : Grammar} {root : Ref} {options : CompileOptions} {lowered : Lowered}
variable {input : Array Char} {pos : Nat} (integers : g.Integers root) {k : Nat}

/-- A sign and digits are taken one behind the other, where no digit follows. -/
theorem row_sign_digits {sign minus run digit : Ref} {negative : Bool} {digits rest : List Char}
    (isSign : g.expression sign = .optional minus .null)
    (isMinus : g.expression minus = .char '-' false) (isDigits : g.expression run = .many digit 1)
    (isDigit : g.expression digit = .oneOf (.ofList Lexeme.digits)) (some_ : digits ≠ [])
    (all : ∀ c ∈ digits, Decimal.isDigit c = true)
    (behind : ∀ c ∈ rest.head?, Decimal.isDigit c = false) :
    g.Row k [sign, run] (Decimal.sign negative ++ digits) rest
      [Lexeme.Numeral.signDatum negative, .list (digits.map .char)] := by
  have first : g.Takes k sign (Decimal.sign negative) (digits ++ rest) _ :=
    takes_sign isSign isMinus fun _ => head?_digits some_ all
  have second : g.Takes k run digits rest _ :=
    takes_digits isDigits isDigit all (List.length_pos_iff.mpr some_) (not_mem_digits behind)
  have row : g.Row k [sign, run] (Decimal.sign negative ++ (digits ++ [])) rest _ :=
    .cons (by rwa [List.append_nil]) (.cons second .nil)
  rwa [List.append_nil] at row

include integers in
/-- An integer is taken where no digit follows. -/
theorem Integers.takes {written rest : List Char} {i : Int64} (writes : Lexeme.Writes i written)
    (behind : ∀ c ∈ rest.head?, Decimal.isDigit c = false) : g.Takes k root written rest (.int i) := by
  obtain ⟨isWhole, isSign, isMinus, isDigits, isDigit⟩ := integers
  obtain ⟨some_, all, value⟩ := writes
  exact .of isWhole (.combine (row_sign_digits isSign isMinus isDigits isDigit some_ all behind)
    ((Lexeme.toInteger_eq_ok some_ all).mpr ⟨i, value, rfl⟩))

include integers in
/-- In front of any text an integer stands, up to its last digit, or everything is refused. -/
theorem Integers.writes_or_refuses (k : Nat) (text : List Char) :
    (∃ written rest i, text = written ++ rest ∧ Lexeme.Writes i written ∧
      ∀ c ∈ rest.head?, Decimal.isDigit c = false) ∨ g.Refuses k root text := by
  obtain @⟨sign, _, run, _, isWhole, isSign, isMinus, isDigits, isDigit⟩ := integers
  obtain ⟨negative, digits, rest, rfl, all, behind, plain⟩ := exists_sign_digits text
  by_cases none_ : digits = []
  · subst none_
    have first : g.Takes k sign (Decimal.sign negative) rest _ := takes_sign isSign isMinus plain
    have second : g.Refuses k run rest :=
      refuses_digits isDigits isDigit Nat.zero_lt_one (not_mem_digits behind)
    exact .inr (.of isWhole (.combine (.later first (.here second))))
  rw [← List.append_assoc]
  cases made : Lexeme.toInteger [Lexeme.Numeral.signDatum negative, .list (digits.map .char)] with
  | error message =>
      have row : g.Row k [sign, run] (Decimal.sign negative ++ digits) rest _ :=
        row_sign_digits isSign isMinus isDigits isDigit none_ all behind
      exact .inr (.of isWhole (.combineRejected row made))
  | ok d =>
      obtain ⟨i, value, -⟩ := (Lexeme.toInteger_eq_ok none_ all).mp made
      exact .inl ⟨_, rest, i, rfl, .of none_ all value, behind⟩

include integers in
/-- A parse with an expression for integers matches an integer up to its last digit. -/
theorem Integers.parses_iff (regular : g.Regular root) (compiled : g.compile options root = .ok lowered)
    {m : Match} : lowered.bytecode.Parses input pos (.ok m) ↔
      ∃ i written rest, Lexeme.Writes i written ∧ Spans input pos m.stop written rest ∧
        (∀ c ∈ rest.head?, Decimal.isDigit c = false) ∧ m.value = .int i := by
  have matches_ {i : Int64} {written rest : List Char} (writes : Lexeme.Writes i written)
      (behind : ∀ c ∈ rest.head?, Decimal.isDigit c = false)
      (stands : input.toList.drop pos = written ++ rest) :
      lowered.bytecode.Parses input pos (.ok ⟨.int i, pos + written.length⟩) :=
    parses_of_takes compiled (fun _ => regular) (Nat.zero_le _) (integers.takes writes behind) stands
  constructor
  · intro parses
    rcases integers.writes_or_refuses 0 (input.toList.drop pos) with
      ⟨written, rest, i, stands, writes, behind⟩ | refuses
    · obtain rfl := Except.ok.inj (Bytecode.parses_unique parses (matches_ writes behind stands))
      exact ⟨i, written, rest, writes, ⟨stands, rfl⟩, behind, rfl⟩
    · obtain ⟨f, fails⟩ := fails_of_refuses compiled (fun _ => regular) (Nat.zero_le _) refuses
      nomatch Bytecode.parses_unique parses fails
  · rintro ⟨i, written, rest, writes, ⟨stands, stop⟩, behind, value⟩
    have parses := matches_ writes behind stands
    rwa [← value, ← stop] at parses

end Integers

end Grammar

namespace Build

open Grammar (Integers)

theorem builds_integer {o : List Ref} : Builds o integer (fun _ => o) Integers := by
  refine (builds_add rfl).bind fun minus => ?_
  refine (builds_add rfl).bind fun sign => ?_
  refine (builds_addNamed rfl _).bind fun digit => ?_
  refine (builds_add rfl).bind fun digits => ?_
  refine (builds_add rfl).bind fun whole => ?_
  refine (builds_named _ _).mono ?_
  rintro later r rfl isWhole isDigits isDigit isSign isMinus
  exact .of isWhole isSign isMinus isDigits isDigit

theorem grows_integer {refs : List Ref} : Grows refs integer := by
  refine (grows_leaf rfl).bind fun minus => ?_
  refine (grows_add (by simp [Expression.children]) rfl).bind fun sign => ?_
  refine (grows_leafNamed rfl _).bind fun digit => ?_
  refine (grows_add (by simp [Expression.children]) rfl).bind fun digits => ?_
  refine (grows_add (by simp [Expression.children]) rfl).bind fun whole => ?_
  exact grows_named (by simp) _

/-- In any grammar that is in order, the expression for integers is compiled, condensed or not, and a
parse with it matches exactly the integers of 64 bits, an optional sign and all the digits there are;
so every such integer is read back from its display. -/
theorem integer_parses_iff {g : Grammar} (orderly : g.Orderly) (options : CompileOptions) :
    ∃ lowered : Lowered, integer.compile g options = .ok lowered ∧
      (∀ (input : Array Char) (pos : Nat) (m : Match), lowered.bytecode.Parses input pos (.ok m) ↔
        ∃ i written rest, Lexeme.Writes i written ∧ Spans input pos m.stop written rest ∧
          (∀ c ∈ rest.head?, Decimal.isDigit c = false) ∧ m.value = .int i) ∧
      ∀ i : Int64, lowered.bytecode.Parses (Datum.int i).display.toList.toArray 0
        (.ok ⟨.int i, (Datum.int i).display.length⟩) := by
  have integers := builds_integer.holds g
  obtain ⟨regular, lowered, compiled⟩ :=
    grows_integer.compiles orderly integers.forest (by decide) options
  refine ⟨lowered, (compile_eq _ g options).trans compiled, ?_, ?_⟩
  · exact fun input pos m => integers.parses_iff regular compiled
  · intro i
    have text : (Datum.int i).display.toList = Decimal.ofInt i.toInt := by
      rw [Datum.display, String.toList_ofList]
      rfl
    rw [integers.parses_iff regular compiled]
    refine ⟨i, (Datum.int i).display.toList, [], ?_, ⟨by simp, ?_⟩, nofun, rfl⟩
    · rw [text]
      exact Lexeme.writes_ofInt i
    · rw [Nat.zero_add, String.length_toList]

/-- The least integer is read from behind a letter, with a leading zero and up to another letter. -/
theorem least_integer_read :
    Orderly Grammar.brackets.1 ∧
      ∃ lowered, integer.compile Grammar.brackets.1 ⟨true, false⟩ = .ok lowered ∧
        lowered.bytecode.Parses "x-09223372036854775808y".toList.toArray 1
          (.ok ⟨.int Int64.minValue, 22⟩) := by
  obtain ⟨lowered, compiled, parses, -⟩ := integer_parses_iff Grammar.brackets_orderly ⟨true, false⟩
  refine ⟨Grammar.brackets_orderly, lowered, compiled, (parses _ 1 _).mpr ?_⟩
  refine ⟨Int64.minValue, "-09223372036854775808".toList, ['y'], ?_, ⟨?_, ?_⟩, ?_, rfl⟩
  · have digits : ∀ c ∈ "09223372036854775808".toList, Decimal.isDigit c = true :=
      Lexeme.forall_of_all (by decide)
    have value : Int64.minValue.toInt =
      Decimal.signed true (Decimal.ofDigits "09223372036854775808".toList) := by decide
    exact .of (by decide) digits value
  · decide
  · decide
  · rintro c ⟨⟩
    decide

end Build

end PegMachine
