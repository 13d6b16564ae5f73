/-
# PegMachine.Proofs.Numerals — numbers as they are written

A numeral is an optional minus sign, at least one digit, and perhaps a point with more digits, of
which there may be none. Without a point it denotes an integer, which must fit into 64 bits; with
one it denotes the double nearest to it. Reading a numeral yields what it denotes, and fails if
it denotes nothing (`toNumber_eq_ok`).
-/
import PegMachine.Grammar.Lexemes

namespace PegMachine.Lexeme

set_option autoImplicit false

/-- An integer or a double. -/
inductive Number where
  | int (i : Int64)
  | float (x : Float)

/-- A number as a datum. -/
def Number.datum : Number → Datum
  | .int i => .int i
  | .float x => .float x

/-- An integer of 64 bits. -/
def Number.ofInt? (i : Int) : Option Number :=
  if Int64.minValue.toInt ≤ i ∧ i ≤ Int64.maxValue.toInt then some (.int (Int64.ofInt i)) else none

/-- A number as it is written. -/
structure Numeral where
  negative : Bool
  /-- The digits in front of the point. -/
  whole : List Char
  /-- The digits behind the point, if there is one. -/
  decimals : Option (List Char)
  some_ : whole ≠ []
  wholeDigits : ∀ c ∈ whole, Decimal.isDigit c = true
  decimalDigits : ∀ cs ∈ decimals, ∀ c ∈ cs, Decimal.isDigit c = true

namespace Numeral

/-- The point and the digits behind it. -/
def fraction (n : Numeral) : List Char := n.decimals.elim [] ('.' :: ·)

/-- The characters of a numeral. -/
def text (n : Numeral) : List Char := Decimal.sign n.negative ++ n.whole ++ n.fraction

/-- What a numeral denotes: an integer in its range, or the nearest double. -/
def value? (n : Numeral) : Option Number :=
  match n.decimals with
  | none => Number.ofInt? (Decimal.signed n.negative (Decimal.ofDigits n.whole))
  | some cs => some (.float
      (Decimal.nearestDecimal n.negative (Decimal.ofDigits (n.whole ++ cs)) (-cs.length)))

/-- The datum for a sign that may be missing. -/
def signDatum (negative : Bool) : Datum := if negative then .char '-' else .null

/-- The datum for the fraction, where there is one. -/
def fractionDatum (decimals : Option (List Char)) : Datum :=
  decimals.elim .null fun cs => .list [.char '.', .list (cs.map .char)]

/-- The data of the parts of a numeral. -/
def parts (n : Numeral) : List Datum :=
  [signDatum n.negative, .list (n.whole.map .char), fractionDatum n.decimals]

end Numeral

/-- A numeral begins with its sign or with a digit. -/
theorem Numeral.text_begins (n : Numeral) :
    ∃ c others, n.text = c :: others ∧ (c = '-' ∨ Decimal.isDigit c = true) := by
  obtain ⟨first, others, split⟩ := List.exists_cons_of_ne_nil n.some_
  have digit := n.wholeDigits first (by simp [split])
  cases sign : n.negative with
  | true => exact ⟨'-', _, by rw [text, sign]; rfl, .inl rfl⟩
  | false => exact ⟨first, _, by rw [text, sign, split]; rfl, .inr digit⟩

/-! ## Reading numerals -/

theorem joined?_chars (cs : List Char) : (Datum.list (cs.map .char)).joined? = some cs := by
  have items : Datum.joinedItems? (cs.map .char) = some cs := by
    induction cs with
    | nil => rfl
    | cons c cs ih => simp [Datum.joinedItems?, Datum.joined?, ih]
  exact items

theorem joined?_sign (negative : Bool) :
    (Numeral.signDatum negative).joined? = some (Decimal.sign negative) := by
  cases negative <;> rfl

theorem numberText_parts (n : Numeral) : numberText n.parts = n.text := by
  have fraction : (Numeral.fractionDatum n.decimals).joined? = some n.fraction := by
    rw [Numeral.fraction]
    cases n.decimals with
    | none => rfl
    | some cs =>
        have items := joined?_chars cs
        simp [Numeral.fractionDatum, Datum.joined?, Datum.joinedItems?] at items ⊢
        simp [items]
  rw [numberText, Numeral.parts, List.filterMap_cons_some (joined?_sign _),
    List.filterMap_cons_some (joined?_chars _), List.filterMap_cons_some fraction, Numeral.text]
  simp

theorem holds_int64_iff {i : Int} : Decimal.IntegerRange.int64.Holds i ↔
    Int64.minValue.toInt ≤ i ∧ i ≤ Int64.maxValue.toInt := by
  have low : Int64.minValue.toInt = -0x8000000000000000 := by decide
  have high : Int64.maxValue.toInt = 0x7FFFFFFFFFFFFFFF := by decide
  rw [low, high]
  exact Iff.rfl

theorem readInteger_text {n : Numeral} (whole : n.decimals = none) (kind : String) :
    (readInteger kind n.text).toOption = n.value?.map Number.datum := by
  have text : n.text = Decimal.sign n.negative ++ n.whole := by
    simp [Numeral.text, Numeral.fraction, whole]
  have reads {i : Int} : Decimal.readInteger .int64 (Decimal.sign n.negative ++ n.whole) = .ok i ↔
      i = Decimal.signed n.negative (Decimal.ofDigits n.whole) ∧ Decimal.IntegerRange.int64.Holds i :=
    Decimal.readInteger_sign ⟨by decide, by decide⟩ (fun _ => by decide) n.some_ n.wholeDigits
  have value : n.value? =
      Number.ofInt? (Decimal.signed n.negative (Decimal.ofDigits n.whole)) := by
    rw [Numeral.value?, whole]
  rw [readInteger, Decimal.readInt64, text, value, Number.ofInt?]
  by_cases holds :
      Decimal.IntegerRange.int64.Holds (Decimal.signed n.negative (Decimal.ofDigits n.whole))
  · rw [reads.mpr ⟨rfl, holds⟩, if_pos (holds_int64_iff.mp holds)]
    rfl
  · rw [if_neg (fun within => holds (holds_int64_iff.mpr within))]
    cases read : Decimal.readInteger .int64 (Decimal.sign n.negative ++ n.whole) with
    | error e => rfl
    | ok i =>
        obtain ⟨rfl, within⟩ := reads.mp read
        exact absurd within holds

theorem readFloat_text {n : Numeral} {cs : List Char} (decimals : n.decimals = some cs)
    (kind : String) : (readFloat kind n.text).toOption = n.value?.map Number.datum := by
  have text : n.text = Decimal.sign n.negative ++ n.whole ++ '.' :: cs := by
    simp [Numeral.text, Numeral.fraction, decimals]
  rw [readFloat, text, Decimal.readFloat_decimal n.negative n.some_ n.wholeDigits
    (n.decimalDigits cs decimals)]
  simp [Numeral.value?, decimals, Number.datum, Except.toOption]

/-- What is made of the parts of a numeral is what it denotes. -/
theorem toNumber_parts (n : Numeral) : (toNumber n.parts).toOption = n.value?.map Number.datum := by
  have third : Datum.nth n.parts 2 = Numeral.fractionDatum n.decimals := rfl
  rw [toNumber, third, numberText_parts]
  cases decimals : n.decimals with
  | none => exact readInteger_text decimals "number"
  | some cs => exact readFloat_text decimals "number"

theorem toNumber_eq_ok {n : Numeral} {d : Datum} :
    toNumber n.parts = .ok d ↔ ∃ v, n.value? = some v ∧ v.datum = d := by
  rw [← Option.map_eq_some_iff, ← toNumber_parts]
  cases toNumber n.parts <;> simp [Except.toOption]

/-! ## Integers as they are written -/

/-- The numeral of an integer. -/
def Numeral.ofInt (i : Int) : Numeral where
  negative := decide (i < 0)
  whole := Decimal.digits i.natAbs
  decimals := none
  some_ := Decimal.digits_ne_nil _
  wholeDigits := Decimal.digits_all _
  decimalDigits := by rintro cs ⟨⟩

theorem text_ofInt (i : Int) : (Numeral.ofInt i).text = Decimal.ofInt i := by
  rw [Decimal.ofInt_eq, Numeral.text]
  exact List.append_nil _

theorem value?_ofInt (i : Int64) : (Numeral.ofInt i.toInt).value? = some (.int i) := by
  have whole := Decimal.signed_ofDigits i.toInt
  have holds : Decimal.IntegerRange.int64.Holds i.toInt :=
    ⟨Int64.le_toInt i, Int.le_of_lt_add_one (Int64.toInt_lt i)⟩
  show Number.ofInt? (Decimal.signed (decide (i.toInt < 0)) _) = _
  rw [Numeral.ofInt, whole, Number.ofInt?, if_pos (holds_int64_iff.mp holds), Int64.ofInt_toInt]

end PegMachine.Lexeme
