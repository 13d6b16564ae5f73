/-
# PegMachine.Decimal.Integer — reading integers of a given range

An integer is written as an optional sign and at least one digit; a minus sign is
a sign only where the range reaches below zero. The digits are read from the left
and the reading stops at the first that is wrong: a character that is no digit,
or a digit with which the number leaves the range. So of two faults the one
further left is reported (`IntegerError`). Digits are read in full if the whole number lies
in the range (`readDigits_of_holds`), for it is farther from zero than what was read before.
-/
import PegMachine.Decimal.Digits

namespace PegMachine.Decimal

set_option autoImplicit false

/-- Why a text is no integer of the range. -/
inductive IntegerError where
  | empty
  | invalidDigit
  | tooLarge
  | tooSmall
  deriving DecidableEq, Repr

/-- The wording of an integer error. -/
def IntegerError.message : IntegerError → String
  | .empty => "cannot parse integer from empty string"
  | .invalidDigit => "invalid digit found in string"
  | .tooLarge => "number too large to fit in target type"
  | .tooSmall => "number too small to fit in target type"

/-- The integers from `low` to `high`. -/
structure IntegerRange where
  low : Int
  high : Int

/-- The 64-bit integers. -/
def IntegerRange.int64 : IntegerRange := ⟨-0x8000000000000000, 0x7FFFFFFFFFFFFFFF⟩

/-- The numbers of one byte. -/
def IntegerRange.byte : IntegerRange := ⟨0, 255⟩

/-- Whether an integer lies in the range. -/
def IntegerRange.Holds (range : IntegerRange) (i : Int) : Prop := range.low ≤ i ∧ i ≤ range.high

/-- Read on from the number `sofar`; each digit counts away from zero. -/
def readDigits (range : IntegerRange) (negative : Bool) (sofar : Int) :
    List Char → Except IntegerError Int
  | [] => .ok sofar
  | c :: rest =>
    match digitValue? c with
    | none => .error .invalidDigit
    | some d =>
      let next := if negative then 10 * sofar - d else 10 * sofar + d
      if next < range.low then .error .tooSmall
      else if range.high < next then .error .tooLarge
      else readDigits range negative next rest

/-- Read a signed decimal integer of the range. A sign alone is an invalid digit. -/
def readInteger (range : IntegerRange) : List Char → Except IntegerError Int
  | [] => .error .empty
  | c :: rest =>
    if c = '+' ∧ rest ≠ [] then readDigits range false 0 rest
    else if c = '-' ∧ rest ≠ [] ∧ range.low < 0 then readDigits range true 0 rest
    else readDigits range false 0 (c :: rest)

/-- Read a 64-bit integer. -/
def readInt64 (text : List Char) : Except IntegerError Int64 :=
  (readInteger .int64 text).map Int64.ofInt

/-! ## Reading what was written -/

/-- A number counted away from zero, in the direction of its sign. -/
def signed (negative : Bool) (n : Nat) : Int := if negative then -n else n

/-- The number that digits behind `n` make of it. -/
def continued (n : Nat) (text : List Char) : Nat :=
  text.foldl (fun n c => 10 * n + (digitValue? c).getD 0) n

theorem le_continued (n : Nat) (text : List Char) : n ≤ continued n text := by
  induction text generalizing n with
  | nil => exact Nat.le_refl n
  | cons c rest ih =>
      have step : 10 * n + (digitValue? c).getD 0 ≤ continued n (c :: rest) := ih _
      omega

/-- A number nearer to zero than one in the range is in the range. -/
theorem IntegerRange.Holds.of_le {range : IntegerRange} {negative : Bool} {m n : Nat}
    (holds : range.Holds (signed negative n)) (zero : range.Holds 0) (le : m ≤ n) :
    range.Holds (signed negative m) := by
  cases negative <;> simp [Holds, signed] at * <;> omega

/-- A digit more, counted away from zero. -/
theorem signed_continued (negative : Bool) (n d : Nat) :
    (if negative then 10 * signed negative n - d else 10 * signed negative n + d) =
      signed negative (10 * n + d) := by
  cases negative with
  | false => simp [signed]
  | true =>
      simp only [signed, if_true]
      omega

theorem continued_cons {n d : Nat} {c : Char} (value : digitValue? c = some d) (rest : List Char) :
    continued n (c :: rest) = continued (10 * n + d) rest := by
  simp only [continued, List.foldl_cons, value, Option.getD_some]

/-- Digits are read as long as the whole number is in the range. -/
theorem readDigits_of_holds {range : IntegerRange} (zero : range.Holds 0) (negative : Bool) (n : Nat)
    {text : List Char} (digits : ∀ c ∈ text, isDigit c = true)
    (holds : range.Holds (signed negative (continued n text))) :
    readDigits range negative (signed negative n) text = .ok (signed negative (continued n text)) := by
  induction text generalizing n with
  | nil => rfl
  | cons c rest ih =>
      obtain ⟨d, value⟩ := Option.isSome_iff_exists.mp (digits c (.head _))
      rw [continued_cons value] at holds ⊢
      obtain ⟨low, high⟩ := holds.of_le zero (le_continued _ _)
      rw [readDigits, value]
      simp only [signed_continued]
      rw [if_neg (Int.not_lt.mpr low), if_neg (Int.not_lt.mpr high)]
      exact ih _ (fun c mem => digits c (.tail _ mem)) holds

/-- Whatever is read is the number that the digits denote, and it is in the range. -/
theorem eq_of_readDigits {range : IntegerRange} {negative : Bool} {n : Nat} {text : List Char} {i : Int}
    (holds : range.Holds (signed negative n))
    (read : readDigits range negative (signed negative n) text = .ok i) :
    i = signed negative (continued n text) ∧ range.Holds i := by
  induction text generalizing n with
  | nil =>
      obtain rfl := Except.ok.inj read
      exact ⟨rfl, holds⟩
  | cons c rest ih =>
      rw [readDigits] at read
      cases value : digitValue? c with
      | none => simp [value] at read
      | some d =>
          simp only [value, signed_continued] at read
          split at read
          · nomatch read
          · split at read
            · nomatch read
            · rename_i low high
              rw [continued_cons value]
              exact ih ⟨Int.not_lt.mp low, Int.not_lt.mp high⟩ read

/-- Behind a sign, digits are read as the number they denote, if it is in the range. -/
theorem readInteger_sign {range : IntegerRange} (zero : range.Holds 0) {negative : Bool}
    (reaches : negative = true → range.low < 0) {text : List Char} (some_ : text ≠ [])
    (digits : ∀ c ∈ text, isDigit c = true) {i : Int} :
    readInteger range (sign negative ++ text) = .ok i ↔
      i = signed negative (ofDigits text) ∧ range.Holds i := by
  have start : signed negative 0 = 0 := by cases negative <;> rfl
  have reads : readInteger range (sign negative ++ text) =
      readDigits range negative (signed negative 0) text := by
    rw [start]
    cases negative with
    | true =>
        show readInteger range ('-' :: text) = _
        rw [readInteger, if_neg (by simp), if_pos ⟨rfl, some_, reaches rfl⟩]
    | false =>
        obtain ⟨first, others, rfl⟩ := List.exists_cons_of_ne_nil some_
        have digit := digits first (.head _)
        have plus : first ≠ '+' := by rintro rfl; cases digit
        have minus : first ≠ '-' := by rintro rfl; cases digit
        show readInteger range (first :: others) = _
        rw [readInteger, if_neg (fun both => plus both.1), if_neg (fun all => minus all.1)]
  rw [reads]
  constructor
  · exact eq_of_readDigits (by rwa [start])
  · rintro ⟨rfl, holds⟩
    exact readDigits_of_holds zero negative 0 digits holds

/-- A number is denoted by its sign and the digits of its absolute value. -/
theorem signed_ofDigits (i : Int) : signed (decide (i < 0)) (ofDigits (digits i.natAbs)) = i := by
  rw [ofDigits_digits, signed]
  split <;> rename_i negative <;> simp only [decide_eq_true_eq] at negative <;> omega

/-- A number with its sign is read as that number. -/
theorem readInteger_ofInt {range : IntegerRange} (zero : range.Holds 0) {i : Int}
    (holds : range.Holds i) : readInteger range (ofInt i) = .ok i := by
  rw [ofInt_eq]
  refine (readInteger_sign zero ?_ (digits_ne_nil _) (digits_all _)).mpr ⟨?_, holds⟩
  · intro negative
    exact Int.lt_of_le_of_lt holds.1 (of_decide_eq_true negative)
  · exact (signed_ofDigits i).symm

/-- Every 64-bit integer is read back from its decimal form. -/
theorem readInt64_ofInt (i : Int64) : readInt64 (ofInt i.toInt) = .ok i := by
  have holds : IntegerRange.int64.Holds i.toInt :=
    ⟨Int64.le_toInt i, Int.le_of_lt_add_one (Int64.toInt_lt i)⟩
  rw [readInt64, readInteger_ofInt ⟨by decide, by decide⟩ holds]
  show Except.ok (Int64.ofInt i.toInt) = _
  rw [Int64.ofInt_toInt]

end PegMachine.Decimal
