/-
# PegMachine.Decimal.FloatText — the text of a double

Writing: a double has the fewest digits that read back (`Decimal.Shortest`), with
at least one digit on either side of a decimal point, or in exponent form where
its magnitude lies outside the limits of `FloatStyle`.

Reading: an optional sign, then one of the words `inf`, `infinity` and `nan` in
any case, or digits with at most one point among them and at least one digit, and
an optional exponent. The value is rounded once, to the nearest double.
-/
import PegMachine.Decimal.Binary64
import PegMachine.Decimal.Shortest

namespace PegMachine.Decimal

set_option autoImplicit false

/-- The choices that the written form of a double leaves open. A value
`0.d₁d₂… · 10 ^ point` is written positionally for `leastPoint ≤ point ≤ mostPoint`. -/
structure FloatStyle where
  leastPoint : Int
  mostPoint : Int
  mark : Char
  infinity : String
  notANumber : String

/-- Positional from `0.0001` up to below `10 ^ 16`. -/
def FloatStyle.standard : FloatStyle where
  leastPoint := -3
  mostPoint := 16
  mark := 'e'
  infinity := "inf"
  notANumber := "NaN"

/-- Digits with the point at its place, zeros filling up both sides. -/
def positional (s : Scientific) : List Char :=
  if s.point ≤ 0 then
    ['0', '.'] ++ List.replicate (-s.point).toNat '0' ++ s.digits
  else
    let whole := s.point.toNat
    if whole < s.digits.length then s.digits.take whole ++ '.' :: s.digits.drop whole
    else s.digits ++ List.replicate (whole - s.digits.length) '0' ++ ['.', '0']

/-- Digits with the point after the first, and the exponent; no point after a lone digit. -/
def exponential (mark : Char) (s : Scientific) : List Char :=
  let fraction := match s.digits.drop 1 with
    | [] => []
    | rest => '.' :: rest
  s.digits.take 1 ++ fraction ++ mark :: ofInt (s.point - 1)

/-- The text of a magnitude. -/
def writeMagnitude (style : FloatStyle) (significand : Nat) (exponent : Int) : List Char :=
  if significand = 0 then ['0', '.', '0']
  else
    let s := (Target.ofDouble significand exponent hiddenBit leastExponent).shortest
    if style.leastPoint ≤ s.point ∧ s.point ≤ style.mostPoint then positional s
    else exponential style.mark s

/-- The text of a double that has been taken apart. -/
def writeBinary64 (style : FloatStyle) : Binary64 → List Char
  | .finite negative significand exponent =>
    (if negative then ['-'] else []) ++ writeMagnitude style significand exponent
  | .infinite negative => (if negative then ['-'] else []) ++ style.infinity.toList
  | .notANumber => style.notANumber.toList

/-- The text of a double. -/
def writeFloat (x : Float) : List Char := writeBinary64 .standard (.ofFloat x)

/-- Why a text is no double. -/
inductive FloatError where
  | empty
  | invalid
  deriving DecidableEq, Repr

/-- The wording of a float error. -/
def FloatError.message : FloatError → String
  | .empty => "cannot parse float from empty string"
  | .invalid => "invalid float literal"

/-- Decimal places that certainly lie beyond the largest double, or beneath the smallest. -/
def placeLimit : Nat := 400

/-- The double nearest to `± count · 10 ^ place`. Far outside the range of doubles the
answer is settled by the number of digits alone. -/
def nearestDecimal (negative : Bool) (count : Nat) (place : Int) : Float :=
  let magnitude : Int := digitCount count + place
  if count = 0 ∨ magnitude < -placeLimit then nearestFloat negative 0 1
  else if (placeLimit : Int) < magnitude then nearestFloat negative (Nat.pow 10 placeLimit) 1
  else if 0 ≤ place then nearestFloat negative (count * Nat.pow 10 place.toNat) 1
  else nearestFloat negative count (Nat.pow 10 (-place).toNat)

/-- An exponent: nothing, or a mark, an optional sign and at least one digit. -/
def readExponent : List Char → Except FloatError Int
  | [] => .ok 0
  | mark :: rest =>
    if mark = 'e' ∨ mark = 'E' then
      let (negative, body) := match rest with
        | '+' :: body => (false, body)
        | '-' :: body => (true, body)
        | body => (false, body)
      if body ≠ [] ∧ body.all isDigit then
        .ok (if negative then -(ofDigits body : Int) else ofDigits body)
      else .error .invalid
    else .error .invalid

/-- A magnitude without its sign: digits, an optional point and digits, an optional exponent. -/
def readMagnitude (negative : Bool) (text : List Char) : Except FloatError Float :=
  let word := String.ofList (text.map Char.toLower)
  if word = "inf" ∨ word = "infinity" then .ok (nearestDecimal negative 1 (placeLimit + 1))
  else if word = "nan" then .ok (0.0 / 0.0)
  else
    let whole := text.takeWhile isDigit
    let afterWhole := text.dropWhile isDigit
    let (fraction, tail) := match afterWhole with
      | '.' :: more => (more.takeWhile isDigit, more.dropWhile isDigit)
      | more => ([], more)
    if whole = [] ∧ fraction = [] then .error .invalid
    else do
      let exponent ← readExponent tail
      .ok (nearestDecimal negative (ofDigits (whole ++ fraction)) (exponent - fraction.length))

/-- Read a double. -/
def readFloat : List Char → Except FloatError Float
  | [] => .error .empty
  | '-' :: rest => readMagnitude true rest
  | '+' :: rest => readMagnitude false rest
  | text => readMagnitude false text

/-! ## Reading a decimal fraction -/

theorem readMagnitude_decimal (negative : Bool) {whole cs : List Char} (some_ : whole ≠ [])
    (digits : ∀ c ∈ whole, isDigit c = true) (digits' : ∀ c ∈ cs, isDigit c = true) :
    readMagnitude negative (whole ++ '.' :: cs) =
      .ok (nearestDecimal negative (ofDigits (whole ++ cs)) (-cs.length)) := by
  -- With a point in it the text is none of the words.
  have no_word (word : String) (none_ : '.' ∉ word.toList) :
      String.ofList ((whole ++ '.' :: cs).map Char.toLower) ≠ word := by
    rintro rfl
    refine none_ ?_
    rw [String.toList_ofList]
    exact List.mem_map.mpr ⟨'.', by simp, rfl⟩
  have point : isDigit '.' = false := by decide
  have front : (whole ++ '.' :: cs).takeWhile isDigit = whole := by
    rw [List.takeWhile_append_of_pos digits, List.takeWhile_cons_of_neg (by simp [point]),
      List.append_nil]
  have back : (whole ++ '.' :: cs).dropWhile isDigit = '.' :: cs := by
    rw [List.dropWhile_append_of_pos digits, List.dropWhile_cons_of_neg (by simp [point])]
  have all : cs.takeWhile isDigit = cs := by
    rw [← List.append_nil cs, List.takeWhile_append_of_pos digits', List.takeWhile_nil]
  have nothing : cs.dropWhile isDigit = [] := by
    rw [← List.append_nil cs, List.dropWhile_append_of_pos digits', List.dropWhile_nil]
  rw [readMagnitude]
  simp only [front, back, all, nothing]
  rw [if_neg (not_or_intro (no_word _ (by decide)) (no_word _ (by decide))),
    if_neg (no_word _ (by decide)), if_neg (fun both => some_ both.1), readExponent]
  simp [bind, Except.bind]

/-- Digits with a point among them are read as the double nearest to what they denote. -/
theorem readFloat_decimal (negative : Bool) {whole cs : List Char} (some_ : whole ≠ [])
    (digits : ∀ c ∈ whole, isDigit c = true) (digits' : ∀ c ∈ cs, isDigit c = true) :
    readFloat (sign negative ++ whole ++ '.' :: cs) =
      .ok (nearestDecimal negative (ofDigits (whole ++ cs)) (-cs.length)) := by
  rw [← readMagnitude_decimal negative some_ digits digits']
  cases negative with
  | true => rfl
  | false =>
      obtain ⟨first, others, rfl⟩ := List.exists_cons_of_ne_nil some_
      have digit := digits first (.head _)
      show readFloat (first :: others ++ '.' :: cs) = _
      rw [readFloat]
      · exact List.cons_ne_nil _ _
      · rintro rest ⟨⟩
        cases digit
      · rintro rest ⟨⟩
        cases digit
end PegMachine.Decimal
