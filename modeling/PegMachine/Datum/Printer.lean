/-
# PegMachine.Datum.Printer — the written form of a datum

`write` gives every datum a text: `null`, truth values and numbers as usual, a
character in single and a text in double quotes, a list in brackets and a map in
braces, items separated by a comma and a blank, a key quoted and followed by a
colon and a blank. Doubles always show a point or an exponent, so that no double
is written like an integer.

Which characters a quoted text shows as they are is a parameter (`plain`);
`display` fixes it to the library's choice.

Items and entries are both written as a `row`, and behind what stands in a row comes a comma or what
closes the row (`Ends`).
-/
import PegMachine.Datum.Basic
import PegMachine.Decimal.FloatText
import PegMachine.Text.Quoted

namespace PegMachine.Datum

set_option autoImplicit false

mutual

/-- The written form of a datum. -/
def write (plain : Char → Bool) : Datum → List Char
  | .null => ['n', 'u', 'l', 'l']
  | .bool true => ['t', 'r', 'u', 'e']
  | .bool false => ['f', 'a', 'l', 's', 'e']
  | .int i => Decimal.ofInt i.toInt
  | .float x => Decimal.writeFloat x
  | .char c => Text.quote plain '\'' [c]
  | .text s => Text.quote plain '"' s.toList
  | .list items => '[' :: writeItems plain items ++ [']']
  | .map entries => '{' :: writeEntries plain entries ++ ['}']

/-- Items with separators between them. -/
def writeItems (plain : Char → Bool) : List Datum → List Char
  | [] => []
  | [d] => write plain d
  | d :: next :: rest => write plain d ++ [',', ' '] ++ writeItems plain (next :: rest)

/-- Entries with separators between them. -/
def writeEntries (plain : Char → Bool) : List (String × Datum) → List Char
  | [] => []
  | [(key, d)] => Text.quote plain '"' key.toList ++ [':', ' '] ++ write plain d
  | (key, d) :: next :: rest =>
    Text.quote plain '"' key.toList ++ [':', ' '] ++ write plain d ++ [',', ' '] ++
      writeEntries plain (next :: rest)

end

/-- The text shown for a datum. -/
def display (d : Datum) : String := String.ofList (d.write Text.isPlain)

/-! ## Rows -/

/-- Texts with a comma and a blank between them. -/
def row {α : Type} (write : α → List Char) : List α → List Char
  | [] => []
  | x :: xs => write x ++ xs.flatMap fun y => ',' :: ' ' :: write y

/-- How an entry of a map is written. -/
def writeEntry (plain : Char → Bool) (e : String × Datum) : List Char :=
  Text.quote plain '"' e.1.toList ++ [':', ' '] ++ e.2.write plain

theorem writeItems_eq (plain : Char → Bool) (items : List Datum) :
    writeItems plain items = row (write plain) items := by
  induction items with
  | nil => rfl
  | cons d rest ih =>
      cases rest with
      | nil => simp [writeItems, row]
      | cons next rest =>
          rw [writeItems, ih]
          simp [row]

theorem writeEntries_eq (plain : Char → Bool) (entries : List (String × Datum)) :
    writeEntries plain entries = row (writeEntry plain) entries := by
  induction entries with
  | nil => rfl
  | cons e rest ih =>
      cases rest with
      | nil => simp [writeEntries, row, writeEntry]
      | cons next rest =>
          rw [writeEntries, ih]
          simp [row, writeEntry]

/-- What stands behind an item or at the end of a text: a comma, a closing bracket or brace, or nothing. -/
def Ends (rest : List Char) : Prop := ∀ c ∈ rest.head?, c = ',' ∨ c = ']' ∨ c = '}'

/-- What stands behind the last item: a closing bracket or brace. -/
def Closes (rest : List Char) : Prop := ∃ c rest', rest = c :: rest' ∧ (c = ']' ∨ c = '}')

theorem Ends.forall {rest : List Char} (ends : Ends rest) {property : Char → Prop}
    (each : property ',' ∧ property ']' ∧ property '}') : ∀ c ∈ rest.head?, property c := by
  intro c here
  rcases ends c here with rfl | rfl | rfl
  · exact each.1
  · exact each.2.1
  · exact each.2.2

theorem Closes.ends {rest : List Char} (closes : Closes rest) : Ends rest := by
  obtain ⟨c, rest', rfl, closing⟩ := closes
  rintro d ⟨⟩
  exact .inr closing

/-- Behind an item stands the comma of the next one, or what closes. -/
theorem Closes.others {α : Type} {write : α → List Char} {xs : List α} {rest : List Char}
    (closes : Closes rest) : Ends ((xs.flatMap fun x => ',' :: ' ' :: write x) ++ rest) := by
  cases xs with
  | nil => exact closes.ends
  | cons x xs =>
      rintro c ⟨⟩
      exact .inl rfl

/-- A comma may end an item, but closes nothing. -/
theorem Closes.not_comma {rest : List Char} (closes : Closes rest) : ∀ c ∈ rest.head?, c ≠ ',' := by
  obtain ⟨c, rest', rfl, closing⟩ := closes
  rintro d ⟨⟩
  rcases closing with rfl | rfl <;> decide

end PegMachine.Datum
