/-
# PegMachine.Text.Layout — padding to a column

Texts are padded to a width counted in characters; a text that is already wide
enough is left alone, never cut.
-/
namespace PegMachine.Text

set_option autoImplicit false

/-- `count` copies of a character. -/
def repeated (count : Nat) (c : Char) : String := String.ofList (List.replicate count c)

/-- Blanks on the right up to `width`. -/
def padRight (width : Nat) (text : String) : String :=
  text ++ repeated (width - text.length) ' '

/-- Blanks on the left up to `width`. -/
def padLeft (width : Nat) (text : String) : String :=
  repeated (width - text.length) ' ' ++ text

/-- The text in the middle of `width` copies of `fill`; of an odd number of fills
the larger half stands on the right. -/
def centred (width : Nat) (fill : Char) (text : String) : String :=
  let spare := width - text.length
  repeated (spare / 2) fill ++ text ++ repeated (spare - spare / 2) fill

/-- The first `most` characters, followed by an ellipsis if any were left out. -/
def shortened (most : Nat) (text : List Char) : List Char :=
  if (text.drop most).isEmpty then text else text.take most ++ ['.', '.', '.']

/-- A short text is not touched. -/
theorem shortened_of_length_le {most : Nat} {text : List Char} (short : text.length ≤ most) :
    shortened most text = text := by
  simp [shortened, List.drop_eq_nil_of_le short]

/-- A number in hexadecimal, lower case, without leading zeros. -/
def hex (n : Nat) : List Char := Nat.toDigits 16 n

end PegMachine.Text
