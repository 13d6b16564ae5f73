/-
# PegMachine.Text.Quoted — quoted characters and texts

The written form of a character or a text inside quotes. A character that cannot
stand for itself is spelled out: NUL, tab, newline and carriage return by a
letter after a backslash, the backslash by itself doubled, the enclosing quote
behind a backslash, and everything else that is not plain as `\u` and its code
point in braces. Only the enclosing quote is escaped: a single quote stands for
itself in double quotes, and the other way round.

Which characters are plain is a parameter; the library's own choice is
`Text.isPlain`.
-/
import PegMachine.Text.Layout
import PegMachine.Text.Property

namespace PegMachine.Text

set_option autoImplicit false

/-- A character spelled out by its code point. -/
def codePointEscape (c : Char) : List Char :=
  ['\\', 'u', '{'] ++ hex c.toNat ++ ['}']

/-- How one character is written between two copies of `quote`. -/
def quoteChar (plain : Char → Bool) (quote c : Char) : List Char :=
  if c = '\x00' then ['\\', '0']
  else if c = '\t' then ['\\', 't']
  else if c = '\r' then ['\\', 'r']
  else if c = '\n' then ['\\', 'n']
  else if c = '\\' then ['\\', '\\']
  else if c = quote then ['\\', quote]
  else if plain c then [c]
  else codePointEscape c

/-- A text between two copies of `quote`. -/
def quote (plain : Char → Bool) (mark : Char) (text : List Char) : List Char :=
  mark :: text.flatMap (quoteChar plain mark) ++ [mark]

/-- A text in double quotes. -/
def quoted (text : String) : String :=
  String.ofList (quote isPlain '"' text.toList)

end PegMachine.Text
