/-
# PegMachine.Grammar.Lexemes — ready-made expressions

Character classes, white space, numbers and quoted strings, as they occur in many
grammars. Numbers are decimal with an optional minus sign; one without a fraction
is an integer and must fit into 64 bits. A quoted string stands in either kind of
quotes; a backslash escapes the quote in use and is an ordinary character before
anything else.
-/
import PegMachine.Decimal.FloatText
import PegMachine.Decimal.Integer
import PegMachine.Grammar.Combinators

namespace PegMachine

set_option autoImplicit false

namespace Lexeme

def digits : List Char := "0123456789".toList

def letters : List Char := "abcdefghijklmnopqrstuvwxyzABCDEFGHIJKLMNOPQRSTUVWXYZ".toList

/-- The printing ASCII characters that are neither letters nor digits. -/
def punctuation : List Char :=
  ['!', '"', '#', '$', '%', '&', '\'', '(', ')', '*', '+', ',', '-', '.', '/', ':', ';', '<', '=',
   '>', '?', '@', '[', '\\', ']', '^', '_', '\x60', '{', '|', '}', '~']

/-- Blank, tab, vertical tab and form feed. -/
def blanks : List Char := [' ', '\t', '\x0b', '\x0c']

def newlines : List Char := ['\n', '\r']

/-- The characters of a number: those of its sign, its digits and its fraction, where
they have a text at all. -/
def numberText (ds : List Datum) : List Char := (ds.filterMap Datum.joined?).flatten

/-- The message for a text that is not the number it should be. -/
def invalid (kind : String) (text : List Char) (reason : String) : String :=
  s!"Invalid {kind} {String.ofList text}: {reason}"

/-- The integer with this text. -/
def readInteger (kind : String) (text : List Char) : Except String Datum :=
  match Decimal.readInt64 text with
  | .ok i => .ok (.int i)
  | .error e => .error (invalid kind text e.message)

/-- The double with this text. -/
def readFloat (kind : String) (text : List Char) : Except String Datum :=
  match Decimal.readFloat text with
  | .ok x => .ok (.float x)
  | .error e => .error (invalid kind text e.message)

/-- An integer from the data of its parts. -/
def toInteger (ds : List Datum) : Except String Datum := readInteger "integer" (numberText ds)

/-- A number from the data of its parts; one with a fraction, the third part, is a double. -/
def toNumber (ds : List Datum) : Except String Datum :=
  if (Datum.nth ds 2).isNull then readInteger "number" (numberText ds)
  else readFloat "number" (numberText ds)

end Lexeme

namespace Build

def digit : Build Ref := oneOf Lexeme.digits "digit"

def nonZeroDigit : Build Ref := oneOf (Lexeme.digits.drop 1) "non zero digit"

def letter : Build Ref := oneOf Lexeme.letters "letter"

def punctuation : Build Ref := oneOf Lexeme.punctuation "punctuation character"

def printable : Build Ref :=
  oneOf (Lexeme.digits ++ Lexeme.letters ++ Lexeme.punctuation ++ Lexeme.blanks ++ Lexeme.newlines)
    "printable character"

/-- A blank other than a newline. -/
def blank : Build Ref := oneOf Lexeme.blanks "whitespace except newlines"

def newline : Build Ref := oneOf Lexeme.newlines "newline"

/-- Any number of blanks and newlines. -/
def whitespace : Build Ref := do
  named (← many (← orElse (← blank) (← newline))) "whitespace"

/-- A sign and digits. -/
def integer : Build Ref := do
  let sign ← optional (← char '-')
  let digits ← many1 (← digit)
  named (← tryCombine Lexeme.toInteger [sign, digits]) "integer"

/-- A sign, digits, and perhaps a point with more digits, of which there may be none. -/
def number : Build Ref := do
  let sign ← optional (← char '-')
  let digits ← many1 (← digit)
  let fraction ← optional (← seq (← char '.') (← many (← digit)))
  named (← tryCombine Lexeme.toNumber [sign, digits, fraction]) "number"

/-- The characters of a string in the given quotes. -/
def quotedBody (quote : Char) (label : String) : Build Ref := do
  let others := Lexeme.punctuation.filter fun c => c != quote && c != '\\'
  many (← choice [← letter, ← digit, ← blank, ← oneOf others label, ← escaped quote, ← char '\\'])

/-- A string in double or single quotes. -/
def quotedString : Build Ref := do
  let double ← quotedBody '"' "non double quote punctuation character"
  let single ← quotedBody '\'' "non single quote punctuation character"
  let quoted ← orElse (← enclosed double (← char '"')) (← enclosed single (← char '\''))
  named (← transform Datum.asText quoted) "quoted string"

/-- At least one character of a list; yields them as a text. -/
def textOf (chars : List Char) (label : String) : Build Ref := do
  transform Datum.asText (← many1 (← oneOf chars label))

end Build

end PegMachine
