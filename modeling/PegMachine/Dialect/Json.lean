/-
# PegMachine.Dialect.Json — JSON values, arrays and objects

A document is one value with white space around it, up to the end of the input. A
string stands in double or single quotes and knows no escape but that of its own
quote; a number has no exponent. White space is free around values and keys. The
members of an object become a map, ordered by key, where the last of several
members with one key counts.
-/
import PegMachine.Grammar.Lexemes

namespace PegMachine.Json

set_option autoImplicit false

/-- The member a pair stands for: its last datum is the value, the one before the key. -/
def member? (pair : Datum) : Option (String × Datum) :=
  match pair.items.reverse with
  | value :: .text key :: _ => some (key, value)
  | _ => none

/-- The map with the given members. -/
def toMap (pairs : Datum) : Except String Datum :=
  match pairs.items.mapM member? with
  | some members => .ok (.ofEntries members)
  | none => .error "Object keys must be strings"

/-- The expression for a document. -/
def grammar : Build Ref := do
  let array ← Build.forwardNamed "json array"
  let object ← Build.forwardNamed "json object"
  let space ← Build.whitespace
  let yes ← Build.named (← Build.keyword "true" (.bool true)) "true"
  let no ← Build.named (← Build.keyword "false" (.bool false)) "false"
  let null ← Build.named (← Build.keyword "null" .null) "null"
  let simple ← Build.choice
    [← Build.quotedString, ← Build.number, object, array, yes, no, null]
  let simple ← Build.named simple "json value"
  let value ← Build.keepLeft (← Build.keepRight space simple) space
  let comma := Build.char ','
  -- A member: a string, a colon, a value.
  let name ← Build.keepLeft (← Build.quotedString) space
  let key ← Build.keepLeft name (← Build.char ':')
  let pair ← Build.seq (← Build.keepRight space key) value
  let pairs ← Build.tryTransform toMap (← Build.separated pair (← comma))
  -- Brackets and braces close the recursion.
  let openBracket ← Build.keepRight (← Build.char '[') space
  let items ← Build.keepRight openBracket (← Build.separated value (← comma))
  Build.close array (← Build.keepLeft items (← Build.char ']'))
  let openBrace ← Build.keepRight (← Build.char '{') space
  let members ← Build.keepRight openBrace pairs
  Build.close object (← Build.keepLeft members (← Build.char '}'))
  Build.named (← Build.keepLeft value (← Build.finish)) "json document"

end PegMachine.Json
