/-
# PegMachine.Grammar.Combinators — putting grammars together

`Build` is the state in which a grammar is put together: every combinator appends
one expression, or a small tree of them, and answers the reference to it.
References may be used as often as one likes.

Beyond the forms of `Expression` there are four idioms — separated lists, enclosed
texts and two kinds of comments — each a tree of the ordinary forms under its own
name.
-/
import PegMachine.Grammar.Basic

namespace PegMachine

set_option autoImplicit false

/-- Putting a grammar together. -/
abbrev Build := StateM Grammar

namespace Build

/-- Append an expression. -/
def add (e : Expression) : Build Ref := modifyGet (·.add ⟨e, none⟩)

/-- Append an expression with a name. -/
def addNamed (e : Expression) (name : String) : Build Ref := modifyGet (·.add ⟨e, some name⟩)

/-- Name an expression. -/
def named (r : Ref) (name : String) : Build Ref := do
  modify (·.setName r name)
  return r

/-! ## Characters -/

def char (c : Char) : Build Ref := add (.char c false)

def charAnyCase (c : Char) : Build Ref := add (.char c true)

/-- One character of a list. -/
def oneOf (chars : List Char) (label : String) : Build Ref := addNamed (.oneOf (.ofList chars)) label

/-- One character that is not in a list. -/
def noneOf (chars : List Char) (label : String) : Build Ref :=
  addNamed (.oneOf (CharClass.ofList chars).complement) label

def escaped (c : Char) : Build Ref := add (.escaped c)

def test (t : CharTest) (label : String) : Build Ref := addNamed (.test t) label

/-- At least `least` characters, plain or escaped. -/
def scan (chars escapes : List Char) (least : Nat) (label : String) : Build Ref :=
  add (.scan ⟨.ofList chars, .ofList escapes⟩ least label)

/-! ## Texts -/

def literal (text : String) : Build Ref := add (.literal text false)

/-- A text in any case; yields it in lower case. -/
def literalAnyCase (text : String) : Build Ref := add (.literal (Text.lowerText text) true)

def keyword (text : String) (value : Datum) : Build Ref := add (.keyword text value false)

def keywordAnyCase (text : String) (value : Datum) : Build Ref :=
  add (.keyword (Text.lowerText text) value true)

def finish : Build Ref := add .finish

/-! ## Sequence and choice -/

def seq (first second : Ref) : Build Ref := add (.seq first second)

def orElse (first second : Ref) : Build Ref := add (.orElse first second)

def choice (alternatives : List Ref) : Build Ref := add (.choice alternatives)

def keepLeft (first second : Ref) : Build Ref := add (.keepLeft first second)

def keepRight (first second : Ref) : Build Ref := add (.keepRight first second)

def followedBy (first second : Ref) : Build Ref := add (.followedBy first second)

def notFollowedBy (first second : Ref) : Build Ref := add (.notFollowedBy first second)

/-! ## Options and repetition -/

def optional (body : Ref) : Build Ref := add (.optional body .null)

def optionalOr (body : Ref) (fallback : Datum) : Build Ref := add (.optional body fallback)

def many (body : Ref) : Build Ref := add (.many body 0)

def many1 (body : Ref) : Build Ref := add (.many body 1)

/-! ## Functions -/

/-- Apply a function that may reject. -/
def tryTransform (f : Transform) (body : Ref) : Build Ref := add (.transform f body)

/-- Apply a function that accepts everything. -/
def transform (f : Datum → Datum) (body : Ref) : Build Ref := tryTransform (fun d => .ok (f d)) body

/-- Apply a function of several data that may reject. -/
def tryCombine (f : Combiner) (parts : List Ref) : Build Ref := add (.combine f parts)

/-- Apply a function of several data that accepts everything. -/
def combine (f : List Datum → Datum) (parts : List Ref) : Build Ref :=
  tryCombine (fun ds => .ok (f ds)) parts

/-! ## Recursion -/

/-- An open forward reference. -/
def forward : Build Ref := add (.forward none)

/-- A new forward reference with a name. -/
def forwardNamed (name : String) : Build Ref := addNamed (.forward none) name

/-- Close a forward reference made in the same grammar and still open. -/
def close (r target : Ref) : Build Unit :=
  modify fun g => match g.close r target with
    | .ok g => g
    | .error _ => g

/-! ## Idioms -/

def idiom (kind : Idiom) (body : Ref) : Build Ref := add (.idiom kind body)

/-- Join the items of an optional boxed first item and the list of all further ones. -/
def joinItems (ds : List Datum) : Datum :=
  .list ((Datum.nth ds 0).items ++ (Datum.nth ds 1).items)

/-- Items with separators between them, perhaps none; yields the list of the items. The
first item is boxed in a list of its own, so that a missing one is told apart from one
that yields null. -/
def separated (item separator : Ref) : Build Ref := do
  let first ← optional (← transform (fun d => .list [d]) item)
  let rest ← many (← keepRight separator item)
  idiom .separated (← combine joinItems [first, rest])

/-- The body between two copies of an envelope; yields the body. -/
def enclosed (body envelope : Ref) : Build Ref := do
  idiom .enclosed (← keepLeft (← keepRight envelope body) envelope)

/-- A mark and the rest of its line; yields the text behind the mark. -/
def lineComment (start : String) : Build Ref := do
  let body ← many (← noneOf ['\n', '\r'] "comment character")
  let whole ← keepRight (← literal start) body
  idiom .lineComment (← transform Datum.asText whole)

/-- One character inside a block comment: any but the first of the end mark, or that one
where the end mark does not go on. -/
def commentChar (first : Char) (rest : List Char) : Build Ref := do
  let other ← noneOf [first] "comment character"
  if rest.isEmpty then return other
  else
    let lone ← notFollowedBy (← char first) (← literal (String.ofList rest))
    choice [other, lone]

/-- Everything between a start mark and the first end mark behind it; yields the text
between them. With an empty end mark there is nothing between them. -/
def blockComment (start stop : String) : Build Ref := do
  match stop.toList with
  | [] => idiom .blockComment (← transform (fun _ => .text "") (← literal start))
  | first :: rest =>
    let body ← many (← commentChar first rest)
    let opened ← keepRight (← literal start) body
    idiom .blockComment (← transform Datum.asText (← keepLeft opened (← literal stop)))

end Build

end PegMachine
