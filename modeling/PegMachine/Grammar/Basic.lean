/-
# PegMachine.Grammar.Basic — grammars as shared expressions

A grammar is a table of parsing expressions that refer to each other by index. A
reference is the identity of an expression: two expressions with equal content
are still two, and one may be used in many places. New expressions are only ever
appended (`Grammar.add`) and refer to earlier ones; recursion goes through a
forward reference, which is made open and closed once, later, with any target.
`WellFormed` states this order, on which every walk over a grammar relies.

Apart from closing a forward reference the only change to an expression is its
name, which serves messages and listings alone. The label of an expression is its
name, or else a short description of its form.
-/
import PegMachine.Machine.Bytecode
import PegMachine.Text.Quoted

namespace PegMachine

set_option autoImplicit false

/-- An expression of a grammar, by its index. -/
abbrev Ref := Nat

/-- Combinations that are kept under a name of their own. -/
inductive Idiom where
  | separated
  | enclosed
  | lineComment
  | blockComment
  deriving DecidableEq, Repr

/-- What an idiom is called in listings. -/
def Idiom.title : Idiom → String
  | .separated => "SepBy"
  | .enclosed => "Between"
  | .lineComment => "OneLineComment"
  | .blockComment => "EnclosedComment"

/-- A parsing expression. -/
inductive Expression where
  /-- One character, in any case or as it is. -/
  | char (c : Char) (anyCase : Bool)
  /-- One character of a class. -/
  | oneOf (chars : CharClass)
  /-- A backslash and a character; yields the character. -/
  | escaped (c : Char)
  /-- One plain or escaped character. -/
  | test (t : CharTest)
  /-- As many characters as a test accepts, at least `least`. -/
  | scan (t : CharTest) (least : Nat) (itemLabel : String)
  /-- A text; yields that text. -/
  | literal (text : String) (anyCase : Bool)
  /-- A text; yields a constant. -/
  | keyword (text : String) (value : Datum) (anyCase : Bool)
  /-- The end of the input. -/
  | finish
  /-- Both in order; yields the list of what they yield. A chain nested to the left is
  one list. -/
  | seq (first second : Ref)
  /-- The first, or else the second. -/
  | orElse (first second : Ref)
  /-- Both in order; yields what the first yields. -/
  | keepLeft (first second : Ref)
  /-- Both in order; yields what the second yields. -/
  | keepRight (first second : Ref)
  /-- The first, if the second matches behind it; consumes the first alone. -/
  | followedBy (first second : Ref)
  /-- The first, if the second does not match behind it; consumes the first alone. -/
  | notFollowedBy (first second : Ref)
  /-- The first alternative that matches. -/
  | choice (alternatives : List Ref)
  /-- All parts in order; yields what a function makes of what they yield. -/
  | combine (f : Combiner) (parts : List Ref)
  /-- The body, or a constant without consuming anything. -/
  | optional (body : Ref) (fallback : Datum)
  /-- The body as often as it matches, at least `least` times. -/
  | many (body : Ref) (least : Nat)
  /-- The body; yields what a function makes of what it yields. -/
  | transform (f : Transform) (body : Ref)
  /-- The body, under a name for its form. -/
  | idiom (kind : Idiom) (body : Ref)
  /-- What the target matches, once there is one. -/
  | forward (target : Option Ref)
  deriving Inhabited

namespace Expression

/-- The expressions an expression refers to, in the order in which they are tried. -/
def children : Expression → List Ref
  | char .. | oneOf .. | escaped .. | test .. | scan .. | literal .. | keyword .. | finish => []
  | seq a b | orElse a b | keepLeft a b | keepRight a b | followedBy a b | notFollowedBy a b => [a, b]
  | choice alternatives => alternatives
  | combine _ parts => parts
  | optional body _ | many body _ | transform _ body | idiom _ body => [body]
  | forward target => target.toList

def isForward : Expression → Bool
  | forward _ => true
  | _ => false

theorem eq_forward {e : Expression} (forward : e.isForward = true) : ∃ target, e = .forward target := by
  cases e with
  | forward target => exact ⟨target, rfl⟩
  | _ => cases forward

/-- The same form over other references, visited in order. A forward reference leads
where it did. -/
def mapRefs {m : Type → Type} [Monad m] (f : Ref → m Ref) : Expression → m Expression
  | seq a b => return seq (← f a) (← f b)
  | orElse a b => return orElse (← f a) (← f b)
  | keepLeft a b => return keepLeft (← f a) (← f b)
  | keepRight a b => return keepRight (← f a) (← f b)
  | followedBy a b => return followedBy (← f a) (← f b)
  | notFollowedBy a b => return notFollowedBy (← f a) (← f b)
  | choice alternatives => return choice (← alternatives.mapM f)
  | combine g parts => return combine g (← parts.mapM f)
  | optional body fallback => return optional (← f body) fallback
  | many body least => return many (← f body) least
  | transform g body => return transform g (← f body)
  | idiom kind body => return idiom kind (← f body)
  | e => return e

/-- Whether an expression is of a form that refers to no others. -/
def isLeaf : Expression → Bool
  | char .. | oneOf .. | escaped .. | test .. | scan .. | literal .. | keyword .. | finish => true
  | _ => false

/-- The test that an expression for a single character comes to. -/
def charTest? : Expression → Option CharTest
  | char c anyCase => some (.plain (.single c anyCase))
  | oneOf chars => some (.plain chars)
  | escaped c => some (.escaped (.single c false))
  | test t => some t
  | _ => none

/-- A short description of the form. -/
def form : Expression → String
  | char c false => s!"Char({c})"
  | char c true => s!"CharNoCase({c})"
  | oneOf chars => s!"InSet{chars.summary}"
  | escaped c => s!"EscapedChar({c})"
  | test _ => "AnyChar"
  | scan _ least _ => s!"Scanner(min={least})"
  | literal text false => s!"Literal({text})"
  | literal text true => s!"LiteralNoCase({text})"
  | keyword text _ _ => s!"Keyword({text})"
  | finish => "EOF"
  | seq .. => "Concat"
  | orElse .. => "Or"
  | keepLeft .. => "KeepLeft"
  | keepRight .. => "KeepRight"
  | followedBy .. => "FollowedBy"
  | notFollowedBy .. => "NotFollowedBy"
  | choice alternatives => s!"Choice({alternatives.length})"
  | combine _ parts => s!"Lift({parts.length})"
  | optional .. => "Opt"
  | many _ least => if least = 0 then "Many" else "Many1"
  | transform .. => "Map"
  | idiom kind _ => kind.title
  | forward _ => "Forward"

end Expression

/-- An expression and the name it was given. -/
structure Node where
  expression : Expression
  name : Option String := none
  deriving Inhabited

/-- The name, or else the form. -/
def Node.label (n : Node) : String := n.name.getD n.expression.form

/-- The form, followed by the name if there is one. -/
def Node.caption (n : Node) : String :=
  match n.name with
  | some name => n.expression.form ++ " " ++ Text.quoted name
  | none => n.expression.form

/-- A table of expressions. -/
structure Grammar where
  nodes : Array Node := #[]
  deriving Inhabited

/-- Why a forward reference cannot be closed. -/
inductive GrammarError where
  | alreadyClosed (label : String)
  | notForward (label : String)
  deriving DecidableEq, Repr

/-- The wording of a grammar error. -/
def GrammarError.message : GrammarError → String
  | .alreadyClosed label => "forward reference \x60" ++ label ++ "\x60 already has a target"
  | .notForward label => "\x60" ++ label ++ "\x60 is not a forward reference"

namespace Grammar

/-- What a reference to nothing stands for. -/
def missing : Node := ⟨.finish, none⟩

/-- The node behind a reference. -/
def node (g : Grammar) (r : Ref) : Node := g.nodes[r]?.getD missing

def expression (g : Grammar) (r : Ref) : Expression := (g.node r).expression

def name (g : Grammar) (r : Ref) : Option String := (g.node r).name

def label (g : Grammar) (r : Ref) : String := (g.node r).label

def size (g : Grammar) : Nat := g.nodes.size

/-- Where a forward reference leads, once it is closed. -/
def target? (g : Grammar) (r : Ref) : Option Ref :=
  match g.expression r with
  | .forward target => target
  | _ => none

/-- The items of a sequence: a sequence as the first part contributes its own items.
`limit` bounds how many are nested. -/
def sequenceItems (g : Grammar) : (limit : Nat) → Ref → List Ref
  | 0, r => [r]
  | limit + 1, r =>
    match g.expression r with
    | .seq first second => g.sequenceItems limit first ++ [second]
    | _ => [r]

/-- Append a node. -/
def add (g : Grammar) (n : Node) : Ref × Grammar := (g.nodes.size, ⟨g.nodes.push n⟩)

/-- Name an expression. -/
def setName (g : Grammar) (r : Ref) (name : String) : Grammar :=
  ⟨g.nodes.modify r ({ · with name := some name })⟩

/-- Let a forward reference lead to a target. -/
def aim (g : Grammar) (r target : Ref) : Grammar :=
  ⟨g.nodes.modify r ({ · with expression := .forward (some target) })⟩

/-- Close a forward reference, which must be one and must be open. -/
def close (g : Grammar) (r target : Ref) : Except GrammarError Grammar :=
  match g.expression r with
  | .forward none => .ok (g.aim r target)
  | .forward (some _) => .error (.alreadyClosed (g.label r))
  | _ => .error (.notForward (g.label r))

/-- Expressions refer to earlier ones; only a forward reference may lead anywhere. -/
def WellFormed (g : Grammar) : Prop :=
  ∀ r, r < g.size → ∀ child ∈ (g.expression r).children,
    child < g.size ∧ ((g.expression r).isForward = false → child < r)

/-- Enough steps for a walk that follows every forward reference at most once: between
two of them the references descend. -/
def walkLimit (g : Grammar) : Nat := (g.size + 1) * (g.size + 1)

end Grammar

end PegMachine
