/-
# PegMachine.Lowering — from expressions to bytecode

Every expression is lowered to a fragment of code. Control enters a fragment at its
first word and leaves it behind its last; then the register holds a datum or says
why there is none, marks and collections are as they were before, and after a
failure so is the cursor. Jumps stay inside their fragment and are relative, so a
fragment means the same at any address.

One function below lays out each form around the fragments of its parts. A part is
lowered at the address where it will stand, and the targets of jumps follow from
the lengths of the parts, so no word is ever changed once it is made.

A forward reference is lowered where it is met first: its target's fragment stands
right there and serves as a subroutine too, which every later occurrence calls.
-/
import PegMachine.Grammar.Condense
import Std.Data.TreeMap

namespace PegMachine

set_option autoImplicit false

/-- What lowering has produced besides words. -/
structure Lowering where
  tables : Tables := {}
  /-- The subroutines of the forward references met so far. -/
  subroutines : Std.TreeMap Ref Nat := {}
  /-- What is to be reported, the latest first. -/
  entries : List Log.Entry := []

/-- Lowering may fail. -/
abbrev Lower := StateT Lowering (Except LoweringError)

/-- Code, a word after the other. -/
abbrev Fragment := List Word

namespace Lower

/-- Add something to the tables; yields its index. -/
def table (add : Tables → Except LoweringError (Nat × Tables)) : Lower Nat := do
  let s ← get
  let (index, tables) ← add s.tables
  set { s with tables }
  return index

/-- A word without an operand. -/
def word (op : Opcode) : Word := Word.instruction op 0

/-- A jump from the address `source` where it stands. -/
def jump (op : Opcode) (source target : Nat) : Lower Word :=
  match Word.distance? source target with
  | some distance => return Word.instruction op (Word.ofDistance distance)
  | none => throw (.jumpTooLong source target)

/-- The fragment of an expression, once it is known at which address it will stand. -/
abbrev Part := Nat → Lower Fragment

/-- Lower parts one after the other, leaving room for `gap` words behind each. -/
def parts (gap : Nat) : Nat → List Part → Lower (List Fragment)
  | _, [] => return []
  | start, part :: rest => do
    let code ← part start
    let others ← parts gap (start + code.length + gap) rest
    return code :: others

/-- How much room fragments take with a gap behind each. -/
def room (gap : Nat) : List Fragment → Nat
  | [] => 0
  | fragment :: rest => fragment.length + gap + room gap rest

/-! ## Layouts -/

/-- The items of a sequence: each moves its datum into the collection, or jumps to `fail`. -/
def itemWords (fail : Nat) : Nat → List Fragment → Lower Fragment
  | _, [] => return []
  | start, code :: rest => do
    let exit ← jump .jumpIfFailed (start + code.length) fail
    let others ← itemWords fail (start + code.length + 2) rest
    return code ++ [exit, word .push] ++ others

/-- A sequence that yields the list of its items, or what a function makes of them.

```text
  collect; mark
  item; jumpIfFailed fail; push      for every item
  gather
  combine; jumpIfFailed undo         with a function
  unmark; jump done
fail:
  discard
undo:
  rewind
done:
```
-/
def sequence (items : List Part) (f : Option Combiner) : Part := fun base => do
  let fragments ← parts 2 (base + 2) items
  let name := if f.isSome then "Lift" else "Concat"
  let arity ← table (·.addArity items.length name)
  let close := base + 2 + room 2 fragments + 1
  let unmark := if f.isSome then close + 2 else close
  let fail := unmark + 2
  let undo := fail + 1
  let done := undo + 1
  let body ← itemWords fail (base + 2) fragments
  let apply ← match f with
    | none => pure []
    | some f => do
      let index ← table (·.addCombiner f)
      pure [Word.instruction .combine index, ← jump .jumpIfFailed (close + 1) undo]
  let leave ← jump .jump (unmark + 1) done
  return [word .collect, word .mark] ++ body ++ [Word.instruction .gather arity] ++ apply ++
    [word .unmark, leave, word .discard, word .rewind]

/-- The alternatives of a choice: each jumps to `ok`, or the next one starts over. -/
def alternativeWords (ok : Nat) : Nat → List Fragment → Lower Fragment
  | _, [] => return []
  | start, code :: rest => do
    let exit ← jump .jumpIfOk (start + code.length) ok
    let others ← alternativeWords ok (start + code.length + 2) rest
    let again := if rest.isEmpty then [] else [word .restart]
    return code ++ [exit] ++ again ++ others

/-- The first alternative that matches; the failure is that of the last one.

```text
  mark
  alternative; jumpIfOk ok           for every alternative,
  restart                            between two of them
  rewind; jump done
ok:
  unmark
done:
```
-/
def choice (alternatives : List Part) (label : String) : Part := fun base => do
  if alternatives.isEmpty then throw (.emptyChoice label)
  let fragments ← parts 2 (base + 1) alternatives
  let rewind := base + 1 + room 2 fragments - 1
  let ok := rewind + 2
  let done := ok + 1
  let body ← alternativeWords ok (base + 1) fragments
  let leave ← jump .jump (rewind + 1) done
  return [word .mark] ++ body ++ [word .rewind, leave, word .unmark]

/-- Both parts; what the first yields.

```text
  collect; mark
  first; jumpIfFailed fail; push
  second; jumpIfFailed fail
  pop; unmark; jump done
fail:
  rewind
done:
  discard
```
-/
def keepLeft (first second : Part) : Part := fun base => do
  let left ← first (base + 2)
  let leftExit := base + 2 + left.length
  let right ← second (leftExit + 2)
  let rightExit := leftExit + 2 + right.length
  let fail := rightExit + 4
  let done := fail + 1
  return [word .collect, word .mark] ++ left ++ [← jump .jumpIfFailed leftExit fail, word .push] ++
    right ++ [← jump .jumpIfFailed rightExit fail, word .pop, word .unmark,
      ← jump .jump (rightExit + 3) done, word .rewind, word .discard]

/-- Both parts; what the second yields.

```text
  mark
  first; jumpIfFailed fail
  second; jumpIfFailed fail
  unmark; jump done
fail:
  rewind
done:
```
-/
def keepRight (first second : Part) : Part := fun base => do
  let left ← first (base + 1)
  let leftExit := base + 1 + left.length
  let right ← second (leftExit + 1)
  let rightExit := leftExit + 1 + right.length
  let fail := rightExit + 3
  let done := fail + 1
  return [word .mark] ++ left ++ [← jump .jumpIfFailed leftExit fail] ++ right ++
    [← jump .jumpIfFailed rightExit fail, word .unmark, ← jump .jump (rightExit + 2) done,
      word .rewind]

/-- The first part, if the second matches behind it; the cursor ends behind the first.

```text
  collect; mark
  first; jumpIfFailed fail; push
  mark; second; rewind
  jumpIfFailed fail
  pop; unmark; jump done
fail:
  rewind
done:
  discard
```
-/
def followedBy (first second : Part) : Part := fun base => do
  let left ← first (base + 2)
  let leftExit := base + 2 + left.length
  let right ← second (leftExit + 3)
  let exit := leftExit + 3 + right.length + 1
  let fail := exit + 4
  let done := fail + 1
  return [word .collect, word .mark] ++ left ++
    [← jump .jumpIfFailed leftExit fail, word .push, word .mark] ++ right ++
    [word .rewind, ← jump .jumpIfFailed exit fail, word .pop, word .unmark,
      ← jump .jump (exit + 3) done, word .rewind, word .discard]

/-- The first part, if the second does not match behind it; the cursor ends behind the
first. Where it does match, the label says what was expected.

```text
  collect; mark
  first; jumpIfFailed fail; push
  mark; second; rewind
  jumpIfOk reject
  pop; unmark; jump done
reject:
  refuse
fail:
  rewind
done:
  discard
```
-/
def notFollowedBy (first second : Part) (label : String) : Part := fun base => do
  let index ← table (·.internLabel label)
  let left ← first (base + 2)
  let leftExit := base + 2 + left.length
  let right ← second (leftExit + 3)
  let exit := leftExit + 3 + right.length + 1
  let reject := exit + 4
  let fail := reject + 1
  let done := fail + 1
  return [word .collect, word .mark] ++ left ++
    [← jump .jumpIfFailed leftExit fail, word .push, word .mark] ++ right ++
    [word .rewind, ← jump .jumpIfOk exit reject, word .pop, word .unmark,
      ← jump .jump (exit + 3) done, Word.instruction .refuse index, word .rewind, word .discard]

/-- The part, or a constant.

```text
  mark
  part; jumpIfFailed fail
  unmark; jump done
fail:
  rewind
  default
done:
```
-/
def optional (body : Part) (fallback : Datum) : Part := fun base => do
  let code ← body (base + 1)
  let exit := base + 1 + code.length
  let fail := exit + 3
  let done := fail + 2
  let index ← table (·.addValue fallback)
  return [word .mark] ++ code ++ [← jump .jumpIfFailed exit fail, word .unmark,
    ← jump .jump (exit + 2) done, word .rewind, Word.instruction .default index]

/-- The part as often as it matches, until it fails or consumes nothing.

```text
  collect
again:
  mark
  part; jumpIfFailed exit; push
  loop again
  jump done
exit:
  rewind
done:
  gather
```
-/
def many (body : Part) (least : Nat) (label : String) : Part := fun base => do
  let again := base + 1
  let code ← body (again + 1)
  let leave := again + 1 + code.length
  let exit := leave + 4
  let done := exit + 1
  let arity ← table (·.addArity least label)
  return [word .collect, word .mark] ++ code ++ [← jump .jumpIfFailed leave exit, word .push,
    ← jump .loop (leave + 2) again, ← jump .jump (leave + 3) done, word .rewind,
    Word.instruction .gather arity]

/-- What a function makes of what the part yields.

```text
  mark
  part; transform; jumpIfFailed fail
  unmark; jump done
fail:
  rewind
done:
```
-/
def transform (f : Transform) (body : Part) : Part := fun base => do
  let code ← body (base + 1)
  let index ← table (·.addTransform f)
  let exit := base + 1 + code.length + 1
  let fail := exit + 3
  let done := fail + 1
  return [word .mark] ++ code ++ [Word.instruction .transform index,
    ← jump .jumpIfFailed exit fail, word .unmark, ← jump .jump (exit + 2) done, word .rewind]

/-- One character. -/
def test (t : CharTest) (label : String) : Part := fun _ => do
  return [Word.instruction .test (← table (·.addTest t label))]

/-- A run of characters. -/
def scan (t : CharTest) (least : Nat) (itemLabel : String) : Part := fun _ => do
  return [Word.instruction .scan (← table (·.addScan t least itemLabel))]

/-- A text, and what it yields. -/
def text (op : Opcode) (text : String) (anyCase : Bool) (value : Datum) : Part := fun _ => do
  return [Word.instruction op (← table (·.addLiteral text anyCase value))]

/-- A forward reference: a call, where there is a subroutine already, and otherwise the
fragment of its target, which becomes one. -/
def forward (r : Ref) (label : String) (target : Option Part) : Part := fun base => do
  match (← get).subroutines[r]? with
  | some index => return [Word.instruction .call index]
  | none =>
    match target with
    | none => throw (.openForward label)
    | some target => do
      let index ← table (·.addSubroutine label)
      modify fun s => { s with subroutines := s.subroutines.insert r index }
      let code ← target base
      let range : CodeRange := ⟨base, base + code.length⟩
      let entry : Log.Entry :=
        { component := .compiler
          level := .detail
          text := s!"forward {index} ({label}) @ {range.start}..{range.stop}" }
      modify fun s =>
        { s with tables := s.tables.placeSubroutine index range, entries := entry :: s.entries }
      return code

/-- A part that announces its name first. -/
def announced (name : String) (part : Part) : Part := fun base => do
  let index ← table (·.internLabel name)
  return Word.instruction .announce index :: (← part (base + 1))

end Lower

namespace Grammar

/-- Lower an expression, its children being lowered by `part`. -/
def lowerExpression (g : Grammar) (part : Ref → Lower.Part) (r : Ref) : Expression → Lower.Part
  | .char c anyCase => Lower.test (.plain (.single c anyCase)) (g.label r)
  | .oneOf chars => Lower.test (.plain chars) (g.label r)
  | .escaped c => Lower.test (.escaped (.single c false)) (g.label r)
  | .test t => Lower.test t (g.label r)
  | .scan t least itemLabel => Lower.scan t least itemLabel
  | .literal text anyCase => Lower.text .literal text anyCase (.text text)
  | .keyword text value anyCase => Lower.text .keyword text anyCase value
  | .finish => fun _ => return [Lower.word .finish]
  | .seq .. => Lower.sequence ((g.sequenceItems g.size r).map part) none
  | .orElse a b => Lower.choice [part a, part b] (g.label r)
  | .choice alternatives => Lower.choice (alternatives.map part) (g.label r)
  | .keepLeft a b => Lower.keepLeft (part a) (part b)
  | .keepRight a b => Lower.keepRight (part a) (part b)
  | .followedBy a b => Lower.followedBy (part a) (part b)
  | .notFollowedBy a b => Lower.notFollowedBy (part a) (part b) (g.label r)
  | .combine f parts => Lower.sequence (parts.map part) (some f)
  | .optional body fallback => Lower.optional (part body) fallback
  | .many body least => Lower.many (part body) least (g.label body)
  | .transform f body => Lower.transform f (part body)
  | .idiom _ body => part body
  | .forward target => Lower.forward r (g.label r) (target.map part)

/-- The fragment of an expression, with or without announcing named ones. `height` bounds
how deeply expressions nest. -/
def lower (g : Grammar) (traced : Bool) : (height : Nat) → Ref → Lower.Part
  | 0, r => fun _ => throw (.endless (g.label r))
  | height + 1, r =>
    let part := g.lowerExpression (g.lower traced height) r (g.expression r)
    match traced, g.name r with
    | true, some name => Lower.announced name part
    | _, _ => part

/-- Bytecode, and what its making reported. -/
structure Lowered where
  bytecode : Bytecode
  entries : List Log.Entry

/-- Lower everything reachable from an expression. -/
def lowered (g : Grammar) (traced : Bool) (root : Ref) : Except LoweringError Lowered := do
  let (code, s) ← (g.lower traced g.walkLimit root 0).run {}
  unless code.length < Word.codeLimit do throw (.tableFull .code)
  let summary : Log.Entry :=
    { component := .compiler
      level := .notice
      tag := .success
      text := s!"compiled {(g.node root).caption}: {code.length} instructions, " ++
        s!"{s.tables.subroutines.size} forwards" }
  return {
    bytecode := { s.tables with code := code.toArray, entry := ⟨0, code.length⟩, traced }
    entries := (summary :: s.entries).reverse }

/-- How a grammar is compiled. -/
structure CompileOptions where
  condense : Bool := true
  traced : Bool := false

/-- Compile an expression: condense it first, if so wanted, and lower it. -/
def compile (g : Grammar) (options : CompileOptions) (root : Ref) : Except LoweringError Lowered :=
  if options.condense then do
    let condensed := g.condense root
    let lowered ← condensed.grammar.lowered options.traced condensed.root
    return { lowered with entries := condensed.entries ++ lowered.entries }
  else g.lowered options.traced root

end Grammar

end PegMachine
