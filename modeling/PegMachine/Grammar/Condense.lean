/-
# PegMachine.Grammar.Condense — fewer and larger character tests

`condense` appends to a grammar an equivalent of one of its expressions in which

* every expression for a single character is a test on character classes;
* no choice is nested in a choice, and neighbouring tests among the alternatives
  of a choice are one test where that makes no difference (`CharTest.mergeable`);
* a repetition of a single test is a run of characters.

What was there before is not changed. Every reachable expression is condensed
once, so shared expressions stay shared; a forward reference is recorded before
its target is visited, so a recursive grammar becomes a recursive one.
Leaves other than single characters are used as they are.

A choice all of whose alternatives have merged gives way to the merged test. Any
other choice stays one, even with a single alternative: a sequence in its place
would be taken into the list of the sequence around it.
-/
import PegMachine.Grammar.Basic
import PegMachine.Log
import Std.Data.TreeMap

namespace PegMachine.Grammar

set_option autoImplicit false

/-! ## Merging the alternatives of a choice -/

/-- An alternative of a choice: an expression of the grammar, or a test that has been
merged and is not part of it yet. -/
structure Alternative where
  /-- The expression; none for a merged test. -/
  ref : Option Ref
  /-- The test, if the alternative is one. -/
  test : Option CharTest
  label : String

/-- The alternative that an expression is. -/
def alternative (g : Grammar) (r : Ref) : Alternative :=
  let test := match g.expression r with
    | .test t => some t
    | _ => none
  ⟨some r, test, g.label r⟩

/-- The one alternative that stands for two neighbours, if they can be merged. -/
def Alternative.merge? (first later : Alternative) : Option Alternative :=
  match first.test, later.test with
  | some s, some t =>
    if s.mergeable t then some ⟨none, some (s.union t), first.label ++ " | " ++ later.label⟩
    else none
  | _, _ => none

/-- Alternatives merged so far, the last first, and the labels of the tests that came
about by merging, the latest first. -/
structure Merging where
  done : List Alternative := []
  labels : List String := []

/-- Take one more alternative in. -/
def Merging.step (m : Merging) (next : Alternative) : Merging :=
  match m.done with
  | [] => { m with done := [next] }
  | last :: earlier =>
    match last.merge? next with
    | some both => ⟨both :: earlier, both.label :: m.labels⟩
    | none => { m with done := next :: last :: earlier }

/-- Merge neighbours, from the left. -/
def mergeAlternatives (alternatives : List Alternative) : Merging :=
  alternatives.foldl Merging.step {}

/-! ## Condensing expressions -/

/-- The state of condensing. -/
structure Condensing where
  grammar : Grammar
  /-- What each expression visited so far has become. -/
  condensed : Std.TreeMap Ref Ref := {}
  /-- How many tests were merged into another. -/
  merged : Nat := 0
  /-- What is to be reported, the latest first. -/
  entries : List Log.Entry := []

/-- Making condensed expressions out of those of a grammar. -/
abbrev Condense := StateM Condensing

namespace Condense

/-- Append a node. -/
def add (n : Node) : Condense Ref :=
  modifyGet fun s =>
    let (r, grammar) := s.grammar.add n
    (r, { s with grammar })

/-- Give an expression the name of what it stands for, if that has one. -/
def rename (r : Ref) (name : Option String) : Condense Unit :=
  match name with
  | some name => modify fun s => { s with grammar := s.grammar.setName r name }
  | none => return

/-- Append an expression, which gets the name of what it stands for. -/
def addNamed (e : Expression) (name : Option String) : Condense Ref := do
  let r ← add ⟨e, none⟩
  rename r name
  return r

/-- Remember what an expression has become. -/
def record (r result : Ref) : Condense Unit :=
  modify fun s => { s with condensed := s.condensed.insert r result }

def report (text : String) : Condense Unit :=
  modify fun s =>
    { s with entries := { component := .optimizer, level := .detail, text } :: s.entries }

/-- Report tests that came about by merging. -/
def reportMerged (labels : List String) : Condense Unit := do
  labels.forM fun label => report ("merged " ++ label)
  modify fun s => { s with merged := s.merged + labels.length }

/-- The alternatives a condensed alternative contributes: its own, if it is a choice. -/
def flattened (r : Ref) : Condense (List Ref) := do
  match (← get).grammar.expression r with
  | .choice alternatives => return alternatives
  | _ => return [r]

/-- An expression for an alternative; a merged test is added under its label. -/
def place (a : Alternative) : Condense Ref :=
  match a.ref, a.test with
  | some r, _ => return r
  | none, test => add ⟨.test (test.getD default), some a.label⟩

/-- A choice between alternatives that have been condensed. -/
def condenseChoice (name : Option String) (alternatives : List Ref) : Condense Ref := do
  let flat := (← alternatives.mapM flattened).flatten
  let g := (← get).grammar
  let merging := mergeAlternatives (flat.map g.alternative)
  reportMerged merging.labels.reverse
  match merging.done with
  | [⟨none, some t, label⟩] =>
    let r ← add ⟨.test t, some label⟩
    rename r name
    return r
  | done => addNamed (.choice (← done.reverse.mapM place)) name

/-- A repetition whose body `body` has become `inner`. -/
def condenseMany (node : Node) (body inner : Ref) (least : Nat) : Condense Ref := do
  let g := (← get).grammar
  match g.expression inner with
  | .test t =>
    report s!"{node.expression.form} over {g.label body} becomes a scanner"
    addNamed (.scan t least (g.label body)) node.name
  | _ => addNamed (.many inner least) node.name

/-- Condense an expression that is no forward reference; `visit` condenses its children. -/
def condenseNode (visit : Ref → Condense Ref) (r : Ref) (node : Node) : Condense Ref := do
  match node.expression.charTest? with
  | some t => add ⟨.test t, some node.label⟩
  | none =>
    match node.expression with
    | .orElse a b => condenseChoice node.name (← [a, b].mapM visit)
    | .choice alternatives => condenseChoice node.name (← alternatives.mapM visit)
    | .many body least => condenseMany node body (← visit body) least
    | e => if e.isLeaf then return r else addNamed (← e.mapRefs visit) node.name

/-- Replace a forward reference by a new one that leads to the condensed target. -/
def condenseForward (visit : Ref → Condense Ref) (r : Ref) (name : Option String)
    (target : Option Ref) : Condense Ref := do
  let fresh ← addNamed (.forward none) name
  record r fresh
  if let some target := target then
    let target ← visit target
    modify fun s => { s with grammar := s.grammar.aim fresh target }
  return fresh

/-- Condense an expression, unless that has been done. `height` bounds how deeply the
visits nest. -/
def visit : (height : Nat) → Ref → Condense Ref
  | 0, r => return r
  | height + 1, r => do
    let s ← get
    match s.condensed[r]? with
    | some result => return result
    | none =>
      let node := s.grammar.node r
      match node.expression with
      | .forward target => condenseForward (visit height) r node.name target
      | _ =>
        let result ← condenseNode (visit height) r node
        record r result
        return result

end Condense

/-- A grammar to which the condensed form of an expression was appended. -/
structure Condensed where
  grammar : Grammar
  root : Ref
  entries : List Log.Entry

/-- Append the condensed form of an expression. -/
def condense (g : Grammar) (root : Ref) : Condensed :=
  let (result, s) := (Condense.visit g.walkLimit root).run { grammar := g }
  let summary : Log.Entry :=
    { component := .optimizer
      level := .notice
      text := s!"optimized {(g.node root).caption}: {s.condensed.size} nodes rewritten, " ++
        s!"{s.merged} char tests merged" }
  ⟨s.grammar, result, (summary :: s.entries).reverse⟩

end PegMachine.Grammar
