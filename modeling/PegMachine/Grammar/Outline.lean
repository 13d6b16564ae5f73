/-
# PegMachine.Grammar.Outline — a grammar as an indented outline

`outline` walks the expressions reachable from one of them, depth first, and
yields one entry for each place where one is used. An expression with children is
expanded at its first occurrence only; later ones refer back to it. So a walk
ends on every grammar, recursive ones included: each expansion marks an
expression that was not marked before.
-/
import PegMachine.Datum.Printer
import PegMachine.Grammar.Basic

namespace PegMachine.Grammar

set_option autoImplicit false

/-- One line of an outline. -/
structure OutlineEntry where
  depth : Nat
  ref : Ref
  /-- Whether the expression was expanded further up. -/
  seen : Bool
  deriving DecidableEq, Repr

/-- The entries of one expression, and the expressions expanded so far. -/
abbrev Walked := List OutlineEntry × List Ref

/-- Walk the references of a list one after the other. -/
def walkAll (walk : List Ref → Ref → Walked) : List Ref → List Ref → Walked
  | expanded, [] => ([], expanded)
  | expanded, r :: rest =>
    let (front, expanded) := walk expanded r
    let (back, expanded) := walkAll walk expanded rest
    (front ++ back, expanded)

/-- Walk one expression. `height` bounds how often expansions nest. -/
def walk (g : Grammar) : (height depth : Nat) → List Ref → Ref → Walked
  | 0, depth, expanded, r => ([⟨depth, r, true⟩], expanded)
  | height + 1, depth, expanded, r =>
    let children := (g.expression r).children
    if children.isEmpty then ([⟨depth, r, false⟩], expanded)
    else if expanded.contains r then ([⟨depth, r, true⟩], expanded)
    else
      let (inner, expanded) := walkAll (walk g height (depth + 1)) (r :: expanded) children
      (⟨depth, r, false⟩ :: inner, expanded)

/-- The outline of everything reachable from an expression. -/
def outline (g : Grammar) (root : Ref) : List OutlineEntry :=
  (g.walk (g.size + 1) 0 [] root).1

/-- What an entry shows besides the caption of its expression. -/
def detail : Expression → String
  | .scan t _ itemLabel => s!" {t.chars.summary} escapes {t.escapes.summary} of {itemLabel}"
  | .test t => s!" {t.chars.summary} escapes {t.escapes.summary}"
  | .keyword _ value _ => s!" -> {value.display}"
  | .optional _ fallback => if fallback.isNull then "" else s!" default {fallback.display}"
  | _ => ""

/-- The line of an entry. -/
def outlineLine (g : Grammar) (entry : OutlineEntry) : String :=
  let node := g.node entry.ref
  let rest := if entry.seen then " (see above)" else detail node.expression
  Text.repeated (2 * entry.depth) ' ' ++ node.caption ++ rest ++ "\n"

/-- The outline as text. -/
def outlineText (g : Grammar) (root : Ref) : String :=
  String.join ((g.outline root).map g.outlineLine)

end PegMachine.Grammar
