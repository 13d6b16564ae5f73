/-
# PegMachine.Proofs.Idioms — which texts the idioms take

An idiom is a small tree of ordinary expressions. What stands behind the reference that
`Build` answers for it is named by its parts (`Encloses`, `Separates`), so that a text can be
followed through the idiom without looking into the tree.
-/
import PegMachine.Proofs.Building
import PegMachine.Proofs.Meaning.Takes

namespace PegMachine

set_option autoImplicit false

namespace Grammar

/-- The expression is a body between two copies of an envelope. -/
inductive Encloses (g : Grammar) (body envelope r : Ref) : Prop
  | of {left whole : Ref} (idiom : g.expression r = .idiom .enclosed whole)
      (isWhole : g.expression whole = .keepLeft left envelope)
      (isLeft : g.expression left = .keepRight envelope body) : Encloses g body envelope r

section Encloses

variable {g : Grammar} {body envelope r : Ref} (encloses : g.Encloses body envelope r)

include encloses in
theorem Encloses.takes {k : Nat} {front text back rest : List Char} {d d' d'' : Datum}
    (opened : g.Takes k envelope front (text ++ (back ++ rest)) d')
    (inner : g.Takes k body text (back ++ rest) d) (closed : g.Takes k envelope back rest d'') :
    g.Takes k r (front ++ text ++ back) rest d := by
  obtain ⟨idiom, isWhole, isLeft⟩ := encloses
  exact .of idiom (.idiom (.of isWhole (.keepLeft (.of isLeft (.keepRight opened inner)) closed)))

include encloses in
theorem Encloses.refuses {k : Nat} {rest : List Char} (opened : g.Refuses k envelope rest) :
    g.Refuses k r rest := by
  obtain ⟨idiom, isWhole, isLeft⟩ := encloses
  exact .of idiom (.idiom (.of isWhole (.keepLeft (.here (.of isLeft (.keepRight (.here opened)))))))

end Encloses

/-- The expression is a list of items with separators between them. -/
inductive Separates (g : Grammar) (item separator r : Ref) : Prop
  | of {boxed first pair others whole : Ref} (idiom : g.expression r = .idiom .separated whole)
      (isWhole : g.expression whole = .combine (fun ds => .ok (Build.joinItems ds)) [first, others])
      (isFirst : g.expression first = .optional boxed .null)
      (isBoxed : g.expression boxed = .transform (fun d => .ok (.list [d])) item)
      (isOthers : g.expression others = .many pair 0)
      (isPair : g.expression pair = .keepRight separator item) : Separates g item separator r

section Separates

variable {g : Grammar} {item separator r : Ref} (separates : g.Separates item separator r)
variable {k : Nat} {text text' rest : List Char} {d : Datum} {ds : List Datum}

include separates in
/-- A first item, and further ones behind separators. -/
theorem Separates.takes_some (first : g.Takes k item text (text' ++ rest) d)
    (others : ∀ pair, g.expression pair = .keepRight separator item → g.Rounds k pair text' rest ds) :
    g.Takes k r (text ++ text') rest (.list (d :: ds)) := by
  obtain ⟨idiom, isWhole, isFirst, isBoxed, isOthers, isPair⟩ := separates
  have boxed := Takes.of isFirst (.present (.of isBoxed (.transform first rfl)))
  have run := Takes.of isOthers (.many (others _ isPair) (Nat.zero_le _))
  have row : g.Row k [_, _] (text ++ (text' ++ [])) rest [.list [d], .list ds] :=
    .cons (by rwa [List.append_nil]) (.cons run .nil)
  rw [List.append_nil] at row
  exact .of idiom (.idiom (.of isWhole (.combine row rfl)))

include separates in
/-- No first item; what follows may still begin with a separator. -/
theorem Separates.takes_none (first : g.Refuses k item (text ++ rest))
    (others : ∀ pair, g.expression pair = .keepRight separator item → g.Rounds k pair text rest ds) :
    g.Takes k r text rest (.list ds) := by
  obtain ⟨idiom, isWhole, isFirst, isBoxed, isOthers, isPair⟩ := separates
  have missing := Takes.of isFirst (.absent (.of isBoxed (.transform first)))
  have run := Takes.of isOthers (.many (others _ isPair) (Nat.zero_le _))
  have row : g.Row k [_, _] ([] ++ (text ++ [])) rest [.null, .list ds] :=
    .cons (by rwa [List.append_nil]) (.cons run .nil)
  rw [List.nil_append, List.append_nil] at row
  exact .of idiom (.idiom (.of isWhole (.combine row rfl)))

end Separates

end Grammar

namespace Build

theorem builds_enclosed {o : List Ref} (body envelope : Ref) :
    Builds o (enclosed body envelope) (fun _ => o) (fun later r => later.Encloses body envelope r) := by
  refine (builds_add rfl).bind fun left => ?_
  refine (builds_add rfl).bind fun whole => ?_
  refine (builds_add rfl).mono ?_
  intro later r isIdiom isWhole isLeft
  exact .of isIdiom isWhole isLeft

theorem builds_separated {o : List Ref} (item separator : Ref) :
    Builds o (separated item separator) (fun _ => o)
      (fun later r => later.Separates item separator r) := by
  refine (builds_add rfl).bind fun boxed => ?_
  refine (builds_add rfl).bind fun first => ?_
  refine (builds_add rfl).bind fun pair => ?_
  refine (builds_add rfl).bind fun others => ?_
  refine (builds_add rfl).bind fun whole => ?_
  refine (builds_add rfl).mono ?_
  intro later r isIdiom isWhole isOthers isPair isFirst isBoxed
  exact .of isIdiom isWhole isFirst isBoxed isOthers isPair

end Build

end PegMachine
