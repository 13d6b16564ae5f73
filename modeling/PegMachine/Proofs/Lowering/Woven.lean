/-
# PegMachine.Proofs.Lowering.Woven — words around the fragments of parts

Every layout puts words of its own around the fragments of its parts. `Lower.Woven` takes
a fragment apart that way: each part was lowered at the address where its fragment
stands, one after the other, and the words in between call nothing (`Fragment.Quiet`).
Lowering these words leaves everything as it is that is known of forward references
(`Lowering.Still`).

So calls in a fragment are calls in the fragments of its parts, down to the forward
references themselves. There is one statement for each layout, and `Grammar.weaves_form`
puts them together.
-/
import PegMachine.Proofs.Lowering.Follows

namespace PegMachine

set_option autoImplicit false

/-! ## Words that call nothing -/

/-- None of the words calls a subroutine. -/
def Fragment.Quiet (words : Fragment) : Prop := ∀ w ∈ words, Word.opcode? w ≠ some .call

section Quiet

variable {op : Opcode} {w : Word} {front back : Fragment}

@[simp] theorem quiet_nil : Fragment.Quiet [] := nofun

@[simp] theorem quiet_cons :
    Fragment.Quiet (w :: back) ↔ Word.opcode? w ≠ some .call ∧ back.Quiet :=
  List.forall_mem_cons

@[simp] theorem quiet_append : Fragment.Quiet (front ++ back) ↔ front.Quiet ∧ back.Quiet :=
  List.forall_mem_append

@[simp] theorem opcode?_word (op : Opcode) : Word.opcode? (Lower.word op) = some op :=
  Word.opcode?_instruction op 0

theorem Lower.Aimed.opcode? {source target : Nat} (aimed : Lower.Aimed op source target w) :
    Word.opcode? w = some op := by
  obtain ⟨distance, -, rfl⟩ := aimed
  exact Word.opcode?_instruction _ _

end Quiet

/-- Whatever was known of forward references is known later, and nothing else. -/
def Lowering.Still (s s' : Lowering) : Prop := ∀ v, Tracks s v → Moves s s' v v

namespace Lowering.Still

variable {s s' s'' : Lowering}

theorem refl (s : Lowering) : Still s s := fun _ tracks => .refl tracks

theorem trans (first : Still s s') (second : Still s' s'') : Still s s'' := fun v tracks =>
  (first v tracks).trans (second v (first v tracks).tracks)

theorem of_adds {t : Tables} {index : Nat} (adds : Tables.Adds s.tables t index) :
    Still s { s with tables := t } := fun _ tracks => .of_adds tracks adds

end Lowering.Still

namespace Lower

open Lowering (Still)

/-! ## Taking fragments apart -/

/-- A fragment that was made of the fragments of parts, one after the other, with quiet words
before, between and behind them. -/
inductive Woven : List Part → Nat → Lowering → Fragment → Lowering → Prop
  | last {base : Nat} {s s' : Lowering} (words : Fragment) (quiet : words.Quiet) (still : Still s s') :
      Woven [] base s words s'
  | next {part : Part} {rest : List Part} {base : Nat} {s s₁ s₂ s' : Lowering} {code words : Fragment}
      (gap : Fragment) (quiet : gap.Quiet) (still : Still s s₁)
      (lowered : part (base + gap.length) s₁ = .ok (code, s₂))
      (others : Woven rest (base + gap.length + code.length) s₂ words s') :
      Woven (part :: rest) base s (gap ++ code ++ words) s'

/-- Whatever a part is lowered to has words, and is made of the fragments of other parts. -/
def Weaves (part : Part) (inner : List Part) : Prop :=
  ∀ ⦃base : Nat⦄ ⦃s s' : Lowering⦄ ⦃code : Fragment⦄, part base s = .ok (code, s') →
    code ≠ [] ∧ Woven inner base s code s'

theorem Woven.to {inner : List Part} {base : Nat} {s s' : Lowering} {code code' : Fragment}
    (woven : Woven inner base s code s') (same : code = code') : Woven inner base s code' s' :=
  same ▸ woven

/-- A part that always has words is made of itself. -/
theorem weaves_self {part : Part} (filled : ∀ ⦃base : Nat⦄ ⦃s s' : Lowering⦄ ⦃code : Fragment⦄,
    part base s = .ok (code, s') → code ≠ []) : Weaves part [part] := by
  intro base s s' code lowered
  have woven : Woven [part] base s ([] ++ code ++ []) s' :=
    .next [] quiet_nil (.refl s) lowered (.last [] quiet_nil (.refl s'))
  exact ⟨filled lowered, woven.to (by simp)⟩

/-! ## Single words -/

/-- A word that refers to an entry of a table. -/
theorem weaves_entry {add : Tables → Except LoweringError (Nat × Tables)} {op : Opcode}
    (adds : ∀ {t t' index}, add t = .ok (index, t') → Tables.Adds t t' index) (other : op ≠ .call) :
    Weaves (fun _ => do return [Word.instruction op (← table add)]) [] := by
  intro base s s' code lowered
  simp only [bind_eq_ok, table_eq_ok, pure_eq_ok] at lowered
  obtain ⟨index, _, ⟨t, added, rfl⟩, rfl, rfl⟩ := lowered
  exact ⟨List.cons_ne_nil _ _, .last _ (by simp [other]) (.of_adds (adds added))⟩

theorem weaves_finish : Weaves (fun _ => return [word .finish]) [] := by
  intro base s s' code lowered
  obtain ⟨rfl, rfl⟩ := pure_eq_ok.mp lowered
  exact ⟨List.cons_ne_nil _ _, .last _ (by simp) (.refl s)⟩

/-! ## Pairs -/

section Pairs

variable {first second : Part}

theorem weaves_keepLeft : Weaves (keepLeft first second) [first, second] := by
  intro base s s' code lowered
  simp only [keepLeft, bind_eq_ok, jump_eq_ok, pure_eq_ok] at lowered
  obtain ⟨left, s₁, lowerLeft, right, s₂, lowerRight, w₁, _, ⟨aim₁, rfl⟩, w₂, _, ⟨aim₂, rfl⟩, w₃, _,
    ⟨aim₃, rfl⟩, rfl, rfl⟩ := lowered
  refine ⟨by simp, Woven.to (.next [word .collect, word .mark] (by simp) (.refl s) lowerLeft
    (.next [w₁, word .push] (by simp [aim₁.opcode?]) (.refl s₁) lowerRight
      (.last [w₂, word .pop, word .unmark, w₃, word .rewind, word .discard]
        (by simp [aim₂.opcode?, aim₃.opcode?]) (.refl s₂)))) ?_⟩
  simp only [List.append_assoc]

theorem weaves_keepRight : Weaves (keepRight first second) [first, second] := by
  intro base s s' code lowered
  simp only [keepRight, bind_eq_ok, jump_eq_ok, pure_eq_ok] at lowered
  obtain ⟨left, s₁, lowerLeft, right, s₂, lowerRight, w₁, _, ⟨aim₁, rfl⟩, w₂, _, ⟨aim₂, rfl⟩, w₃, _,
    ⟨aim₃, rfl⟩, rfl, rfl⟩ := lowered
  refine ⟨by simp, Woven.to (.next [word .mark] (by simp) (.refl s) lowerLeft
    (.next [w₁] (by simp [aim₁.opcode?]) (.refl s₁) lowerRight
      (.last [w₂, word .unmark, w₃, word .rewind] (by simp [aim₂.opcode?, aim₃.opcode?])
        (.refl s₂)))) ?_⟩
  simp only [List.append_assoc]

theorem weaves_followedBy : Weaves (followedBy first second) [first, second] := by
  intro base s s' code lowered
  simp only [followedBy, bind_eq_ok, jump_eq_ok, pure_eq_ok] at lowered
  obtain ⟨left, s₁, lowerLeft, right, s₂, lowerRight, w₁, _, ⟨aim₁, rfl⟩, w₂, _, ⟨aim₂, rfl⟩, w₃, _,
    ⟨aim₃, rfl⟩, rfl, rfl⟩ := lowered
  refine ⟨by simp, Woven.to (.next [word .collect, word .mark] (by simp) (.refl s) lowerLeft
    (.next [w₁, word .push, word .mark] (by simp [aim₁.opcode?]) (.refl s₁) lowerRight
      (.last [word .rewind, w₂, word .pop, word .unmark, w₃, word .rewind, word .discard]
        (by simp [aim₂.opcode?, aim₃.opcode?]) (.refl s₂)))) ?_⟩
  simp only [List.append_assoc]

theorem weaves_notFollowedBy (label : String) :
    Weaves (notFollowedBy first second label) [first, second] := by
  intro base s s' code lowered
  simp only [notFollowedBy, bind_eq_ok, table_eq_ok, jump_eq_ok, pure_eq_ok] at lowered
  obtain ⟨index, _, ⟨t, interned, rfl⟩, left, s₁, lowerLeft, right, s₂, lowerRight, w₁, _, ⟨aim₁, rfl⟩,
    w₂, _, ⟨aim₂, rfl⟩, w₃, _, ⟨aim₃, rfl⟩, rfl, rfl⟩ := lowered
  obtain ⟨adds, -⟩ := Tables.internLabel_eq_ok interned
  refine ⟨by simp, Woven.to (.next [word .collect, word .mark] (by simp) (.of_adds adds) lowerLeft
    (.next [w₁, word .push, word .mark] (by simp [aim₁.opcode?]) (.refl s₁) lowerRight
      (.last [word .rewind, w₂, word .pop, word .unmark, w₃, Word.instruction .refuse index,
          word .rewind, word .discard]
        (by simp [aim₂.opcode?, aim₃.opcode?]) (.refl s₂)))) ?_⟩
  simp only [List.append_assoc]

end Pairs

/-! ## One part -/

section Single

variable {body : Part}

theorem weaves_optional (fallback : Datum) : Weaves (optional body fallback) [body] := by
  intro base s s' code lowered
  simp only [optional, bind_eq_ok, table_eq_ok, jump_eq_ok, pure_eq_ok] at lowered
  obtain ⟨code, s₁, lowerBody, index, _, ⟨t, added, rfl⟩, w₁, _, ⟨aim₁, rfl⟩, w₂, _, ⟨aim₂, rfl⟩, rfl,
    rfl⟩ := lowered
  obtain ⟨adds, -⟩ := Tables.addValue_eq_ok added
  exact ⟨by simp, .next [word .mark] (by simp) (.refl s) lowerBody
    (.last _ (by simp [aim₁.opcode?, aim₂.opcode?]) (.of_adds adds))⟩

theorem weaves_many (least : Nat) (label : String) : Weaves (many body least label) [body] := by
  intro base s s' code lowered
  simp only [many, bind_eq_ok, table_eq_ok, jump_eq_ok, pure_eq_ok] at lowered
  obtain ⟨code, s₁, lowerBody, index, _, ⟨t, added, rfl⟩, w₁, _, ⟨aim₁, rfl⟩, w₂, _, ⟨aim₂, rfl⟩, w₃, _,
    ⟨aim₃, rfl⟩, rfl, rfl⟩ := lowered
  obtain ⟨adds, -⟩ := Tables.addArity_eq_ok added
  exact ⟨by simp, .next [word .collect, word .mark] (by simp) (.refl s) lowerBody
    (.last _ (by simp [aim₁.opcode?, aim₂.opcode?, aim₃.opcode?]) (.of_adds adds))⟩

theorem weaves_transform (f : Transform) : Weaves (transform f body) [body] := by
  intro base s s' code lowered
  simp only [transform, bind_eq_ok, table_eq_ok, jump_eq_ok, pure_eq_ok] at lowered
  obtain ⟨code, s₁, lowerBody, index, _, ⟨t, added, rfl⟩, w₁, _, ⟨aim₁, rfl⟩, w₂, _, ⟨aim₂, rfl⟩, rfl,
    rfl⟩ := lowered
  obtain ⟨adds, -⟩ := Tables.addTransform_eq_ok added
  exact ⟨by simp, .next [word .mark] (by simp) (.refl s) lowerBody
    (.last _ (by simp [aim₁.opcode?, aim₂.opcode?]) (.of_adds adds))⟩

theorem weaves_announced (name : String) : Weaves (announced name body) [body] := by
  intro base s s' code lowered
  simp only [announced, bind_eq_ok, table_eq_ok, pure_eq_ok] at lowered
  obtain ⟨index, _, ⟨t, interned, rfl⟩, code, s₁, lowerBody, rfl, rfl⟩ := lowered
  obtain ⟨adds, -⟩ := Tables.internLabel_eq_ok interned
  refine ⟨by simp, Woven.to (.next [Word.instruction .announce index] (by simp) (.of_adds adds)
    lowerBody (.last [] quiet_nil (.refl s₁))) ?_⟩
  simp only [List.append_nil, List.singleton_append]

end Single

/-! ## Lists of parts -/

section Lists

variable {inner : List Part} {base start : Nat} {s s₁ s₂ s' u u' : Lowering} {codes : List Fragment}
variable {body : Fragment}

/-- The items of a sequence, behind some words and before others. -/
theorem woven_items {fail : Nat} (lowered : parts 2 start inner s₁ = .ok (codes, s₂))
    (made : itemWords fail start codes u = .ok (body, u')) (lead : Fragment) (quiet : lead.Quiet)
    (here : base + lead.length = start) (still : Still s s₁) (tail : Fragment)
    (quietTail : tail.Quiet) (stillTail : Still s₂ s') :
    Woven inner base s (lead ++ body ++ tail) s' := by
  induction inner generalizing start codes body lead base s s₁ u u' with
  | nil =>
      obtain ⟨rfl, rfl⟩ := pure_eq_ok.mp lowered
      obtain ⟨rfl, rfl⟩ := pure_eq_ok.mp made
      exact .last _ (by simp [quiet, quietTail]) (still.trans stillTail)
  | cons part rest ih =>
      subst here
      simp only [parts, bind_eq_ok, pure_eq_ok] at lowered
      obtain ⟨code, s₃, lowerFirst, others, _, lowerRest, rfl, rfl⟩ := lowered
      simp only [itemWords, bind_eq_ok, jump_eq_ok, pure_eq_ok] at made
      obtain ⟨w, _, ⟨aim, rfl⟩, words, _, made, rfl, rfl⟩ := made
      have quietGap : Fragment.Quiet [w, word .push] := by simp [aim.opcode?]
      have woven := ih lowerRest made _ quietGap rfl (.refl s₃)
      refine Woven.to (.next lead quiet still lowerFirst woven) ?_
      simp only [List.append_assoc]

/-- The alternatives of a choice likewise. Between two of them stands one word more than behind
the last. -/
theorem woven_alternatives {ok : Nat} (lowered : parts 2 start inner s₁ = .ok (codes, s₂))
    (made : alternativeWords ok start codes u = .ok (body, u')) (lead : Fragment) (quiet : lead.Quiet)
    (here : base + lead.length = start) (still : Still s s₁) (tail : Fragment)
    (quietTail : tail.Quiet) (stillTail : Still s₂ s') :
    Woven inner base s (lead ++ body ++ tail) s' := by
  induction inner generalizing start codes body lead base s s₁ u u' with
  | nil =>
      obtain ⟨rfl, rfl⟩ := pure_eq_ok.mp lowered
      obtain ⟨rfl, rfl⟩ := pure_eq_ok.mp made
      exact .last _ (by simp [quiet, quietTail]) (still.trans stillTail)
  | cons part rest ih =>
      subst here
      simp only [parts, bind_eq_ok, pure_eq_ok] at lowered
      obtain ⟨code, s₃, lowerFirst, others, _, lowerRest, rfl, rfl⟩ := lowered
      simp only [alternativeWords, bind_eq_ok, jump_eq_ok, pure_eq_ok] at made
      obtain ⟨w, _, ⟨aim, rfl⟩, words, _, made, rfl, rfl⟩ := made
      have woven : Woven rest (base + lead.length + code.length) s₃
          ([w] ++ (if others.isEmpty then [] else [word .restart]) ++ words ++ tail) s' := by
        cases rest with
        | nil =>
            obtain ⟨rfl, rfl⟩ := pure_eq_ok.mp lowerRest
            obtain ⟨rfl, rfl⟩ := pure_eq_ok.mp made
            exact .last _ (by simp [aim.opcode?, quietTail]) stillTail
        | cons next rest =>
            have quietGap : Fragment.Quiet [w, word .restart] := by simp [aim.opcode?]
            have woven := ih lowerRest made _ quietGap rfl (.refl s₃)
            simp only [parts, bind_eq_ok, pure_eq_ok] at lowerRest
            obtain ⟨_, _, -, _, _, -, rfl, -⟩ := lowerRest
            exact woven
      refine Woven.to (.next lead quiet still lowerFirst woven) ?_
      simp only [List.append_assoc]

theorem weaves_sequence (f : Option Combiner) : Weaves (sequence inner f) inner := by
  intro base s s' code lowered
  cases f with
  | none =>
      simp only [sequence, bind_eq_ok, table_eq_ok, jump_eq_ok, pure_eq_ok, Option.isSome_none,
        Bool.false_eq_true, if_false] at lowered
      obtain ⟨codes, s₁, lowerParts, n, _, ⟨t, added, rfl⟩, body, s₂, items, _, _, ⟨rfl, rfl⟩, leave,
        _, ⟨aim, rfl⟩, rfl, rfl⟩ := lowered
      obtain ⟨adds, -⟩ := Tables.addArity_eq_ok added
      obtain ⟨rfl, -⟩ := itemWords_eq_ok items
      have woven := woven_items lowerParts items [word .collect, word .mark] (by simp) rfl
        (.refl s) [Word.instruction .gather n, word .unmark, leave, word .discard, word .rewind]
        (by simp [aim.opcode?]) (.of_adds adds)
      refine ⟨by simp, woven.to ?_⟩
      simp only [List.append_assoc, List.cons_append, List.nil_append]
  | some f =>
      simp only [sequence, bind_eq_ok, table_eq_ok, jump_eq_ok, pure_eq_ok, Option.isSome_some,
        if_true] at lowered
      obtain ⟨codes, s₁, lowerParts, n, _, ⟨t, added, rfl⟩, body, s₂, items, m, _, ⟨t', added', rfl⟩, w,
        _, ⟨aim, rfl⟩, _, _, ⟨rfl, rfl⟩, leave, _, ⟨aim', rfl⟩, rfl, rfl⟩ := lowered
      obtain ⟨adds, -⟩ := Tables.addArity_eq_ok added
      obtain ⟨rfl, -⟩ := itemWords_eq_ok items
      obtain ⟨adds', -⟩ := Tables.addCombiner_eq_ok added'
      have still : Still s₁ { s₁ with tables := t' } := .of_adds (adds.trans adds')
      have woven := woven_items lowerParts items [word .collect, word .mark] (by simp) rfl
        (.refl s) [Word.instruction .gather n, Word.instruction .combine m, w, word .unmark, leave,
          word .discard, word .rewind]
        (by simp [aim.opcode?, aim'.opcode?]) still
      refine ⟨by simp, woven.to ?_⟩
      simp only [List.append_assoc, List.cons_append, List.nil_append]

theorem weaves_choice (label : String) : Weaves (choice inner label) inner := by
  intro base s s' code lowered
  cases inner with
  | nil => nomatch lowered
  | cons first rest =>
      simp only [choice, bind_eq_ok, jump_eq_ok, pure_eq_ok, List.isEmpty_cons, Bool.false_eq_true,
        if_false] at lowered
      obtain ⟨codes, s₁, lowerParts, body, s₂, words, leave, _, ⟨aim, rfl⟩, rfl, rfl⟩ := lowered
      have made := lowerParts
      simp only [parts, bind_eq_ok, pure_eq_ok] at made
      obtain ⟨code, _, -, others, _, -, rfl, -⟩ := made
      obtain ⟨rfl, -⟩ := alternativeWords_eq_ok words
      have woven := woven_alternatives lowerParts words [word .mark] (by simp) rfl (.refl s)
        [word .rewind, leave, word .unmark] (by simp [aim.opcode?]) (.refl s₁)
      exact ⟨by simp, woven.to (by simp only [List.cons_append, List.nil_append])⟩

end Lists

end Lower

/-! ## Expressions -/

namespace Grammar

/-- What the words of an expression stand around: the items of a sequence, and otherwise what the
expression refers to. -/
def constituents (g : Grammar) (r : Ref) : List Ref :=
  match g.expression r with
  | .seq .. => g.sequenceItems g.size r
  | e => e.children

open Lower in
/-- An expression that is no forward reference is lowered to words around the fragments of its
constituents. -/
theorem weaves_form {g : Grammar} {part : Ref → Part} (r : Ref)
    (filled : ∀ s ⦃base : Nat⦄ ⦃u u' : Lowering⦄ ⦃code : Fragment⦄,
      part s base u = .ok (code, u') → code ≠ [])
    (other : (g.expression r).isForward = false) :
    Weaves (g.lowerExpression part r (g.expression r)) ((g.constituents r).map part) := by
  rw [constituents]
  generalize g.expression r = e at other ⊢
  cases e with
  | char | oneOf | escaped | test => exact weaves_entry (fun ok => (Tables.addTest_eq_ok ok).1) nofun
  | scan => exact weaves_entry (fun ok => (Tables.addScan_eq_ok ok).1) nofun
  | literal | keyword => exact weaves_entry (fun ok => (Tables.addLiteral_eq_ok ok).1) nofun
  | finish => exact weaves_finish
  | seq => exact weaves_sequence none
  | orElse first second =>
      have either : Weaves (choice [part first, part second] (g.label r)) [part first, part second] :=
        weaves_choice _
      exact either
  | choice => exact weaves_choice _
  | keepLeft => exact weaves_keepLeft
  | keepRight => exact weaves_keepRight
  | followedBy => exact weaves_followedBy
  | notFollowedBy => exact weaves_notFollowedBy _
  | combine f => exact weaves_sequence (some f)
  | optional => exact weaves_optional _
  | many => exact weaves_many _ _
  | transform f => exact weaves_transform f
  | idiom kind body => exact weaves_self (filled body)
  | forward => nomatch other

end Grammar

end PegMachine
