/-
# PegMachine.Proofs.Meaning.Derives — which texts a parse can have matched

`Derives g start k r text rest d` says that the rules of the grammar lead from the expression `r`
to `text` and to `d`, where `rest` stands behind the text. Whatever a parse matches is derived
(`derives_of_parses`). The rules are those of `Proofs.Meaning.Takes` without their
refusals: which alternative is tried first, how often a repetition goes on and what must not
follow is left out. So what is derived need not be what a parse finds, but a text without a
derivation is matched by no parse. One refusal remains: in front of an alternative that is
taken, an alternative of one character accepts nothing there (`Grammar.Passed`).

The number `k` bounds how many calls are nested. The first time a forward reference is met its
target stands in its place, which costs no call; those in `start` have been met, so that
they are always called.
-/
import PegMachine.Proofs.Meaning.Reads

namespace PegMachine

set_option autoImplicit false

/-- The test accepts a text one character after the other, perhaps escaped ones. -/
inductive CharTest.TakesRun (t : CharTest) : List Char → List Char → List Char → Prop
  | nil {rest : List Char} : TakesRun t [] rest []
  | cons {text text' rest : List Char} {c : Char} {cs : List Char}
      (first : t.Takes text (text' ++ rest) c) (others : TakesRun t text' rest cs) :
      TakesRun t (text ++ text') rest (c :: cs)

namespace Grammar

/-- An expression for one character accepts nothing in front of the rest. -/
def Passed (g : Grammar) (r : Ref) (rest : List Char) : Prop :=
  ∀ t, (g.expression r).charTest? = some t → t.Refuses rest

mutual

/-- In front of the rest an expression may match a text and yield a datum. -/
inductive Derives (g : Grammar) (start : List Ref) :
    Nat → Ref → List Char → List Char → Datum → Prop
  | of {k : Nat} {r : Ref} {e : Expression} {text rest : List Char} {d : Datum}
      (form : g.expression r = e) (derives : FormDerives g start k r e text rest d) :
      Derives g start k r text rest d

/-- The same by the form of the expression. -/
inductive FormDerives (g : Grammar) (start : List Ref) :
    Nat → Ref → Expression → List Char → List Char → Datum → Prop
  | char {k : Nat} {r : Ref} {c : Char} {anyCase : Bool} {text rest : List Char} {found : Char}
      (accepted : (CharTest.plain (.single c anyCase)).Takes text rest found) :
      FormDerives g start k r (.char c anyCase) text rest (.char found)
  | oneOf {k : Nat} {r : Ref} {chars : CharClass} {text rest : List Char} {found : Char}
      (accepted : (CharTest.plain chars).Takes text rest found) :
      FormDerives g start k r (.oneOf chars) text rest (.char found)
  | escaped {k : Nat} {r : Ref} {c : Char} {text rest : List Char} {found : Char}
      (accepted : (CharTest.escaped (.single c false)).Takes text rest found) :
      FormDerives g start k r (.escaped c) text rest (.char found)
  | test {k : Nat} {r : Ref} {t : CharTest} {text rest : List Char} {found : Char}
      (accepted : t.Takes text rest found) :
      FormDerives g start k r (.test t) text rest (.char found)
  | scan {k : Nat} {r : Ref} {t : CharTest} {least : Nat} {itemLabel : String}
      {text rest cs : List Char} (run : t.TakesRun text rest cs) (enough : least ≤ cs.length) :
      FormDerives g start k r (.scan t least itemLabel) text rest (.list (cs.map .char))
  | literal {k : Nat} {r : Ref} {expected : String} {anyCase : Bool} {text rest : List Char}
      (spells : Text.Spells anyCase text expected.toList) :
      FormDerives g start k r (.literal expected anyCase) text rest (.text expected)
  | keyword {k : Nat} {r : Ref} {expected : String} {value : Datum} {anyCase : Bool}
      {text rest : List Char} (spells : Text.Spells anyCase text expected.toList) :
      FormDerives g start k r (.keyword expected value anyCase) text rest value
  | finish {k : Nat} {r : Ref} : FormDerives g start k r .finish [] [] .null
  | seq {k : Nat} {r a b : Ref} {text rest : List Char} {ds : List Datum}
      (items : DerivesAll g start k (g.sequenceItems g.size r) text rest ds) :
      FormDerives g start k r (.seq a b) text rest (.list ds)
  | combine {k : Nat} {r : Ref} {f : Combiner} {refs : List Ref} {text rest : List Char}
      {ds : List Datum} {d : Datum} (items : DerivesAll g start k refs text rest ds)
      (made : f ds = .ok d) : FormDerives g start k r (.combine f refs) text rest d
  | orElse {k : Nat} {r a b : Ref} {text rest : List Char} {d : Datum}
      (chosen : DerivesOne g start k [a, b] text rest d) :
      FormDerives g start k r (.orElse a b) text rest d
  | choice {k : Nat} {r : Ref} {refs : List Ref} {text rest : List Char} {d : Datum}
      (chosen : DerivesOne g start k refs text rest d) :
      FormDerives g start k r (.choice refs) text rest d
  | keepLeft {k : Nat} {r a b : Ref} {text text' rest : List Char} {d d' : Datum}
      (left : Derives g start k a text (text' ++ rest) d)
      (right : Derives g start k b text' rest d') :
      FormDerives g start k r (.keepLeft a b) (text ++ text') rest d
  | keepRight {k : Nat} {r a b : Ref} {text text' rest : List Char} {d d' : Datum}
      (left : Derives g start k a text (text' ++ rest) d)
      (right : Derives g start k b text' rest d') :
      FormDerives g start k r (.keepRight a b) (text ++ text') rest d'
  | followedBy {k : Nat} {r a b : Ref} {text rest : List Char} {d : Datum}
      (left : Derives g start k a text rest d) :
      FormDerives g start k r (.followedBy a b) text rest d
  | notFollowedBy {k : Nat} {r a b : Ref} {text rest : List Char} {d : Datum}
      (left : Derives g start k a text rest d) :
      FormDerives g start k r (.notFollowedBy a b) text rest d
  | present {k : Nat} {r body : Ref} {fallback : Datum} {text rest : List Char} {d : Datum}
      (inner : Derives g start k body text rest d) :
      FormDerives g start k r (.optional body fallback) text rest d
  | absent {k : Nat} {r body : Ref} {fallback : Datum} {rest : List Char} :
      FormDerives g start k r (.optional body fallback) [] rest fallback
  | many {k : Nat} {r body : Ref} {least n : Nat} {text rest : List Char} {ds : List Datum}
      (rounds : DerivesAll g start k (List.replicate n body) text rest ds)
      (enough : least ≤ ds.length) : FormDerives g start k r (.many body least) text rest (.list ds)
  | transform {k : Nat} {r body : Ref} {f : Transform} {text rest : List Char} {d d' : Datum}
      (inner : Derives g start k body text rest d) (made : f d = .ok d') :
      FormDerives g start k r (.transform f body) text rest d'
  | idiom {k : Nat} {r body : Ref} {kind : Idiom} {text rest : List Char} {d : Datum}
      (inner : Derives g start k body text rest d) :
      FormDerives g start k r (.idiom kind body) text rest d
  | inlined {k : Nat} {r target : Ref} {text rest : List Char} {d : Datum} (new : r ∉ start)
      (inner : Derives g start k target text rest d) :
      FormDerives g start k r (.forward (some target)) text rest d
  | called {k : Nat} {r target : Ref} {text rest : List Char} {d : Datum}
      (inner : Derives g start k target text rest d) :
      FormDerives g start (k + 1) r (.forward (some target)) text rest d

/-- Expressions match a text one after the other. -/
inductive DerivesAll (g : Grammar) (start : List Ref) :
    Nat → List Ref → List Char → List Char → List Datum → Prop
  | nil {k : Nat} {rest : List Char} : DerivesAll g start k [] [] rest []
  | cons {k : Nat} {r : Ref} {refs : List Ref} {text text' rest : List Char} {d : Datum}
      {ds : List Datum} (first : Derives g start k r text (text' ++ rest) d)
      (others : DerivesAll g start k refs text' rest ds) :
      DerivesAll g start k (r :: refs) (text ++ text') rest (d :: ds)

/-- One of several alternatives matches a text. -/
inductive DerivesOne (g : Grammar) (start : List Ref) :
    Nat → List Ref → List Char → List Char → Datum → Prop
  | here {k : Nat} {r : Ref} {refs : List Ref} {text rest : List Char} {d : Datum}
      (derives : Derives g start k r text rest d) : DerivesOne g start k (r :: refs) text rest d
  | later {k : Nat} {r : Ref} {refs : List Ref} {text rest : List Char} {d : Datum}
      (passed : g.Passed r (text ++ rest)) (others : DerivesOne g start k refs text rest d) :
      DerivesOne g start k (r :: refs) text rest d

end

/-- What is derived is derived by the form. -/
theorem Derives.form {g : Grammar} {start : List Ref} {k : Nat} {r : Ref} {e : Expression}
    {text rest : List Char} {d : Datum} (derives : g.Derives start k r text rest d)
    (form : g.expression r = e) : g.FormDerives start k r e text rest d := by
  obtain ⟨form', derives⟩ := derives
  rwa [← form'.symm.trans form]

end Grammar

open Machine

/-! ## Texts between positions -/

/-- Between two positions stands a text, and behind it the rest of the input. -/
structure Spans (input : Array Char) (pos stop : Nat) (text rest : List Char) : Prop where
  stands : input.toList.drop pos = text ++ rest
  stop : stop = pos + text.length

section Spans

variable {input : Array Char} {pos mid stop : Nat} {text text' rest rest' : List Char}

theorem Spans.behind (spans : Spans input pos stop text rest) : input.toList.drop stop = rest := by
  rw [spans.stop]
  exact drop_behind spans.stands

theorem spans_nothing (input : Array Char) (pos : Nat) :
    Spans input pos pos [] (input.toList.drop pos) := ⟨rfl, rfl⟩

/-- Texts one behind the other. -/
theorem Spans.append (first : Spans input pos mid text rest')
    (second : Spans input mid stop text' rest) :
    rest' = text' ++ rest ∧ Spans input pos stop (text ++ text') rest := by
  have split : rest' = text' ++ rest := first.behind.symm.trans second.stands
  refine ⟨split, ?_, ?_⟩
  · rw [first.stands, split, List.append_assoc]
  · rw [second.stop, first.stop, List.length_append, Nat.add_assoc]

end Spans

/-! ## Behaviours that match what is derived -/

/-- Whatever a behaviour matches is derived from the expression; and if the expression is one for
single characters, a behaviour that does not match has found none. -/
structure Derived (g : Grammar) (start : List Ref) (k : Nat) (r : Ref) {input : Array Char}
    (body : Behaviour input) : Prop where
  derives : ∀ {pos stop : Nat} {d : Datum}, (body pos).match? = some (d, stop) →
    ∃ text rest, Spans input pos stop text rest ∧ g.Derives start k r text rest d
  passes : ∀ {pos : Nat}, (body pos).match? = none → g.Passed r (input.toList.drop pos)

section Reading

variable {input : Array Char} {pos stop : Nat} {d : Datum}

/-- What a test accepts in front of the rest of the input. -/
theorem spans_of_accept {t : CharTest} {c : Char} {width : Nat}
    (accepted : t.accept? input pos = some (c, width)) :
    ∃ text rest, Spans input pos (pos + width) text rest ∧ t.Takes text rest c := by
  have within := (CharTest.accept?_within accepted).2
  have length : ((input.toList.drop pos).take width).length = width := by simp; omega
  have split := (List.take_append_drop width (input.toList.drop pos)).symm
  refine ⟨_, _, ⟨split, by rw [length]⟩, ?_⟩
  rw [CharTest.Takes, ← split, length, ← accept?_of_drop t rfl]
  exact accepted

theorem spans_of_acceptRun {t : CharTest} (most pos : Nat) :
    ∃ text rest cs, Spans input pos (acceptRun t input most pos).2 text rest ∧
      t.TakesRun text rest cs ∧ (acceptRun t input most pos).1 = cs.map .char := by
  induction most generalizing pos with
  | zero => exact ⟨[], _, [], spans_nothing input pos, .nil, rfl⟩
  | succ most ih =>
      rw [acceptRun]
      cases accepted : t.accept? input pos with
      | none => exact ⟨[], _, [], spans_nothing input pos, .nil, rfl⟩
      | some found =>
          obtain ⟨c, width⟩ := found
          obtain ⟨text, rest', spans, takes⟩ := spans_of_accept accepted
          obtain ⟨text', rest, cs, spans', run, same⟩ := ih (pos + width)
          obtain ⟨rfl, whole⟩ := spans.append spans'
          exact ⟨_, rest, c :: cs, whole, .cons takes run, by rw [List.map_cons, ← same]⟩

/-- A text that agrees with an expected one. -/
theorem spans_of_literal {anyCase : Bool} {expected : List Char} {value : Datum} {index : Nat}
    (matched : ((Behaviour.literal ⟨expected, anyCase, index⟩ value : Behaviour input) pos).match? =
      some (d, stop)) :
    ∃ text rest, Spans input pos stop text rest ∧ Text.Spells anyCase text expected ∧ d = value := by
  rw [match?_literal] at matched
  split at matched
  · rename_i agrees
    obtain ⟨text, rest, split, spells⟩ := (mismatch?_eq_none_iff rfl).mp agrees
    obtain ⟨rfl, rfl⟩ := Prod.mk.inj (Option.some.inj matched)
    exact ⟨text, rest, ⟨split, by rw [spells.length_eq]⟩, spells, rfl⟩
  · cases matched

end Reading

section Lists

variable {g : Grammar} {start : List Ref} {k : Nat} {input : Array Char}

theorem Derived.items {refs : List Ref} {parts : List (Behaviour input)}
    (derived : List.Forall₂ (fun r part => Derived g start k r part) refs parts)
    {collected : List Datum} {pos stop : Nat} {d : Datum}
    (matched : (Behaviour.items parts collected pos).match? = some (d, stop)) :
    ∃ text rest ds, Spans input pos stop text rest ∧ g.DerivesAll start k refs text rest ds ∧
      d = .list (collected.reverse ++ ds) := by
  induction derived generalizing collected pos with
  | nil =>
      obtain ⟨rfl, rfl⟩ := Prod.mk.inj (Option.some.inj matched)
      exact ⟨[], _, [], spans_nothing input _, .nil, by rw [List.append_nil]⟩
  | cons head _ ih =>
      rw [Behaviour.items, Outcome.match?_andThen] at matched
      obtain ⟨⟨d', mid⟩, first, others⟩ := Option.bind_eq_some_iff.mp matched
      obtain ⟨text, rest', spans, derives⟩ := head.derives first
      obtain ⟨text', rest, ds, spans', all, rfl⟩ := ih others
      obtain ⟨rfl, whole⟩ := spans.append spans'
      exact ⟨_, rest, d' :: ds, whole, .cons derives all, by simp⟩

theorem Derived.choose {refs : List Ref} {first : Behaviour input} {parts : List (Behaviour input)}
    (derived : List.Forall₂ (fun r part => Derived g start k r part) refs (first :: parts))
    {pos stop : Nat} {d : Datum}
    (matched : (Behaviour.choose first parts pos).match? = some (d, stop)) :
    ∃ text rest, Spans input pos stop text rest ∧ g.DerivesOne start k refs text rest d := by
  induction parts generalizing refs first with
  | nil =>
      cases derived with
      | cons head tail =>
          obtain ⟨text, rest, spans, derives⟩ := head.derives matched
          exact ⟨text, rest, spans, .here derives⟩
  | cons next parts ih =>
      cases derived with
      | cons head tail =>
          rw [Behaviour.match?_choose] at matched
          cases found : (first pos).match? with
          | some m =>
              rw [found, Option.some_or] at matched
              obtain ⟨text, rest, spans, derives⟩ := head.derives (found.trans matched)
              exact ⟨text, rest, spans, .here derives⟩
          | none =>
              rw [found, Option.none_or] at matched
              obtain ⟨text, rest, spans, chosen⟩ := ih tail matched
              have passed := head.passes found
              rw [spans.stands] at passed
              exact ⟨text, rest, spans, .later passed chosen⟩

theorem Derived.loop {r : Ref} {body : Behaviour input} (derived : Derived g start k r body)
    {most : Nat} {collected : List Datum} {pos stop : Nat} {d : Datum}
    (matched : (Behaviour.loop body most collected pos).match? = some (d, stop)) :
    ∃ text rest n ds, Spans input pos stop text rest ∧
      g.DerivesAll start k (List.replicate n r) text rest ds ∧ d = .list (collected.reverse ++ ds) := by
  have none_ {pos : Nat} {collected : List Datum} :
      some (Datum.list collected.reverse, pos) = some (d, stop) →
        ∃ text rest n ds, Spans input pos stop text rest ∧
          g.DerivesAll start k (List.replicate n r) text rest ds ∧
            d = .list (collected.reverse ++ ds) := by
    intro same
    obtain ⟨rfl, rfl⟩ := Prod.mk.inj (Option.some.inj same)
    exact ⟨[], _, 0, [], spans_nothing input pos, .nil, by rw [List.append_nil]⟩
  induction most generalizing collected pos with
  | zero => exact none_ matched
  | succ most ih =>
      rw [Behaviour.match?_loop] at matched
      cases found : (body pos).match? with
      | none => exact none_ (by rwa [found] at matched)
      | some m =>
          obtain ⟨d', mid⟩ := m
          obtain ⟨text, rest', spans, derives⟩ := derived.derives found
          rw [found] at matched
          dsimp only at matched
          -- Either way something is found from where this round ends: further rounds, or none.
          have others : ∃ text rest n ds, Spans input mid stop text rest ∧
              g.DerivesAll start k (List.replicate n r) text rest ds ∧
                d = .list ((d' :: collected).reverse ++ ds) := by
            split at matched
            · exact ih matched
            · exact none_ matched
          obtain ⟨text', rest, n, ds, spans', all, rfl⟩ := others
          obtain ⟨rfl, whole⟩ := spans.append spans'
          exact ⟨_, rest, n + 1, d' :: ds, whole, .cons derives all, by simp⟩

end Lists

section Forms

variable {g : Grammar} {start : List Ref} {k : Nat} {r : Ref} {input : Array Char}

theorem derived_of_form {e : Expression} (form : g.expression r = e) (other : e.charTest? = none)
    {body : Behaviour input}
    (derives : ∀ {pos stop : Nat} {d : Datum}, (body pos).match? = some (d, stop) →
      ∃ text rest, Spans input pos stop text rest ∧ g.FormDerives start k r e text rest d) :
    Derived g start k r body where
  derives matched := by
    obtain ⟨text, rest, spans, derives⟩ := derives matched
    exact ⟨text, rest, spans, .of form derives⟩
  passes := by
    intro pos _ t single
    rw [form, other] at single
    cases single

theorem derived_test {t : CharTest} (single : (g.expression r).charTest? = some t) (label : Nat)
    (rule : ∀ {text rest : List Char} {c : Char}, t.Takes text rest c →
      g.Derives start k r text rest (.char c)) :
    Derived g start k r (Behaviour.test ⟨t, label⟩ : Behaviour input) where
  derives := by
    intro pos stop d matched
    rw [match?_test _ rfl, ← accept?_of_drop t rfl, Option.map_eq_some_iff] at matched
    obtain ⟨⟨c, width⟩, accepted, same⟩ := matched
    obtain ⟨rfl, rfl⟩ := Prod.mk.inj same
    obtain ⟨text, rest, spans, takes⟩ := spans_of_accept accepted
    exact ⟨text, rest, spans, rule takes⟩
  passes := by
    intro pos refused t' single'
    obtain rfl := Option.some.inj (single.symm.trans single')
    rw [match?_test _ rfl, Option.map_eq_none_iff] at refused
    exact refused

theorem derived_scan {t : CharTest} {least : Nat} {itemLabel : String}
    (form : g.expression r = .scan t least itemLabel) (label : Nat) :
    Derived g start k r (Behaviour.scan ⟨t, least, label⟩ : Behaviour input) := by
  refine derived_of_form form rfl ?_
  intro pos stop d matched
  obtain ⟨text, rest, cs, spans, run, same⟩ := @spans_of_acceptRun input t (input.size - pos) pos
  simp only [Behaviour.scan, readRun] at matched
  split at matched
  · rename_i enough
    obtain ⟨rfl, rfl⟩ := Prod.mk.inj (Option.some.inj matched)
    rw [same] at enough ⊢
    exact ⟨text, rest, spans, .scan run (by simpa using enough)⟩
  · cases matched

theorem derived_finish (form : g.expression r = .finish) :
    Derived g start k r (Behaviour.finish : Behaviour input) := by
  refine derived_of_form form rfl ?_
  intro pos stop d matched
  rw [match?_finish rfl] at matched
  split at matched
  · rename_i nothing
    obtain ⟨rfl, rfl⟩ := Prod.mk.inj (Option.some.inj matched)
    exact ⟨[], [], ⟨nothing, rfl⟩, .finish⟩
  · cases matched

section Parts

variable {refs : List Ref} {parts : List (Behaviour input)}
variable (derived : List.Forall₂ (fun r part => Derived g start k r part) refs parts)

include derived in
theorem derived_seq {a b : Ref} (form : g.expression r = .seq a b)
    (items : g.sequenceItems g.size r = refs) :
    Derived g start k r (Behaviour.sequence parts none) := by
  subst items
  refine derived_of_form form rfl ?_
  intro pos stop d matched
  rw [Behaviour.match?_sequence] at matched
  obtain ⟨⟨d', mid⟩, collected, made⟩ := Option.bind_eq_some_iff.mp matched
  obtain ⟨text, rest, ds, spans, all, rfl⟩ := Derived.items derived collected
  obtain ⟨rfl, rfl⟩ := Prod.mk.inj (Option.some.inj made)
  exact ⟨text, rest, spans, .seq all⟩

include derived in
theorem derived_combine {f : Combiner} (form : g.expression r = .combine f refs) :
    Derived g start k r (Behaviour.sequence parts (some f)) := by
  refine derived_of_form form rfl ?_
  intro pos stop d matched
  rw [Behaviour.match?_sequence] at matched
  obtain ⟨⟨d', mid⟩, collected, made⟩ := Option.bind_eq_some_iff.mp matched
  obtain ⟨text, rest, ds, spans, all, rfl⟩ := Derived.items derived collected
  have list : (Datum.list ([].reverse ++ ds)).items = ds := rfl
  simp only [Behaviour.made, list] at made
  cases yields : f ds with
  | error message => rw [yields] at made; cases made
  | ok d'' =>
      rw [yields] at made
      obtain ⟨rfl, rfl⟩ := Prod.mk.inj (Option.some.inj made)
      exact ⟨text, rest, spans, .combine all yields⟩

end Parts

section Alternatives

variable {refs : List Ref} {first : Behaviour input} {parts : List (Behaviour input)}
variable (derived : List.Forall₂ (fun r part => Derived g start k r part) refs (first :: parts))

include derived in
theorem derived_choice (form : g.expression r = .choice refs) :
    Derived g start k r (Behaviour.choice first parts) := by
  refine derived_of_form form rfl ?_
  intro pos stop d matched
  rw [Behaviour.match?_choice] at matched
  obtain ⟨text, rest, spans, one⟩ := Derived.choose derived matched
  exact ⟨text, rest, spans, .choice one⟩

include derived in
theorem derived_orElse {a b : Ref} (form : g.expression r = .orElse a b) (both : refs = [a, b]) :
    Derived g start k r (Behaviour.choice first parts) := by
  subst both
  refine derived_of_form form rfl ?_
  intro pos stop d matched
  rw [Behaviour.match?_choice] at matched
  obtain ⟨text, rest, spans, one⟩ := Derived.choose derived matched
  exact ⟨text, rest, spans, .orElse one⟩

end Alternatives

section Pairs

variable {a b : Ref} {first second : Behaviour input}
variable (left : Derived g start k a first) (right : Derived g start k b second)

include left right in
theorem derived_keepLeft (form : g.expression r = .keepLeft a b) :
    Derived g start k r (Behaviour.keepLeft first second) := by
  refine derived_of_form form rfl ?_
  intro pos stop d matched
  rw [Behaviour.match?_keepLeft] at matched
  obtain ⟨⟨d', mid⟩, found, matched⟩ := Option.bind_eq_some_iff.mp matched
  obtain ⟨⟨d'', stop'⟩, found', made⟩ := Option.bind_eq_some_iff.mp matched
  obtain ⟨rfl, rfl⟩ := Prod.mk.inj (Option.some.inj made)
  obtain ⟨text, rest', spans, derives⟩ := left.derives found
  obtain ⟨text', rest, spans', derives'⟩ := right.derives found'
  obtain ⟨rfl, whole⟩ := spans.append spans'
  exact ⟨_, rest, whole, .keepLeft derives derives'⟩

include left right in
theorem derived_keepRight (form : g.expression r = .keepRight a b) :
    Derived g start k r (Behaviour.keepRight first second) := by
  refine derived_of_form form rfl ?_
  intro pos stop d matched
  rw [Behaviour.match?_keepRight] at matched
  obtain ⟨⟨d', mid⟩, found, found'⟩ := Option.bind_eq_some_iff.mp matched
  obtain ⟨text, rest', spans, derives⟩ := left.derives found
  obtain ⟨text', rest, spans', derives'⟩ := right.derives found'
  obtain ⟨rfl, whole⟩ := spans.append spans'
  exact ⟨_, rest, whole, .keepRight derives derives'⟩

include left in
theorem derived_followedBy (form : g.expression r = .followedBy a b) :
    Derived g start k r (Behaviour.provided first second Behaviour.demand) := by
  refine derived_of_form form rfl ?_
  intro pos stop d matched
  rw [Behaviour.match?_followedBy] at matched
  obtain ⟨m, found, matched⟩ := Option.bind_eq_some_iff.mp matched
  obtain ⟨m', -, made⟩ := Option.bind_eq_some_iff.mp matched
  obtain rfl := Option.some.inj made
  obtain ⟨text, rest, spans, derives⟩ := left.derives found
  exact ⟨text, rest, spans, .followedBy derives⟩

include left in
theorem derived_notFollowedBy (form : g.expression r = .notFollowedBy a b) (label : Nat) :
    Derived g start k r (Behaviour.provided first second (Behaviour.forbid input label)) := by
  refine derived_of_form form rfl ?_
  intro pos stop d matched
  rw [Behaviour.match?_notFollowedBy] at matched
  obtain ⟨m, found, made⟩ := Option.bind_eq_some_iff.mp matched
  split at made
  · cases made
  · obtain rfl := Option.some.inj made
    obtain ⟨text, rest, spans, derives⟩ := left.derives found
    exact ⟨text, rest, spans, .notFollowedBy derives⟩

end Pairs

section Single

variable {inner : Ref} {body : Behaviour input} (derived : Derived g start k inner body)

include derived in
theorem derived_optional {fallback : Datum} (form : g.expression r = .optional inner fallback) :
    Derived g start k r (Behaviour.optional body fallback) := by
  refine derived_of_form form rfl ?_
  intro pos stop d matched
  rw [Behaviour.match?_optional, Option.or_eq_some_iff] at matched
  rcases matched with matched | ⟨-, made⟩
  · obtain ⟨text, rest, spans, derives⟩ := derived.derives matched
    exact ⟨text, rest, spans, .present derives⟩
  · obtain ⟨rfl, rfl⟩ := Prod.mk.inj (Option.some.inj made)
    exact ⟨[], _, spans_nothing input _, .absent⟩

include derived in
theorem derived_many {least : Nat} (form : g.expression r = .many inner least) (label : Nat) :
    Derived g start k r (Behaviour.many body ⟨least, label⟩) := by
  refine derived_of_form form rfl ?_
  intro pos stop d matched
  rw [Behaviour.match?_many] at matched
  obtain ⟨⟨d', mid⟩, looped, made⟩ := Option.bind_eq_some_iff.mp matched
  obtain ⟨text, rest, n, ds, spans, all, rfl⟩ := derived.loop looped
  split at made
  · rename_i enough
    obtain ⟨rfl, rfl⟩ := Prod.mk.inj (Option.some.inj made)
    exact ⟨text, rest, spans, .many all enough⟩
  · cases made

include derived in
theorem derived_transform {f : Transform} (form : g.expression r = .transform f inner) :
    Derived g start k r (Behaviour.transform f body) := by
  refine derived_of_form form rfl ?_
  intro pos stop d matched
  rw [Behaviour.match?_transform] at matched
  obtain ⟨⟨d', mid⟩, found, made⟩ := Option.bind_eq_some_iff.mp matched
  obtain ⟨text, rest, spans, derives⟩ := derived.derives found
  cases yields : f d' with
  | error message => rw [yields] at made; cases made
  | ok d'' =>
      rw [yields] at made
      obtain ⟨rfl, rfl⟩ := Prod.mk.inj (Option.some.inj made)
      exact ⟨text, rest, spans, .transform derives yields⟩

include derived in
theorem derived_idiom {kind : Idiom} (form : g.expression r = .idiom kind inner) :
    Derived g start k r body := by
  refine derived_of_form form rfl ?_
  intro pos stop d matched
  obtain ⟨text, rest, spans, derives⟩ := derived.derives matched
  exact ⟨text, rest, spans, .idiom derives⟩

include derived in
/-- The target in place of a forward reference that has not been met, which costs no call. -/
theorem derived_inlined (form : g.expression r = .forward (some inner)) (new : r ∉ start) :
    Derived g start k r body := by
  refine derived_of_form form rfl ?_
  intro pos stop d matched
  obtain ⟨text, rest, spans, derives⟩ := derived.derives matched
  exact ⟨text, rest, spans, .inlined new derives⟩

include derived in
/-- A call of the target takes one more. -/
theorem derived_called (form : g.expression r = .forward (some inner)) (label : Nat) :
    Derived g start (k + 1) r (Behaviour.called label body) := by
  refine derived_of_form form rfl ?_
  intro pos stop d matched
  rw [Behaviour.match?_called] at matched
  obtain ⟨text, rest, spans, derives⟩ := derived.derives matched
  exact ⟨text, rest, spans, .called derives⟩

end Single

theorem derived_refused {target : Ref} (form : g.expression r = .forward (some target)) (label : Nat) :
    Derived g start 0 r (Behaviour.refused label : Behaviour input) :=
  derived_of_form form rfl fun matched => by cases matched

end Forms

/-! ## Codes -/

section Codes

variable {g : Grammar} {start : List Ref} {k : Nat} {input : Array Char}

/-- The code of a form matches what the form derives, if the codes of the parts do. -/
theorem derived_of_assembled {env : Surroundings input} {r : Ref} {c : Code}
    (assembled : g.Assembled (fun r c => Derived g start k r (c input env)) r (g.expression r) c) :
    Derived g start k r (c input env) := by
  generalize form : g.expression r = e at assembled
  cases assembled with
  | char => exact derived_test (by rw [form]; rfl) _ fun takes => .of form (.char takes)
  | oneOf => exact derived_test (by rw [form]; rfl) _ fun takes => .of form (.oneOf takes)
  | escaped => exact derived_test (by rw [form]; rfl) _ fun takes => .of form (.escaped takes)
  | test => exact derived_test (by rw [form]; rfl) _ fun takes => .of form (.test takes)
  | scan => exact derived_scan form _
  | literal =>
      refine derived_of_form form rfl ?_
      intro pos stop d matched
      obtain ⟨text, rest, spans, spells, rfl⟩ := spans_of_literal matched
      exact ⟨text, rest, spans, .literal spells⟩
  | keyword =>
      refine derived_of_form form rfl ?_
      intro pos stop d matched
      obtain ⟨text, rest, spans, spells, rfl⟩ := spans_of_literal matched
      exact ⟨text, rest, spans, .keyword spells⟩
  | finish => exact derived_finish form
  | seq items => exact derived_seq (List.forall₂_map_right_iff.mpr items) form rfl
  | orElse parts => exact derived_orElse (List.forall₂_map_right_iff.mpr parts) form rfl
  | choice parts => exact derived_choice (List.forall₂_map_right_iff.mpr parts) form
  | keepLeft left right => exact derived_keepLeft left right form
  | keepRight left right => exact derived_keepRight left right form
  | followedBy left _ => exact derived_followedBy left form
  | notFollowedBy left _ => exact derived_notFollowedBy left form _
  | combine parts => exact derived_combine (List.forall₂_map_right_iff.mpr parts) form
  | optional inner => exact derived_optional inner form
  | many inner => exact derived_many inner form _
  | transform inner => exact derived_transform inner form
  | idiom inner => exact derived_idiom inner form

/-- What a subroutine has to do: match what the target of its forward reference derives. -/
def RoutineDerived (g : Grammar) (start : List Ref) (k : Nat) (r : Ref) {input : Array Char}
    (body : Behaviour input) : Prop :=
  ∃ target, g.expression r = .forward (some target) ∧ Derived g start k target body

open Unfold in
/-- The code of an expression matches what the expression derives, and so do the codes of the
subroutines, if calls do. -/
theorem unfold_derived {env : Surroundings input} {traced : Bool} {final : List Ref}
    (calls : ∀ i r, final[i]? = some r → Derived g start k r (env.call i)) (height : Nat) (r : Ref) :
    Upholds (fun r c => RoutineDerived g start k r (c input env)) start final
      (g.unfold traced height r) (fun c => Derived g start k r (c input env)) := by
  apply Grammar.unfold_upholds fun r c => Derived g start k r (c input env)
  · intro r c assembled
    exact derived_of_assembled assembled
  · intro i r known _
    exact calls i r known
  · intro r t c form new _ derived
    exact ⟨derived_inlined derived form new, t, form, derived⟩
  · intro r name c _ _ derived
    exact ⟨derived.derives, derived.passes⟩
  · intro r c _ derived
    exact derived

/-- Calls match what their forward references derive with as many calls as may be nested, if the
subroutines match what the targets derive where calls do. -/
theorem calls_derived {b : Bytecode} {v : Unfolding}
    (aimed : ∀ (i : Nat) (r : Ref), v.met[i]? = some r → ∃ target, g.expression r = .forward (some target))
    (routines : ∀ depth, (∀ (i : Nat) (r : Ref), v.met[i]? = some r →
        Derived g start depth r ((b.surroundings v.bodies depth input).call i)) →
      ∀ (i : Nat) (r : Ref), v.met[i]? = some r →
        RoutineDerived g start depth r (v.bodies i input (b.surroundings v.bodies depth input)))
    (depth i : Nat) (r : Ref) (known : v.met[i]? = some r) :
    Derived g start depth r ((b.surroundings v.bodies depth input).call i) := by
  induction depth generalizing i r with
  | zero =>
      obtain ⟨t, form⟩ := aimed i r known
      exact derived_refused form _
  | succ depth ih =>
      obtain ⟨t, form, derived⟩ := routines depth ih i r known
      exact derived_called derived form _

/-- The code of an expression matches what the expression derives. -/
theorem code_derived {traced : Bool} {height : Nat} {root : Ref} {c : Code} {v : Unfolding}
    (unfolds : g.unfold traced height root {} = some (c, v)) (b : Bytecode) (depth : Nat) :
    Derived g [] depth root (c input (b.surroundings v.bodies depth input)) := by
  have covers := (g.unfold_covers traced v.met height root (List.nil_subset _) unfolds
    (List.prefix_refl _)).2
  have calls (i : Nat) (r : Ref) (known : v.met[i]? = some r) :
      Derived g [] depth r ((b.surroundings v.bodies depth input).call i) :=
    calls_derived (fun i r known => (covers i r (Nat.zero_le _) known).imp fun _ => And.left)
      (fun depth calls i r known => (unfold_derived calls height root (List.nil_subset _) unfolds
        (List.prefix_refl _)).2 i r (Nat.zero_le _) known) depth i r known
  exact (unfold_derived calls height root (List.nil_subset _) unfolds (List.prefix_refl _)).1

/-- Whatever a parse matches is derived, provided that the expression is regular if it was
condensed. -/
theorem derives_of_parses {options : Grammar.CompileOptions} {root : Ref} {lowered : Grammar.Lowered}
    (compiled : g.compile options root = .ok lowered)
    (regular : options.condense = true → g.Regular root) {pos : Nat} {m : Match}
    (parses : lowered.bytecode.Parses input pos (.ok m)) :
    ∃ text rest, Spans input pos m.stop text rest ∧ g.Derives [] callLimit root text rest m.value := by
  obtain ⟨c, v, unfolds, ends⟩ := Grammar.ends_like_code compiled regular
  obtain ⟨o, ended, alike⟩ := ends callLimit input pos
  rw [parses_iff_match? ended, ← Outcome.match?_congr alike.1] at parses
  exact (code_derived unfolds lowered.bytecode callLimit).derives parses

end Codes

end PegMachine
