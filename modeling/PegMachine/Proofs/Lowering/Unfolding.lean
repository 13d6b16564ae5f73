/-
# PegMachine.Proofs.Lowering.Unfolding — the code of an expression, without words

`Grammar.unfold` follows an expression just as lowering does, and yields its code as a
`Code`: what the fragment will do, instead of the words that do it. There are no
addresses and no tables here, and the only state is what lowering knows about forward
references: those met so far, in the order of their subroutines, and what each of the
subroutines does.

So what bytecode does and what expressions mean need not be compared directly.
`Proofs.Lowering.Follows` relates the words to this code; whatever else is said about the
behaviour of compiled grammars is said of this code.

Such statements are shown in one way (`Grammar.unfold_upholds`): of the code of each form,
made of codes of which it holds (`Grammar.Assembled`), and of the subroutine of a forward
reference, whose body was unfolded before.
-/
import Mathlib.Data.List.Forall2
import PegMachine.Lowering
import PegMachine.Proofs.Behaviour

namespace PegMachine

set_option autoImplicit false

open Machine (Behaviour Code)

namespace Machine.Code

/-! ## One code for each layout -/

def test (t : CharTest) (label : String) : Code := fun _ env => .test ⟨t, env.indexOf label⟩

def scan (t : CharTest) (least : Nat) (itemLabel : String) : Code :=
  fun _ env => .scan ⟨t, least, env.indexOf itemLabel⟩

/-- The value stands in the entry by its index, which does not matter for what is read. -/
def text (text : String) (anyCase : Bool) (value : Datum) : Code :=
  fun _ _ => .literal ⟨text.toList, anyCase, 0⟩ value

def finish : Code := fun _ _ => .finish

def sequence (parts : List Code) (f : Option Combiner) : Code :=
  fun input env => .sequence (parts.map (· input env)) f

def choice (first : Code) (rest : List Code) : Code :=
  fun input env => .choice (first input env) (rest.map (· input env))

def keepLeft (first second : Code) : Code :=
  fun input env => .keepLeft (first input env) (second input env)

def keepRight (first second : Code) : Code :=
  fun input env => .keepRight (first input env) (second input env)

def followedBy (first second : Code) : Code :=
  fun input env => .provided (first input env) (second input env) Behaviour.demand

def notFollowedBy (first second : Code) (label : String) : Code :=
  fun input env => .provided (first input env) (second input env)
    (Behaviour.forbid input (env.indexOf label))

def optional (body : Code) (fallback : Datum) : Code :=
  fun input env => .optional (body input env) fallback

def many (body : Code) (least : Nat) (label : String) : Code :=
  fun input env => .many (body input env) ⟨least, env.indexOf label⟩

def transform (f : Transform) (body : Code) : Code :=
  fun input env => .transform f (body input env)

def call (index : Nat) : Code := fun _ env => env.call index

def announced (name : String) (body : Code) : Code :=
  fun input env => .announced (env.indexOf name) (body input env)

end Machine.Code

/-- What is known about forward references. -/
structure Unfolding where
  /-- The forward references met so far, in the order of their subroutines. -/
  met : List Ref := []
  /-- What the subroutines do, as far as they are complete. -/
  bodies : Nat → Code := fun _ => .finish

/-- Say what a subroutine does. -/
def Unfolding.complete (v : Unfolding) (index : Nat) (body : Code) : Unfolding :=
  { v with bodies := fun i => if i = index then body else v.bodies i }

/-- Unfolding may fail. -/
abbrev Unfold := StateT Unfolding Option

namespace Unfold

theorem bind_eq_some {α β : Type} {x : Unfold α} {f : α → Unfold β} {v v' : Unfolding} {b : β} :
    (x >>= f) v = some (b, v') ↔ ∃ a u, x v = some (a, u) ∧ f a u = some (b, v') := by
  show (x v).bind (fun p => f p.1 p.2) = _ ↔ _
  simp only [Option.bind_eq_some_iff, Prod.exists]

theorem pure_eq_some {α : Type} {a b : α} {v v' : Unfolding} :
    (pure a : Unfold α) v = some (b, v') ↔ a = b ∧ v = v' := by
  show some (a, v) = some (b, v') ↔ _
  simp only [Option.some.injEq, Prod.mk.injEq]

/-- An unfolding, and something made of what it comes to. -/
theorem last_eq_some {α β : Type} {x : Unfold α} {f : α → β} {v v' : Unfolding} {b : β} :
    (x >>= fun a => return f a) v = some (b, v') ↔ ∃ a, x v = some (a, v') ∧ f a = b := by
  simp only [bind_eq_some, pure_eq_some]
  constructor
  · rintro ⟨a, _, done, made, rfl⟩
    exact ⟨a, done, made⟩
  · rintro ⟨a, done, made⟩
    exact ⟨a, v', done, made, rfl⟩

/-- The codes of parts, one after the other. -/
def parts : List (Unfold Code) → Unfold (List Code)
  | [] => return []
  | part :: rest => do
    let code ← part
    let others ← parts rest
    return code :: others

/-- A choice of at least one alternative. -/
def choice (alternatives : List (Unfold Code)) : Unfold Code := do
  match ← parts alternatives with
  | [] => fun _ => none
  | first :: rest => return .choice first rest

/-- A forward reference: a call, or the code of its target where it is met first. -/
def forward (r : Ref) (target : Option (Unfold Code)) : Unfold Code := fun v =>
  match v.met.idxOf? r with
  | some index => some (.call index, v)
  | none =>
    match target with
    | none => none
    | some target => do
      let (code, u) ← target { v with met := v.met ++ [r] }
      return (code, u.complete v.met.length code)

end Unfold

namespace Grammar

/-- Unfold an expression, its children being unfolded by `part`. -/
def unfoldExpression (g : Grammar) (part : Ref → Unfold Code) (r : Ref) : Expression → Unfold Code
  | .char c anyCase => return .test (.plain (.single c anyCase)) (g.label r)
  | .oneOf chars => return .test (.plain chars) (g.label r)
  | .escaped c => return .test (.escaped (.single c false)) (g.label r)
  | .test t => return .test t (g.label r)
  | .scan t least itemLabel => return .scan t least itemLabel
  | .literal text anyCase => return .text text anyCase (.text text)
  | .keyword text value anyCase => return .text text anyCase value
  | .finish => return .finish
  | .seq .. => return .sequence (← Unfold.parts ((g.sequenceItems g.size r).map part)) none
  | .orElse a b => Unfold.choice [part a, part b]
  | .choice alternatives => Unfold.choice (alternatives.map part)
  | .keepLeft a b => return .keepLeft (← part a) (← part b)
  | .keepRight a b => return .keepRight (← part a) (← part b)
  | .followedBy a b => return .followedBy (← part a) (← part b)
  | .notFollowedBy a b => return .notFollowedBy (← part a) (← part b) (g.label r)
  | .combine f parts => return .sequence (← Unfold.parts (parts.map part)) (some f)
  | .optional body fallback => return .optional (← part body) fallback
  | .many body least => return .many (← part body) least (g.label body)
  | .transform f body => return .transform f (← part body)
  | .idiom _ body => part body
  | .forward target => Unfold.forward r (target.map part)

/-- The code of an expression, with or without announcing named ones. `height` bounds how
deeply expressions nest. -/
def unfold (g : Grammar) (traced : Bool) : (height : Nat) → Ref → Unfold Code
  | 0, _ => fun _ => none
  | height + 1, r =>
    let part := g.unfoldExpression (g.unfold traced height) r (g.expression r)
    match traced, g.name r with
    | true, some name => return .announced name (← part)
    | _, _ => part

end Grammar

/-! ## Unfolding only adds -/

/-- Forward references keep their indices, and complete subroutines their bodies. -/
structure Unfolding.Grows (v v' : Unfolding) : Prop where
  met : v.met <+: v'.met
  bodies : ∀ i < v.met.length, v'.bodies i = v.bodies i

namespace Unfolding.Grows

variable {v v' v'' : Unfolding}

theorem refl (v : Unfolding) : v.Grows v := ⟨List.prefix_refl _, fun _ _ => rfl⟩

theorem trans (first : v.Grows v') (second : v'.Grows v'') : v.Grows v'' :=
  ⟨first.met.trans second.met, fun i old =>
    (second.bodies i (Nat.lt_of_lt_of_le old first.met.length_le)).trans (first.bodies i old)⟩

/-- The forward reference with an index is the same later. -/
theorem getElem?_met (grows : v.Grows v') {i : Nat} (old : i < v.met.length) :
    v'.met[i]? = v.met[i]? := by
  obtain ⟨more, same⟩ := grows.met
  rw [← same, List.getElem?_append_left old]

/-- Completing a subroutine that was met since. -/
theorem complete {index : Nat} (grows : v.Grows v') (fresh : v.met.length ≤ index) (body : Code) :
    v.Grows (v'.complete index body) := by
  refine ⟨grows.met, ?_⟩
  intro i old
  simp only [Unfolding.complete]
  rw [if_neg (by omega), grows.bodies i old]

end Unfolding.Grows

namespace Unfold

/-- Whatever an unfolding comes to, it only adds. -/
def Grows {α : Type} (u : Unfold α) : Prop := ∀ ⦃v v' a⦄, u v = some (a, v') → v.Grows v'

section Grows

variable {α β : Type} {part : Ref → Unfold Code}

theorem grows_pure (a : α) : Grows (return a) := by
  intro v v' a' done
  obtain ⟨-, rfl⟩ := pure_eq_some.mp done
  exact .refl v

theorem Grows.bind {u : Unfold α} {f : α → Unfold β} (first : Grows u) (rest : ∀ a, Grows (f a)) :
    Grows (u >>= f) := by
  intro v v' b done
  obtain ⟨a, between, done, done'⟩ := bind_eq_some.mp done
  exact (first done).trans (rest a done')

theorem grows_parts (grow : ∀ r, Grows (part r)) (refs : List Ref) :
    Grows (parts (refs.map part)) := by
  induction refs with
  | nil => exact grows_pure _
  | cons r refs ih => exact (grow r).bind fun _ => ih.bind fun _ => grows_pure _

theorem grows_choice (grow : ∀ r, Grows (part r)) (refs : List Ref) :
    Grows (choice (refs.map part)) := by
  apply (grows_parts grow refs).bind
  intro cs
  cases cs with
  | nil => exact fun _ _ _ done => nomatch done
  | cons c cs => exact grows_pure _

/-- A forward reference that was not met before, unfolded. -/
theorem forward_eq_some {r : Ref} {target : Option Ref} {v v' : Unfolding} {c : Code}
    (done : forward r (target.map part) v = some (c, v')) (fresh : v.met.idxOf? r = none) :
    ∃ t u, target = some t ∧ part t { v with met := v.met ++ [r] } = some (c, u) ∧
      v' = u.complete v.met.length c := by
  simp only [forward, fresh] at done
  cases target with
  | none => nomatch done
  | some t =>
      simp only [Option.map_some, Option.bind_eq_bind, Option.bind_eq_some_iff] at done
      obtain ⟨⟨c', u⟩, done, rest⟩ := done
      obtain ⟨rfl, rfl⟩ := Prod.mk.inj (Option.some.inj rest)
      exact ⟨t, u, rfl, done, rfl⟩

theorem grows_forward (grow : ∀ r, Grows (part r)) (r : Ref) (target : Option Ref) :
    Grows (forward r (target.map part)) := by
  intro v v' c done
  cases known : v.met.idxOf? r with
  | some index =>
      simp only [forward, known] at done
      obtain ⟨-, rfl⟩ := Prod.mk.inj (Option.some.inj done)
      exact .refl v
  | none =>
      obtain ⟨t, u, -, done', rfl⟩ := forward_eq_some done known
      have enters : v.Grows { v with met := v.met ++ [r] } :=
        ⟨List.prefix_append _ _, fun _ _ => rfl⟩
      exact (enters.trans (grow t done')).complete (Nat.le_refl _) _

end Grows

end Unfold

open Unfold in
theorem Grammar.grows_unfold (g : Grammar) (traced : Bool) (height : Nat) (r : Ref) :
    Grows (g.unfold traced height r) := by
  induction height generalizing r with
  | zero => exact fun _ _ _ done => nomatch done
  | succ height ih =>
      have form : Grows (g.unfoldExpression (g.unfold traced height) r (g.expression r)) := by
        cases g.expression r with
        | char | oneOf | escaped | test | scan | literal | keyword | finish => exact grows_pure _
        | seq first second => exact (grows_parts ih _).bind fun _ => grows_pure _
        | orElse first second => exact grows_choice ih [first, second]
        | choice alternatives => exact grows_choice ih _
        | keepLeft first second | keepRight first second | followedBy first second
        | notFollowedBy first second =>
            exact (ih first).bind fun _ => (ih second).bind fun _ => grows_pure _
        | combine f parts => exact (grows_parts ih _).bind fun _ => grows_pure _
        | optional body | many body | transform f body => exact (ih body).bind fun _ => grows_pure _
        | idiom kind body => exact ih body
        | forward target => exact grows_forward ih r target
      simp only [Grammar.unfold]
      split
      · exact form.bind fun _ => grows_pure _
      · exact form

/-! ## Properties of all code -/

/-- What the code of a form is made of: codes of the expressions it refers to. That of a forward
reference depends on what has been met, and is no such code. -/
inductive Grammar.Assembled (g : Grammar) (codes : Ref → Code → Prop) (r : Ref) : Expression → Code → Prop
  | char {c : Char} {anyCase : Bool} :
      Assembled g codes r (.char c anyCase) (.test (.plain (.single c anyCase)) (g.label r))
  | oneOf {chars : CharClass} :
      Assembled g codes r (.oneOf chars) (.test (.plain chars) (g.label r))
  | escaped {c : Char} :
      Assembled g codes r (.escaped c) (.test (.escaped (.single c false)) (g.label r))
  | test {t : CharTest} : Assembled g codes r (.test t) (.test t (g.label r))
  | scan {t : CharTest} {least : Nat} {itemLabel : String} :
      Assembled g codes r (.scan t least itemLabel) (.scan t least itemLabel)
  | literal {text : String} {anyCase : Bool} :
      Assembled g codes r (.literal text anyCase) (.text text anyCase (.text text))
  | keyword {text : String} {value : Datum} {anyCase : Bool} :
      Assembled g codes r (.keyword text value anyCase) (.text text anyCase value)
  | finish : Assembled g codes r .finish .finish
  | seq {a b : Ref} {cs : List Code} (items : List.Forall₂ codes (g.sequenceItems g.size r) cs) :
      Assembled g codes r (.seq a b) (.sequence cs none)
  | orElse {a b : Ref} {c : Code} {cs : List Code} (parts : List.Forall₂ codes [a, b] (c :: cs)) :
      Assembled g codes r (.orElse a b) (.choice c cs)
  | choice {refs : List Ref} {c : Code} {cs : List Code}
      (parts : List.Forall₂ codes refs (c :: cs)) :
      Assembled g codes r (.choice refs) (.choice c cs)
  | keepLeft {a b : Ref} {c c' : Code} (left : codes a c) (right : codes b c') :
      Assembled g codes r (.keepLeft a b) (.keepLeft c c')
  | keepRight {a b : Ref} {c c' : Code} (left : codes a c) (right : codes b c') :
      Assembled g codes r (.keepRight a b) (.keepRight c c')
  | followedBy {a b : Ref} {c c' : Code} (left : codes a c) (right : codes b c') :
      Assembled g codes r (.followedBy a b) (.followedBy c c')
  | notFollowedBy {a b : Ref} {c c' : Code} (left : codes a c) (right : codes b c') :
      Assembled g codes r (.notFollowedBy a b) (.notFollowedBy c c' (g.label r))
  | combine {f : Combiner} {refs : List Ref} {cs : List Code} (parts : List.Forall₂ codes refs cs) :
      Assembled g codes r (.combine f refs) (.sequence cs (some f))
  | optional {body : Ref} {fallback : Datum} {c : Code} (inner : codes body c) :
      Assembled g codes r (.optional body fallback) (.optional c fallback)
  | many {body : Ref} {least : Nat} {c : Code} (inner : codes body c) :
      Assembled g codes r (.many body least) (.many c least (g.label body))
  | transform {f : Transform} {body : Ref} {c : Code} (inner : codes body c) :
      Assembled g codes r (.transform f body) (.transform f c)
  | idiom {kind : Idiom} {body : Ref} {c : Code} (inner : codes body c) :
      Assembled g codes r (.idiom kind body) c

namespace Unfold

/-- Whatever an unfolding comes to has a property, and the subroutines of the forward
references met on the way have one, if those in `start` were met before and `final` are those that
are met in the end. -/
def Upholds {α : Type} (routine : Ref → Code → Prop) (start final : List Ref) (u : Unfold α)
    (property : α → Prop) : Prop :=
  ∀ ⦃v v' a⦄, start ⊆ v.met → u v = some (a, v') → v'.met <+: final → property a ∧
    ∀ i r, v.met.length ≤ i → v'.met[i]? = some r → routine r (v'.bodies i)

section Upholds

variable {α β : Type} {routine : Ref → Code → Prop} {start final : List Ref}
variable {part : Ref → Unfold Code} {property : Ref → Code → Prop}

theorem upholds_pure {a : α} {property : α → Prop} (holds : property a) :
    Upholds routine start final (return a) property := by
  intro v v' a' _ done _
  obtain ⟨rfl, rfl⟩ := pure_eq_some.mp done
  refine ⟨holds, ?_⟩
  intro i r old known
  have := (List.getElem?_eq_some_iff.mp known).1
  omega

theorem Upholds.mono {u : Unfold α} {property property' : α → Prop}
    (upholds : Upholds routine start final u property) (weaker : ∀ a, property a → property' a) :
    Upholds routine start final u property' :=
  fun _ _ a known done within =>
    ⟨weaker a (upholds known done within).1, (upholds known done within).2⟩

theorem Upholds.bind {u : Unfold α} {f : α → Unfold β} {property : α → Prop}
    {property' : β → Prop} (first : Upholds routine start final u property) (grow : Grows u)
    (grow' : ∀ a, Grows (f a))
    (rest : ∀ a, property a → Upholds routine start final (f a) property') :
    Upholds routine start final (u >>= f) property' := by
  intro v v' b met done within
  obtain ⟨a, between, done, done'⟩ := bind_eq_some.mp done
  have grows := grow' a done'
  obtain ⟨holds, routines⟩ := first met done (grows.met.trans within)
  obtain ⟨holds', routines'⟩ := rest a holds (List.Subset.trans met (grow done).met.subset) done' within
  refine ⟨holds', ?_⟩
  intro i r old known
  by_cases earlier : i < between.met.length
  · rw [grows.bodies i earlier]
    exact routines i r old ((grows.getElem?_met earlier).symm.trans known)
  · exact routines' i r (by omega) known

theorem upholds_last {u : Unfold α} {property : α → Prop}
    (uphold : Upholds routine start final u property) {f : α → β} {property' : β → Prop}
    (holds : ∀ a, property a → property' (f a)) :
    Upholds routine start final (u >>= fun a => return f a) property' := by
  intro v v' b met both within
  obtain ⟨a, done, rfl⟩ := last_eq_some.mp both
  exact ⟨holds a (uphold met done within).1, (uphold met done within).2⟩

/-- Two parts, one after the other. -/
theorem upholds_pair (grow : ∀ r, Grows (part r))
    (uphold : ∀ r, Upholds routine start final (part r) (property r)) {a b : Ref}
    {make : Code → Code → Code} {property' : Code → Prop}
    (holds : ∀ c c', property a c → property b c' → property' (make c c')) :
    Upholds routine start final (do return make (← part a) (← part b)) property' := by
  apply (uphold a).bind (grow a)
  · intro c
    exact (grow b).bind fun c' => grows_pure (make c c')
  · intro c left
    exact upholds_last (uphold b) fun c' right => holds c c' left right

theorem upholds_parts (grow : ∀ r, Grows (part r))
    (uphold : ∀ r, Upholds routine start final (part r) (property r)) (refs : List Ref) :
    Upholds routine start final (parts (refs.map part)) (List.Forall₂ property refs) := by
  induction refs with
  | nil => exact upholds_pure .nil
  | cons r refs ih =>
      refine (uphold r).bind (grow r) (fun _ => (grows_parts grow refs).bind fun _ => grows_pure _) ?_
      intro c holds
      exact upholds_last ih fun cs holds' => .cons holds holds'

theorem upholds_choice (grow : ∀ r, Grows (part r))
    (uphold : ∀ r, Upholds routine start final (part r) (property r)) (refs : List Ref)
    {property' : Code → Prop}
    (holds : ∀ c cs, List.Forall₂ property refs (c :: cs) → property' (.choice c cs)) :
    Upholds routine start final (choice (refs.map part)) property' := by
  refine (upholds_parts grow uphold refs).bind (grows_parts grow refs) ?_ ?_
  · intro cs
    cases cs with
    | nil => exact fun _ _ _ done => nomatch done
    | cons c cs => exact grows_pure _
  · intro cs all
    cases cs with
    | nil => exact fun _ _ _ _ done => nomatch done
    | cons c cs => exact upholds_pure (holds c cs all)

/-- A forward reference: the call has the property, and the code of the target has both, the
forward reference being met. -/
theorem upholds_forward {r : Ref} {target : Option Ref} {property' : Code → Prop}
    (call : ∀ i, final[i]? = some r → property' (.call i)) (grow : ∀ r, Grows (part r))
    (inline : ∀ t, target = some t → r ∉ start → r ∈ final →
      Upholds routine start final (part t) fun c => property' c ∧ routine r c) :
    Upholds routine start final (forward r (target.map part)) property' := by
  intro v v' c earlier done within
  cases known : v.met.idxOf? r with
  | some index =>
      simp only [forward, known] at done
      obtain ⟨rfl, rfl⟩ := Prod.mk.inj (Option.some.inj done)
      obtain ⟨inside, here, -⟩ := List.idxOf?_eq_some_iff.mp known
      obtain ⟨more, rfl⟩ := within
      refine ⟨call index ?_, ?_⟩
      · rw [List.getElem?_append_left inside, List.getElem?_eq_getElem inside, here]
      · intro i r' old found
        have := (List.getElem?_eq_some_iff.mp found).1
        omega
  | none =>
      obtain ⟨t, u, aimed, done', rfl⟩ := forward_eq_some done known
      have new : r ∉ start := fun mem => List.idxOf?_eq_none_iff.mp known (earlier mem)
      have met : r ∈ final := ((grow t done').met.trans within).subset (by simp)
      obtain ⟨⟨holds, own⟩, routines⟩ :=
        inline t aimed new met (List.subset_append_of_subset_left _ earlier) done' within
      refine ⟨holds, ?_⟩
      intro i r' old found
      simp only [Unfolding.complete] at found ⊢
      by_cases self : i = v.met.length
      · subst self
        have same := (grow t done').getElem?_met (i := v.met.length) (by simp)
        rw [found] at same
        obtain rfl : r' = r := by simpa using same
        simpa using own
      · rw [if_neg self]
        exact routines i r' (by simp; omega) found

/-- The code of a form is made of the codes of its parts. -/
theorem upholds_form {g : Grammar} (grow : ∀ r, Grows (part r))
    (uphold : ∀ r, Upholds routine start final (part r) (property r)) (r : Ref) {e : Expression}
    (other : e.isForward = false) :
    Upholds routine start final (g.unfoldExpression part r e) (g.Assembled property r e) := by
  cases e with
  | char c anyCase => exact upholds_pure .char
  | oneOf chars => exact upholds_pure .oneOf
  | escaped c => exact upholds_pure .escaped
  | test t => exact upholds_pure .test
  | scan t least itemLabel => exact upholds_pure .scan
  | literal text anyCase => exact upholds_pure .literal
  | keyword text value anyCase => exact upholds_pure .keyword
  | finish => exact upholds_pure .finish
  | seq a b => exact upholds_last (upholds_parts grow uphold _) fun cs items => .seq items
  | orElse a b => exact upholds_choice grow uphold [a, b] fun c cs parts => .orElse parts
  | choice refs => exact upholds_choice grow uphold refs fun c cs parts => .choice parts
  | keepLeft a b => exact upholds_pair grow uphold fun c c' left right => .keepLeft left right
  | keepRight a b => exact upholds_pair grow uphold fun c c' left right => .keepRight left right
  | followedBy a b => exact upholds_pair grow uphold fun c c' left right => .followedBy left right
  | notFollowedBy a b => exact upholds_pair grow uphold fun c c' left right => .notFollowedBy left right
  | combine f refs => exact upholds_last (upholds_parts grow uphold refs) fun cs parts => .combine parts
  | optional body fallback => exact upholds_last (uphold body) fun c inner => .optional inner
  | many body least => exact upholds_last (uphold body) fun c inner => .many inner
  | transform f body => exact upholds_last (uphold body) fun c inner => .transform inner
  | idiom kind body => exact (uphold body).mono fun c inner => .idiom inner
  | forward target => cases other

end Upholds

end Unfold

open Unfold in
/-- What holds of every code that is made of such codes, of calls, and of what is announced, holds of
all codes: `formed` is what holds of the code of a form before it is announced. -/
theorem Grammar.unfold_upholds {g : Grammar} {traced : Bool} {start final : List Ref}
    {routine property : Ref → Code → Prop} (formed : Ref → Code → Prop)
    (forms : ∀ r c, g.Assembled property r (g.expression r) c → formed r c)
    (calls : ∀ i r, final[i]? = some r → (g.expression r).isForward = true → formed r (.call i))
    (inlines : ∀ r t c, g.expression r = .forward (some t) → r ∉ start → r ∈ final →
      property t c → formed r c ∧ routine r c)
    (named : ∀ r name c, traced = true → g.name r = some name → formed r c →
      property r (.announced name c))
    (plain : ∀ r c, (traced = true → g.name r = none) → formed r c → property r c)
    (height : Nat) (r : Ref) :
    Upholds routine start final (g.unfold traced height r) (property r) := by
  induction height generalizing r with
  | zero => exact fun _ _ _ _ done => nomatch done
  | succ height ih =>
      have grow := g.grows_unfold traced height
      have form : Upholds routine start final
          (g.unfoldExpression (g.unfold traced height) r (g.expression r)) (formed r) := by
        cases other : (g.expression r).isForward with
        | false => exact (upholds_form grow ih r other).mono (forms r)
        | true =>
            obtain ⟨target, form⟩ := Expression.eq_forward other
            rw [form]
            apply upholds_forward
            · intro i known
              exact calls i r known other
            · exact grow
            · rintro t rfl new met
              exact (ih t).mono fun c holds => inlines r t c form new met holds
      simp only [Grammar.unfold]
      split
      · rename_i name known
        exact upholds_last form fun c holds => named r name c rfl known holds
      · rename_i silent
        apply form.mono
        intro c holds
        apply plain r c _ holds
        intro on
        cases known : g.name r with
        | none => rfl
        | some name => exact absurd known (silent name on)

/-! ## What has been unfolded is complete -/

/-- Whether an expression can be unfolded, provided that those it refers to can: it is neither an
open forward reference nor a choice with nothing to choose from. -/
def Expression.complete : Expression → Bool
  | .forward none | .choice [] => false
  | _ => true

theorem Expression.complete_iff {e : Expression} :
    e.complete = true ↔ e ≠ .forward none ∧ e ≠ .choice [] := by
  cases e with
  | forward target => cases target <;> simp [complete]
  | choice alternatives => cases alternatives <;> simp [complete]
  | _ => simp [complete]

namespace Grammar

/-- An expression is complete, and so are those it refers to, up to forward references that were
met. -/
inductive Covered (g : Grammar) (met : List Ref) : Ref → Prop
  | forward {r : Ref} (forward : (g.expression r).isForward = true) (known : r ∈ met) :
      Covered g met r
  | form {r : Ref} (other : (g.expression r).isForward = false)
      (complete : (g.expression r).complete = true)
      (children : ∀ child ∈ (g.expression r).children, Covered g met child) : Covered g met r

section Covered

variable {g : Grammar} {met : List Ref}

theorem Covered.of_form {r : Ref} {e : Expression} (form : g.expression r = e)
    (other : e.isForward = false) (complete : e.complete = true)
    (children : ∀ child ∈ e.children, g.Covered met child) : g.Covered met r := by
  subst form
  exact .form other complete children

theorem covered_of_items {limit : Nat} {r : Ref}
    (items : ∀ item ∈ g.sequenceItems limit r, g.Covered met item) : g.Covered met r := by
  induction limit generalizing r with
  | zero => exact items r (.head _)
  | succ limit ih =>
      rw [sequenceItems] at items
      split at items
      · rename_i first second seq
        apply Covered.of_form seq rfl rfl
        intro child mem
        have mem : child = first ∨ child = second := by simpa [Expression.children] using mem
        rcases mem with rfl | rfl
        · exact ih fun item mem => items item (List.mem_append_left _ mem)
        · exact items child (List.mem_append_right _ (.head _))
      · exact items r (.head _)

theorem covered_of_forall₂ {refs : List Ref} {cs : List Code}
    (all : List.Forall₂ (fun r _ => g.Covered met r) refs cs) : ∀ r ∈ refs, g.Covered met r := by
  induction all with
  | nil => exact fun _ mem => nomatch mem
  | cons first _ ih => exact List.forall_mem_cons.mpr ⟨first, ih⟩

/-- The target of a forward reference is covered. -/
def RoutineCovered (g : Grammar) (met : List Ref) (r : Ref) : Prop :=
  ∃ target, g.expression r = .forward (some target) ∧ g.Covered met target

theorem covered_of_assembled {r : Ref} {c : Code}
    (assembled : g.Assembled (fun r _ => g.Covered met r) r (g.expression r) c) :
    g.Covered met r := by
  generalize form : g.expression r = e at assembled
  cases assembled with
  | char | oneOf | escaped | test | scan | literal | keyword | finish =>
      apply Covered.of_form form rfl rfl
      intro child mem
      cases mem
  | seq items => exact covered_of_items (covered_of_forall₂ items)
  | orElse parts | combine parts => exact .of_form form rfl rfl (covered_of_forall₂ parts)
  | choice parts =>
      have all := covered_of_forall₂ parts
      cases parts
      exact .of_form form rfl rfl all
  | keepLeft left right | keepRight left right | followedBy left right | notFollowedBy left right =>
      have both := List.forall_mem_cons.mpr ⟨left, List.forall_mem_singleton.mpr right⟩
      exact .of_form form rfl rfl both
  | optional inner | many inner | transform inner | idiom inner =>
      exact .of_form form rfl rfl (List.forall_mem_singleton.mpr inner)

open Unfold in
/-- Whatever is unfolded is covered, and so are the targets of the forward references met. -/
theorem unfold_covers (g : Grammar) (traced : Bool) (final : List Ref) (height : Nat) (r : Ref) :
    Upholds (fun r _ => g.RoutineCovered final r) [] final (g.unfold traced height r)
      (fun _ => g.Covered final r) := by
  apply unfold_upholds (fun r _ => g.Covered final r)
  · intro r c assembled
    exact covered_of_assembled assembled
  · intro i r known forward
    exact .forward forward (List.mem_of_getElem? known)
  · intro r t c form _ known covered
    exact ⟨.forward (by rw [form]; rfl) known, t, form, covered⟩
  · intro r name c _ _ covered
    exact covered
  · intro r c _ covered
    exact covered

end Covered

end Grammar

end PegMachine
