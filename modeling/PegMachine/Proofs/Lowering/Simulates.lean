/-
# PegMachine.Proofs.Lowering.Simulates — unfoldings side by side

Two codes are alike if they do alike things in any surroundings whose calls are alike.
One unfolding simulates another if, begun with what is alike about forward references,
they come to alike codes and what is alike again, provided both come to something. So two
grammars that have both been compiled can be compared expression by expression.

Which codes count as alike is a parameter of the comparison of unfoldings: any relation
will do that holds between a call and itself.
-/
import PegMachine.Proofs.Alike
import PegMachine.Proofs.Lowering.Unfolding

namespace PegMachine

set_option autoImplicit false

open Machine (Behaviour Code Surroundings)

namespace Machine.Code

/-! ## Alike codes -/

/-- The codes do alike things wherever calls do. -/
def Alike (c c' : Code) : Prop :=
  ∀ ⦃input⦄ (env env' : Surroundings input), (∀ i, (env.call i).Alike (env'.call i)) →
    (c input env).Alike (c' input env')

/-- One list of codes may stand for the other among the alternatives of a choice. -/
def Regroups (cs cs' : List Code) : Prop :=
  ∀ ⦃input⦄ (env : Surroundings input),
    Behaviour.AlikeLists (cs.map (· input env)) (cs'.map (· input env))

section Alike

variable {cs cs' ds ds' : List Code} {c c' : Code}

theorem call_alike (i : Nat) : (call i).Alike (call i) := fun _ _ _ calls => calls i

theorem behaviours_alike (alike : List.Forall₂ Alike cs cs') {input : Array Char}
    {env env' : Surroundings input} (calls : ∀ i, (env.call i).Alike (env'.call i)) :
    List.Forall₂ Behaviour.Alike (cs.map (· input env)) (cs'.map (· input env')) := by
  rw [List.forall₂_map_left_iff, List.forall₂_map_right_iff]
  exact alike.imp fun _ _ alike => alike env env' calls

theorem Regroups.append (front : Regroups cs ds) (back : Regroups cs' ds') :
    Regroups (cs ++ cs') (ds ++ ds') := by
  intro input env
  rw [List.map_append, List.map_append]
  exact (front env).append (back env)

theorem Regroups.refl (cs : List Code) : Regroups cs cs := fun _ _ =>
  Behaviour.alikeLists_of_forall₂ (List.forall₂_same.mpr fun body _ => .refl body)

theorem Regroups.trans (first : Regroups cs ds) (second : Regroups ds ds') : Regroups cs ds' :=
  fun _ env => (first env).trans (second env)

/-- Choices between alternatives that are alike once they are regrouped. -/
theorem choice_alike {es : List Code} (alike : List.Forall₂ Alike (c :: cs) es)
    (regroups : Regroups es (c' :: cs')) : (choice c cs).Alike (choice c' cs') := by
  intro input env env' calls
  apply Behaviour.choice_alike_of_lists
  exact (Behaviour.alikeLists_of_forall₂ (behaviours_alike alike calls)).trans (regroups env')

/-- A code, or the same announced. -/
def Announces (c c₀ : Code) : Prop := c = c₀ ∨ ∃ name, c = announced name c₀

theorem Announces.behaves {c c₀ : Code} (announces : Announces c c₀) {input : Array Char}
    (env : Surroundings input) : (c input env).Alike (c₀ input env) := by
  rcases announces with rfl | ⟨name, rfl⟩
  · exact .refl _
  · exact Behaviour.announced_alike _ _

theorem Announces.alike {c c₀ c' c₀' : Code} (first : Announces c c₀) (second : Announces c' c₀')
    (alike : c₀.Alike c₀') : c.Alike c' := fun _ env env' calls =>
  ((first.behaves env).trans (alike env env' calls)).trans (second.behaves env').symm

end Alike

end Machine.Code

/-! ## Unfoldings -/

/-- The forward references met are related pairwise, and the subroutines are alike. -/
structure Unfolding.Alike (like : Code → Code → Prop) (pair : Ref → Ref → Prop) (v w : Unfolding) :
    Prop where
  met : List.Forall₂ pair v.met w.met
  bodies : ∀ i, like (v.bodies i) (w.bodies i)

namespace Unfold

/-- What two unfoldings come to is related, if both come to something. -/
def Simulates {α β : Type} (like : Code → Code → Prop) (pair : Ref → Ref → Prop) (u : Unfold α)
    (u' : Unfold β) (related : α → β → Prop) : Prop :=
  ∀ ⦃v w v' w' a b⦄, Unfolding.Alike like pair v w → u v = some (a, v') → u' w = some (b, w') →
    v'.Alike like pair w' ∧ related a b

section Simulates

variable {α β γ δ : Type} {like : Code → Code → Prop} {pair : Ref → Ref → Prop}

theorem simulates_pure {a : α} {b : β} {related : α → β → Prop} (holds : related a b) :
    Simulates like pair (return a) (return b) related := by
  intro v w v' w' a' b' alike done done'
  obtain ⟨rfl, rfl⟩ := pure_eq_some.mp done
  obtain ⟨rfl, rfl⟩ := pure_eq_some.mp done'
  exact ⟨alike, holds⟩

theorem Simulates.bind {u : Unfold α} {u' : Unfold β} {f : α → Unfold γ} {f' : β → Unfold δ}
    {related : α → β → Prop} {related' : γ → δ → Prop} (first : Simulates like pair u u' related)
    (rest : ∀ a b, related a b → Simulates like pair (f a) (f' b) related') :
    Simulates like pair (u >>= f) (u' >>= f') related' := by
  intro v w v' w' c d alike done done'
  obtain ⟨a, between, done, after⟩ := bind_eq_some.mp done
  obtain ⟨b, between', done', after'⟩ := bind_eq_some.mp done'
  obtain ⟨alike, holds⟩ := first alike done done'
  exact rest a b holds alike after after'

/-- An unfolding, and something made of its code. -/
theorem Simulates.last {u u' : Unfold α} {related : α → α → Prop} {related' : β → β → Prop}
    {make make' : α → β} (first : Simulates like pair u u' related)
    (holds : ∀ a b, related a b → related' (make a) (make' b)) :
    Simulates like pair (u >>= fun a => return make a) (u' >>= fun b => return make' b) related' := by
  apply first.bind
  intro a b own
  exact simulates_pure (holds a b own)

/-- Two parts, one after the other. -/
theorem Simulates.both {u u' w w' : Unfold α} {related : α → α → Prop} {related' : β → β → Prop}
    {make make' : α → α → β} (first : Simulates like pair u u' related)
    (second : Simulates like pair w w' related)
    (holds : ∀ a a' b b', related a a' → related b b' → related' (make a b) (make' a' b')) :
    Simulates like pair (do return make (← u) (← w)) (do return make' (← u') (← w')) related' := by
  apply first.bind
  intro a a' left
  exact second.last fun b b' right => holds a a' b b' left right

theorem simulates_parts {us us' : List (Unfold Code)}
    (all : List.Forall₂ (fun u u' => Simulates like pair u u' like) us us') :
    Simulates like pair (parts us) (parts us') (List.Forall₂ like) := by
  induction all with
  | nil => exact simulates_pure .nil
  | cons first _ ih =>
      apply first.bind
      intro c c' alike
      exact ih.last fun cs cs' rest => .cons alike rest

/-- Forward references that are related are met at the same time. -/
theorem idxOf?_met {vs ws : List Ref} {r r' : Ref} (met : List.Forall₂ pair vs ws)
    (same : ∀ s s', pair s s' → (s = r ↔ s' = r')) : vs.idxOf? r = ws.idxOf? r' := by
  induction met with
  | nil => rfl
  | @cons s s' _ _ head _ ih =>
      rw [List.idxOf?_cons, List.idxOf?_cons, ih]
      by_cases here : s = r
      · rw [if_pos (by simpa using here), if_pos (by simpa using (same s s' head).mp here)]
      · rw [if_neg (by simpa using here),
          if_neg (by simpa using fun here' => here ((same s s' head).mpr here'))]

theorem simulates_forward {r r' : Ref} {target target' : Unfold Code}
    (call : ∀ i, like (.call i) (.call i)) (here : pair r r')
    (same : ∀ s s', pair s s' → (s = r ↔ s' = r')) (inline : Simulates like pair target target' like) :
    Simulates like pair (forward r (some target)) (forward r' (some target')) like := by
  intro v w v' w' c c' alike done done'
  have known : v.met.idxOf? r = w.met.idxOf? r' := idxOf?_met alike.met same
  cases index : v.met.idxOf? r with
  | some i =>
      simp only [forward, index, ← known, Option.some.injEq, Prod.mk.injEq] at done done'
      obtain ⟨rfl, rfl⟩ := done
      obtain ⟨rfl, rfl⟩ := done'
      exact ⟨alike, call i⟩
  | none =>
      simp only [forward, index, ← known, Option.bind_eq_bind, Option.bind_eq_some_iff] at done done'
      obtain ⟨⟨a, u⟩, done, rest⟩ := done
      obtain ⟨⟨a', u'⟩, done', rest'⟩ := done'
      obtain ⟨rfl, rfl⟩ := Prod.mk.inj (Option.some.inj rest)
      obtain ⟨rfl, rfl⟩ := Prod.mk.inj (Option.some.inj rest')
      have enters : Unfolding.Alike like pair { v with met := v.met ++ [r] }
          { w with met := w.met ++ [r'] } :=
        ⟨List.rel_append alike.met (.cons here .nil), alike.bodies⟩
      obtain ⟨alike', holds⟩ := inline enters done done'
      refine ⟨⟨alike'.met, ?_⟩, holds⟩
      intro i
      simp only [Unfolding.complete, alike.met.length_eq]
      split
      · exact holds
      · exact alike'.bodies i

/-- Open forward references come to nothing, unless they were met before. -/
theorem simulates_open {r r' : Ref} (call : ∀ i, like (.call i) (.call i)) (here : pair r r')
    (same : ∀ s s', pair s s' → (s = r ↔ s' = r')) :
    Simulates like pair (forward r none) (forward r' none) like := by
  have never : Simulates like pair (fun _ => none : Unfold Code) (fun _ => none : Unfold Code) like :=
    fun _ _ _ _ _ _ _ done => nomatch done
  have closed := simulates_forward call here same never
  intro v w v' w' c c' alike done done'
  refine closed alike ?_ ?_
  · rw [← done]
    simp only [forward]
    cases v.met.idxOf? r <;> rfl
  · rw [← done']
    simp only [forward]
    cases w.met.idxOf? r' <;> rfl

/-! ## Parts and their codes -/

theorem parts_cons {part : Unfold Code} {us : List (Unfold Code)} {v v' : Unfolding}
    {cs : List Code} :
    parts (part :: us) v = some (cs, v') ↔
      ∃ c u cs', part v = some (c, u) ∧ parts us u = some (cs', v') ∧ cs = c :: cs' := by
  simp only [parts, bind_eq_some, pure_eq_some]
  constructor
  · rintro ⟨c, u, done, cs', _, rest, rfl, rfl⟩
    exact ⟨c, u, cs', done, rest, rfl⟩
  · rintro ⟨c, u, cs', done, rest, rfl⟩
    exact ⟨c, u, done, cs', v', rest, rfl, rfl⟩

theorem parts_append {us us' : List (Unfold Code)} {v v' : Unfolding} {cs : List Code} :
    parts (us ++ us') v = some (cs, v') ↔
      ∃ ds ds' u, parts us v = some (ds, u) ∧ parts us' u = some (ds', v') ∧ cs = ds ++ ds' := by
  induction us generalizing v cs with
  | nil =>
      constructor
      · exact fun done => ⟨[], cs, v, rfl, done, rfl⟩
      · rintro ⟨ds, ds', u, done, done', rfl⟩
        obtain ⟨rfl, rfl⟩ := pure_eq_some.mp done
        exact done'
  | cons part us ih =>
      simp only [List.cons_append, parts_cons, ih]
      constructor
      · rintro ⟨c, u, _, first, ⟨ds, ds', u', done, rest, rfl⟩, rfl⟩
        exact ⟨c :: ds, ds', u', ⟨c, u, ds, first, done, rfl⟩, rest, rfl⟩
      · rintro ⟨_, ds', u', ⟨c, u, ds, first, done, rfl⟩, rest, rfl⟩
        exact ⟨c, u, ds ++ ds', first, ⟨ds, ds', u', done, rest, rfl⟩, rfl⟩

/-- All parts of an unfolding come to something. -/
theorem parts_each {part : Ref → Unfold Code} {refs : List Ref} {v v' : Unfolding} {cs : List Code}
    (done : parts (refs.map part) v = some (cs, v')) {r : Ref} (mem : r ∈ refs) :
    ∃ u c u', part r u = some (c, u') := by
  induction refs generalizing v cs with
  | nil => nomatch mem
  | cons r' refs ih =>
      obtain ⟨c, u, cs', first, rest, rfl⟩ := parts_cons.mp done
      cases mem with
      | head => exact ⟨v, c, u, first⟩
      | tail _ mem => exact ih rest mem

/-- A choice has at least one alternative. -/
theorem choice_eq_some {us : List (Unfold Code)} {v v' : Unfolding} {c : Code} :
    choice us v = some (c, v') ↔
      ∃ first rest, parts us v = some (first :: rest, v') ∧ c = .choice first rest := by
  simp only [choice, bind_eq_some]
  constructor
  · rintro ⟨cs, u, done, made⟩
    cases cs with
    | nil => nomatch made
    | cons first rest =>
        obtain ⟨rfl, rfl⟩ := pure_eq_some.mp made
        exact ⟨first, rest, done, rfl⟩
  · rintro ⟨first, rest, done, rfl⟩
    exact ⟨first :: rest, v', done, rfl⟩

end Simulates

end Unfold

/-! ## Calls -/

/-- Calls of subroutines that are alike are alike, however many may be nested. -/
theorem Machine.calls_alike {input : Array Char} (indexOf indexOf' : String → Nat)
    (labels labels' : Nat → Nat) {bodies bodies' : Nat → Code}
    (alike : ∀ i, (bodies i).Alike (bodies' i)) (depth i : Nat) :
    (Machine.calls input indexOf labels bodies depth i).Alike
      (Machine.calls input indexOf' labels' bodies' depth i) := by
  induction depth generalizing i with
  | zero =>
      refine fun pos => ⟨rfl, ?_⟩
      simp [Machine.calls, Behaviour.refused, Machine.Unrefused]
  | succ depth ih => exact Behaviour.called_alike (alike i _ _ ih) _ _

end PegMachine
