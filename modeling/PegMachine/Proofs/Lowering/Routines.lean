/-
# PegMachine.Proofs.Lowering.Routines — each forward reference is lowered once

`Grammar.Carries` follows expressions through their fragments. It says which forward
references were met before a fragment and which are met behind it, and what stands for each
occurrence of one: where it was not met before the fragment of its target, which is the range of
its subroutine, and else a word that calls this subroutine. All other words call nothing.

Lowering only makes such fragments (`Grammar.carried_lower`): every layout puts quiet words
around the fragments of its parts, and a forward reference is recorded before its target is
lowered. So bytecode that an expression was lowered to has one subroutine for each forward
reference that the expression reaches (`Grammar.RoutesOnce`).
-/
import PegMachine.Proofs.Lowering.Reaches
import PegMachine.Proofs.Lowering.Sealed
import PegMachine.Proofs.Lowering.Woven

namespace PegMachine

set_option autoImplicit false

namespace Grammar

/-! ## What fragments carry -/

/-- Code from `base` on is that of some expressions, one after the other, where the forward
references in `met` have subroutines already. Behind it those in `met'` have. -/
inductive Carries (g : Grammar) (traced : Bool) (routines : Array Subroutine) :
    (met : List Ref) → List Ref → (base : Nat) → Fragment → (met' : List Ref) → Prop
  | last {met : List Ref} {base : Nat} {words : Fragment} (quiet : words.Quiet) :
      Carries g traced routines met [] base words met
  | next {met met₁ met' : List Ref} {r : Ref} {rest : List Ref} {base : Nat}
      {gap code words : Fragment} (quiet : gap.Quiet)
      (first : Carries g traced routines met [r] (base + gap.length) code met₁)
      (others : Carries g traced routines met₁ rest (base + gap.length + code.length) words met') :
      Carries g traced routines met (r :: rest) base (gap ++ code ++ words) met'
  | form {met met' : List Ref} {r : Ref} {base : Nat} {code : Fragment}
      (other : (g.expression r).isForward = false)
      (inner : Carries g traced routines met (g.constituents r) base code met') :
      Carries g traced routines met [r] base code met'
  /-- A forward reference that was met is called by its index. -/
  | call {met : List Ref} {r : Ref} {base index : Nat} (forward : (g.expression r).isForward = true)
      (known : met.idxOf? r = some index) :
      Carries g traced routines met [r] base [Word.instruction .call index] met
  /-- One that was not takes the next index, and its subroutine is right here. -/
  | inline {met met' : List Ref} {r target : Ref} {base : Nat} {code : Fragment}
      (aimed : g.expression r = .forward (some target)) (new : r ∉ met)
      (inner : Carries g traced routines (met ++ [r]) [target] base code met') (filled : code ≠ [])
      (entry : routines[met.length]?.map (·.range) = some ⟨base, base + code.length⟩)
      (lowered : ∃ height s s', g.lower traced height target base s = .ok (code, s')) :
      Carries g traced routines met [r] base code met'

/-- The subroutine of a forward reference is a part of some code: the fragment to which the target
was lowered when all forward references up to this one had been met. -/
def Routine (g : Grammar) (traced : Bool) (routines : Array Subroutine) (base : Nat)
    (code : Fragment) (order : List Ref) (index : Nat) (r : Ref) : Prop :=
  ∃ target before fragment after met, g.expression r = .forward (some target) ∧
    code = before ++ fragment ++ after ∧ fragment ≠ [] ∧
    routines[index]?.map (·.range) =
      some ⟨base + before.length, base + before.length + fragment.length⟩ ∧
    (∃ height s s', g.lower traced height target (base + before.length) s = .ok (fragment, s')) ∧
    g.Carries traced routines (order.take (index + 1)) [target] (base + before.length) fragment met

section Carries

variable {g : Grammar} {traced : Bool} {routines : Array Subroutine} {met met' refs : List Ref}
variable {base : Nat} {code : Fragment}

/-- Forward references keep their indices. -/
theorem Carries.prefix_met (carries : g.Carries traced routines met refs base code met') :
    met <+: met' := by
  induction carries with
  | last | call => exact List.prefix_refl _
  | next _ _ _ first others => exact first.trans others
  | form _ _ inner => exact inner
  | inline _ _ _ _ _ _ inner => exact (List.prefix_append _ _).trans inner

/-- No forward reference has two. -/
theorem Carries.nodup (carries : g.Carries traced routines met refs base code met')
    (distinct : met.Nodup) : met'.Nodup := by
  induction carries with
  | last | call => exact distinct
  | next _ _ _ first others => exact others (first distinct)
  | form _ _ inner => exact inner distinct
  | inline _ new _ _ _ _ inner =>
      exact inner (distinct.append (List.nodup_singleton _) (List.disjoint_singleton.mpr new))

theorem reaches_constituent {r s : Ref} (mem : s ∈ g.constituents r) : g.Reaches r s := by
  rw [constituents] at mem
  split at mem
  · exact reaches_item mem
  · exact .single mem

/-- Only what is reached is met. -/
theorem Carries.reached (carries : g.Carries traced routines met refs base code met') :
    ∀ r ∈ met', r ∈ met ∨ (g.expression r).isForward = true ∧ ∃ s ∈ refs, g.Reaches s r := by
  induction carries with
  | last | call => exact fun r known => .inl known
  | next _ _ _ first others =>
      intro r known
      rcases others r known with known | ⟨forward, s, mem, reaches⟩
      · rcases first r known with known | ⟨forward, s, mem, reaches⟩
        · exact .inl known
        · obtain rfl := List.mem_singleton.mp mem
          exact .inr ⟨forward, s, .head _, reaches⟩
      · exact .inr ⟨forward, s, .tail _ mem, reaches⟩
  | form _ _ inner =>
      intro r known
      rcases inner r known with known | ⟨forward, s, mem, reaches⟩
      · exact .inl known
      · exact .inr ⟨forward, _, .head _, (reaches_constituent mem).trans reaches⟩
  | inline aimed _ _ _ _ _ inner =>
      intro r known
      rcases inner r known with known | ⟨forward, s, mem, reaches⟩
      · rcases List.mem_append.mp known with known | same
        · exact .inl known
        · obtain rfl := List.mem_singleton.mp same
          exact .inr ⟨by rw [aimed]; rfl, _, .head _, .refl⟩
      · obtain rfl := List.mem_singleton.mp mem
        exact .inr ⟨forward, _, .head _, .head (by rw [aimed]; exact .head _) reaches⟩

/-- A subroutine in a fragment is one in a larger fragment around it. -/
theorem Routine.widen {order : List Ref} {index : Nat} {r : Ref} {lead : Fragment}
    (routine : g.Routine traced routines (base + lead.length) code order index r) (tail : Fragment) :
    g.Routine traced routines base (lead ++ code ++ tail) order index r := by
  obtain ⟨target, before, fragment, after, met, aimed, rfl, filled, entry, lowered, carries⟩ := routine
  have place : base + lead.length + before.length = base + (lead ++ before).length := by
    rw [List.length_append, Nat.add_assoc]
  rw [place] at entry lowered carries
  exact ⟨target, lead ++ before, fragment, after ++ tail, met, aimed,
    by simp only [List.append_assoc], filled, entry, lowered, carries⟩

/-- The subroutines of the forward references met on the way are in the fragment. -/
theorem Carries.routine {order : List Ref}
    (carries : g.Carries traced routines met refs base code met') (within : met' <+: order)
    {index : Nat} {r : Ref} (since : met.length ≤ index) (known : met'[index]? = some r) :
    g.Routine traced routines base code order index r := by
  have inside := (List.getElem?_eq_some_iff.mp known).1
  induction carries with
  | last | call => exact absurd inside (Nat.not_lt.mpr since)
  | @next met met₁ met' _ _ base gap code words _ front others first rest =>
      by_cases earlier : index < met₁.length
      · obtain ⟨more, same⟩ := others.prefix_met
        rw [← same, List.getElem?_append_left earlier] at known
        exact (first (others.prefix_met.trans within) since known earlier).widen words
      · have later := rest within (Nat.le_of_not_lt earlier) known inside
        rw [Nat.add_assoc, ← List.length_append] at later
        simpa only [List.append_nil] using later.widen []
  | form _ _ inner => exact inner within since known inside
  | @inline met met' r' target base code aimed new front filled entry lowered inner =>
      by_cases self : index = met.length
      · subst self
        obtain ⟨more, rfl⟩ := front.prefix_met
        obtain ⟨rest, rfl⟩ := within
        obtain rfl : r' = r := by simpa using known
        have first : (met ++ [r'] ++ more ++ rest).take (met.length + 1) = met ++ [r'] := by
          rw [List.append_assoc (met ++ [r'])]
          exact List.take_left' (by simp)
        exact ⟨target, [], code, [], met ++ [r'] ++ more, aimed, by simp, filled, entry, lowered,
          by rw [first]; exact front⟩
      · exact inner within (by simp; omega) known inside

end Carries

/-! ## Lowering -/

/-- What a state and a later one know of forward references, and a fragment made in between that
carries some expressions once the subroutines of the later state are where they belong. -/
def Followed (g : Grammar) (traced : Bool) (refs : List Ref) (base : Nat) (s : Lowering)
    (code : Fragment) (s' : Lowering) : Prop :=
  ∀ ⦃v : Unfolding⦄, Tracks s v → ∃ v', Moves s s' v v' ∧ ∀ ⦃routines : Array Subroutine⦄,
    (∀ i, v.met.length ≤ i → i < v'.met.length → routines[i]? = s'.tables.subroutines[i]?) →
    g.Carries traced routines v.met refs base code v'.met

/-- A part is lowered to words only, which carry an expression. -/
def Carried (g : Grammar) (traced : Bool) (part : Lower.Part) (r : Ref) : Prop :=
  ∀ ⦃base : Nat⦄ ⦃s s' : Lowering⦄ ⦃code : Fragment⦄, part base s = .ok (code, s') →
    code ≠ [] ∧ g.Followed traced [r] base s code s'

section Carried

variable {g : Grammar} {traced : Bool} {r : Ref} {height : Nat}

open Lower in
/-- A fragment carries expressions if it is made of fragments that carry them. -/
theorem followed_woven {inner : List Part} {refs : List Ref} {base : Nat} {s s' : Lowering}
    {code : Fragment} (woven : Woven inner base s code s')
    (all : List.Forall₂ (g.Carried traced) inner refs) : g.Followed traced refs base s code s' := by
  induction woven generalizing refs with
  | last words quiet still =>
      cases all
      exact fun v tracks => ⟨v, still v tracks, fun _ _ => .last quiet⟩
  | @next part _ base s s₁ s₂ s' code words gap quiet still lowered _ ih =>
      obtain _ | ⟨carried, all⟩ := all
      intro v tracks
      have moves := still v tracks
      obtain ⟨v₁, moves₁, first⟩ := (carried lowered).2 moves.tracks
      obtain ⟨v₂, moves₂, others⟩ := ih all moves₁.tracks
      refine ⟨v₂, moves.trans (moves₁.trans moves₂), fun routines same => ?_⟩
      have same₁ (i : Nat) (old : v.met.length ≤ i) (new : i < v₁.met.length) :
          routines[i]? = s₂.tables.subroutines[i]? := by
        rw [same i old (Nat.lt_of_lt_of_le new moves₂.longer), (moves₂.kept i new).1]
      exact .next quiet (first same₁) (others fun i old => same i (Nat.le_trans moves₁.longer old))

theorem carried_form (carried : ∀ s, g.Carried traced (g.lower traced height s) s)
    (other : (g.expression r).isForward = false) :
    g.Carried traced (g.lowerExpression (g.lower traced height) r (g.expression r)) r := by
  intro base s s' code lowered
  obtain ⟨filled, woven⟩ := weaves_form r (fun s _ _ _ _ lowered => (carried s lowered).1) other lowered
  have all : List.Forall₂ (g.Carried traced) ((g.constituents r).map (g.lower traced height))
      (g.constituents r) := by
    rw [List.forall₂_map_left_iff]
    exact List.forall₂_same.mpr fun s _ => carried s
  refine ⟨filled, fun v tracks => ?_⟩
  obtain ⟨v', moves, carries⟩ := followed_woven woven all tracks
  exact ⟨v', moves, fun routines same => .form other (carries same)⟩

theorem carried_announced {part : Lower.Part} (carried : g.Carried traced part r) (name : String) :
    g.Carried traced (Lower.announced name part) r := by
  intro base s s' code lowered
  obtain ⟨filled, woven⟩ := Lower.weaves_announced name lowered
  exact ⟨filled, followed_woven woven (.cons carried .nil)⟩

/-- A forward reference is recorded before its target is lowered, and placed afterwards. -/
theorem carried_forward (carried : ∀ s, g.Carried traced (g.lower traced height s) s)
    {target : Option Ref} (form : g.expression r = .forward target) :
    g.Carried traced (Lower.forward r (g.label r) (target.map (g.lower traced height))) r := by
  have forward : (g.expression r).isForward = true := by rw [form]; rfl
  intro base s s' code lowered
  cases known : s.subroutines[r]? with
  | some index =>
      simp only [Lower.forward, Lower.bind_eq_ok, Lower.get_eq_ok] at lowered
      obtain ⟨_, _, ⟨rfl, rfl⟩, lowered⟩ := lowered
      simp only [known, Lower.pure_eq_ok] at lowered
      obtain ⟨rfl, rfl⟩ := lowered
      refine ⟨List.cons_ne_nil _ _, fun v tracks => ?_⟩
      have here : v.met.idxOf? r = some index := by rw [← tracks.met, known]
      exact ⟨v, .refl tracks, fun _ _ => .call forward here⟩
  | none =>
      obtain ⟨_, index, t, u, entries, some, added, lowerTarget, rfl⟩ :=
        Lower.forward_eq_ok lowered known
      obtain ⟨target, rfl, rfl⟩ := Option.map_eq_some_iff.mp some
      obtain ⟨filled, followed⟩ := carried target lowerTarget
      refine ⟨filled, fun v tracks => ?_⟩
      have new : v.met.idxOf? r = none := by rw [← tracks.met, known]
      obtain ⟨v₁, moves, carries⟩ := followed (tracks.enter known added)
      -- the code of a subroutine does not matter here
      obtain ⟨whole, label, entry⟩ :=
        moves.place tracks added ⟨base, base + code.length⟩ entries (v₁.bodies index)
      obtain rfl := tracks.index_eq added
      have longer : v.met.length + 1 ≤ v₁.met.length := by simpa using moves.longer
      refine ⟨_, whole, fun routines same => ?_⟩
      have own := (same v.met.length (Nat.le_refl _) longer).trans entry
      refine .inline form (List.idxOf?_eq_none_iff.mp new) (carries ?_) filled (by rw [own]; rfl)
        ⟨height, _, u, lowerTarget⟩
      intro i old inside
      have later : v.met.length ≠ i := by
        rw [List.length_append, List.length_singleton] at old
        omega
      rw [same i (by simp at old; omega) inside, Tables.getElem?_placeSubroutine, if_neg later]

/-- Whatever an expression is lowered to carries it. -/
theorem carried_lower (g : Grammar) (traced : Bool) (height : Nat) (r : Ref) :
    g.Carried traced (g.lower traced height r) r := by
  induction height generalizing r with
  | zero => exact fun _ _ _ _ lowered => nomatch lowered
  | succ height ih =>
      have form : g.Carried traced (g.lowerExpression (g.lower traced height) r (g.expression r)) r := by
        cases other : (g.expression r).isForward with
        | false => exact carried_form ih other
        | true =>
            obtain ⟨target, aimed⟩ := Expression.eq_forward other
            rw [aimed]
            exact carried_forward ih aimed
      simp only [lower]
      split
      · exact carried_announced form _
      · exact form

end Carried

/-! ## Bytecode -/

/-- Bytecode of an expression with one subroutine for each forward reference that it reaches, in
the order in which they are met. -/
structure RoutesOnce (g : Grammar) (traced : Bool) (root : Ref) (b : Bytecode) (order : List Ref) :
    Prop where
  distinct : order.Nodup
  all : ∀ r, r ∈ order ↔ g.Reaches root r ∧ (g.expression r).isForward = true
  count : b.subroutines.size = order.length
  fits : order.length ≤ Word.operandLimit
  routine : ∀ index r, order[index]? = some r →
    g.Routine traced b.subroutines 0 b.code.toList order index r
  /-- Every other occurrence is a call. -/
  carries : g.Carries traced b.subroutines [] [root] 0 b.code.toList order

/-- Lowering yields such bytecode. -/
theorem lowered_routes {g : Grammar} {traced : Bool} {root : Ref} {lowered : Lowered}
    (lowers : g.lowered traced root = .ok lowered) :
    ∃ order, g.RoutesOnce traced root lowered.bytecode order := by
  obtain ⟨fragment, s, lowersRoot, -, tables, code⟩ := fragment_of_lowered lowers
  obtain ⟨-, followed⟩ := g.carried_lower traced g.walkLimit root lowersRoot
  obtain ⟨v, moves, carries⟩ := followed tracks_empty
  obtain ⟨c, v', unfolds, moves', -⟩ := g.follows_lower traced g.walkLimit root lowersRoot tracks_empty
  have carries := carries fun i _ _ => rfl
  -- both walks have recorded the same forward references
  have same (r : Ref) : v.met.idxOf? r = v'.met.idxOf? r := by
    rw [← moves.tracks.met, moves'.tracks.met]
  have subroutines : lowered.bytecode.subroutines = s.tables.subroutines :=
    congrArg Tables.subroutines tables
  refine ⟨v.met, carries.nodup List.nodup_nil, fun r => ⟨fun known => ?_, fun reached => ?_⟩, ?_, ?_,
    ?_, ?_⟩
  · rcases carries.reached r known with known | ⟨forward, s, mem, reaches⟩
    · nomatch known
    · obtain rfl := List.mem_singleton.mp mem
      exact ⟨reaches, forward⟩
  · have known := met_of_unfold unfolds reached.1 reached.2
    by_contra absent
    exact List.idxOf?_eq_none_iff.mp (same r ▸ List.idxOf?_eq_none_iff.mpr absent) known
  · rw [subroutines, moves.tracks.count]
  · rw [← moves.tracks.count]
    exact moves.tracks.sound.subroutines_fit
  · intro index r known
    rw [subroutines, code]
    exact carries.routine (List.prefix_refl _) (Nat.zero_le _) known
  · rw [subroutines, code]
    exact carries

end Grammar

end PegMachine
