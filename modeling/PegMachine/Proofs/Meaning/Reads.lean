/-
# PegMachine.Proofs.Meaning.Reads — a parse finds what an expression takes

If an expression takes a text by the rules of `Proofs.Meaning.Takes`, every parse that meets
the text yields the datum and ends behind it (`parses_of_takes`), whether or not the
expression was condensed first. It is enough that the machine allows as many nested calls as
the rules have counted. The converse does not hold: a forward reference that is met for the
first time costs no call, which the rules do not say.

What is compared with the rules is the code of an expression. `Reads` says that a behaviour
takes and refuses what the expression does; there is one statement for each form, and
`unfold_reads` puts them together.
-/
import PegMachine.Proofs.Meaning.Limited
import PegMachine.Proofs.Meaning.Matches

namespace PegMachine

set_option autoImplicit false

open Machine

/-! ## Behaviours that read what the rules say -/

/-- A behaviour takes and refuses what an expression does with `k` calls, or fewer. -/
structure Reads (g : Grammar) (k : Nat) (r : Ref) {input : Array Char} (body : Behaviour input) :
    Prop where
  takes : ∀ {j : Nat} {text rest : List Char} {d : Datum} {pos : Nat}, j ≤ k →
    g.Takes j r text rest d → input.toList.drop pos = text ++ rest →
      (body pos).match? = some (d, pos + text.length)
  refuses : ∀ {j : Nat} {rest : List Char} {pos : Nat}, j ≤ k → g.Refuses j r rest →
    input.toList.drop pos = rest → (body pos).match? = none

section Lists

variable {g : Grammar} {k j : Nat} {input : Array Char}

theorem Reads.row {refs : List Ref} {parts : List (Behaviour input)}
    (reads : List.Forall₂ (fun r part => Reads g k r part) refs parts) (le : j ≤ k)
    {text rest : List Char} {ds : List Datum} (row : g.Row j refs text rest ds)
    {pos : Nat} (stands : input.toList.drop pos = text ++ rest) (collected : List Datum) :
    (Behaviour.items parts collected pos).match? =
      some (.list (collected.reverse ++ ds), pos + text.length) := by
  induction reads generalizing text ds pos collected with
  | nil =>
      cases row
      rw [List.append_nil]
      rfl
  | cons head _ ih =>
      cases row with
      | cons first others =>
          rw [List.append_assoc] at stands
          rw [Behaviour.items, Outcome.match?_andThen, head.takes le first stands, Option.bind_some,
            ih others (drop_behind stands)]
          simp [Nat.add_assoc]

theorem Reads.stops {refs : List Ref} {parts : List (Behaviour input)}
    (reads : List.Forall₂ (fun r part => Reads g k r part) refs parts) (le : j ≤ k)
    {rest : List Char} (stops : g.Stops j refs rest) {pos : Nat}
    (stands : input.toList.drop pos = rest) (collected : List Datum) :
    (Behaviour.items parts collected pos).match? = none := by
  induction reads generalizing rest pos collected with
  | nil => cases stops
  | cons head _ ih =>
      rw [Behaviour.items, Outcome.match?_andThen]
      cases stops with
      | here refuses => rw [head.refuses le refuses stands, Option.bind_none]
      | later first others =>
          rw [head.takes le first stands, Option.bind_some, ih others (drop_behind stands)]

theorem Reads.picks {refs : List Ref} {first : Behaviour input} {parts : List (Behaviour input)}
    (reads : List.Forall₂ (fun r part => Reads g k r part) refs (first :: parts)) (le : j ≤ k)
    {text rest : List Char} {d : Datum} (picks : g.Picks j refs text rest d)
    {pos : Nat} (stands : input.toList.drop pos = text ++ rest) :
    (Behaviour.choose first parts pos).match? = some (d, pos + text.length) := by
  induction parts generalizing refs first with
  | nil =>
      cases reads with
      | cons head tail =>
          cases tail
          cases picks with
          | here takes => exact head.takes le takes stands
          | later _ others => cases others
  | cons next parts ih =>
      cases reads with
      | cons head tail =>
          rw [Behaviour.match?_choose]
          cases picks with
          | here takes => rw [head.takes le takes stands, Option.some_or]
          | later refuses others => rw [head.refuses le refuses stands, Option.none_or, ih tail others]

theorem Reads.choose_refuses {refs : List Ref} {first : Behaviour input}
    {parts : List (Behaviour input)}
    (reads : List.Forall₂ (fun r part => Reads g k r part) refs (first :: parts)) (le : j ≤ k)
    {rest : List Char} (all : ∀ r ∈ refs, g.Refuses j r rest) {pos : Nat}
    (stands : input.toList.drop pos = rest) : (Behaviour.choose first parts pos).match? = none := by
  induction parts generalizing refs first with
  | nil =>
      cases reads with
      | cons head tail => exact head.refuses le (all _ (.head _)) stands
  | cons next parts ih =>
      cases reads with
      | cons head tail =>
          rw [Behaviour.match?_choose, head.refuses le (all _ (.head _)) stands, Option.none_or]
          exact ih tail fun r mem => all r (.tail _ mem)

/-- The rounds of a repetition, if there may be more of them than characters are left. -/
theorem Reads.rounds {r : Ref} {body : Behaviour input} (reads : Reads g k r body) (le : j ≤ k)
    {most pos : Nat} (many : Behaviour.rounds input pos ≤ most) {text rest : List Char}
    {ds : List Datum} (rounds : g.Rounds j r text rest ds)
    (stands : input.toList.drop pos = text ++ rest) (collected : List Datum) :
    (Behaviour.loop body most collected pos).match? =
      some (.list (collected.reverse ++ ds), pos + text.length) := by
  -- The rounds of the loop are counted, not those of the derivation, whose last one may be idle.
  induction most generalizing pos text ds collected with
  | zero => simp [Behaviour.rounds] at many
  | succ most ih =>
      rw [Behaviour.match?_loop]
      cases rounds with
      | none refuses =>
          rw [reads.refuses le refuses stands]
          simp
      | idle takes =>
          rw [reads.takes le takes stands]
          simp
      | @round _ _ first text' _ d ds takes some_ others =>
          rw [List.append_assoc] at stands
          have moved := List.length_pos_iff.mpr some_
          have inside := congrArg List.length stands
          have fewer : Behaviour.rounds input (pos + first.length) ≤ most := by
            simp only [Behaviour.rounds, List.length_drop, Array.length_toList,
              List.length_append] at *
            omega
          rw [reads.takes le takes stands]
          dsimp only
          rw [if_pos (by omega), ih fewer others (drop_behind stands)]
          simp [Nat.add_assoc]

end Lists

section Forms

variable {g : Grammar} {k : Nat} {r : Ref} {input : Array Char}

/-- What is taken and refused by the form. -/
theorem reads_of_form {e : Expression} (form : g.expression r = e) {body : Behaviour input}
    (takes : ∀ {j : Nat} {text rest : List Char} {d : Datum} {pos : Nat}, j ≤ k →
      g.FormTakes j r e text rest d → input.toList.drop pos = text ++ rest →
        (body pos).match? = some (d, pos + text.length))
    (refuses : ∀ {j : Nat} {rest : List Char} {pos : Nat}, j ≤ k → g.FormRefuses j r e rest →
      input.toList.drop pos = rest → (body pos).match? = none) : Reads g k r body where
  takes := by
    rintro j text rest d pos le ⟨form', by_form⟩ stands
    obtain rfl := form.symm.trans form'
    exact takes le by_form stands
  refuses := by
    rintro j rest pos le ⟨form', by_form⟩ stands
    obtain rfl := form.symm.trans form'
    exact refuses le by_form stands

theorem match?_test_takes {t : CharTest} {text rest : List Char} {c : Char} {pos : Nat}
    (accepted : t.Takes text rest c) (stands : input.toList.drop pos = text ++ rest) (label : Nat) :
    ((Behaviour.test ⟨t, label⟩ : Behaviour input) pos).match? =
      some (.char c, pos + text.length) := by
  have accepted : t.accept? (text ++ rest).toArray 0 = some (c, text.length) := accepted
  rw [match?_test _ stands, accepted, Option.map_some]

theorem match?_test_refuses {t : CharTest} {rest : List Char} {pos : Nat} (refused : t.Refuses rest)
    (stands : input.toList.drop pos = rest) (label : Nat) :
    ((Behaviour.test ⟨t, label⟩ : Behaviour input) pos).match? = none := by
  have refused : t.accept? rest.toArray 0 = none := refused
  rw [match?_test _ stands, refused, Option.map_none]

theorem match?_text_takes {anyCase : Bool} {expected text rest : List Char} {value : Datum} {pos : Nat}
    (spells : Text.Spells anyCase text expected) (stands : input.toList.drop pos = text ++ rest)
    (index : Nat) :
    ((Behaviour.literal ⟨expected, anyCase, index⟩ value : Behaviour input) pos).match? =
      some (value, pos + text.length) := by
  have agrees : mismatch? anyCase input pos expected = none :=
    (mismatch?_eq_none_iff stands).mpr ⟨text, rest, rfl, spells⟩
  rw [match?_literal, if_pos agrees, spells.length_eq]

theorem match?_text_refuses {anyCase : Bool} {expected rest : List Char} {value : Datum} {pos : Nat}
    (differs : ∀ text rest', rest = text ++ rest' → ¬ Text.Spells anyCase text expected)
    (stands : input.toList.drop pos = rest) (index : Nat) :
    ((Behaviour.literal ⟨expected, anyCase, index⟩ value : Behaviour input) pos).match? = none := by
  rw [match?_literal, if_neg]
  intro agrees
  obtain ⟨text, rest', split, spells⟩ := (mismatch?_eq_none_iff stands).mp agrees
  exact differs text rest' split spells

theorem reads_finish (form : g.expression r = .finish) :
    Reads g k r (Behaviour.finish : Behaviour input) := by
  apply reads_of_form form
  · intro j text rest d pos _ takes stands
    cases takes
    rw [match?_finish stands]
    rfl
  · intro j rest pos _ refuses stands
    cases refuses
    rw [match?_finish stands]
    rfl

section Parts

variable {refs : List Ref} {parts : List (Behaviour input)}
variable (reads : List.Forall₂ (fun r part => Reads g k r part) refs parts)

include reads in
theorem reads_seq {a b : Ref} (form : g.expression r = .seq a b)
    (items : g.sequenceItems g.size r = refs) : Reads g k r (Behaviour.sequence parts none) := by
  subst items
  apply reads_of_form form
  · intro j text rest d pos le takes stands
    cases takes with
    | seq row => rw [Behaviour.match?_sequence, Reads.row reads le row stands]; rfl
  · intro j rest pos le refuses stands
    cases refuses with
    | seq stops => rw [Behaviour.match?_sequence, Reads.stops reads le stops stands, Option.bind_none]

include reads in
theorem reads_combine {f : Combiner} (form : g.expression r = .combine f refs) :
    Reads g k r (Behaviour.sequence parts (some f)) := by
  have list (ds : List Datum) : (Datum.list ([].reverse ++ ds)).items = ds := rfl
  apply reads_of_form form
  · intro j text rest d pos le takes stands
    cases takes with
    | combine row made =>
        rw [Behaviour.match?_sequence, Reads.row reads le row stands, Option.bind_some]
        simp only [Behaviour.made, list, made, Register.ofResult, Outcome.match?]
  · intro j rest pos le refuses stands
    cases refuses with
    | combine stops =>
        rw [Behaviour.match?_sequence, Reads.stops reads le stops stands, Option.bind_none]
    | combineRejected row made =>
        rw [Behaviour.match?_sequence, Reads.row reads le row stands, Option.bind_some]
        simp only [Behaviour.made, list, made, Register.ofResult, Outcome.match?]

end Parts

section Alternatives

variable {refs : List Ref} {first : Behaviour input} {parts : List (Behaviour input)}
variable (reads : List.Forall₂ (fun r part => Reads g k r part) refs (first :: parts))

include reads in
theorem reads_choice (form : g.expression r = .choice refs) :
    Reads g k r (Behaviour.choice first parts) := by
  apply reads_of_form form
  · intro j text rest d pos le takes stands
    cases takes with
    | choice picks => rw [Behaviour.match?_choice, Reads.picks reads le picks stands]
  · intro j rest pos le refuses stands
    cases refuses with
    | choice all => rw [Behaviour.match?_choice, Reads.choose_refuses reads le all stands]

include reads in
theorem reads_orElse {a b : Ref} (form : g.expression r = .orElse a b) (both : refs = [a, b]) :
    Reads g k r (Behaviour.choice first parts) := by
  subst both
  apply reads_of_form form
  · intro j text rest d pos le takes stands
    cases takes with
    | orElse picks => rw [Behaviour.match?_choice, Reads.picks reads le picks stands]
  · intro j rest pos le refuses stands
    cases refuses with
    | orElse all => rw [Behaviour.match?_choice, Reads.choose_refuses reads le all stands]

end Alternatives

section Pairs

variable {a b : Ref} {first second : Behaviour input}
variable (left : Reads g k a first) (right : Reads g k b second)

include left right in
/-- Where one of two parts refuses, so does everything made of both. -/
theorem Reads.pair_stops {j : Nat} {rest : List Char} {pos : Nat} (le : j ≤ k)
    (stops : g.Stops j [a, b] rest) (stands : input.toList.drop pos = rest) {β : Type}
    (next : Datum × Nat → Datum × Nat → Option β) :
    ((first pos).match?.bind fun m => (second m.2).match?.bind (next m)) = none := by
  cases stops with
  | here refuses => rw [left.refuses le refuses stands, Option.bind_none]
  | later takes others =>
      rw [left.takes le takes stands, Option.bind_some]
      cases others with
      | here refuses => rw [right.refuses le refuses (drop_behind stands), Option.bind_none]
      | later _ others => cases others

include left right in
theorem reads_keepLeft (form : g.expression r = .keepLeft a b) :
    Reads g k r (Behaviour.keepLeft first second) := by
  apply reads_of_form form
  · intro j text rest d pos le takes stands
    cases takes with
    | keepLeft takes takes' =>
        rw [List.append_assoc] at stands
        rw [Behaviour.match?_keepLeft, left.takes le takes stands, Option.bind_some,
          right.takes le takes' (drop_behind stands)]
        simp [Nat.add_assoc]
  · intro j rest pos le refuses stands
    cases refuses with
    | keepLeft stops =>
        rw [Behaviour.match?_keepLeft]
        exact left.pair_stops right le stops stands fun m m' => some (m.1, m'.2)

include left right in
theorem reads_keepRight (form : g.expression r = .keepRight a b) :
    Reads g k r (Behaviour.keepRight first second) := by
  apply reads_of_form form
  · intro j text rest d pos le takes stands
    cases takes with
    | keepRight takes takes' =>
        rw [List.append_assoc] at stands
        rw [Behaviour.match?_keepRight, left.takes le takes stands, Option.bind_some,
          right.takes le takes' (drop_behind stands)]
        simp [Nat.add_assoc]
  · intro j rest pos le refuses stands
    cases refuses with
    | keepRight stops =>
        simpa using left.pair_stops right le stops stands fun _ m' => some m'

include left right in
theorem reads_followedBy (form : g.expression r = .followedBy a b) :
    Reads g k r (Behaviour.provided first second Behaviour.demand) := by
  apply reads_of_form form
  · intro j text rest d pos le takes stands
    cases takes with
    | followedBy takes takes' =>
        rw [Behaviour.match?_followedBy, left.takes le takes stands, Option.bind_some,
          right.takes le takes' (drop_behind stands), Option.bind_some]
  · intro j rest pos le refuses stands
    cases refuses with
    | followedBy stops =>
        rw [Behaviour.match?_followedBy]
        exact left.pair_stops right le stops stands fun m _ => some m

include left right in
theorem reads_notFollowedBy (form : g.expression r = .notFollowedBy a b) (label : Nat) :
    Reads g k r (Behaviour.provided first second (Behaviour.forbid input label)) := by
  apply reads_of_form form
  · intro j text rest d pos le takes stands
    cases takes with
    | notFollowedBy takes refuses =>
        rw [Behaviour.match?_notFollowedBy, left.takes le takes stands, Option.bind_some,
          right.refuses le refuses (drop_behind stands)]
        rfl
  · intro j rest pos le refuses stands
    rw [Behaviour.match?_notFollowedBy]
    cases refuses with
    | notFollowedBy refuses => rw [left.refuses le refuses stands, Option.bind_none]
    | followed takes takes' =>
        rw [left.takes le takes stands, Option.bind_some, right.takes le takes' (drop_behind stands)]
        rfl

end Pairs

section Single

variable {inner : Ref} {body : Behaviour input} (reads : Reads g k inner body)

include reads in
theorem reads_optional {fallback : Datum} (form : g.expression r = .optional inner fallback) :
    Reads g k r (Behaviour.optional body fallback) := by
  apply reads_of_form form
  · intro j text rest d pos le takes stands
    rw [Behaviour.match?_optional]
    cases takes with
    | present takes => rw [reads.takes le takes stands, Option.some_or]
    | absent refuses =>
        rw [List.nil_append] at stands
        rw [reads.refuses le refuses stands, Option.none_or, List.length_nil, Nat.add_zero]
  · intro j rest pos _ refuses
    cases refuses

include reads in
theorem reads_many {least : Nat} (form : g.expression r = .many inner least) (label : Nat) :
    Reads g k r (Behaviour.many body ⟨least, label⟩) := by
  have list (ds : List Datum) : (Datum.list ([].reverse ++ ds)).items = ds := rfl
  apply reads_of_form form
  · intro j text rest d pos le takes stands
    cases takes with
    | many rounds enough =>
        rw [Behaviour.match?_many, reads.rounds le (Nat.le_refl _) rounds stands, Option.bind_some,
          list, if_pos enough]
        rfl
  · intro j rest pos le refuses stands
    cases refuses with
    | many rounds few =>
        rw [Behaviour.match?_many, reads.rounds le (Nat.le_refl _) rounds stands, Option.bind_some,
          list, if_neg (Nat.not_le.mpr few)]

include reads in
theorem reads_transform {f : Transform} (form : g.expression r = .transform f inner) :
    Reads g k r (Behaviour.transform f body) := by
  apply reads_of_form form
  · intro j text rest d pos le takes stands
    cases takes with
    | transform takes accepts =>
        rw [Behaviour.match?_transform, reads.takes le takes stands, Option.bind_some, accepts]
        rfl
  · intro j rest pos le refuses stands
    rw [Behaviour.match?_transform]
    cases refuses with
    | transform refuses => rw [reads.refuses le refuses stands, Option.bind_none]
    | transformRejected takes rejects =>
        rw [reads.takes le takes stands, Option.bind_some, rejects]
        rfl

include reads in
theorem reads_idiom {kind : Idiom} (form : g.expression r = .idiom kind inner) : Reads g k r body := by
  apply reads_of_form form
  · intro j text rest d pos le takes stands
    cases takes with
    | idiom takes => exact reads.takes le takes stands
  · intro j rest pos le refuses stands
    cases refuses with
    | idiom refuses => exact reads.refuses le refuses stands

include reads in
/-- The target in place of the forward reference, which costs no call. -/
theorem reads_inlined (form : g.expression r = .forward (some inner)) : Reads g k r body := by
  apply reads_of_form form
  · intro j text rest d pos le takes stands
    cases takes with
    | forward takes => exact reads.takes (by omega) takes stands
  · intro j rest pos le refuses stands
    cases refuses with
    | forward refuses => exact reads.refuses (by omega) refuses stands

include reads in
/-- A call of the target takes one more. -/
theorem reads_called (form : g.expression r = .forward (some inner)) (label : Nat) :
    Reads g (k + 1) r (Behaviour.called label body) := by
  apply reads_of_form form
  · intro j text rest d pos le takes stands
    rw [Behaviour.match?_called]
    cases takes with
    | forward takes => exact reads.takes (by omega) takes stands
  · intro j rest pos le refuses stands
    rw [Behaviour.match?_called]
    cases refuses with
    | forward refuses => exact reads.refuses (by omega) refuses stands

end Single

theorem reads_refused {target : Ref} (form : g.expression r = .forward (some target)) (label : Nat) :
    Reads g 0 r (Behaviour.refused label : Behaviour input) := by
  apply reads_of_form form
  · intro j text rest d pos le takes _
    cases takes
    cases le
  · intro j rest pos _ _ _
    rfl

end Forms

/-! ## Codes -/

section Codes

variable {g : Grammar} {k : Nat} {input : Array Char}

/-- The code of a form reads what the form says, if the codes of the parts do. -/
theorem reads_of_assembled {env : Surroundings input} {r : Ref} {c : Code}
    (assembled : g.Assembled (fun r c => Reads g k r (c input env)) r (g.expression r) c) :
    Reads g k r (c input env) := by
  generalize form : g.expression r = e at assembled
  cases assembled with
  | char | oneOf | escaped | test =>
      apply reads_of_form form
      · intro j text rest d pos _ takes stands
        cases takes
        rename_i accepted
        exact match?_test_takes accepted stands _
      · intro j rest pos _ refuses stands
        cases refuses
        rename_i accepted
        exact match?_test_refuses accepted stands _
  | scan =>
      apply reads_of_form form
      · intro j text rest d pos _ takes
        cases takes
      · intro j rest pos _ refuses
        cases refuses
  | literal | keyword =>
      apply reads_of_form form
      · intro j text rest d pos _ takes stands
        cases takes
        rename_i spells
        exact match?_text_takes spells stands _
      · intro j rest pos _ refuses stands
        cases refuses
        rename_i differs
        exact match?_text_refuses differs stands _
  | finish => exact reads_finish form
  | seq items => exact reads_seq (List.forall₂_map_right_iff.mpr items) form rfl
  | orElse parts => exact reads_orElse (List.forall₂_map_right_iff.mpr parts) form rfl
  | choice parts => exact reads_choice (List.forall₂_map_right_iff.mpr parts) form
  | keepLeft left right => exact reads_keepLeft left right form
  | keepRight left right => exact reads_keepRight left right form
  | followedBy left right => exact reads_followedBy left right form
  | notFollowedBy left right => exact reads_notFollowedBy left right form _
  | combine parts => exact reads_combine (List.forall₂_map_right_iff.mpr parts) form
  | optional inner => exact reads_optional inner form
  | many inner => exact reads_many inner form _
  | transform inner => exact reads_transform inner form
  | idiom inner => exact reads_idiom inner form

/-- What a subroutine has to do: read what the target of its forward reference does. -/
def RoutineReads (g : Grammar) (k : Nat) (r : Ref) {input : Array Char} (body : Behaviour input) :
    Prop :=
  ∃ target, g.expression r = .forward (some target) ∧ Reads g k target body

open Unfold in
/-- The code of an expression reads what the expression does, and so do the codes of the
subroutines, if calls do. -/
theorem unfold_reads {env : Surroundings input} {traced : Bool} {final : List Ref}
    (calls : ∀ i r, final[i]? = some r → Reads g k r (env.call i)) (height : Nat) (r : Ref) :
    Upholds (fun r c => RoutineReads g k r (c input env)) [] final (g.unfold traced height r)
      (fun c => Reads g k r (c input env)) := by
  apply Grammar.unfold_upholds fun r c => Reads g k r (c input env)
  · intro r c assembled
    exact reads_of_assembled assembled
  · intro i r known _
    exact calls i r known
  · intro r t c form _ _ reads
    exact ⟨reads_inlined reads form, t, form, reads⟩
  · intro r name c _ _ reads
    exact ⟨reads.takes, reads.refuses⟩
  · intro r c _ reads
    exact reads

/-- Calls read what their forward references do with as many calls as may be nested. -/
theorem calls_read {b : Bytecode} {traced : Bool} {height : Nat} {root : Ref} {c : Code}
    {v : Unfolding} (unfolds : g.unfold traced height root {} = some (c, v)) (depth i : Nat) (r : Ref)
    (known : v.met[i]? = some r) :
    Reads g depth r ((b.surroundings v.bodies depth input).call i) := by
  -- With no calls left forward references take nothing, and a refused call finds nothing.
  -- A refused call reads what takes no calls at all: nothing.
  induction depth generalizing i r with
  | zero =>
      have covers := (g.unfold_covers traced v.met height root (List.nil_subset _) unfolds (List.prefix_refl _)).2
      obtain ⟨t, aimed, -⟩ := covers i r (Nat.zero_le _) known
      exact reads_refused aimed _
  | succ depth ih =>
      have routines := (unfold_reads ih height root (List.nil_subset _) unfolds (List.prefix_refl _)).2
      obtain ⟨t, aimed, reads⟩ := routines i r (Nat.zero_le _) known
      exact reads_called reads aimed _

/-- The code of an expression reads what the expression does. -/
theorem code_reads {traced : Bool} {height : Nat} {root : Ref} {c : Code} {v : Unfolding}
    (unfolds : g.unfold traced height root {} = some (c, v)) (b : Bytecode) (depth : Nat) :
    Reads g depth root (c input (b.surroundings v.bodies depth input)) :=
  (unfold_reads (calls_read unfolds depth) height root (List.nil_subset _) unfolds (List.prefix_refl _)).1

/-- A parse matches what its outcome does. -/
theorem parses_iff_match? {b : Bytecode} {pos : Nat} {o : Outcome} (ends : b.Ends input pos o)
    {m : Match} : b.Parses input pos (.ok m) ↔ o.match? = some (m.value, m.stop) := by
  rw [Outcome.match?_eq_some]
  constructor
  · rintro ⟨o', ends', verdict⟩
    obtain rfl := Bytecode.ends_unique ends' ends
    exact Grammar.verdict_eq_ok.mp verdict.symm
  · intro matched
    exact ⟨o, ends, (Grammar.verdict_eq_ok.mpr matched).symm⟩

/-- What an expression takes is what a parse finds, provided that as many calls may be nested and
the expression is regular if it was condensed. -/
theorem parses_of_takes {options : Grammar.CompileOptions} {root : Ref} {lowered : Grammar.Lowered}
    (compiled : g.compile options root = .ok lowered)
    (regular : options.condense = true → g.Regular root) (few : k ≤ callLimit)
    {text rest : List Char} {d : Datum} (takes : g.Takes k root text rest d) {pos : Nat}
    (stands : input.toList.drop pos = text ++ rest) :
    lowered.bytecode.Parses input pos (.ok ⟨d, pos + text.length⟩) := by
  obtain ⟨c, v, unfolds, ends⟩ := Grammar.ends_like_code compiled regular
  obtain ⟨o, ended, alike⟩ := ends callLimit input pos
  have reads : Reads g callLimit root (c input _) := code_reads unfolds lowered.bytecode callLimit
  rw [parses_iff_match? ended, ← Outcome.match?_congr alike.1]
  exact reads.takes few takes stands

/-- Where an expression refuses what is left of the input, a parse fails. -/
theorem fails_of_refuses {options : Grammar.CompileOptions} {root : Ref} {lowered : Grammar.Lowered}
    (compiled : g.compile options root = .ok lowered)
    (regular : options.condense = true → g.Regular root) (few : k ≤ callLimit) {pos : Nat}
    (refuses : g.Refuses k root (input.toList.drop pos)) :
    ∃ f, lowered.bytecode.Parses input pos (.error f) := by
  obtain ⟨c, v, unfolds, ends⟩ := Grammar.ends_like_code compiled regular
  obtain ⟨o, ended, alike⟩ := ends callLimit input pos
  have reads : Reads g callLimit root (c input _) := code_reads unfolds lowered.bytecode callLimit
  have missed : o.match? = none := (Outcome.match?_congr alike.1).symm.trans (reads.refuses few refuses rfl)
  cases done : o.register with
  | ok d => nomatch (Outcome.match?_ok done).symm.trans missed
  | error e => exact ⟨_, o, ended, (Outcome.verdict_eq_error.mpr ⟨e, done, rfl⟩).symm⟩

end Codes

end PegMachine
