/-
# PegMachine.Proofs.Meaning.Matches — what a behaviour matches

Of an outcome only the datum and the end of a match are kept here (`Outcome.match?`); what a
failure is about and what was reported is left out. For each operator there is one equation
that says what it matches by what its parts match, and the operators that read the input are
described by the text in front of them, so that nothing refers to positions in the input.
-/
import PegMachine.Proofs.Meaning.Settles
import PegMachine.Proofs.Meaning.Takes

namespace PegMachine

set_option autoImplicit false

/-! ## Outcomes -/

open Machine

namespace Machine

/-- The datum and the end of a match. -/
def Outcome.match? (o : Outcome) : Option (Datum × Nat) :=
  match o.register with
  | .ok d => some (d, o.cursor)
  | .error _ => none

namespace Outcome

theorem match?_ok {o : Outcome} {d : Datum} (done : o.register = .ok d) :
    o.match? = some (d, o.cursor) := by
  rw [match?, done]

theorem match?_error {o : Outcome} {e : Diagnostic} (failed : o.register = .error e) :
    o.match? = none := by
  rw [match?, failed]

@[simp] theorem match?_after (o : Outcome) (earlier : List Event) :
    (o.after earlier).match? = o.match? := rfl

@[simp] theorem match?_orBack (o : Outcome) (pos : Nat) : (o.orBack pos).match? = o.match? := by
  cases done : o.register with
  | ok d => rw [orBack_ok done]
  | error e => rw [orBack_error done, match?_error done, match?_error (by exact done)]

@[simp] theorem match?_andThen (o : Outcome) (next : Datum → Nat → Outcome) :
    (o.andThen next).match? = o.match?.bind fun m => (next m.1 m.2).match? := by
  cases done : o.register with
  | ok d => rw [andThen_ok done, match?_ok done, match?_after, Option.bind_some]
  | error e => rw [andThen_error done, match?_error done, Option.bind_none]

theorem match?_eq_some {o : Outcome} {d : Datum} {stop : Nat} :
    o.match? = some (d, stop) ↔ o.result = .matched d stop := by
  cases done : o.register with
  | ok d => simp [match?_ok done, result_ok done]
  | error e => simp [match?_error done, result_error done]

/-- Outcomes with the same result match the same. -/
theorem match?_congr {o o' : Outcome} (same : o.result = o'.result) : o.match? = o'.match? := by
  apply Option.ext
  rintro ⟨d, stop⟩
  rw [match?_eq_some, match?_eq_some, same]

end Outcome

namespace Behaviour

variable {input : Array Char}

@[simp] theorem match?_sequence (parts : List (Behaviour input)) (f : Option Combiner) (pos : Nat) :
    (sequence parts f pos).match? =
      (items parts [] pos).match?.bind fun m => (made f m.1 m.2).match? := by
  simp only [sequence, Outcome.match?_orBack, Outcome.match?_andThen]

@[simp] theorem match?_keepLeft (first second : Behaviour input) (pos : Nat) :
    (keepLeft first second pos).match? =
      (first pos).match?.bind fun m => (second m.2).match?.bind fun m' => some (m.1, m'.2) := by
  simp only [keepLeft, Outcome.match?_orBack, Outcome.match?_andThen]
  rfl

@[simp] theorem match?_keepRight (first second : Behaviour input) (pos : Nat) :
    (keepRight first second pos).match? = (first pos).match?.bind fun m => (second m.2).match? := by
  simp only [keepRight, Outcome.match?_orBack, Outcome.match?_andThen]

@[simp] theorem match?_followedBy (first second : Behaviour input) (pos : Nat) :
    ((provided first second demand) pos).match? =
      (first pos).match?.bind fun m => (second m.2).match?.bind fun _ => some m := by
  simp only [provided, Outcome.match?_orBack, Outcome.match?_andThen]
  congr 1
  funext m
  cases done : (second m.2).register with
  | ok d => rw [Outcome.match?_ok done]; rfl
  | error e => rw [Outcome.match?_error done]; rfl

@[simp] theorem match?_notFollowedBy (first second : Behaviour input) (label pos : Nat) :
    ((provided first second (forbid input label)) pos).match? =
      (first pos).match?.bind fun m => if (second m.2).match?.isSome then none else some m := by
  simp only [provided, Outcome.match?_orBack, Outcome.match?_andThen]
  congr 1
  funext m
  cases done : (second m.2).register with
  | ok d => rw [Outcome.match?_ok done]; rfl
  | error e => rw [Outcome.match?_error done]; rfl

@[simp] theorem match?_choice (first : Behaviour input) (rest : List (Behaviour input)) (pos : Nat) :
    (choice first rest pos).match? = (choose first rest pos).match? :=
  Outcome.match?_orBack _ pos

/-- Trying an alternative comes before trying the others. -/
theorem match?_choose (first next : Behaviour input) (rest : List (Behaviour input)) (pos : Nat) :
    (choose first (next :: rest) pos).match? =
      (first pos).match?.or (choose next rest pos).match? := by
  rw [choose]
  cases done : (first pos).register with
  | ok d => rw [Outcome.match?_ok done, Option.some_or]
  | error e => rw [Outcome.match?_error done, Option.none_or, Outcome.match?_after]

@[simp] theorem match?_optional (body : Behaviour input) (fallback : Datum) (pos : Nat) :
    (optional body fallback pos).match? = (body pos).match?.or (some (fallback, pos)) := by
  simp only [optional]
  cases done : (body pos).register with
  | ok d => simp only [Outcome.match?_ok done, Option.some_or]
  | error e => rw [Outcome.match?_error done]; rfl

/-- A round that consumes nothing is the last. -/
theorem match?_loop (body : Behaviour input) (most : Nat) (collected : List Datum) (pos : Nat) :
    (loop body (most + 1) collected pos).match? =
      match (body pos).match? with
      | none => some (.list collected.reverse, pos)
      | some (d, stop) =>
        if pos < stop then (loop body most (d :: collected) stop).match?
        else some (.list (d :: collected).reverse, stop) := by
  rw [loop]
  cases done : (body pos).register with
  | error e => rw [Outcome.match?_error done]; rfl
  | ok d =>
      rw [Outcome.match?_ok done]
      dsimp only
      split <;> rfl

@[simp] theorem match?_many (body : Behaviour input) (arity : Arity) (pos : Nat) :
    (many body arity pos).match? = (loop body (rounds input pos) [] pos).match?.bind fun m =>
      if arity.least ≤ m.1.items.length then some m else none := by
  simp only [many, Outcome.match?_andThen]
  congr 1
  funext m
  rw [enough]
  split <;> rfl

@[simp] theorem match?_transform (f : Transform) (body : Behaviour input) (pos : Nat) :
    (transform f body pos).match? =
      (body pos).match?.bind fun m => (f m.1).toOption.map (·, m.2) := by
  simp only [transform, Outcome.match?_orBack, Outcome.match?_andThen]
  congr 1
  funext m
  cases f m.1 <;> rfl

@[simp] theorem match?_called (label : Nat) (body : Behaviour input) (pos : Nat) :
    (called label body pos).match? = (body pos).match? := Outcome.match?_orBack (body pos) pos

end Behaviour

end Machine

/-! ## Reading the input -/

section Reading

variable {input : Array Char} {pos : Nat}

/-- Behind a text stands what follows it. -/
theorem drop_behind {text rest : List Char} (stands : input.toList.drop pos = text ++ rest) :
    input.toList.drop (pos + text.length) = rest := by
  rw [← List.drop_drop, stands, List.drop_left]

theorem getElem?_of_drop {rest : List Char} (stands : input.toList.drop pos = rest) (i : Nat) :
    input[pos + i]? = rest[i]? := by
  rw [← stands, List.getElem?_drop, Array.getElem?_toList]

/-- A test looks at nothing but the text in front of it. -/
theorem accept?_of_drop (t : CharTest) {rest : List Char} (stands : input.toList.drop pos = rest) :
    t.accept? input pos = t.accept? rest.toArray 0 := by
  have here := getElem?_of_drop stands 0
  have next := getElem?_of_drop stands 1
  rw [Nat.add_zero] at here
  simp only [CharTest.accept?, CharTest.escapeAt?, CharTest.plainAt?, here, next,
    List.getElem?_toArray]

theorem match?_test (entry : TestEntry) {rest : List Char} (stands : input.toList.drop pos = rest) :
    ((Behaviour.test entry : Behaviour input) pos).match? =
      (entry.test.accept? rest.toArray 0).map fun found => (.char found.1, pos + found.2) := by
  rw [← accept?_of_drop entry.test stands]
  simp only [Behaviour.test, readTest, Outcome.match?]
  cases entry.test.accept? input pos <;> rfl

/-- A text differs nowhere from an expected one if and only if it spells it. -/
theorem mismatch?_eq_none_iff {anyCase : Bool} {expected rest : List Char}
    (stands : input.toList.drop pos = rest) :
    mismatch? anyCase input pos expected = none ↔
      ∃ text rest', rest = text ++ rest' ∧ Text.Spells anyCase text expected := by
  induction expected generalizing pos rest with
  | nil => exact iff_of_true rfl ⟨[], rest, rfl, .nil⟩
  | cons first others ih =>
      have here := getElem?_of_drop stands 0
      rw [Nat.add_zero] at here
      rw [mismatch?, here]
      cases rest with
      | nil =>
          refine iff_of_false (by rintro ⟨⟩) ?_
          rintro ⟨text, rest', split, spells⟩
          obtain ⟨rfl, -⟩ := List.append_eq_nil_iff.mp split.symm
          cases spells
      | cons found rest =>
          have behind : input.toList.drop (pos + 1) = rest := @drop_behind _ _ [found] rest stands
          simp only [List.getElem?_cons_zero]
          by_cases agree : Text.agrees anyCase found first = true
          · rw [if_pos agree, ih behind]
            constructor
            · rintro ⟨text, rest', rfl, spells⟩
              exact ⟨found :: text, rest', rfl, .cons agree spells⟩
            · rintro ⟨text, rest', split, spells⟩
              cases spells with
              | cons _ others =>
                  obtain ⟨rfl, rfl⟩ := List.cons.inj split
                  exact ⟨_, rest', rfl, others⟩
          · rw [if_neg agree]
            refine iff_of_false (by rintro ⟨⟩) ?_
            rintro ⟨text, rest', split, spells⟩
            cases spells with
            | cons agrees _ =>
                obtain ⟨rfl, rfl⟩ := List.cons.inj split
                exact agree agrees

theorem match?_literal {anyCase : Bool} {expected : List Char} {value : Datum} (index : Nat) :
    ((Behaviour.literal ⟨expected, anyCase, index⟩ value : Behaviour input) pos).match? =
      if mismatch? anyCase input pos expected = none then some (value, pos + expected.length)
      else none := by
  cases mismatch : mismatch? anyCase input pos expected <;>
    simp [Behaviour.literal, readLiteral, mismatch, Outcome.match?]

theorem match?_finish {rest : List Char} (stands : input.toList.drop pos = rest) :
    ((Behaviour.finish : Behaviour input) pos).match? =
      if rest = [] then some (.null, pos) else none := by
  have here := getElem?_of_drop stands 0
  rw [Nat.add_zero] at here
  cases rest <;> simp [Behaviour.finish, readEnd, Outcome.match?, here]

end Reading

end PegMachine
