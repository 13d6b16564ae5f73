/-
# PegMachine.Chars.CharTest — a test on one, possibly escaped, character

A character test accepts a plain character of one class, or a backslash together
with a character of a second class, which it yields without the backslash. The
escape goes first: where both readings are possible the longer one is taken.

Tests are closed under union, which is what lets a choice between tests become a
single test. Trying one test and then another is the same as trying their union
unless the first accepts a bare backslash and the second has escapes
(`mergeable`): there the first would take the backslash alone, the union the
pair.
-/
import PegMachine.Chars.CharClass

namespace PegMachine

set_option autoImplicit false

/-- A class of plain characters and a class of characters behind a backslash. -/
structure CharTest where
  chars : CharClass
  escapes : CharClass
  deriving DecidableEq, Inhabited

namespace CharTest

/-- Plain characters only. -/
def plain (chars : CharClass) : CharTest := ⟨chars, .empty⟩

/-- Escaped characters only. -/
def escaped (escapes : CharClass) : CharTest := ⟨.empty, escapes⟩

/-- What either test accepts. -/
def union (s t : CharTest) : CharTest := ⟨s.chars.union t.chars, s.escapes.union t.escapes⟩

/-- Whether trying `first` and then `later` may be replaced by trying their union. -/
def mergeable (first later : CharTest) : Bool :=
  !(first.chars.contains '\\' && !later.escapes.isEmpty)

/-- The character behind a backslash at `pos`, if the test accepts it there. -/
def escapeAt? (t : CharTest) (input : Array Char) (pos : Nat) : Option Char :=
  match input[pos]?, input[pos + 1]? with
  | some '\\', some c => if t.escapes.contains c then some c else none
  | _, _ => none

/-- The plain character at `pos`, if the test accepts it there. -/
def plainAt? (t : CharTest) (input : Array Char) (pos : Nat) : Option Char :=
  match input[pos]? with
  | some c => if t.chars.contains c then some c else none
  | none => none

/-- The character accepted at `pos` and how many characters of the input it takes. -/
def accept? (t : CharTest) (input : Array Char) (pos : Nat) : Option (Char × Nat) :=
  match t.escapeAt? input pos with
  | some c => some (c, 2)
  | none => (t.plainAt? input pos).map (·, 1)

/-- A plain test accepts a character of its class. -/
theorem accept?_plain (chars : CharClass) (input : Array Char) (pos : Nat) :
    (plain chars).accept? input pos = ((plain chars).plainAt? input pos).map (·, 1) := by
  have nothing : (plain chars).escapeAt? input pos = none := by
    simp only [escapeAt?]
    split
    · rename_i c _ _
      simp [plain, CharClass.contains_of_isEmpty (s := .empty) rfl c]
    · rfl
  rw [accept?, nothing]

/-- An escaped test accepts a character behind a backslash. -/
theorem accept?_escaped (escapes : CharClass) (input : Array Char) (pos : Nat) :
    (escaped escapes).accept? input pos = ((escaped escapes).escapeAt? input pos).map (·, 2) := by
  have nothing : (escaped escapes).plainAt? input pos = none := by
    simp only [plainAt?]
    split
    · rename_i c _
      simp [escaped, CharClass.contains_of_isEmpty (s := .empty) rfl c]
    · rfl
  rw [accept?, nothing]
  cases (escaped escapes).escapeAt? input pos <;> rfl

/-- Whatever is accepted stands in the input. -/
theorem accept?_within {t : CharTest} {input : Array Char} {pos : Nat} {c : Char} {width : Nat}
    (accepted : t.accept? input pos = some (c, width)) :
    0 < width ∧ pos + width ≤ input.size := by
  simp only [accept?, escapeAt?, plainAt?] at accepted
  grind

/-- Trying two tests in order is trying their union, if they are mergeable. -/
theorem accept?_union {first later : CharTest} (merge : first.mergeable later = true)
    (input : Array Char) (pos : Nat) :
    (first.union later).accept? input pos =
      (first.accept? input pos).or (later.accept? input pos) := by
  have safe : first.chars.contains '\\' = true → ∀ c, later.escapes.contains c = false := by
    intro bare c
    simp only [mergeable, bare, Bool.true_and, Bool.not_not] at merge
    exact CharClass.contains_of_isEmpty merge c
  simp only [accept?, escapeAt?, plainAt?, union, CharClass.contains_union]
  cases here : input[pos]? with
  | none => rfl
  | some c =>
      cases plain : first.chars.contains c <;> cases plain' : later.chars.contains c <;>
        by_cases backslash : c = '\\' <;> try simp [plain, plain', backslash]
      all_goals
        subst backslash
        cases input[pos + 1]? with
        | none => simp [plain, plain']
        | some d =>
            cases escape : first.escapes.contains d <;> cases escape' : later.escapes.contains d <;>
              simp_all

end CharTest

end PegMachine
