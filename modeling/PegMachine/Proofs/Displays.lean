/-
# PegMachine.Proofs.Displays — different data are written differently

What is written for a datum without doubles can be read in one way only, whatever follows:
if two such data, each in front of a text that may stand behind a datum (`Ends`), are the
same text as a whole, then the data are the same and so is what follows
(`DoubleFree.unique`). So no two of them have one display (`display_injective`).

The first character tells what kind of datum is written (`kindOf_write`). Within quotes every
character is spelled in one of three ways (`Spelled`), of which none begins like another and
none begins with the enclosing quote, so that a text ends at the first quote that is not part
of a spelling; which characters are plain makes no difference. The digits of a number go on as
long as there are any, and neither a comma nor a closing bracket is a digit.
-/
import Mathlib.Tactic.SplitIfs
import PegMachine.Datum.Printer

namespace PegMachine

set_option autoImplicit false

/-! ## Quoted characters and texts -/

namespace Text

section Spelling

variable {plain : Char → Bool} {mark c d : Char} {s t rest rest' : List Char}

/-- Characters of a kind in front of one that is not are cut off in one way. -/
theorem append_unique {p : Char → Bool} (all : ∀ c ∈ s, p c = true) (all' : ∀ c ∈ t, p c = true)
    (stops : ∀ c ∈ rest.head?, p c = false) (stops' : ∀ c ∈ rest'.head?, p c = false)
    (same : s ++ rest = t ++ rest') : s = t ∧ rest = rest' := by
  have nothing {rest : List Char} (stops : ∀ c ∈ rest.head?, p c = false) : rest.takeWhile p = [] := by
    cases rest with
    | nil => rfl
    | cons c rest => exact List.takeWhile_cons_of_neg (by simp [stops c rfl])
  have taken := congrArg (List.takeWhile p) same
  rw [List.takeWhile_append_of_pos all, List.takeWhile_append_of_pos all', nothing stops,
    nothing stops', List.append_nil, List.append_nil] at taken
  subst taken
  exact ⟨rfl, List.append_cancel_left same⟩

/-- Every digit of a number is the character of one. -/
theorem mem_hex {n : Nat} (mem : c ∈ hex n) : ∃ d < 16, c = Nat.digitChar d := by
  induction n using Nat.strongRecOn with
  | ind n ih =>
      rw [hex, Nat.toDigits_eq_if (by decide)] at mem
      split at mem
      · rename_i small
        exact ⟨n, small, List.mem_singleton.mp mem⟩
      · rename_i large
        rcases List.mem_append.mp mem with mem | mem
        · exact ih (n / 16) (by omega) mem
        · exact ⟨n % 16, Nat.mod_lt _ (by decide), List.mem_singleton.mp mem⟩

theorem brace_not_mem_hex (n : Nat) : ∀ c ∈ hex n, (c != '}') = true := by
  intro c mem
  obtain ⟨d, small, rfl⟩ := mem_hex mem
  have every : ∀ d < 16, (Nat.digitChar d != '}') = true := by decide
  exact every d small

/-- A number is determined by its digits. -/
theorem hex_injective {m n : Nat} (same : hex m = hex n) : m = n := by
  have digit : ∀ d < 16, ∀ e < 16, Nat.digitChar d = Nat.digitChar e → d = e := by decide
  induction m using Nat.strongRecOn generalizing n with
  | ind m ih =>
      rw [hex, hex, Nat.toDigits_eq_if (by decide), Nat.toDigits_eq_if (b := 16) (n := n) (by decide)] at same
      by_cases small : m < 16 <;> by_cases small' : n < 16
      · rw [if_pos small, if_pos small'] at same
        exact digit m small n small' (List.singleton_inj.mp same)
      · rw [if_pos small, if_neg small'] at same
        exact absurd (List.append_inj' (show [] ++ [_] = _ ++ [_] from same) rfl).1 Nat.toDigits_ne_nil.symm
      · rw [if_neg small, if_pos small'] at same
        exact absurd (List.append_inj' (show _ ++ [_] = [] ++ [_] from same) rfl).1 Nat.toDigits_ne_nil
      · rw [if_neg small, if_neg small'] at same
        obtain ⟨front, last⟩ := List.append_inj' same rfl
        have quotient := ih (m / 16) (by omega) front
        have remainder := digit (m % 16) (Nat.mod_lt _ (by decide)) (n % 16) (Nat.mod_lt _ (by decide))
          (List.singleton_inj.mp last)
        omega

/-- The characters that are spelled by a letter or a sign behind a backslash, between two copies of
`mark`. -/
def shortSpellings (mark : Char) : List (Char × Char) :=
  [('\x00', '0'), ('\t', 't'), ('\r', 'r'), ('\n', 'n'), ('\\', '\\'), (mark, mark)]

/-- The ways to spell a character between two copies of `mark`. -/
inductive Spelled (mark : Char) : Char → List Char → Prop
  | short {c e : Char} (pair : (c, e) ∈ shortSpellings mark) : Spelled mark c ['\\', e]
  | long (c : Char) : Spelled mark c (codePointEscape c)
  | itself {c : Char} (noSlash : c ≠ '\\') (noMark : c ≠ mark) : Spelled mark c [c]

theorem spelled_quoteChar (plain : Char → Bool) (mark c : Char) :
    Spelled mark c (quoteChar plain mark c) := by
  rw [quoteChar]
  split_ifs with nul tab back newline slash own shown
  · exact .short (by simp [shortSpellings, nul])
  · exact .short (by simp [shortSpellings, tab])
  · exact .short (by simp [shortSpellings, back])
  · exact .short (by simp [shortSpellings, newline])
  · exact .short (by simp [shortSpellings, slash])
  · exact .short (by simp [shortSpellings, own])
  · exact .itself slash own
  · exact .long c

/-- No two characters are spelled alike, and no spelling is the beginning of another. -/
theorem Spelled.unique (isMark : mark = '"' ∨ mark = '\'') (spelled : Spelled mark c s)
    (spelled' : Spelled mark d t) (same : s ++ rest = t ++ rest') : c = d ∧ rest = rest' := by
  have single : ∀ p ∈ shortSpellings mark, ∀ q ∈ shortSpellings mark, p.2 = q.2 → p = q := by
    rcases isMark with rfl | rfl <;> decide
  have other : ∀ p ∈ shortSpellings mark, p.2 ≠ 'u' := by
    rcases isMark with rfl | rfl <;> decide
  cases spelled with
  | @short e pair =>
      cases spelled' with
      | @short e' pair' =>
          obtain ⟨letter, rest⟩ : e = e' ∧ rest = rest' := by simpa using same
          exact ⟨congrArg Prod.fst (single _ pair _ pair' letter), rest⟩
      | long => exact absurd (List.cons.inj (List.cons.inj same).2).1 (other _ pair)
      | itself noSlash => exact absurd (List.cons.inj same).1.symm noSlash
  | long =>
      cases spelled' with
      | short pair' => exact absurd (List.cons.inj (List.cons.inj same).2).1.symm (other _ pair')
      | long =>
          simp only [codePointEscape, List.append_assoc, List.cons_append, List.nil_append,
            List.cons.injEq, true_and] at same
          obtain ⟨digits, rest⟩ := append_unique (brace_not_mem_hex _) (brace_not_mem_hex _)
            (by simp) (by simp) same
          exact ⟨Char.toNat_inj.mp (hex_injective digits), (List.cons.inj rest).2⟩
      | itself noSlash => exact absurd (List.cons.inj same).1.symm noSlash
  | itself noSlash =>
      cases spelled' with
      | short | long => exact absurd (List.cons.inj same).1 noSlash
      | itself => exact List.cons.inj same

/-- A spelling does not begin with the enclosing quote. -/
theorem Spelled.head (isMark : mark = '"' ∨ mark = '\'') (spelled : Spelled mark c s) :
    s ++ rest ≠ mark :: rest' := by
  have noSlash : '\\' ≠ mark := by rcases isMark with rfl | rfl <;> decide
  intro same
  cases spelled with
  | short | long => exact noSlash (List.cons.inj same).1
  | itself _ noMark => exact noMark (List.cons.inj same).1

/-- A quoted text ends at its closing quote. -/
theorem quote_unique (isMark : mark = '"' ∨ mark = '\'') {text text' : List Char}
    (same : quote plain mark text ++ rest = quote plain mark text' ++ rest') :
    text = text' ∧ rest = rest' := by
  simp only [quote, List.cons_append, List.append_assoc, List.cons.injEq, true_and,
    List.nil_append] at same
  induction text generalizing text' with
  | nil =>
      cases text' with
      | nil => exact ⟨rfl, (List.cons.inj same).2⟩
      | cons d text' =>
          rw [List.flatMap_cons, List.append_assoc] at same
          exact absurd same.symm ((spelled_quoteChar plain mark d).head isMark)
  | cons c text ih =>
      rw [List.flatMap_cons, List.append_assoc] at same
      cases text' with
      | nil => exact absurd same ((spelled_quoteChar plain mark c).head isMark)
      | cons d text' =>
          rw [List.flatMap_cons, List.append_assoc] at same
          obtain ⟨rfl, tail⟩ :=
            (spelled_quoteChar plain mark c).unique isMark (spelled_quoteChar plain mark d) same
          obtain ⟨rfl, rfl⟩ := ih tail
          exact ⟨rfl, rfl⟩

end Spelling

end Text

/-! ## Integers -/

namespace Decimal

/-- An integer ends with its last digit. -/
theorem ofInt_unique {i j : Int} {rest rest' : List Char} (stops : ∀ c ∈ rest.head?, isDigit c = false)
    (stops' : ∀ c ∈ rest'.head?, isDigit c = false) (same : ofInt i ++ rest = ofInt j ++ rest') :
    i = j ∧ rest = rest' := by
  have minus (n : Nat) (rest rest' : List Char) : digits n ++ rest ≠ '-' :: rest' := by
    intro same
    obtain ⟨first, others, cut⟩ := List.exists_cons_of_ne_nil (digits_ne_nil n)
    have digit := digits_all n first (by simp [cut])
    rw [cut] at same
    rw [(List.cons.inj same).1] at digit
    exact absurd digit (by decide)
  have digits_same {m n : Nat} (same : digits m ++ rest = digits n ++ rest') : m = n ∧ rest = rest' := by
    obtain ⟨written, rest⟩ := Text.append_unique (digits_all m) (digits_all n) stops stops' same
    exact ⟨by rw [← ofDigits_digits m, written, ofDigits_digits], rest⟩
  rw [ofInt, ofInt] at same
  split_ifs at same with negative negative'
  · obtain ⟨size, rest⟩ := digits_same (List.cons.inj same).2
    exact ⟨by omega, rest⟩
  · exact absurd same.symm (minus _ _ _)
  · exact absurd same (minus _ _ _)
  · obtain ⟨size, rest⟩ := digits_same same
    exact ⟨by omega, rest⟩

end Decimal

namespace Datum

/-! ## Rows -/

section Rows

variable {α : Type} {write : α → List Char} {xs ys : List α} {rest rest' : List Char}

/-- What may stand in a row is read in one way, up to where it ends. -/
def ReadOnce (write : α → List Char) (x y : α) : Prop :=
  ∀ rest rest', Ends rest → Ends rest' → write x ++ rest = write y ++ rest' → x = y ∧ rest = rest'

/-- The items behind the first are read in one way. -/
theorem others_unique (each : ∀ x ∈ xs, ∀ y ∈ ys, ReadOnce write x y) (closes : Closes rest)
    (closes' : Closes rest')
    (same : (xs.flatMap fun x => ',' :: ' ' :: write x) ++ rest =
      (ys.flatMap fun y => ',' :: ' ' :: write y) ++ rest') : xs = ys ∧ rest = rest' := by
  induction xs generalizing ys with
  | nil =>
      cases ys with
      | nil => exact ⟨rfl, same⟩
      | cons y ys => exact absurd rfl (closes.not_comma ',' (by rw [show rest = _ from same]; rfl))
  | cons x xs ih =>
      cases ys with
      | nil => exact absurd rfl (closes'.not_comma ',' (by rw [show rest' = _ from same.symm]; rfl))
      | cons y ys =>
          simp only [List.flatMap_cons, List.cons_append, List.append_assoc, List.cons.injEq,
            true_and] at same
          obtain ⟨rfl, tail⟩ := each x (.head _) y (.head _) _ _ closes.others closes'.others same
          obtain ⟨rfl, rfl⟩ := ih (fun a mem b mem' => each a (.tail _ mem) b (.tail _ mem')) tail
          exact ⟨rfl, rfl⟩

/-- A row is read in one way, if its items are and none of them begins with what closes it. -/
theorem row_unique (each : ∀ x ∈ xs, ∀ y ∈ ys, ReadOnce write x y)
    (opens : ∀ x, x ∈ xs ∨ x ∈ ys → ∀ rest rest', Closes rest' → write x ++ rest ≠ rest')
    (closes : Closes rest) (closes' : Closes rest') (same : row write xs ++ rest = row write ys ++ rest') :
    xs = ys ∧ rest = rest' := by
  cases xs with
  | nil =>
      cases ys with
      | nil => exact ⟨rfl, same⟩
      | cons y ys =>
          rw [row, row, List.append_assoc] at same
          exact absurd same.symm (opens y (.inr (.head _)) _ _ closes)
  | cons x xs =>
      rw [row, List.append_assoc] at same
      cases ys with
      | nil => exact absurd same (opens x (.inl (.head _)) _ _ closes')
      | cons y ys =>
          rw [row, List.append_assoc] at same
          obtain ⟨rfl, tail⟩ := each x (.head _) y (.head _) _ _ closes.others closes'.others same
          obtain ⟨rfl, rfl⟩ :=
            others_unique (fun a mem b mem' => each a (.tail _ mem) b (.tail _ mem')) closes closes' tail
          exact ⟨rfl, rfl⟩

end Rows

/-! ## Data without doubles -/

/-- Nowhere in a datum stands a double. -/
inductive DoubleFree : Datum → Prop
  | null : DoubleFree .null
  | bool (b : Bool) : DoubleFree (.bool b)
  | int (i : Int64) : DoubleFree (.int i)
  | char (c : Char) : DoubleFree (.char c)
  | text (s : String) : DoubleFree (.text s)
  | list {items : List Datum} (all : ∀ d ∈ items, DoubleFree d) : DoubleFree (.list items)
  | map {entries : List (String × Datum)} (all : ∀ e ∈ entries, DoubleFree e.2) :
      DoubleFree (.map entries)

/-- The kinds of data. -/
inductive Kind where
  | null
  | bool
  | number
  | char
  | text
  | list
  | map
  deriving DecidableEq, Repr

def kind : Datum → Kind
  | .null => .null
  | .bool _ => .bool
  | .int _ | .float _ => .number
  | .char _ => .char
  | .text _ => .text
  | .list _ => .list
  | .map _ => .map

/-- The kind of the datum that begins with a character. -/
def kindOf (c : Char) : Kind :=
  if c = 'n' then .null
  else if c = 't' ∨ c = 'f' then .bool
  else if c = '\'' then .char
  else if c = '"' then .text
  else if c = '[' then .list
  else if c = '{' then .map
  else .number

section Data

variable {plain : Char → Bool} {v w : Datum} {rest rest' : List Char}

theorem kindOf_digit {c : Char} (first : c = '-' ∨ Decimal.isDigit c = true) : kindOf c = .number := by
  rcases first with rfl | digit
  · decide
  · have other : ∀ d, Decimal.isDigit d = false → c ≠ d := by
      rintro d none rfl
      exact absurd (digit.symm.trans none) (by decide)
    rw [kindOf, if_neg (other _ (by decide)), if_neg (by simp [other 't' (by decide), other 'f' (by decide)]),
      if_neg (other _ (by decide)), if_neg (other _ (by decide)), if_neg (other _ (by decide)),
      if_neg (other _ (by decide))]

/-- The first character tells the kind. -/
theorem kindOf_write (free : DoubleFree v) (plain : Char → Bool) (rest : List Char) :
    ∃ c written, v.write plain ++ rest = c :: written ∧ kindOf c = v.kind := by
  cases free with
  | null => exact ⟨_, _, rfl, by decide⟩
  | bool b => cases b <;> exact ⟨_, _, rfl, by decide⟩
  | int i =>
      have first := Decimal.head?_ofInt i.toInt rest
      have some_ : Decimal.ofInt i.toInt ++ rest ≠ [] := by
        rw [Decimal.ofInt_eq]
        simp [Decimal.digits_ne_nil]
      obtain ⟨c, written, cut⟩ := List.exists_cons_of_ne_nil some_
      rw [cut] at first
      exact ⟨c, written, cut, kindOf_digit (first c rfl)⟩
  | char | text | list | map => exact ⟨_, _, rfl, rfl⟩

theorem kind_eq (free : DoubleFree v) (free' : DoubleFree w)
    (same : v.write plain ++ rest = w.write plain ++ rest') : v.kind = w.kind := by
  obtain ⟨c, written, cut, kind⟩ := kindOf_write free plain rest
  obtain ⟨d, written', cut', kind'⟩ := kindOf_write free' plain rest'
  rw [cut, cut'] at same
  rw [← kind, ← kind', (List.cons.inj same).1]

/-- Nothing that is written begins with what closes a row. -/
theorem DoubleFree.opens (free : DoubleFree v) (closes : Closes rest') : v.write plain ++ rest ≠ rest' := by
  obtain ⟨c, closed, rfl, closing⟩ := closes
  obtain ⟨d, written, cut, kind⟩ := kindOf_write free plain rest
  rw [cut]
  intro same
  obtain ⟨rfl, -⟩ := List.cons.inj same
  have number : kindOf d = .number := by rcases closing with rfl | rfl <;> decide
  rw [number] at kind
  cases free with
  | int i =>
      -- A bracket is of no kind of its own, but no integer begins with one either.
      have written_int : Decimal.ofInt i.toInt ++ rest = d :: written := cut
      rcases Decimal.head?_ofInt i.toInt rest d (by rw [written_int]; rfl) with rfl | digit
      · rcases closing with closing | closing <;> cases closing
      · rcases closing with rfl | rfl <;> exact absurd digit (by decide)
  | _ => cases kind

/-- A datum without doubles is read in one way from what is written for it. -/
theorem DoubleFree.unique (free : DoubleFree v) (free' : DoubleFree w) : ReadOnce (write plain) v w := by
  induction free generalizing w with
  | null =>
      intro rest rest' _ _ same
      have kinds := kind_eq .null free' same
      cases free' with
      | null => exact ⟨rfl, List.append_cancel_left same⟩
      | _ => cases kinds
  | bool b =>
      intro rest rest' _ _ same
      have kinds := kind_eq (.bool b) free' same
      cases free' with
      | bool b' =>
          cases b <;> cases b' <;> simp_all [write]
      | _ => cases kinds
  | int i =>
      intro rest rest' ends ends' same
      have kinds := kind_eq (.int i) free' same
      cases free' with
      | int j =>
          obtain ⟨number, rest⟩ := Decimal.ofInt_unique (ends.forall (by decide)) (ends'.forall (by decide)) same
          exact ⟨by rw [Int64.toInt_inj.mp number], rest⟩
      | _ => cases kinds
  | char c =>
      intro rest rest' _ _ same
      have kinds := kind_eq (.char c) free' same
      cases free' with
      | char d =>
          obtain ⟨one, rest⟩ := Text.quote_unique (.inr rfl) same
          exact ⟨by rw [List.singleton_inj.mp one], rest⟩
      | _ => cases kinds
  | text s =>
      intro rest rest' _ _ same
      have kinds := kind_eq (.text s) free' same
      cases free' with
      | text t =>
          obtain ⟨characters, rest⟩ := Text.quote_unique (.inl rfl) same
          exact ⟨by rw [String.toList_inj.mp characters], rest⟩
      | _ => cases kinds
  | @list items all ih =>
      intro rest rest' _ _ same
      have kinds := kind_eq (.list all) free' same
      cases free' with
      | @list items' all' =>
          simp only [write, writeItems_eq, List.cons_append, List.append_assoc, List.cons.injEq,
            true_and, List.nil_append] at same
          obtain ⟨rfl, rest⟩ := row_unique (fun d mem e mem' => ih d mem (all' e mem'))
            (fun d mem _ _ => (mem.elim (all d) (all' d)).opens) ⟨_, _, rfl, .inl rfl⟩
            ⟨_, _, rfl, .inl rfl⟩ same
          exact ⟨rfl, (List.cons.inj rest).2⟩
      | _ => cases kinds
  | @map entries all ih =>
      intro rest rest' _ _ same
      have kinds := kind_eq (.map all) free' same
      cases free' with
      | @map entries' all' =>
          simp only [write, writeEntries_eq, List.cons_append, List.append_assoc, List.cons.injEq,
            true_and, List.nil_append] at same
          have each : ∀ e ∈ entries, ∀ f ∈ entries', ReadOnce (writeEntry plain) e f := by
            intro e mem f mem' rest rest' ends ends' same
            simp only [writeEntry, List.append_assoc] at same
            obtain ⟨key, same⟩ := Text.quote_unique (.inl rfl) same
            obtain ⟨value, rest⟩ :=
              ih e mem (all' f mem') rest rest' ends ends' (List.append_cancel_left same)
            exact ⟨Prod.ext (String.toList_inj.mp key) value, rest⟩
          have opens : ∀ e, e ∈ entries ∨ e ∈ entries' → ∀ rest rest', Closes rest' →
              writeEntry plain e ++ rest ≠ rest' := by
            rintro e - rest rest' ⟨c, closed, rfl, closing⟩ same
            have first := (List.cons.inj same).1
            rcases closing with rfl | rfl <;> cases first
          obtain ⟨rfl, rest⟩ := row_unique each opens ⟨_, _, rfl, .inr rfl⟩ ⟨_, _, rfl, .inr rfl⟩ same
          exact ⟨rfl, (List.cons.inj rest).2⟩
      | _ => cases kinds

/-- A datum without doubles equals itself, as no NaN does. -/
theorem DoubleFree.same_self (free : DoubleFree v) : v.same v = true := by
  induction free with
  | null => rfl
  | bool | int | char | text => simp [same]
  | @list items all ih =>
      rw [same]
      induction items with
      | nil => rfl
      | cons d items rest =>
          rw [sameItems, ih d (.head _), rest (fun e mem => all e (.tail _ mem)) fun e mem => ih e (.tail _ mem)]
          rfl
  | @map entries all ih =>
      rw [same]
      induction entries with
      | nil => rfl
      | cons e entries rest =>
          rw [sameEntries, ih e (.head _), rest (fun f mem => all f (.tail _ mem)) fun f mem => ih f (.tail _ mem)]
          simp

/-- No two data without doubles have the same text, whichever characters are shown as they are: data
of one display are one datum, and equal as parsers compare them. -/
theorem display_injective (plain : Char → Bool) (free : DoubleFree v) (free' : DoubleFree w) :
    (v.write plain = w.write plain ↔ v = w) ∧ (v.display = w.display → v = w ∧ v.same w = true) := by
  have injective (plain : Char → Bool) (same : v.write plain = w.write plain) : v = w := by
    have nothing : Ends [] := by rintro c ⟨⟩
    exact (free.unique free' [] [] nothing nothing (congrArg (· ++ []) same)).1
  refine ⟨⟨injective plain, congrArg (write plain)⟩, fun same => ?_⟩
  obtain rfl := injective Text.isPlain (String.ofList_inj.mp same)
  exact ⟨rfl, free.same_self⟩

/-- A text that looks like the end of one item and the beginning of another is not taken for two
items, under a key that ends in a quote and a colon. -/
theorem display_of_lookalike :
    let one : Datum := .map [("\":", .list [.char '"', .text "a\", \"b", .int (-7)])]
    let two : Datum := .map [("\":", .list [.char '"', .text "a", .text "b", .int (-7)])]
    one.display ≠ two.display := by
  intro one two same
  have free : DoubleFree one := by
    refine .map (List.forall_mem_singleton.mpr (.list ?_))
    simp only [List.forall_mem_cons]
    exact ⟨.char _, .text _, .int _, by simp⟩
  have free' : DoubleFree two := by
    refine .map (List.forall_mem_singleton.mpr (.list ?_))
    simp only [List.forall_mem_cons]
    exact ⟨.char _, .text _, .text _, .int _, by simp⟩
  have equal : one = two := ((display_injective Text.isPlain free free').2 same).1
  simp [one, two] at equal

end Data

end Datum

end PegMachine
