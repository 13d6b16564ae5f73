/-
# PegMachine.Chars.CharClass — sets of characters, possibly complemented

A character class stores a finite set and a sign. Of the stored set the 256
characters of one byte are a bit vector, and all wider ones an ascending list; a
complemented class holds exactly the characters that are not stored. The wide part
of every class is `Canonical`, which the class itself carries, so two classes with
one sign that hold the same characters are equal, not merely equivalent.

Complements never need to be multiplied out: by De Morgan the union of two
classes is again one stored set with one sign (`union`), and it holds what either
of them holds (`contains_union`).
-/
import PegMachine.Chars.Merge
import PegMachine.Text.Case
import PegMachine.Text.Layout

namespace PegMachine

set_option autoImplicit false

namespace CharClass

/-- Characters from here on are wide. -/
def narrowLimit : Nat := 256

/-- A wide part is ascending and holds no narrow character. -/
def Canonical (wide : List Char) : Prop :=
  Chars.Ascending wide ∧ ∀ c ∈ wide, narrowLimit ≤ c.toNat

theorem canonical_nil : Canonical [] := ⟨List.Pairwise.nil, nofun⟩

theorem canonical_ofList {chars : List Char} (wide : ∀ c ∈ chars, narrowLimit ≤ c.toNat) :
    Canonical (Chars.ofList chars) :=
  ⟨Chars.ascending_ofList chars, fun c hmem => wide c (Chars.mem_ofList.mp hmem)⟩

theorem canonical_merge (keep : Chars.Keep) {s t : List Char} (left : Canonical s)
    (right : Canonical t) : Canonical (Chars.merge keep s t) := by
  refine ⟨Chars.ascending_merge keep left.1 right.1, fun c hmem => ?_⟩
  rcases ((Chars.mem_merge keep left.1 right.1).mp hmem).mem_or with hmem | hmem
  · exact left.2 c hmem
  · exact right.2 c hmem

end CharClass

/-- A set of characters: the stored one, or its complement. -/
structure CharClass where
  /-- The stored characters below 256, one bit each. -/
  narrow : BitVec 256
  /-- The other stored characters, ascending. -/
  wide : List Char
  complemented : Bool
  canonical : CharClass.Canonical wide
  deriving DecidableEq

namespace CharClass

/-- The class that holds nothing. -/
def empty : CharClass := ⟨0, [], false, canonical_nil⟩

instance : Inhabited CharClass := ⟨empty⟩

/-- The bit of a narrow character. -/
def bit (c : Char) : BitVec 256 := BitVec.twoPow 256 c.toNat

/-- The characters of a list. -/
def ofList (chars : List Char) : CharClass where
  narrow := (chars.filter (·.toNat < narrowLimit)).foldl (fun bits c => bits ||| bit c) 0
  wide := Chars.ofList (chars.filter (narrowLimit ≤ ·.toNat))
  complemented := false
  canonical := canonical_ofList (by simp)

/-- One character, and where case does not matter also its lower and upper case. -/
def single (c : Char) (anyCase : Bool) : CharClass :=
  if anyCase then ofList (Text.lower c ++ Text.upper c ++ [c]) else ofList [c]

/-- All characters the class does not hold. -/
def complement (s : CharClass) : CharClass := { s with complemented := !s.complemented }

/-- Whether a character is stored, whatever the sign. -/
def stores (s : CharClass) (c : Char) : Bool :=
  if c.toNat < narrowLimit then s.narrow.getLsbD c.toNat else s.wide.contains c

/-- Whether the class holds a character. -/
def contains (s : CharClass) (c : Char) : Bool := s.stores c != s.complemented

/-- Whether the class is the one that stores nothing and holds nothing. -/
def isEmpty (s : CharClass) : Bool := !s.complemented && s.narrow == 0 && s.wide.isEmpty

/-- The bits that are set for the characters of a list. -/
theorem getLsbD_foldl_bit (chars : List Char) (bits : BitVec 256) {c : Char}
    (narrow : c.toNat < narrowLimit) :
    (chars.foldl (fun bits c => bits ||| bit c) bits).getLsbD c.toNat =
      (bits.getLsbD c.toNat || chars.contains c) := by
  induction chars generalizing bits with
  | nil => simp
  | cons first rest ih =>
      have own : (bit first).getLsbD c.toNat = (c == first) := by
        have below : c.toNat < 256 := narrow
        rw [bit, BitVec.getLsbD_twoPow, Bool.eq_iff_iff]
        simp only [Bool.and_eq_true, decide_eq_true_eq, beq_iff_eq]
        constructor
        · rintro ⟨-, same⟩
          exact (Char.toNat_inj.mp same).symm
        · rintro rfl
          exact ⟨below, rfl⟩
      rw [List.foldl_cons, ih, BitVec.getLsbD_or, own, List.contains_cons, Bool.or_assoc]

theorem contains_ofList (chars : List Char) (c : Char) : (ofList chars).contains c = chars.contains c := by
  have plain : (ofList chars).contains c = (ofList chars).stores c := Bool.bne_false _
  rw [plain, stores, Bool.eq_iff_iff, List.contains_iff_mem]
  by_cases narrow : c.toNat < narrowLimit
  · rw [if_pos narrow, ofList, getLsbD_foldl_bit _ _ narrow]
    simp [narrow]
  · rw [if_neg narrow, List.contains_iff_mem, ofList, Chars.mem_ofList]
    simp [Nat.not_lt.mp narrow]

/-! ## Union -/

/-- The stored characters of either class. -/
def storedUnion (s t : CharClass) : CharClass :=
  ⟨s.narrow ||| t.narrow, Chars.merge .union s.wide t.wide, false,
    canonical_merge .union s.canonical t.canonical⟩

/-- The stored characters of `s` that `t` does not store. -/
def storedDifference (s t : CharClass) : CharClass :=
  ⟨s.narrow &&& ~~~t.narrow, Chars.merge .difference s.wide t.wide, false,
    canonical_merge .difference s.canonical t.canonical⟩

/-- The characters both classes store. -/
def storedIntersection (s t : CharClass) : CharClass :=
  ⟨s.narrow &&& t.narrow, Chars.merge .intersection s.wide t.wide, false,
    canonical_merge .intersection s.canonical t.canonical⟩

/-- The characters of either class. -/
def union (s t : CharClass) : CharClass :=
  match s.complemented, t.complemented with
  | false, false => s.storedUnion t
  | true, false => (s.storedDifference t).complement
  | false, true => (t.storedDifference s).complement
  | true, true => (s.storedIntersection t).complement

theorem contains_complement (s : CharClass) (c : Char) :
    s.complement.contains c = !s.contains c := by
  cases stored : s.stores c <;> cases sign : s.complemented <;>
    simp_all [contains, complement, stores]

theorem contains_of_isEmpty {s : CharClass} (nothing : s.isEmpty = true) (c : Char) :
    s.contains c = false := by
  simp only [isEmpty, Bool.and_eq_true, Bool.not_eq_true', beq_iff_eq, List.isEmpty_iff] at nothing
  obtain ⟨⟨plain, narrow⟩, wide⟩ := nothing
  simp [contains, stores, plain, narrow, wide]

/-- What a merge of the wide parts holds, as a test. -/
theorem contains_merge (keep : Chars.Keep) (s t : CharClass) (c : Char) :
    (Chars.merge keep s.wide t.wide).contains c =
      if s.wide.contains c then (if t.wide.contains c then keep.both else keep.left)
      else t.wide.contains c && keep.right := by
  rw [Bool.eq_iff_iff]
  simp only [List.contains_iff_mem, Chars.mem_merge keep s.canonical.1 t.canonical.1,
    Chars.Keep.Keeps]
  by_cases left : c ∈ s.wide <;> by_cases right : c ∈ t.wide <;> simp [left, right]

theorem stores_storedUnion (s t : CharClass) (c : Char) :
    (s.storedUnion t).stores c = (s.stores c || t.stores c) := by
  simp only [stores, storedUnion]
  split
  · simp
  · rw [contains_merge]
    cases s.wide.contains c <;> cases t.wide.contains c <;> rfl

theorem stores_storedDifference (s t : CharClass) (c : Char) :
    (s.storedDifference t).stores c = (s.stores c && !t.stores c) := by
  simp only [stores, storedDifference]
  split
  · rename_i narrow
    have below : c.toNat < 256 := narrow
    simp [below]
  · rw [contains_merge]
    cases s.wide.contains c <;> cases t.wide.contains c <;> rfl

theorem stores_storedIntersection (s t : CharClass) (c : Char) :
    (s.storedIntersection t).stores c = (s.stores c && t.stores c) := by
  simp only [stores, storedIntersection]
  split
  · simp
  · rw [contains_merge]
    cases s.wide.contains c <;> cases t.wide.contains c <;> rfl

/-- A union holds what either class holds. -/
theorem contains_union (s t : CharClass) (c : Char) :
    (s.union t).contains c = (s.contains c || t.contains c) := by
  have plain (u : CharClass) (sign : u.complemented = false) : u.contains c = u.stores c := by
    rw [contains, sign, Bool.bne_false]
  cases left : s.complemented <;> cases right : t.complemented <;>
    simp only [union, left, right, contains_complement]
  · rw [plain _ rfl, plain s left, plain t right, stores_storedUnion]
  · rw [plain _ rfl, stores_storedDifference, contains, contains, left, right]
    cases s.stores c <;> cases t.stores c <;> rfl
  · rw [plain _ rfl, stores_storedDifference, contains, contains, left, right]
    cases s.stores c <;> cases t.stores c <;> rfl
  · rw [plain _ rfl, stores_storedIntersection, contains, contains, left, right]
    cases s.stores c <;> cases t.stores c <;> rfl

/-! ## Summary -/

/-- Narrow characters in a summary: visible ASCII as it is, the rest by its code. -/
def summaryChar (code : Nat) : List Char :=
  if 0x21 ≤ code ∧ code ≤ 0x7e then [Char.ofNat code]
  else ['\\', 'x'] ++ (if code < 16 then ['0'] else []) ++ Text.hex code

/-- How many characters a summary shows. -/
def summaryLimit : Nat := 40

/-- The stored characters in brackets, in ascending order and cut short, with a caret in
front of them if the class is complemented. -/
def summary (s : CharClass) : String :=
  let narrow := (List.range narrowLimit).flatMap fun code =>
    if s.narrow.getLsbD code then summaryChar code else []
  let sign := if s.complemented then ['^'] else []
  String.ofList ('[' :: sign ++ Text.shortened summaryLimit (narrow ++ s.wide) ++ [']'])

end CharClass

end PegMachine
