/-
# PegMachine.Proofs.Classes — character classes as sets

A character class is determined by its sign and the characters it holds (`eq_iff_contains`):
its stored characters follow from these two, and of a stored set there is only one
representation, since the narrow characters are bits and the wide ones ascend. So laws of
union are laws of membership, once the signs agree: a union is complemented if and only if one
of the two classes is (`complemented_union`).
-/
import Mathlib.Data.List.Sort
import PegMachine.Chars.CharClass

namespace PegMachine.CharClass

set_option autoImplicit false

variable {s t : CharClass}

/-- What a class stores follows from what it holds. -/
theorem stores_eq (s : CharClass) (c : Char) : s.stores c = (s.contains c != s.complemented) := by
  rw [contains, Bool.bne_assoc, bne_self_eq_false, Bool.bne_false]

/-- The bits of a class are those of the narrow characters it stores. -/
theorem getLsbD_narrow (s : CharClass) {i : Nat} (narrow : i < narrowLimit) :
    s.narrow.getLsbD i = s.stores (Char.ofNat i) := by
  have code : (Char.ofNat i).toNat = i := by
    have valid : i.isValidChar := .inl (Nat.lt_trans narrow (by decide))
    rw [Char.ofNat, dif_pos valid]
    rfl
  rw [stores, code, if_pos narrow]

/-- The wide characters of a class are those it stores that are not narrow. -/
theorem mem_wide (s : CharClass) {c : Char} :
    c ∈ s.wide ↔ narrowLimit ≤ c.toNat ∧ s.stores c = true := by
  constructor
  · intro mem
    have wide := s.canonical.2 c mem
    refine ⟨wide, ?_⟩
    rw [stores, if_neg (Nat.not_lt.mpr wide)]
    exact List.contains_iff_mem.mpr mem
  · rintro ⟨wide, stored⟩
    rw [stores, if_neg (Nat.not_lt.mpr wide)] at stored
    exact List.contains_iff_mem.mp stored

/-- A class is determined by its sign and by what it stores. -/
theorem ext_of_stores (sign : s.complemented = t.complemented)
    (same : ∀ c, s.stores c = t.stores c) : s = t := by
  have narrow : s.narrow = t.narrow := by
    apply BitVec.eq_of_getLsbD_eq
    intro i inside
    rw [getLsbD_narrow s inside, getLsbD_narrow t inside, same]
  have wide : s.wide = t.wide := by
    apply s.canonical.1.eq_of_mem_iff t.canonical.1
    intro c
    rw [mem_wide, mem_wide, same]
  cases s
  cases t
  simp_all

/-- A class is determined by its sign and by what it holds. -/
theorem eq_iff_contains :
    s = t ↔ s.complemented = t.complemented ∧ ∀ c, s.contains c = t.contains c := by
  constructor
  · rintro rfl
    exact ⟨rfl, fun _ => rfl⟩
  · rintro ⟨sign, same⟩
    apply ext_of_stores sign
    intro c
    rw [stores_eq, stores_eq, sign, same]

theorem complemented_union (s t : CharClass) :
    (s.union t).complemented = (s.complemented || t.complemented) := by
  cases left : s.complemented <;> cases right : t.complemented <;> simp only [union, left, right] <;>
    rfl

/-! ## Laws of union -/

theorem union_comm (s t : CharClass) : s.union t = t.union s := by
  refine eq_iff_contains.mpr ⟨?_, fun c => ?_⟩
  · rw [complemented_union, complemented_union, Bool.or_comm]
  · rw [contains_union, contains_union, Bool.or_comm]

theorem union_assoc (s t u : CharClass) : (s.union t).union u = s.union (t.union u) := by
  refine eq_iff_contains.mpr ⟨?_, fun c => ?_⟩
  · simp only [complemented_union, Bool.or_assoc]
  · simp only [contains_union, Bool.or_assoc]

theorem union_self (s : CharClass) : s.union s = s := by
  refine eq_iff_contains.mpr ⟨?_, fun c => ?_⟩
  · rw [complemented_union, Bool.or_self]
  · rw [contains_union, Bool.or_self]

theorem contains_empty (c : Char) : empty.contains c = false := contains_of_isEmpty rfl c

theorem union_empty (s : CharClass) : s.union empty = s := by
  refine eq_iff_contains.mpr ⟨?_, fun c => ?_⟩
  · rw [complemented_union]
    exact Bool.or_false _
  · rw [contains_union, contains_empty, Bool.or_false]

theorem empty_union (s : CharClass) : empty.union s = s := by
  rw [union_comm, union_empty]

theorem isEmpty_iff : s.isEmpty = true ↔ s = empty := by
  constructor
  · intro nothing
    simp only [isEmpty, Bool.and_eq_true, Bool.not_eq_true', beq_iff_eq, List.isEmpty_iff] at nothing
    obtain ⟨⟨plain, narrow⟩, wide⟩ := nothing
    cases s
    simp_all [empty]
  · rintro rfl
    rfl

/-- A union is empty if and only if both classes are. -/
theorem isEmpty_union (s t : CharClass) : (s.union t).isEmpty = (s.isEmpty && t.isEmpty) := by
  rw [Bool.eq_iff_iff, Bool.and_eq_true, isEmpty_iff, isEmpty_iff, isEmpty_iff]
  constructor
  · intro nothing
    obtain ⟨sign, holds⟩ := eq_iff_contains.mp nothing
    have plain : s.complemented = false ∧ t.complemented = false := by
      rw [complemented_union] at sign
      exact Bool.or_eq_false_iff.mp sign
    have none (c : Char) : s.contains c = false ∧ t.contains c = false := by
      have known := holds c
      rw [contains_union, contains_empty] at known
      exact Bool.or_eq_false_iff.mp known
    exact ⟨eq_iff_contains.mpr ⟨plain.1, fun c => (none c).1.trans (contains_empty c).symm⟩,
      eq_iff_contains.mpr ⟨plain.2, fun c => (none c).2.trans (contains_empty c).symm⟩⟩
  · rintro ⟨rfl, rfl⟩
    exact union_self empty

/-- The operations are those on sets, whatever the signs, and their results are canonical: the
wide part ascends and holds no narrow character, a class is determined by its sign and what
it holds, and so union is commutative, associative and idempotent, and the empty class is its
identity. -/
theorem set_operations (s t u : CharClass) (chars : List Char) (c : Char) :
    (((ofList chars).contains c ↔ c ∈ chars) ∧ empty.contains c = false ∧
      s.complement.contains c = !s.contains c ∧
      (s.union t).contains c = (s.contains c || t.contains c)) ∧
    Canonical s.wide ∧
    (s = t ↔ s.complemented = t.complemented ∧ ∀ x, s.contains x = t.contains x) ∧
    s.union t = t.union s ∧ (s.union t).union u = s.union (t.union u) ∧ s.union s = s ∧
      s.union empty = s ∧ empty.union s = s := by
  have listed : (ofList chars).contains c ↔ c ∈ chars := by
    rw [contains_ofList]
    exact List.contains_iff_mem
  exact ⟨⟨listed, contains_empty c, contains_complement s c, contains_union s t c⟩, s.canonical,
    eq_iff_contains, union_comm s t, union_assoc s t u, union_self s, union_empty s, empty_union s⟩

end PegMachine.CharClass
