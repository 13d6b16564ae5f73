/-
# PegMachine.Decimal.Digits — decimal digits of natural numbers

`digits` writes a number without leading zeros, `digitValue?` reads one digit and
`ofDigits` a run of them; `ofDigits_digits` says that reading undoes writing, and
`digits_all` that nothing but digits is written.
-/
namespace PegMachine.Decimal

set_option autoImplicit false

/-- The character of a digit below ten. -/
def digitChar (d : Nat) : Char := Char.ofNat (48 + d)

/-- The value of an ASCII digit. -/
def digitValue? (c : Char) : Option Nat :=
  if '0' ≤ c ∧ c ≤ '9' then some (c.toNat - 48) else none

/-- Whether a character is an ASCII digit. -/
def isDigit (c : Char) : Bool := (digitValue? c).isSome

/-- The decimal digits of a number, most significant first. -/
def digits (n : Nat) : List Char :=
  if n < 10 then [digitChar n] else digits (n / 10) ++ [digitChar (n % 10)]
termination_by n
decreasing_by omega

/-- The number a run of digits denotes; a character that is no digit counts as zero. -/
def ofDigits (text : List Char) : Nat :=
  text.foldl (fun n c => 10 * n + (digitValue? c).getD 0) 0

/-- How many decimal digits a number has; zero has none. -/
def digitCount (n : Nat) : Nat :=
  if n = 0 then 0 else digitCount (n / 10) + 1
termination_by n
decreasing_by omega

/-- An integer in decimal, with a minus sign if it is negative. -/
def ofInt (i : Int) : List Char :=
  if i < 0 then '-' :: digits i.natAbs else digits i.natAbs

/-- The sign of a negative number; others have none. -/
def sign (negative : Bool) : List Char := if negative then ['-'] else []

theorem ofInt_eq (i : Int) : ofInt i = sign (decide (i < 0)) ++ digits i.natAbs := by
  rw [ofInt, sign]
  split <;> rename_i negative <;> simp [negative]

theorem digitValue?_digitChar {d : Nat} (small : d < 10) : digitValue? (digitChar d) = some d := by
  have every : ∀ k, k < 10 → digitValue? (digitChar k) = some k := by decide
  exact every d small

theorem isDigit_digitChar {d : Nat} (small : d < 10) : isDigit (digitChar d) = true := by
  simp [isDigit, digitValue?_digitChar small]

/-- Nothing but digits is written. -/
theorem digits_all (n : Nat) : ∀ c ∈ digits n, isDigit c = true := by
  fun_induction digits n with
  | case1 n small =>
      intro c hc
      cases List.mem_singleton.mp hc
      exact isDigit_digitChar small
  | case2 n _ ih =>
      intro c hc
      rcases List.mem_append.mp hc with hc | hc
      · exact ih c hc
      · cases List.mem_singleton.mp hc
        exact isDigit_digitChar (Nat.mod_lt _ (by omega))

/-- A number has at least one digit. -/
theorem digits_ne_nil (n : Nat) : digits n ≠ [] := by
  rw [digits]
  split <;> simp

/-- An integer begins with its sign or a digit. -/
theorem head?_ofInt (i : Int) (rest : List Char) :
    ∀ c ∈ (ofInt i ++ rest).head?, c = '-' ∨ isDigit c = true := by
  rw [ofInt]
  split
  · rintro c ⟨⟩
    exact .inl rfl
  · obtain ⟨first, others, split⟩ := List.exists_cons_of_ne_nil (digits_ne_nil i.natAbs)
    have digit := digits_all i.natAbs first (by simp [split])
    rw [split]
    rintro c ⟨⟩
    exact .inr digit

/-- Reading back what was written. -/
theorem ofDigits_digits (n : Nat) : ofDigits (digits n) = n := by
  fun_induction digits n with
  | case1 n small => simp [ofDigits, digitValue?_digitChar small]
  | case2 n _ ih =>
      have last := digitValue?_digitChar (Nat.mod_lt n (by omega : 0 < 10))
      simp only [ofDigits, List.foldl_append, List.foldl_cons, List.foldl_nil] at ih ⊢
      rw [ih, last]
      simp only [Option.getD_some]
      omega

end PegMachine.Decimal
