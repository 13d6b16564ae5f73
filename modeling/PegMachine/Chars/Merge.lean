/-
# PegMachine.Chars.Merge — strictly ascending lists of characters

Sets of characters kept as strictly ascending lists. `insert` puts one character
in its place, `ofList` sorts any list and drops repetitions, and `merge` walks two
lists side by side; a `Keep` says which of the characters met are kept — those of
the left list alone, of the right alone, or of both — so that union, difference
and intersection are one walk.

All of them keep the order (`ascending_ofList`, `ascending_merge`), and membership
in the result is what the `Keep` says (`mem_merge`).
-/
namespace PegMachine.Chars

set_option autoImplicit false

/-- Strictly ascending. -/
def Ascending (chars : List Char) : Prop := chars.Pairwise (· < ·)

/-- Put a character in its place, unless it is there already. -/
def insert (c : Char) : List Char → List Char
  | [] => [c]
  | d :: rest =>
    if c < d then c :: d :: rest
    else if c = d then d :: rest
    else d :: insert c rest

/-- The characters of a list in ascending order, each once. -/
def ofList (chars : List Char) : List Char := chars.foldr insert []

/-- Which characters a merge keeps. -/
structure Keep where
  /-- Those only on the left. -/
  left : Bool
  /-- Those only on the right. -/
  right : Bool
  /-- Those on both sides. -/
  both : Bool

def Keep.union : Keep := ⟨true, true, true⟩

def Keep.difference : Keep := ⟨true, false, false⟩

def Keep.intersection : Keep := ⟨false, false, true⟩

/-- `c` in front of the rest, or the rest alone. -/
def consIf (keep : Bool) (c : Char) (rest : List Char) : List Char :=
  if keep then c :: rest else rest

/-- Merge a left list `x :: xs` into a right one, given the merge of `xs`. -/
def mergeHead (keep : Keep) (x : Char) (xs : List Char) (mergeRest : List Char → List Char) :
    List Char → List Char
  | [] => if keep.left then x :: xs else []
  | y :: ys =>
    if x < y then consIf keep.left x (mergeRest (y :: ys))
    else if x = y then consIf keep.both x (mergeRest ys)
    else consIf keep.right y (mergeHead keep x xs mergeRest ys)

/-- Walk two ascending lists side by side. -/
def merge (keep : Keep) : List Char → List Char → List Char
  | [], ys => if keep.right then ys else []
  | x :: xs, ys => mergeHead keep x xs (merge keep xs) ys

/-! ## Insertion -/

theorem mem_insert {c d : Char} {chars : List Char} :
    c ∈ insert d chars ↔ c = d ∨ c ∈ chars := by
  induction chars with
  | nil => simp [insert]
  | cons head rest ih =>
      simp only [insert]
      split
      · simp
      · split
        · rename_i equal
          subst equal
          simp
        · simp only [List.mem_cons, ih]
          exact or_left_comm

theorem char_lt_of_not {a b : Char} (notLess : ¬a < b) (differ : a ≠ b) : b < a := by
  rw [Char.lt_def, UInt32.lt_iff_toNat_lt] at *
  have unequal : a.val.toNat ≠ b.val.toNat := fun same =>
    differ (Char.ext (UInt32.toNat_inj.mp same))
  omega

theorem ascending_insert (c : Char) {chars : List Char} (sorted : Ascending chars) :
    Ascending (insert c chars) := by
  induction chars with
  | nil => simp [insert, Ascending]
  | cons head rest ih =>
      have tail := List.pairwise_cons.mp sorted
      simp only [insert]
      split
      · rename_i before
        refine List.pairwise_cons.mpr ⟨fun d hmem => ?_, sorted⟩
        rcases List.mem_cons.mp hmem with rfl | hmem
        · exact before
        · exact Char.lt_trans before (tail.1 d hmem)
      · split
        · exact sorted
        · rename_i notBefore differ
          refine List.pairwise_cons.mpr ⟨fun d hmem => ?_, ih tail.2⟩
          rcases mem_insert.mp hmem with rfl | hmem
          · exact char_lt_of_not notBefore differ
          · exact tail.1 d hmem

theorem mem_ofList {c : Char} {chars : List Char} : c ∈ ofList chars ↔ c ∈ chars := by
  induction chars with
  | nil => simp [ofList]
  | cons head rest ih => simpa [ofList, mem_insert] using or_congr_right ih

theorem ascending_ofList (chars : List Char) : Ascending (ofList chars) := by
  induction chars with
  | nil => simp [ofList, Ascending]
  | cons head rest ih => exact ascending_insert head ih

/-! ## Merging -/

/-- What a merge keeps of a character, by where it stands. -/
def Keep.Keeps (keep : Keep) (onLeft onRight : Prop) : Prop :=
  (onLeft ∧ ¬onRight ∧ keep.left = true) ∨ (¬onLeft ∧ onRight ∧ keep.right = true) ∨
    (onLeft ∧ onRight ∧ keep.both = true)

theorem mem_consIf {keep : Bool} {c d : Char} {rest : List Char} :
    c ∈ consIf keep d rest ↔ (keep = true ∧ c = d) ∨ c ∈ rest := by
  unfold consIf
  split <;> simp_all

theorem not_mem_of_lt {c d : Char} {rest : List Char} (sorted : Ascending (d :: rest))
    (below : c < d) : c ∉ d :: rest := by
  intro hmem
  rcases List.mem_cons.mp hmem with rfl | hmem
  · exact absurd below (Char.lt_irrefl _)
  · exact absurd (Char.lt_trans below ((List.pairwise_cons.mp sorted).1 c hmem)) (Char.lt_irrefl _)

theorem not_mem_tail {d : Char} {rest : List Char} (sorted : Ascending (d :: rest)) : d ∉ rest :=
  fun hmem => absurd ((List.pairwise_cons.mp sorted).1 d hmem) (Char.lt_irrefl _)

/-- Membership in a merge of ascending lists. -/
theorem mem_merge (keep : Keep) {c : Char} {xs ys : List Char} (left : Ascending xs)
    (right : Ascending ys) : c ∈ merge keep xs ys ↔ keep.Keeps (c ∈ xs) (c ∈ ys) := by
  induction xs generalizing ys with
  | nil =>
      simp only [merge, Keep.Keeps]
      split <;> simp_all
  | cons x xs ih =>
      have xTail := (List.pairwise_cons.mp left).2
      simp only [merge]
      induction ys with
      | nil =>
          simp only [mergeHead, Keep.Keeps]
          split <;> simp_all
      | cons y ys ihRight =>
          have yTail := (List.pairwise_cons.mp right).2
          simp only [mergeHead]
          split
          · rename_i below
            have absent := not_mem_of_lt right below
            rw [mem_consIf, ih xTail right]
            have fresh := not_mem_tail left
            by_cases same : c = x
            · subst same
              simp_all [Keep.Keeps]
            · simp [Keep.Keeps, same]
          · split
            · rename_i equal
              subst equal
              rw [mem_consIf, ih xTail yTail]
              have freshLeft := not_mem_tail left
              have freshRight := not_mem_tail right
              by_cases same : c = x
              · subst same
                simp_all [Keep.Keeps]
              · simp [Keep.Keeps, same]
            · rename_i notBelow differ
              have above := char_lt_of_not notBelow differ
              have absent := not_mem_of_lt left above
              have fresh := not_mem_tail right
              refine (mem_consIf.trans (or_congr_right (ihRight yTail))).trans ?_
              by_cases same : c = y
              · subst same
                simp_all [Keep.Keeps]
              · simp [Keep.Keeps, same]

theorem ascending_consIf {keep : Bool} {c : Char} {rest : List Char} (sorted : Ascending rest)
    (below : ∀ d ∈ rest, c < d) : Ascending (consIf keep c rest) := by
  unfold consIf
  split
  · exact List.pairwise_cons.mpr ⟨below, sorted⟩
  · exact sorted

theorem Keep.Keeps.mem_or {keep : Keep} {onLeft onRight : Prop} (kept : keep.Keeps onLeft onRight) :
    onLeft ∨ onRight := by
  rcases kept with ⟨here, _⟩ | ⟨_, here, _⟩ | ⟨here, _⟩
  · exact .inl here
  · exact .inr here
  · exact .inl here

/-- A merge of ascending lists is ascending. -/
theorem ascending_merge (keep : Keep) {xs ys : List Char} (left : Ascending xs)
    (right : Ascending ys) : Ascending (merge keep xs ys) := by
  induction xs generalizing ys with
  | nil =>
      simp only [merge]
      split
      · exact right
      · exact List.Pairwise.nil
  | cons x xs ih =>
      have xParts := List.pairwise_cons.mp left
      induction ys with
      | nil =>
          simp only [merge, mergeHead]
          split
          · exact left
          · exact List.Pairwise.nil
      | cons y ys ihRight =>
          have yParts := List.pairwise_cons.mp right
          simp only [merge, mergeHead]
          split
          · rename_i below
            refine ascending_consIf (ih xParts.2 right) fun d hmem => ?_
            rcases ((mem_merge keep xParts.2 right).mp hmem).mem_or with hmem | hmem
            · exact xParts.1 d hmem
            · rcases List.mem_cons.mp hmem with rfl | hmem
              · exact below
              · exact Char.lt_trans below (yParts.1 d hmem)
          · split
            · rename_i equal
              subst equal
              refine ascending_consIf (ih xParts.2 yParts.2) fun d hmem => ?_
              rcases ((mem_merge keep xParts.2 yParts.2).mp hmem).mem_or with hmem | hmem
              · exact xParts.1 d hmem
              · exact yParts.1 d hmem
            · rename_i notBelow differ
              have above := char_lt_of_not notBelow differ
              refine ascending_consIf (ihRight yParts.2) fun d hmem => ?_
              rcases ((mem_merge keep left yParts.2).mp hmem).mem_or with hmem | hmem
              · rcases List.mem_cons.mp hmem with rfl | hmem
                · exact above
                · exact Char.lt_trans above (xParts.1 d hmem)
              · exact yParts.1 d hmem

end PegMachine.Chars
