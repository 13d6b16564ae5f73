/-
# PegMachine.Proofs.Lowering.Tables — tables only grow

Whatever is added to the tables stays where it was put: every table of an earlier state
begins the same table of a later one (`Tables.Below`). The one exception are subroutines,
which are reserved before their code is there and placed afterwards; of them only the
number is known to grow. Entries refer to entries that are there, and operands can hold
the indices of labels and subroutines; this is an invariant too (`Tables.Sound`).

There is one statement for each way of adding something. It says what all of them have in
common (`Tables.Adds`), and what every later state has at the new index. The labels in
entries are said by their texts: `Tables.indexOf` is the index under which a text is
found, and the same in all later states once it is there.
-/
import PegMachine.Machine.Bytecode

namespace PegMachine

set_option autoImplicit false

/-- A computation that may fail has succeeded if each of its steps has. -/
theorem bind_eq_ok {ε α β : Type} {x : Except ε α} {f : α → Except ε β} {b : β} :
    x >>= f = .ok b ↔ ∃ a, x = .ok a ∧ f a = .ok b := by
  cases x with
  | ok a => exact ⟨fun done => ⟨a, rfl, done⟩, fun ⟨_, same, done⟩ => Except.ok.inj same ▸ done⟩
  | error e => exact ⟨nofun, nofun⟩

theorem exists_of_isOk {ε α : Type} {x : Except ε α} (ok : x.isOk = true) : ∃ a, x = .ok a := by
  cases x with
  | ok a => exact ⟨a, rfl⟩
  | error e => nomatch ok

namespace Tables

/-! ## Growing -/

/-- A table has all entries of another, at the same places. -/
def Begins {α : Type} (xs ys : Array α) : Prop := ∀ (i : Nat) (x : α), xs[i]? = some x → ys[i]? = some x

section Begins

variable {α : Type} {xs ys zs : Array α} {x : α} {i : Nat}

theorem Begins.refl : Begins xs xs := fun _ _ found => found

theorem Begins.trans (first : Begins xs ys) (second : Begins ys zs) : Begins xs zs :=
  fun i x found => second i x (first i x found)

theorem Begins.push : Begins xs (xs.push x) := by
  intro i y found
  have inside : i < xs.size := (Array.getElem?_eq_some_iff.mp found).1
  rw [Array.getElem?_push_lt inside, ← Array.getElem?_eq_getElem inside, found]

theorem Begins.size (first : Begins xs ys) : xs.size ≤ ys.size := by
  rcases Nat.eq_zero_or_pos xs.size with empty | some
  · omega
  · have last : xs[xs.size - 1]? = .some xs[xs.size - 1] := Array.getElem?_eq_getElem (by omega)
    have := (Array.getElem?_eq_some_iff.mp (first _ _ last)).1
    omega

theorem idxOf?_eq_some [BEq α] [LawfulBEq α] :
    xs.idxOf? x = some i ↔ xs[i]? = some x ∧ ∀ j < i, xs[j]? ≠ some x := by
  rcases xs with ⟨xs⟩
  simp only [List.idxOf?_toArray, List.idxOf?_eq_some_iff, List.getElem?_toArray]
  constructor
  · rintro ⟨inside, here, before⟩
    refine ⟨List.getElem?_eq_some_iff.mpr ⟨inside, here⟩, fun j below found => ?_⟩
    exact before j below (List.getElem?_eq_some_iff.mp found).2
  · rintro ⟨here, before⟩
    obtain ⟨inside, here⟩ := List.getElem?_eq_some_iff.mp here
    refine ⟨inside, here, fun j below same => before j below ?_⟩
    exact List.getElem?_eq_some_iff.mpr ⟨by omega, same⟩

/-- The first place of an entry stays the first. -/
theorem Begins.idxOf? [BEq α] [LawfulBEq α] (first : Begins xs ys)
    (found : xs.idxOf? x = some i) : ys.idxOf? x = some i := by
  obtain ⟨here, before⟩ := idxOf?_eq_some.mp found
  have inside := (Array.getElem?_eq_some_iff.mp here).1
  refine idxOf?_eq_some.mpr ⟨first i x here, fun j below again => before j below ?_⟩
  have known : xs[j]? = some xs[j] := Array.getElem?_eq_getElem (by omega)
  rw [known, ← first j _ known, again]

theorem idxOf?_push_self [BEq α] [LawfulBEq α] (absent : xs.idxOf? x = none) :
    (xs.push x).idxOf? x = some xs.size := by
  refine idxOf?_eq_some.mpr ⟨Array.getElem?_push_size, fun j below again => ?_⟩
  rw [Array.getElem?_push_lt below] at again
  have inside : x ∈ xs := Option.some.inj again ▸ Array.getElem_mem below
  exact Array.idxOf?_eq_none_iff.mp absent inside

end Begins

/-- The tables of an earlier state and of a later one. -/
structure Below (t u : Tables) : Prop where
  tests : Begins t.tests u.tests
  literals : Begins t.literals u.literals
  scans : Begins t.scans u.scans
  arities : Begins t.arities u.arities
  values : Begins t.values u.values
  labels : Begins t.labels u.labels
  transforms : Begins t.transforms u.transforms
  combiners : Begins t.combiners u.combiners
  subroutines : t.subroutines.size ≤ u.subroutines.size

theorem Below.refl (t : Tables) : t.Below t :=
  ⟨.refl, .refl, .refl, .refl, .refl, .refl, .refl, .refl, Nat.le_refl _⟩

theorem Below.trans {t u v : Tables} (first : t.Below u) (second : u.Below v) : t.Below v :=
  ⟨first.tests.trans second.tests, first.literals.trans second.literals,
    first.scans.trans second.scans, first.arities.trans second.arities,
    first.values.trans second.values, first.labels.trans second.labels,
    first.transforms.trans second.transforms, first.combiners.trans second.combiners,
    Nat.le_trans first.subroutines second.subroutines⟩

/-- The index under which a label is found; beyond the table if it is not. -/
def indexOf (t : Tables) (label : String) : Nat := (t.labels.idxOf? label).getD t.labels.size

/-- The label with the index of a text is that text, if there is one. -/
theorem label_indexOf {t : Tables} {label : String} (inside : t.indexOf label < t.labels.size) :
    t.label (t.indexOf label) = label := by
  cases found : t.labels.idxOf? label with
  | none =>
      rw [indexOf, found] at inside
      exact absurd inside (Nat.lt_irrefl _)
  | some i => simp only [indexOf, Tables.label, found, (idxOf?_eq_some.mp found).1, Option.getD_some]

theorem Below.indexOf {t u : Tables} (below : t.Below u) {label : String} {i : Nat}
    (found : t.labels.idxOf? label = some i) : u.indexOf label = i := by
  rw [Tables.indexOf, below.labels.idxOf? found, Option.getD_some]

/-! ## Entries refer to entries -/

/-- The indices that entries hold refer to something, and operands can hold those of labels
and subroutines. -/
structure Sound (t : Tables) : Prop where
  tests : ∀ entry ∈ t.tests, entry.label < t.labels.size
  literals : ∀ entry ∈ t.literals, entry.value < t.values.size
  scans : ∀ entry ∈ t.scans, entry.label < t.labels.size
  arities : ∀ entry ∈ t.arities, entry.label < t.labels.size
  subroutines : ∀ entry ∈ t.subroutines, entry.label < t.labels.size
  labels_fit : t.labels.size ≤ Word.operandLimit
  subroutines_fit : t.subroutines.size ≤ Word.operandLimit

theorem sound_empty : Sound {} := by
  refine ⟨?_, ?_, ?_, ?_, ?_, Nat.zero_le _, Nat.zero_le _⟩ <;> simp

/-- What every way of adding to the tables does, except with subroutines: they grow, and an
operand can hold the new index. -/
structure Adds (t t' : Tables) (index : Nat) : Prop where
  below : t.Below t'
  subroutines : t'.subroutines = t.subroutines
  sound : t.Sound → t'.Sound
  fits : t.Sound → index < Word.operandLimit

theorem nextIndex_eq_ok {table : TableName} {size index : Nat}
    (ok : nextIndex table size = .ok index) : index = size ∧ size < Word.operandLimit := by
  rw [nextIndex] at ok
  split at ok
  · exact ⟨(Except.ok.inj ok).symm, by assumption⟩
  · nomatch ok

/-- A label is found where `internLabel` says. -/
theorem internLabel_eq_ok {t t' : Tables} {label : String} {index : Nat}
    (ok : t.internLabel label = .ok (index, t')) :
    Adds t t' index ∧ t'.labels.idxOf? label = some index ∧ t' = { t with labels := t'.labels } := by
  rw [internLabel] at ok
  split at ok
  · rename_i i found
    obtain ⟨rfl, rfl⟩ : i = index ∧ t = t' := by simpa using ok
    have inside := (Array.getElem?_eq_some_iff.mp (idxOf?_eq_some.mp found).1).1
    exact ⟨⟨.refl t, rfl, id, fun sound => Nat.lt_of_lt_of_le inside sound.labels_fit⟩, found, rfl⟩
  · rename_i absent
    obtain ⟨i, next, made⟩ := bind_eq_ok.mp ok
    obtain ⟨rfl, small⟩ := nextIndex_eq_ok next
    obtain ⟨rfl, rfl⟩ : t.labels.size = index ∧ { t with labels := t.labels.push label } = t' := by
      simpa using made
    refine ⟨⟨{ Below.refl t with labels := .push }, rfl, fun sound => ?_, fun _ => small⟩,
      idxOf?_push_self absent, rfl⟩
    have more : t.labels.size ≤ (t.labels.push label).size := by simp
    exact ⟨fun e mem => Nat.lt_of_lt_of_le (sound.tests e mem) more, sound.literals,
      fun e mem => Nat.lt_of_lt_of_le (sound.scans e mem) more,
      fun e mem => Nat.lt_of_lt_of_le (sound.arities e mem) more,
      fun e mem => Nat.lt_of_lt_of_le (sound.subroutines e mem) more,
      by simpa using Nat.succ_le_of_lt small, sound.subroutines_fit⟩

theorem lt_of_idxOf? {t : Tables} {label : String} {index : Nat}
    (found : t.labels.idxOf? label = some index) : index < t.labels.size :=
  (Array.getElem?_eq_some_iff.mp (idxOf?_eq_some.mp found).1).1

theorem Adds.trans {t u v : Tables} {i j : Nat} (first : Adds t u i) (second : Adds u v j) :
    Adds t v j :=
  ⟨first.below.trans second.below, second.subroutines.trans first.subroutines,
    fun sound => second.sound (first.sound sound), fun sound => second.fits (first.sound sound)⟩

/-! ## Adding entries -/

variable {t t' : Tables} {index : Nat} {label : String}

theorem addTest_eq_ok {test : CharTest} (ok : t.addTest test label = .ok (index, t')) :
    Adds t t' index ∧
      ∀ u, t'.Below u → u.tests[index]? = some ⟨test, u.indexOf label⟩ := by
  obtain ⟨⟨i, u⟩, interned, ok⟩ := bind_eq_ok.mp ok
  obtain ⟨adds, found, -⟩ := internLabel_eq_ok interned
  obtain ⟨n, next, made⟩ := bind_eq_ok.mp ok
  obtain ⟨rfl, small⟩ := nextIndex_eq_ok next
  obtain ⟨rfl, rfl⟩ : u.tests.size = index ∧ { u with tests := u.tests.push ⟨test, i⟩ } = t' := by
    simpa using made
  refine ⟨adds.trans ⟨{ Below.refl u with tests := .push }, rfl, ?_, fun _ => small⟩,
    ?_⟩
  · intro sound
    refine { sound with tests := ?_ }
    intro e mem
    rcases Array.mem_push.mp mem with mem | rfl
    · exact sound.tests e mem
    · exact lt_of_idxOf? found
  · intro v below
    rw [below.indexOf found]
    exact below.tests _ _ Array.getElem?_push_size

theorem addScan_eq_ok {test : CharTest} {least : Nat}
    (ok : t.addScan test least label = .ok (index, t')) :
    Adds t t' index ∧
      ∀ u, t'.Below u → u.scans[index]? = some ⟨test, least, u.indexOf label⟩ := by
  obtain ⟨⟨i, u⟩, interned, ok⟩ := bind_eq_ok.mp ok
  obtain ⟨adds, found, -⟩ := internLabel_eq_ok interned
  obtain ⟨n, next, made⟩ := bind_eq_ok.mp ok
  obtain ⟨rfl, small⟩ := nextIndex_eq_ok next
  obtain ⟨rfl, rfl⟩ : u.scans.size = index ∧
      { u with scans := u.scans.push ⟨test, least, i⟩ } = t' := by simpa using made
  refine ⟨adds.trans ⟨{ Below.refl u with scans := .push }, rfl, ?_, fun _ => small⟩,
    ?_⟩
  · intro sound
    refine { sound with scans := ?_ }
    intro e mem
    rcases Array.mem_push.mp mem with mem | rfl
    · exact sound.scans e mem
    · exact lt_of_idxOf? found
  · intro v below
    rw [below.indexOf found]
    exact below.scans _ _ Array.getElem?_push_size

theorem addArity_eq_ok {least : Nat} (ok : t.addArity least label = .ok (index, t')) :
    Adds t t' index ∧
      ∀ u, t'.Below u → u.arities[index]? = some ⟨least, u.indexOf label⟩ := by
  obtain ⟨⟨i, u⟩, interned, ok⟩ := bind_eq_ok.mp ok
  obtain ⟨adds, found, -⟩ := internLabel_eq_ok interned
  obtain ⟨n, next, made⟩ := bind_eq_ok.mp ok
  obtain ⟨rfl, small⟩ := nextIndex_eq_ok next
  obtain ⟨rfl, rfl⟩ : u.arities.size = index ∧
      { u with arities := u.arities.push ⟨least, i⟩ } = t' := by simpa using made
  refine ⟨adds.trans ⟨{ Below.refl u with arities := .push }, rfl, ?_, fun _ => small⟩,
    ?_⟩
  · intro sound
    refine { sound with arities := ?_ }
    intro e mem
    rcases Array.mem_push.mp mem with mem | rfl
    · exact sound.arities e mem
    · exact lt_of_idxOf? found
  · intro v below
    rw [below.indexOf found]
    exact below.arities _ _ Array.getElem?_push_size

theorem addValue_eq_ok {value : Datum} (ok : t.addValue value = .ok (index, t')) :
    Adds t t' index ∧ t'.values[index]? = some value := by
  obtain ⟨n, next, made⟩ := bind_eq_ok.mp ok
  obtain ⟨rfl, small⟩ := nextIndex_eq_ok next
  obtain ⟨rfl, rfl⟩ : t.values.size = index ∧ { t with values := t.values.push value } = t' := by
    simpa using made
  refine ⟨⟨{ Below.refl t with values := .push }, rfl, fun sound => ?_, fun _ => small⟩,
    Array.getElem?_push_size⟩
  have more : t.values.size ≤ (t.values.push value).size := Begins.push.size
  exact { sound with literals := fun e mem => Nat.lt_of_lt_of_le (sound.literals e mem) more }

theorem addTransform_eq_ok {f : Transform} (ok : t.addTransform f = .ok (index, t')) :
    Adds t t' index ∧ t'.transforms[index]? = some f := by
  obtain ⟨n, next, made⟩ := bind_eq_ok.mp ok
  obtain ⟨rfl, small⟩ := nextIndex_eq_ok next
  obtain ⟨rfl, rfl⟩ : t.transforms.size = index ∧
      { t with transforms := t.transforms.push f } = t' := by simpa using made
  exact ⟨⟨{ Below.refl t with transforms := .push }, rfl, fun sound => { sound with }, fun _ => small⟩,
    Array.getElem?_push_size⟩

theorem addCombiner_eq_ok {f : Combiner} (ok : t.addCombiner f = .ok (index, t')) :
    Adds t t' index ∧ t'.combiners[index]? = some f := by
  obtain ⟨n, next, made⟩ := bind_eq_ok.mp ok
  obtain ⟨rfl, small⟩ := nextIndex_eq_ok next
  obtain ⟨rfl, rfl⟩ : t.combiners.size = index ∧
      { t with combiners := t.combiners.push f } = t' := by simpa using made
  exact ⟨⟨{ Below.refl t with combiners := .push }, rfl, fun sound => { sound with }, fun _ => small⟩,
    Array.getElem?_push_size⟩

theorem addLiteral_eq_ok {text : String} {anyCase : Bool} {value : Datum}
    (ok : t.addLiteral text anyCase value = .ok (index, t')) :
    Adds t t' index ∧ ∃ i, t'.literals[index]? = some ⟨text.toList, anyCase, i⟩ ∧
      t'.values[i]? = some value := by
  obtain ⟨⟨i, u⟩, added, ok⟩ := bind_eq_ok.mp ok
  obtain ⟨adds, found⟩ := addValue_eq_ok added
  obtain ⟨n, next, made⟩ := bind_eq_ok.mp ok
  obtain ⟨rfl, small⟩ := nextIndex_eq_ok next
  obtain ⟨rfl, rfl⟩ : u.literals.size = index ∧
      { u with literals := u.literals.push ⟨text.toList, anyCase, i⟩ } = t' := by simpa using made
  refine ⟨adds.trans ⟨{ Below.refl u with literals := .push }, rfl, fun sound => ?_,
    fun _ => small⟩, i, Array.getElem?_push_size, found⟩
  refine { sound with literals := ?_ }
  intro e mem
  rcases Array.mem_push.mp mem with mem | rfl
  · exact sound.literals e mem
  · exact (Array.getElem?_eq_some_iff.mp found).1

/-! ## Subroutines -/

/-- A reserved subroutine is the last one, and has its label. -/
theorem addSubroutine_eq_ok (ok : t.addSubroutine label = .ok (index, t')) :
    t.Below t' ∧ (t.Sound → t'.Sound) ∧ index = t.subroutines.size ∧ index < Word.operandLimit ∧
      ∃ i, t'.labels.idxOf? label = some i ∧
        t'.subroutines = t.subroutines.push ⟨⟨0, 0⟩, i⟩ := by
  obtain ⟨⟨i, u⟩, interned, ok⟩ := bind_eq_ok.mp ok
  obtain ⟨adds, found, -⟩ := internLabel_eq_ok interned
  obtain ⟨n, next, made⟩ := bind_eq_ok.mp ok
  obtain ⟨rfl, small⟩ := nextIndex_eq_ok next
  obtain ⟨rfl, rfl⟩ : u.subroutines.size = index ∧
      { u with subroutines := u.subroutines.push ⟨⟨0, 0⟩, i⟩ } = t' := by simpa using made
  have more : u.Below { u with subroutines := u.subroutines.push ⟨⟨0, 0⟩, i⟩ } :=
    { Below.refl u with subroutines := Begins.push.size }
  refine ⟨adds.below.trans more, ?_, by rw [adds.subroutines], small, i, found,
    by rw [adds.subroutines]⟩
  intro sound
  have sound := adds.sound sound
  refine { sound with subroutines := ?_, subroutines_fit := ?_ }
  · intro e mem
    rcases Array.mem_push.mp mem with mem | rfl
    · exact sound.subroutines e mem
    · exact lt_of_idxOf? found
  · simpa using Nat.succ_le_of_lt small

theorem below_placeSubroutine {range : CodeRange} : t.Below (t.placeSubroutine index range) :=
  { Below.refl t with subroutines := by simp [placeSubroutine] }

theorem getElem?_placeSubroutine {range : CodeRange} (i : Nat) :
    (t.placeSubroutine index range).subroutines[i]? =
      if index = i then t.subroutines[i]?.map ({ · with range }) else t.subroutines[i]? := by
  rw [placeSubroutine, Array.getElem?_modify]

theorem Sound.placeSubroutine {range : CodeRange} (sound : t.Sound) :
    (t.placeSubroutine index range).Sound := by
  refine { sound with subroutines := ?_, subroutines_fit := ?_ }
  · intro e mem
    obtain ⟨i, inside, rfl⟩ := Array.mem_iff_getElem.mp mem
    simp only [Tables.placeSubroutine, Array.size_modify] at inside ⊢
    have known : t.subroutines[i].label < t.labels.size :=
      sound.subroutines _ (Array.getElem_mem inside)
    rw [Array.getElem_modify]
    split <;> exact known
  · simpa [Tables.placeSubroutine] using sound.subroutines_fit

end Tables

end PegMachine
