/-
# PegMachine.Proofs.Casing — the case mappings of characters and of texts

The lower case of a text is that of its characters, put together, except where a capital
sigma ends a word (`EndsWord`). Of one character only the capital I with a dot has two for
its lower case. So a text is as long as its lower case, and agrees with it character by
character, just if it has neither (`lowerAfter_eq_map_iff`).

The lower and the upper case of a character, where it is one character, is its own: no image
of a table is changed by that table again (`lower_settled`, `upper_settled`). For the runs
this is checked pair by pair (`CaseRun.misses`), for the longer images one by one. Of a longer
image the first character is no case variant of the whole, that is, neither case of the one is
that of the other (`exists_foreign`).
-/
import PegMachine.Text.Case

namespace PegMachine.Text

set_option autoImplicit false

/-! ## Images -/

section Images

variable {long : List (Nat × List Nat)} {runs : List CaseRun} {c d : Char}

/-- The image of a character, by where it is found. -/
theorem mapCase_cases (long : List (Nat × List Nat)) (runs : List CaseRun) (c : Char) :
    (∃ image, (c.toNat, image) ∈ long ∧ mapCase long runs c = image.map Char.ofNat) ∨
      (∃ run ∈ runs, ∃ image, run.imageOf c.toNat = some image ∧
        mapCase long runs c = [Char.ofNat image]) ∨
      mapCase long runs c = [c] := by
  rw [mapCase]
  split
  · rename_i image found
    obtain ⟨before, behind, rfl, -⟩ := List.lookup_eq_some_iff.mp found
    exact .inl ⟨image, by simp, rfl⟩
  · split
    · rename_i image found
      obtain ⟨run, mem, images⟩ := List.exists_of_findSome?_eq_some found
      exact .inr (.inl ⟨run, mem, image, images, rfl⟩)
    · exact .inr (.inr rfl)

/-- A character that stands in neither table is its own image. -/
theorem mapCase_of_absent (short : ∀ entry ∈ long, entry.1 ≠ c.toNat)
    (outside : ∀ run ∈ runs, run.imageOf c.toNat = none) : mapCase long runs c = [c] := by
  have none_long : long.lookup c.toNat = none := by
    rw [List.lookup_eq_none_iff]
    intro entry mem
    rw [bne_iff_ne]
    exact (short entry mem).symm
  have none_run : runs.findSome? (·.imageOf c.toNat) = none := List.findSome?_eq_none_iff.mpr outside
  rw [mapCase, none_long]
  simp only [none_run]

theorem length_mapCase (short : long.lookup c.toNat = none) : (mapCase long runs c).length = 1 := by
  rw [mapCase, short]
  dsimp only
  split <;> rfl

/-- Runs that do not hold the character can be left out. -/
theorem mapCase_filter {near : CaseRun → Bool}
    (holds : ∀ run ∈ runs, ∀ image, run.imageOf c.toNat = some image → near run = true) :
    mapCase long runs c = mapCase long (runs.filter near) c := by
  have same : runs.findSome? (·.imageOf c.toNat) =
      (runs.filter near).findSome? (·.imageOf c.toNat) := by
    induction runs with
    | nil => rfl
    | cons run rest ih =>
        have others := ih fun other mem => holds other (.tail _ mem)
        rw [List.findSome?_cons]
        cases found : run.imageOf c.toNat with
        | some image =>
            have kept := holds run (.head _) image found
            rw [List.filter_cons_of_pos kept, List.findSome?_cons, found]
        | none =>
            cases kept : near run with
            | true => rw [List.filter_cons_of_pos kept, List.findSome?_cons, found, others]
            | false => rw [List.filter_cons_of_neg (by rw [kept]; decide), others]
  rw [mapCase, mapCase, same]

end Images

/-! ## Settled tables -/

namespace CaseRun

/-- The last image of a run. -/
def lastImage (run : CaseRun) : Nat := run.image + (run.last - run.first)

/-- All images of a run are characters. -/
def valid (run : CaseRun) : Bool :=
  run.lastImage.blt 0xd800 || (Nat.blt 0xdfff run.image && run.lastImage.blt 0x110000)

/-- A code point is no image of the run, because it lies before them or behind. -/
def passes (run : CaseRun) (code : Nat) : Bool := code.blt run.image || run.lastImage.blt code

/-- A code point lies between the first and the last of the run. -/
def spans (run : CaseRun) (code : Nat) : Bool := run.first.ble code && code.ble run.last

/-- No image of the run belongs to the other: they lie apart, or on different steps. -/
def misses (run other : CaseRun) : Bool :=
  run.lastImage.blt other.first || (other.last.blt run.image ||
    ((run.first == run.last || run.stride % other.stride == 0) &&
      run.image % other.stride != other.first % other.stride))

variable {run other : CaseRun} {code image : Nat}

theorem imageOf_eq_some (found : run.imageOf code = some image) :
    ∃ offset, image = run.image + offset ∧ offset ≤ run.last - run.first ∧ run.stride ∣ offset := by
  simp only [imageOf, Option.ite_none_right_eq_some, Option.some.injEq] at found
  obtain ⟨⟨low, high, step⟩, rfl⟩ := found
  exact ⟨code - run.first, rfl, by omega, Nat.dvd_of_mod_eq_zero step⟩

theorem toNat_image (valid : run.valid = true) (found : run.imageOf code = some image) :
    (Char.ofNat image).toNat = image := by
  obtain ⟨offset, rfl, near, -⟩ := imageOf_eq_some found
  have char : (run.image + offset).isValidChar := by
    simp only [CaseRun.valid, lastImage, Bool.or_eq_true, Bool.and_eq_true, Nat.blt_eq] at valid
    rcases valid with low | ⟨high, low⟩
    · exact .inl (by omega)
    · exact .inr ⟨by omega, by omega⟩
  rw [Char.ofNat, dif_pos char]
  exact UInt32.toNat_ofNatLT

theorem image_ne_of_passes (passes : run.passes code = true) {code' : Nat}
    (found : run.imageOf code' = some image) : code ≠ image := by
  obtain ⟨offset, rfl, near, -⟩ := imageOf_eq_some found
  simp only [CaseRun.passes, lastImage, Bool.or_eq_true, Nat.blt_eq] at passes
  omega

theorem imageOf_of_misses (misses : run.misses other = true) (found : run.imageOf code = some image) :
    other.imageOf image = none := by
  obtain ⟨offset, rfl, near, step⟩ := imageOf_eq_some found
  simp only [imageOf, ite_eq_right_iff, reduceCtorEq, imp_false]
  rintro ⟨low, high, within⟩
  simp only [CaseRun.misses, lastImage, Bool.or_eq_true, Bool.and_eq_true, Nat.blt_eq,
    beq_iff_eq, bne_iff_ne, ne_eq] at misses
  rcases misses with before | behind | ⟨steps, differs⟩
  · omega
  · omega
  -- The offset is a number of steps of the other run, so the image would be on a step of it.
  have dvd : other.stride ∣ offset := by
    rcases steps with one | steps
    · exact ⟨0, by omega⟩
    · exact Nat.dvd_trans (Nat.dvd_of_mod_eq_zero steps) step
  obtain ⟨n, rfl⟩ := dvd
  obtain ⟨m, apart⟩ := Nat.dvd_of_mod_eq_zero within
  refine differs ?_
  have same : run.image + other.stride * n = other.first + other.stride * m := by omega
  rw [← Nat.add_mul_mod_self_left run.image other.stride n, same, Nat.add_mul_mod_self_left]

end CaseRun

/-- The images of the runs are characters that the table leaves as they are, and the other images
are longer. -/
structure Settled (long : List (Nat × List Nat)) (runs : List CaseRun) : Prop where
  longer : (long.all fun entry => Nat.blt 1 entry.2.length) = true
  valid : runs.all CaseRun.valid = true
  short : (runs.all fun run => long.all fun entry => run.passes entry.1) = true
  apart : (runs.all fun run => runs.all run.misses) = true

/-- An image that is one character is its own image. -/
theorem Settled.mapCase_image {long : List (Nat × List Nat)} {runs : List CaseRun} {c d : Char}
    (settled : Settled long runs) (one : mapCase long runs c = [d]) : mapCase long runs d = [d] := by
  obtain ⟨longer, valid, short, apart⟩ := settled
  simp only [List.all_eq_true, Nat.blt_eq] at longer valid short apart
  rcases mapCase_cases long runs c with ⟨image, mem, maps⟩ | ⟨run, mem, image, found, maps⟩ | same
  · have several : 1 < image.length := longer _ mem
    have length := congrArg List.length (one.symm.trans maps)
    rw [List.length_map, List.length_singleton] at length
    omega
  · obtain rfl := (List.cons.inj (one.symm.trans maps)).1
    have code := CaseRun.toNat_image (valid run mem) found
    apply mapCase_of_absent
    · intro entry listed
      rw [code]
      exact CaseRun.image_ne_of_passes (short run mem entry listed) found
    · intro other listed
      rw [code]
      exact CaseRun.imageOf_of_misses (apart run mem other listed) found
  · obtain rfl := (List.cons.inj (one.symm.trans same)).1
    exact one

theorem settled_lower : Settled lowerLong lowerRuns :=
  ⟨by decide +kernel, by decide +kernel, by decide +kernel, by decide +kernel⟩

theorem settled_upper : Settled upperLong upperRuns :=
  ⟨by decide +kernel, by decide +kernel, by decide +kernel, by decide +kernel⟩

/-! ## Characters -/

/-- What holds for the 128 codes of ASCII holds for its characters. -/
theorem forall_ascii {property : Char → Prop} (all : ∀ code < 128, property (Char.ofNat code)) {c : Char}
    (ascii : c.toNat < 128) : property c := by
  have := all c.toNat ascii
  rwa [Char.ofNat_toNat] at this

/-- The runs that begin with an ASCII character. -/
def asciiRuns (runs : List CaseRun) : List CaseRun := runs.filter (·.first.blt 128)

theorem mapCase_ascii (long : List (Nat × List Nat)) (runs : List CaseRun) {c : Char}
    (ascii : c.toNat < 128) : mapCase long runs c = mapCase long (asciiRuns runs) c := by
  apply mapCase_filter
  intro run _ image found
  simp only [CaseRun.imageOf, Option.ite_none_right_eq_some] at found
  rw [Nat.blt_eq]
  omega

theorem lower_eq_mapCase (c : Char) : lower c = mapCase lowerLong lowerRuns c := by
  rw [lower]
  split
  · rename_i ascii
    rw [mapCase_ascii _ _ ascii, show asciiRuns lowerRuns = [⟨65, 90, 1, 97⟩] from rfl]
    exact @forall_ascii (fun c => [c.toLower] = mapCase lowerLong [⟨65, 90, 1, 97⟩] c)
      (by decide +kernel) c ascii
  · rfl

theorem upper_eq_mapCase (c : Char) : upper c = mapCase upperLong upperRuns c := by
  rw [upper]
  split
  · rename_i ascii
    rw [mapCase_ascii _ _ ascii, show asciiRuns upperRuns = [⟨97, 122, 1, 65⟩] from rfl]
    exact @forall_ascii (fun c => [c.toUpper] = mapCase upperLong [⟨97, 122, 1, 65⟩] c)
      (by decide +kernel) c ascii
  · rfl

/-- The lower case of a character, if it is one character, is its own lower case. -/
theorem lower_settled {c d : Char} (one : lower c = [d]) : lower d = [d] := by
  rw [lower_eq_mapCase] at one ⊢
  exact settled_lower.mapCase_image one

theorem upper_settled {c d : Char} (one : upper c = [d]) : upper d = [d] := by
  rw [upper_eq_mapCase] at one ⊢
  exact settled_upper.mapCase_image one

/-- The only character with a longer lower case. -/
theorem eq_dotted {c : Char} {image : List Nat} (mem : (c.toNat, image) ∈ lowerLong) : c = 'İ' := by
  rw [lowerLong, List.mem_singleton, Prod.mk.injEq] at mem
  exact Char.toNat_inj.mp mem.1

theorem lower_dotted : lower 'İ' = ['i', '\u0307'] := by decide

/-- All others have one character for their lower case. -/
theorem lower_eq_fold {c : Char} (other : c ≠ 'İ') : lower c = [fold c] := by
  rw [fold, lower_eq_mapCase]
  rcases mapCase_cases lowerLong lowerRuns c with ⟨image, mem, -⟩ | ⟨-, -, image, -, maps⟩ | same
  · exact absurd (eq_dotted mem) other
  · rw [maps, List.headD_cons]
  · rw [same, List.headD_cons]

/-! ## Variants -/

/-- A character is a case variant of another if their lower cases are equal or their upper cases. -/
def Variant (c x : Char) : Prop := x = c ∨ lower x = lower c ∨ upper x = upper c

instance (c x : Char) : Decidable (Variant c x) := inferInstanceAs (Decidable (_ ∨ _ ∨ _))

/-- The image of a code point in the table for lower case, looked up only in the runs around it. -/
def lowerNear (code : Nat) : List Char :=
  mapCase lowerLong (lowerRuns.filter (·.spans code)) (Char.ofNat code)

theorem lower_eq_lowerNear (c : Char) : lower c = lowerNear c.toNat := by
  rw [lower_eq_mapCase, lowerNear, Char.ofNat_toNat]
  apply mapCase_filter
  intro run _ image found
  simp only [CaseRun.imageOf, Option.ite_none_right_eq_some] at found
  rw [CaseRun.spans, Bool.and_eq_true, Nat.ble_eq, Nat.ble_eq]
  exact ⟨found.1.1, found.1.2.1⟩

/-- Every longer upper case begins with a character whose upper case is not longer and whose lower
case is another. -/
theorem upperLong_foreign : (upperLong.all fun entry => entry.2.head?.any fun first =>
    (upperLong.lookup (Char.ofNat first).toNat).isNone &&
      lowerNear (Char.ofNat first).toNat != lowerNear entry.1) = true := by
  decide +kernel

/-- If one of the cases of a character is longer, it contains a character that is no variant. -/
theorem exists_foreign {c : Char} (longer : (lower c).length ≠ 1 ∨ (upper c).length ≠ 1) :
    ∃ x ∈ lower c ++ upper c, ¬ Variant c x := by
  rcases longer with longer | longer
  · have dotted : c = 'İ' := by
      apply Decidable.byContradiction
      intro other
      rw [lower_eq_fold other] at longer
      exact longer rfl
    subst dotted
    exact ⟨'i', by decide, by decide⟩
  · rcases mapCase_cases upperLong upperRuns c with ⟨image, mem, maps⟩ | ⟨-, -, image, -, maps⟩ | maps
    all_goals rw [← upper_eq_mapCase] at maps
    · have checked := List.all_eq_true.mp upperLong_foreign _ mem
      cases image with
      | nil => nomatch checked
      | cons first rest =>
          simp only [List.head?_cons, Option.any_some, Bool.and_eq_true, bne_iff_ne,
            Option.isNone_iff_eq_none, ← lower_eq_lowerNear] at checked
          obtain ⟨short, differs⟩ := checked
          have own : (upper (Char.ofNat first)).length = 1 := by
            rw [upper_eq_mapCase, length_mapCase short]
          refine ⟨Char.ofNat first, by simp [maps], ?_⟩
          rintro (rfl | same | same)
          · exact longer own
          · exact differs same
          · exact longer (same ▸ own)
    · exact absurd (by rw [maps]; rfl) longer
    · exact absurd (by rw [maps]; rfl) longer

/-- What case mapping yields for a character are variants of it just if neither case is longer. -/
theorem variants_iff (c : Char) :
    (∀ x ∈ lower c ++ upper c, Variant c x) ↔ (lower c).length = 1 ∧ (upper c).length = 1 := by
  constructor
  · intro variants
    apply Decidable.byContradiction
    intro longer
    obtain ⟨x, mem, foreign⟩ := exists_foreign (Decidable.not_and_iff_or_not.mp longer)
    exact foreign (variants x mem)
  · rintro ⟨one, one'⟩ x mem
    obtain ⟨l, maps⟩ := List.length_eq_one_iff.mp one
    obtain ⟨u, maps'⟩ := List.length_eq_one_iff.mp one'
    rw [maps, maps'] at mem
    rcases List.mem_cons.mp mem with rfl | mem
    · exact .inr (.inl ((lower_settled maps).trans maps.symm))
    · obtain rfl := List.mem_singleton.mp mem
      exact .inr (.inr ((upper_settled maps').trans maps'.symm))

/-! ## Texts -/

/-- A capital sigma of the text ends a word, given what stands before the text (nearest first). -/
def EndsWord (before text : List Char) : Prop :=
  ∃ front rest, text = front ++ 'Σ' :: rest ∧ meetsCased (front.reverse ++ before) = true ∧
    meetsCased rest = false

theorem endsWord_cons (before : List Char) (c : Char) (rest : List Char) :
    EndsWord before (c :: rest) ↔
      (c = 'Σ' ∧ meetsCased before = true ∧ meetsCased rest = false) ∨ EndsWord (c :: before) rest := by
  constructor
  · rintro ⟨front, behind, split, cased, free⟩
    cases front with
    | nil =>
        obtain ⟨rfl, rfl⟩ := List.cons.inj split
        exact .inl ⟨rfl, cased, free⟩
    | cons first front =>
        obtain ⟨rfl, rfl⟩ := List.cons.inj split
        rw [List.reverse_cons, List.append_assoc] at cased
        exact .inr ⟨front, behind, rfl, cased, free⟩
  · rintro (⟨rfl, cased, free⟩ | ⟨front, behind, rfl, cased, free⟩)
    · exact ⟨[], rest, rfl, cased, free⟩
    · refine ⟨c :: front, behind, rfl, ?_, free⟩
      rwa [List.reverse_cons, List.append_assoc]

theorem not_endsWord_nil (before : List Char) : ¬ EndsWord before [] := by
  rintro ⟨front, rest, split, -⟩
  cases front <;> nomatch split

instance decidableEndsWord : (before text : List Char) → Decidable (EndsWord before text)
  | before, [] => .isFalse (not_endsWord_nil before)
  | before, c :: rest =>
    have := decidableEndsWord (c :: before) rest
    decidable_of_iff _ (endsWord_cons before c rest).symm

/-- The lower case of a character between what stands before it and what follows. -/
def lowerWithin (before : List Char) (c : Char) (rest : List Char) : List Char :=
  if c = 'Σ' then if meetsCased before && !meetsCased rest then ['ς'] else ['σ'] else lower c

theorem lowerAfter_cons (before : List Char) (c : Char) (rest : List Char) :
    lowerAfter before (c :: rest) = lowerWithin before c rest ++ lowerAfter (c :: before) rest := rfl

theorem fold_sigma : fold 'Σ' = 'σ' := by decide

/-- The neighbours matter only to a capital sigma. -/
theorem lowerWithin_eq (before rest : List Char) {c : Char} (other : c ≠ 'İ') :
    lowerWithin before c rest =
      [if c = 'Σ' ∧ meetsCased before = true ∧ meetsCased rest = false then 'ς' else fold c] := by
  rw [lowerWithin]
  by_cases sigma : c = 'Σ'
  · subst sigma
    rw [fold_sigma]
    cases meetsCased before <;> cases meetsCased rest <;> rfl
  · rw [if_neg sigma, if_neg fun both => sigma both.1, lower_eq_fold other]

/-- The lower case of a text has one more character for each capital I with a dot. -/
theorem length_lowerAfter (before text : List Char) :
    (lowerAfter before text).length = text.length + text.count 'İ' := by
  induction text generalizing before with
  | nil => rfl
  | cons c rest ih =>
      rw [lowerAfter_cons, List.length_append, ih, List.length_cons]
      by_cases dotted : c = 'İ'
      · subst dotted
        rw [lowerWithin, if_neg (by decide), lower_dotted, List.count_cons_self]
        simp only [List.length_cons, List.length_nil]
        omega
      · rw [lowerWithin_eq before rest dotted, List.length_singleton, List.count_cons_of_ne dotted]
        omega

/-- A text is lowered character by character just if it has no capital I with a dot and no capital
sigma that ends a word. -/
theorem lowerAfter_eq_map_iff (before text : List Char) :
    lowerAfter before text = text.map fold ↔ 'İ' ∉ text ∧ ¬ EndsWord before text := by
  induction text generalizing before with
  | nil => exact iff_of_true rfl ⟨List.not_mem_nil, not_endsWord_nil before⟩
  | cons c rest ih =>
      by_cases dotted : c = 'İ'
      · subst dotted
        refine iff_of_false ?_ fun none => none.1 (.head _)
        intro same
        have length := congrArg List.length same
        rw [length_lowerAfter, List.length_map, List.count_cons_self] at length
        omega
      · rw [lowerAfter_cons, lowerWithin_eq before rest dotted, List.singleton_append, List.map_cons,
          List.cons.injEq, ih, endsWord_cons, List.mem_cons, not_or, not_or]
        by_cases final : c = 'Σ' ∧ meetsCased before = true ∧ meetsCased rest = false
        · refine iff_of_false ?_ fun none => none.2.1 final
          rintro ⟨same, -⟩
          rw [if_pos final, final.1, fold_sigma] at same
          exact absurd same (by decide)
        · rw [if_neg final]
          exact ⟨fun ⟨_, absent, inner⟩ => ⟨⟨Ne.symm dotted, absent⟩, final, inner⟩,
            fun ⟨⟨_, absent⟩, _, inner⟩ => ⟨rfl, absent, inner⟩⟩

end PegMachine.Text
