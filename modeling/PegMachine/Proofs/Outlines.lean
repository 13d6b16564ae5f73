/-
# PegMachine.Proofs.Outlines — an outline expands every expression once

An outline is walked with a bound on how deeply expansions nest. `Traverses` says what the walk
is without one: expressions are listed from the left, each followed by what it refers to, unless
it has been expanded before. Every walk comes to an end in this sense, since each expansion takes
one of the finitely many expressions that have not been expanded (`traverses_walkAll`); it has one
outcome only (`Traverses.unique`), and so any greater bound gives the same outline.

What has been expanded is what there are entries for (`Traverses.mem_iff`). So the first entry of
an expression that refers to others expands it and every later one is marked (`Traverses.marked`,
`Marked.first`), and the entries are those of the expression that the outline starts from and, for
each expression that is expanded, of the ones that it refers to (`Lists.perm`). Expanded are the
expressions that can be reached and refer to others (`Traverses.mem_expansions_iff`), and that tells
how many entries there are (`ExpandsOnce`).
-/
import PegMachine.Grammar.Outline
import PegMachine.Proofs.Lowering.Reaches

namespace PegMachine.Grammar

set_option autoImplicit false

/-! ## Walks without a bound -/

/-- Expressions are listed one after the other, at one depth. `expanded` have been expanded before
and `expanded'` have been behind them. -/
inductive Traverses (g : Grammar) :
    (depth : Nat) → (expanded refs : List Ref) → List OutlineEntry → (expanded' : List Ref) → Prop
  | done (depth : Nat) (expanded : List Ref) : Traverses g depth expanded [] [] expanded
  /-- An expression that refers to no other. -/
  | leaf {depth : Nat} {expanded refs expanded' : List Ref} {r : Ref} {entries : List OutlineEntry}
      (alone : (g.expression r).children = []) (rest : Traverses g depth expanded refs entries expanded') :
      Traverses g depth expanded (r :: refs) (⟨depth, r, false⟩ :: entries) expanded'
  | again {depth : Nat} {expanded refs expanded' : List Ref} {r : Ref} {entries : List OutlineEntry}
      (compound : (g.expression r).children ≠ []) (before : r ∈ expanded)
      (rest : Traverses g depth expanded refs entries expanded') :
      Traverses g depth expanded (r :: refs) (⟨depth, r, true⟩ :: entries) expanded'
  | expand {depth : Nat} {expanded refs expanded₁ expanded' : List Ref} {r : Ref}
      {nested entries : List OutlineEntry} (compound : (g.expression r).children ≠ []) (new : r ∉ expanded)
      (inner : Traverses g (depth + 1) (r :: expanded) (g.expression r).children nested expanded₁)
      (rest : Traverses g depth expanded₁ refs entries expanded') :
      Traverses g depth expanded (r :: refs) (⟨depth, r, false⟩ :: (nested ++ entries)) expanded'

section Traverses

variable {g : Grammar} {depth : Nat} {expanded refs expanded' expanded₁ : List Ref}
  {entries entries₁ front back : List OutlineEntry} {e : OutlineEntry} {r : Ref}

/-- Nothing but the grammar and what has been expanded tells what comes out. -/
theorem Traverses.unique (walk : g.Traverses depth expanded refs entries expanded')
    (walk' : g.Traverses depth expanded refs entries₁ expanded₁) :
    entries = entries₁ ∧ expanded' = expanded₁ := by
  induction walk generalizing entries₁ expanded₁ with
  | done =>
      cases walk'
      exact ⟨rfl, rfl⟩
  | leaf alone _ ih =>
      cases walk' with
      | leaf _ rest =>
          obtain ⟨rfl, rfl⟩ := ih rest
          exact ⟨rfl, rfl⟩
      | again compound | expand compound => exact absurd alone compound
  | again compound before _ ih =>
      cases walk' with
      | again _ _ rest =>
          obtain ⟨rfl, rfl⟩ := ih rest
          exact ⟨rfl, rfl⟩
      | leaf alone => exact absurd alone compound
      | expand _ new => exact absurd before new
  | expand compound new _ _ ihInner ih =>
      cases walk' with
      | expand _ _ inner rest =>
          obtain ⟨rfl, rfl⟩ := ihInner inner
          obtain ⟨rfl, rfl⟩ := ih rest
          exact ⟨rfl, rfl⟩
      | leaf alone => exact absurd alone compound
      | again _ before => exact absurd before new

/-- Of the expressions that refer to others, those have been expanded that have an entry. -/
theorem Traverses.mem_iff (walk : g.Traverses depth expanded refs entries expanded')
    (compound : (g.expression r).children ≠ []) :
    r ∈ expanded' ↔ r ∈ expanded ∨ r ∈ entries.map (·.ref) := by
  induction walk with
  | done => simp
  | @leaf _ _ _ _ s _ alone _ ih =>
      have other : r ≠ s := by
        rintro rfl
        exact compound alone
      simp [ih, other]
  | again _ before _ ih =>
      rw [ih, List.map_cons, List.mem_cons]
      constructor
      · exact Or.imp_right .inr
      · rintro (known | rfl | mem)
        · exact .inl known
        · exact .inl before
        · exact .inr mem
  | expand _ _ _ _ ihInner ih =>
      rw [ih, ihInner]
      simp only [List.map_cons, List.map_append, List.mem_cons, List.mem_append, or_assoc, or_left_comm]

end Traverses

/-! ## Which entries are marked -/

/-- Behind entries for `met`, those of further entries are marked that refer to others and have been
met, in `met` or further up. -/
def Marked (g : Grammar) : (met : List Ref) → List OutlineEntry → Prop
  | _, [] => True
  | met, e :: entries =>
    (e.seen = true ↔ (g.expression e.ref).children ≠ [] ∧ e.ref ∈ met) ∧ Marked g (met ++ [e.ref]) entries

section Marked

variable {g : Grammar} {met met' : List Ref} {entries front back : List OutlineEntry} {e : OutlineEntry}

theorem marked_append :
    g.Marked met (front ++ back) ↔ g.Marked met front ∧ g.Marked (met ++ front.map (·.ref)) back := by
  induction front generalizing met with
  | nil => simp [Marked]
  | cons e front ih => simp [Marked, ih, and_assoc]

/-- Only expressions that refer to others count. -/
theorem Marked.congr (marked : g.Marked met entries)
    (same : ∀ r, (g.expression r).children ≠ [] → (r ∈ met ↔ r ∈ met')) : g.Marked met' entries := by
  induction entries generalizing met met' with
  | nil => trivial
  | cons e entries ih =>
      refine ⟨?_, ih marked.2 fun r compound => ?_⟩
      · rw [marked.1]
        exact and_congr_right (same e.ref)
      · simp [same r compound]

theorem Marked.seen_iff (marked : g.Marked [] (front ++ e :: back)) :
    e.seen = true ↔ (g.expression e.ref).children ≠ [] ∧ e.ref ∈ front.map (·.ref) :=
  (marked_append.mp marked).2.1

/-- The first entry of an expression that refers to others is not marked, and all others are. -/
theorem Marked.first (marked : g.Marked [] entries) {r : Ref} (compound : (g.expression r).children ≠ [])
    (mem : r ∈ entries.map (·.ref)) : ∃ front depth back, entries = front ++ ⟨depth, r, false⟩ :: back ∧
      r ∉ front.map (·.ref) ∧ ∀ e ∈ back, e.ref = r → e.seen = true := by
  obtain ⟨before, behind, cut, fresh⟩ := List.eq_append_cons_of_mem mem
  obtain ⟨front, rest, rfl, rfl, others⟩ := List.map_eq_append_iff.mp cut
  obtain ⟨e, back, rfl, rfl, rfl⟩ := List.map_eq_cons_iff.mp others
  have shown : e.seen = false := by
    rw [← Bool.not_eq_true, marked.seen_iff]
    exact fun again => fresh again.2
  refine ⟨front, e.depth, back, by rw [← shown], fresh, fun f mem same => ?_⟩
  obtain ⟨between, last, rfl⟩ := List.append_of_mem mem
  have further : g.Marked [] ((front ++ e :: between) ++ f :: last) := by simpa using marked
  exact further.seen_iff.mpr ⟨same ▸ compound, by simp [same]⟩

theorem Traverses.marked {depth : Nat} {expanded refs expanded' : List Ref}
    (walk : g.Traverses depth expanded refs entries expanded') : g.Marked expanded entries := by
  induction walk with
  | done => trivial
  | @leaf _ _ _ _ s _ alone _ ih =>
      refine ⟨by simp [alone], ih.congr fun r compound => ?_⟩
      have other : r ≠ s := by
        rintro rfl
        exact compound alone
      simp [other]
  | again compound before _ ih =>
      refine ⟨by simp [compound, before], ih.congr fun r _ => ?_⟩
      constructor
      · exact List.mem_append_left _
      · intro mem
        rcases List.mem_append.mp mem with mem | mem
        · exact mem
        · exact List.mem_singleton.mp mem ▸ before
  | expand compound new inner _ ihInner ih =>
      refine ⟨by simp [new], marked_append.mpr ⟨ihInner.congr fun r _ => ?_, ih.congr fun r compound => ?_⟩⟩
      · simp [or_comm]
      · rw [inner.mem_iff compound]
        simp [or_assoc, or_left_comm]

end Marked

/-! ## A walk comes to an end -/

/-- The expressions that refer to others and have not been expanded. -/
def unexpanded (g : Grammar) (expanded : List Ref) : Finset Ref :=
  (Finset.range g.size).filter fun r => !(g.expression r).children.isEmpty && !expanded.contains r

section Ends

variable {g : Grammar} {height depth : Nat} {expanded expanded' refs : List Ref} {r : Ref}

theorem mem_unexpanded :
    r ∈ g.unexpanded expanded ↔ (g.expression r).children ≠ [] ∧ r ∉ expanded := by
  simp only [unexpanded, Finset.mem_filter, Finset.mem_range, Bool.and_eq_true, Bool.not_eq_true',
    List.isEmpty_eq_false_iff, List.contains_eq_mem, decide_eq_false_iff_not]
  refine ⟨And.right, fun mem => ⟨inside_of_expression ?_, mem⟩⟩
  intro finish
  exact mem.1 (by rw [finish]; rfl)

/-- Each expansion leaves one expression less. -/
theorem unexpanded_cons (compound : (g.expression r).children ≠ []) (new : r ∉ expanded) :
    (g.unexpanded (r :: expanded)).card < (g.unexpanded expanded).card := by
  refine Finset.card_lt_card ⟨fun s mem => ?_, fun subset => ?_⟩
  · have mem := mem_unexpanded.mp mem
    exact mem_unexpanded.mpr ⟨mem.1, fun known => mem.2 (.tail _ known)⟩
  · exact (mem_unexpanded.mp (subset (mem_unexpanded.mpr ⟨compound, new⟩))).2 (.head _)

theorem unexpanded_le_size (g : Grammar) (expanded : List Ref) : (g.unexpanded expanded).card ≤ g.size := by
  have few := Finset.card_filter_le (Finset.range g.size)
    fun r => (!(g.expression r).children.isEmpty && !expanded.contains r) = true
  rwa [Finset.card_range] at few

/-- What has been expanded remains so. -/
theorem Traverses.unexpanded_le {entries : List OutlineEntry}
    (walk : g.Traverses depth expanded refs entries expanded') :
    (g.unexpanded expanded').card ≤ (g.unexpanded expanded).card := by
  refine Finset.card_le_card fun r mem => ?_
  obtain ⟨compound, new⟩ := mem_unexpanded.mp mem
  exact mem_unexpanded.mpr ⟨compound, fun known => new ((walk.mem_iff compound).mpr (.inl known))⟩

theorem walk_leaf (height depth : Nat) (expanded : List Ref) (alone : (g.expression r).children = []) :
    g.walk (height + 1) depth expanded r = ([⟨depth, r, false⟩], expanded) := by
  simp [walk, alone]

theorem walk_again (height depth : Nat) (compound : (g.expression r).children ≠ []) (before : r ∈ expanded) :
    g.walk (height + 1) depth expanded r = ([⟨depth, r, true⟩], expanded) := by
  simp [walk, compound, before]

theorem walk_expand (height depth : Nat) (compound : (g.expression r).children ≠ []) (new : r ∉ expanded) :
    g.walk (height + 1) depth expanded r =
      let walked := walkAll (g.walk height (depth + 1)) (r :: expanded) (g.expression r).children
      (⟨depth, r, false⟩ :: walked.1, walked.2) := by
  simp [walk, compound, new]

/-- The bound is not used up if it is greater than the number of expressions that can be expanded. -/
theorem traverses_walkAll (enough : (g.unexpanded expanded).card < height) (depth : Nat) (refs : List Ref) :
    g.Traverses depth expanded refs (walkAll (g.walk height depth) expanded refs).1
      (walkAll (g.walk height depth) expanded refs).2 := by
  induction height generalizing depth expanded refs with
  | zero => exact absurd enough (Nat.not_lt_zero _)
  | succ height ih =>
      induction refs generalizing expanded with
      | nil => exact .done depth expanded
      | cons r refs ihRefs =>
          rw [walkAll]
          by_cases alone : (g.expression r).children = []
          · rw [walk_leaf height depth expanded alone]
            exact .leaf alone (ihRefs enough)
          · by_cases before : r ∈ expanded
            · rw [walk_again height depth alone before]
              exact .again alone before (ihRefs enough)
            · rw [walk_expand height depth alone before]
              have inner := ih (Nat.lt_of_lt_of_le (unexpanded_cons alone before) (Nat.le_of_lt_succ enough))
                (depth + 1) (g.expression r).children
              have fewer := Nat.le_trans inner.unexpanded_le (Nat.le_of_lt (unexpanded_cons alone before))
              exact .expand alone before inner (ihRefs (Nat.lt_of_le_of_lt fewer enough))

/-- From one expression on a bound that is greater than the number of all expressions is enough. -/
theorem traverses_walk (root : Ref) (enough : g.size < height) :
    g.Traverses 0 [] [root] (g.walk height 0 [] root).1 (g.walk height 0 [] root).2 := by
  have walked := traverses_walkAll (Nat.lt_of_le_of_lt (g.unexpanded_le_size []) enough) 0 [root]
  simpa only [walkAll, List.append_nil] using walked

end Ends

/-! ## What is listed -/

/-- The entries that are expressions at one depth, where an entry that is not marked is followed by
entries for what it refers to. -/
inductive Lists (g : Grammar) : (depth : Nat) → List Ref → List OutlineEntry → Prop
  | done (depth : Nat) : Lists g depth [] []
  /-- A mark stands for an expansion further up. -/
  | again {depth : Nat} {r : Ref} {refs : List Ref} {entries : List OutlineEntry}
      (compound : (g.expression r).children ≠ []) (rest : Lists g depth refs entries) :
      Lists g depth (r :: refs) (⟨depth, r, true⟩ :: entries)
  | expand {depth : Nat} {r : Ref} {refs : List Ref} {nested entries : List OutlineEntry}
      (inner : Lists g (depth + 1) (g.expression r).children nested) (rest : Lists g depth refs entries) :
      Lists g depth (r :: refs) (⟨depth, r, false⟩ :: (nested ++ entries))

/-- The expressions that refer to others whose entries are not marked. -/
def expansions (g : Grammar) (entries : List OutlineEntry) : List Ref :=
  (entries.filter fun e => !e.seen && !(g.expression e.ref).children.isEmpty).map (·.ref)

section Lists

variable {g : Grammar} {depth : Nat} {expanded expanded' refs : List Ref}
  {entries front back : List OutlineEntry} {r : Ref}

theorem expansions_append : g.expansions (front ++ back) = g.expansions front ++ g.expansions back := by
  simp [expansions]

theorem expansions_again : g.expansions (⟨depth, r, true⟩ :: entries) = g.expansions entries := by
  simp [expansions]

theorem expansions_leaf (alone : (g.expression r).children = []) :
    g.expansions (⟨depth, r, false⟩ :: entries) = g.expansions entries := by
  simp [expansions, alone]

theorem expansions_expand (compound : (g.expression r).children ≠ []) :
    g.expansions (⟨depth, r, false⟩ :: entries) = r :: g.expansions entries := by
  simp [expansions, compound]

theorem mem_expansions : r ∈ g.expansions entries ↔
    (g.expression r).children ≠ [] ∧ ∃ e ∈ entries, e.seen = false ∧ e.ref = r := by
  simp only [expansions, List.mem_map, List.mem_filter, Bool.and_eq_true, Bool.not_eq_true',
    List.isEmpty_eq_false_iff]
  constructor
  · rintro ⟨e, ⟨mem, shown, compound⟩, rfl⟩
    exact ⟨compound, e, mem, shown, rfl⟩
  · rintro ⟨compound, e, mem, shown, rfl⟩
    exact ⟨e, ⟨mem, shown, compound⟩, rfl⟩

/-- An expansion has an entry. -/
theorem mem_of_mem_expansions (mem : r ∈ g.expansions entries) : r ∈ entries.map (·.ref) := by
  obtain ⟨-, e, listed, -, rfl⟩ := mem_expansions.mp mem
  exact List.mem_map_of_mem listed

/-- What refers to others and has an entry is expanded by the first one. -/
theorem Marked.mem_expansions (marked : g.Marked [] entries) (compound : (g.expression r).children ≠ [])
    (mem : r ∈ entries.map (·.ref)) : r ∈ g.expansions entries := by
  obtain ⟨front, depth, back, rfl, -, -⟩ := marked.first compound mem
  exact Grammar.mem_expansions.mpr ⟨compound, ⟨depth, r, false⟩, by simp, rfl, rfl⟩

theorem Traverses.lists (walk : g.Traverses depth expanded refs entries expanded') :
    g.Lists depth refs entries := by
  induction walk with
  | done depth => exact .done depth
  | @leaf depth _ _ _ r _ alone _ ih =>
      have nothing : g.Lists (depth + 1) (g.expression r).children [] := by
        rw [alone]
        exact .done _
      exact .expand nothing ih
  | again compound _ _ ih => exact .again compound ih
  | expand _ _ _ _ ihInner ih => exact .expand ihInner ih

/-- No expression is expanded twice, nor one that has been expanded before. -/
theorem Traverses.expansions_nodup (walk : g.Traverses depth expanded refs entries expanded') :
    (g.expansions entries).Nodup ∧ ∀ r ∈ g.expansions entries, r ∉ expanded := by
  induction walk with
  | done => exact ⟨.nil, fun r mem => by cases mem⟩
  | leaf alone _ ih => rwa [expansions_leaf alone]
  | again _ _ _ ih => rwa [expansions_again]
  | @expand _ expanded _ _ _ r nested entries compound new inner _ ihInner ih =>
      rw [expansions_expand compound, expansions_append]
      have before {s : Ref} (mem : s ∈ g.expansions entries) : s ∉ r :: expanded ∧ s ∉ nested.map (·.ref) := by
        have fresh := ih.2 s mem
        rwa [inner.mem_iff (mem_expansions.mp mem).1, not_or] at fresh
      refine ⟨List.nodup_cons.mpr ⟨fun mem => ?_, ?_⟩, fun s mem => ?_⟩
      · rcases List.mem_append.mp mem with mem | mem
        · exact ihInner.2 r mem (.head _)
        · exact (before mem).1 (.head _)
      · refine List.nodup_append.mpr ⟨ihInner.1, ih.1, ?_⟩
        rintro s mem t mem' rfl
        exact (before mem').2 (mem_of_mem_expansions mem)
      · rcases List.mem_cons.mp mem with rfl | mem
        · exact new
        · rcases List.mem_append.mp mem with mem | mem
          · exact fun known => ihInner.2 s mem (.tail _ known)
          · exact fun known => (before mem).1 (.tail _ known)

/-- There are entries for the expressions that are to be listed, and for what each expansion refers
to, and for nothing else. -/
theorem Lists.perm (lists : g.Lists depth refs entries) :
    (entries.map (·.ref)).Perm
      (refs ++ (g.expansions entries).flatMap fun r => (g.expression r).children) := by
  induction lists with
  | done => exact .nil
  | again _ _ ih =>
      rw [expansions_again]
      exact ih.cons _
  | @expand depth r refs nested entries inner rest ihInner ih =>
      rw [List.map_cons, List.map_append, List.cons_append]
      refine .cons r ((ihInner.append ih).trans ?_)
      by_cases alone : (g.expression r).children = []
      · rw [alone] at inner ⊢
        cases inner
        rw [expansions_leaf alone]
        exact .refl _
      · rw [expansions_expand alone, expansions_append, List.flatMap_cons, List.flatMap_append]
        have swapped := List.perm_append_comm_assoc
          ((g.expression r).children ++ (g.expansions nested).flatMap fun s => (g.expression s).children)
          refs ((g.expansions entries).flatMap fun s => (g.expression s).children)
        simpa only [List.append_assoc] using swapped

/-- Only what can be reached is listed. -/
theorem Lists.reaches (lists : g.Lists depth refs entries) (mem : r ∈ entries.map (·.ref)) :
    ∃ s ∈ refs, g.Reaches s r := by
  induction lists with
  | done => cases mem
  | again _ _ ih =>
      rcases List.mem_cons.mp mem with rfl | mem
      · exact ⟨_, .head _, .refl⟩
      · obtain ⟨s, mem, reaches⟩ := ih mem
        exact ⟨s, .tail _ mem, reaches⟩
  | @expand depth r refs nested entries inner rest ihInner ih =>
      rw [List.map_cons, List.map_append] at mem
      rcases List.mem_cons.mp mem with rfl | mem
      · exact ⟨_, .head _, .refl⟩
      · rcases List.mem_append.mp mem with mem | mem
        · obtain ⟨s, child, reaches⟩ := ihInner mem
          exact ⟨r, .head _, .head child reaches⟩
        · obtain ⟨s, mem, reaches⟩ := ih mem
          exact ⟨s, .tail _ mem, reaches⟩

end Lists

/-! ## Outlines -/

/-- The entries of an outline that expands every expression once. -/
structure ExpandsOnce (g : Grammar) (root : Ref) (entries : List OutlineEntry) : Prop where
  /-- Depth first: the entries for what an expansion refers to come right behind it, one step
  further in, and an entry that is marked stands alone. -/
  lists : g.Lists 0 [root] entries
  reached : ∀ r, r ∈ entries.map (·.ref) ↔ g.Reaches root r
  /-- What refers to others is expanded where it first occurs and marked wherever it occurs again. -/
  once : ∀ r, g.Reaches root r → (g.expression r).children ≠ [] →
    ∃ front depth back, entries = front ++ ⟨depth, r, false⟩ :: back ∧ r ∉ front.map (·.ref) ∧
      ∀ e ∈ back, e.ref = r → e.seen = true
  /-- There is one entry for the start, and one for each time that one of the expressions that are
  reached refers to another. -/
  count : ∃ all : List Ref, all.Nodup ∧ (∀ r, r ∈ all ↔ g.Reaches root r) ∧
    (entries.map (·.ref)).Perm (root :: all.flatMap fun r => (g.expression r).children) ∧
    entries.length = 1 + (all.flatMap fun r => (g.expression r).children).length

section Outline

variable {g : Grammar} {root : Ref} {entries : List OutlineEntry} {expanded : List Ref}

/-- Whatever can be reached has an entry. -/
theorem Traverses.mem_of_reaches (walk : g.Traverses 0 [] [root] entries expanded) {r : Ref}
    (reaches : g.Reaches root r) : r ∈ entries.map (·.ref) := by
  induction reaches with
  | refl => exact walk.lists.perm.mem_iff.mpr (.head _)
  | @tail r child _ step listed =>
      have expansion := walk.marked.mem_expansions (List.ne_nil_of_mem step) listed
      exact walk.lists.perm.mem_iff.mpr (.tail _ (List.mem_flatMap.mpr ⟨r, expansion, step⟩))

theorem Traverses.reached_iff (walk : g.Traverses 0 [] [root] entries expanded) (r : Ref) :
    r ∈ entries.map (·.ref) ↔ g.Reaches root r := by
  refine ⟨fun mem => ?_, walk.mem_of_reaches⟩
  obtain ⟨s, start, reaches⟩ := walk.lists.reaches mem
  exact List.mem_singleton.mp start ▸ reaches

theorem Traverses.mem_expansions_iff (walk : g.Traverses 0 [] [root] entries expanded) (r : Ref) :
    r ∈ g.expansions entries ↔ g.Reaches root r ∧ (g.expression r).children ≠ [] := by
  rw [← walk.reached_iff]
  constructor
  · intro mem
    exact ⟨mem_of_mem_expansions mem, (mem_expansions.mp mem).1⟩
  · rintro ⟨mem, compound⟩
    exact walk.marked.mem_expansions compound mem

theorem Traverses.expandsOnce (walk : g.Traverses 0 [] [root] entries expanded) :
    g.ExpandsOnce root entries := by
  -- what is expanded, and then what has nothing to expand
  let leaves := ((entries.map (·.ref)).filter fun r => (g.expression r).children.isEmpty).dedup
  have mem_leaves (r : Ref) : r ∈ leaves ↔ g.Reaches root r ∧ (g.expression r).children = [] := by
    simp only [leaves, List.mem_dedup, List.mem_filter, walk.reached_iff, List.isEmpty_iff]
  have children : (g.expansions entries ++ leaves).flatMap (fun r => (g.expression r).children) =
      (g.expansions entries).flatMap fun r => (g.expression r).children := by
    rw [List.flatMap_append, List.flatMap_eq_nil_iff.mpr fun r mem => ((mem_leaves r).mp mem).2,
      List.append_nil]
  have perm := walk.lists.perm
  rw [List.singleton_append, ← children] at perm
  refine ⟨walk.lists, walk.reached_iff, fun r reaches compound =>
    walk.marked.first compound (walk.mem_of_reaches reaches), g.expansions entries ++ leaves, ?_, ?_, perm, ?_⟩
  · refine List.nodup_append.mpr ⟨walk.expansions_nodup.1, List.nodup_dedup _, ?_⟩
    rintro r mem s mem' rfl
    exact ((walk.mem_expansions_iff r).mp mem).2 ((mem_leaves r).mp mem').2
  · intro r
    rw [List.mem_append, walk.mem_expansions_iff, mem_leaves, ← and_or_left]
    exact and_iff_left (Decidable.em _).symm
  · rw [Nat.add_comm, ← List.length_cons, ← perm.length_eq, List.length_map]

/-- The outline of every grammar comes to an end, however references are shared or lead back, and
expands each expression that is reached once. -/
theorem outline_expandsOnce (g : Grammar) (root : Ref) :
    (∃ expanded, g.Traverses 0 [] [root] (g.outline root) expanded) ∧
      (∀ height, g.size < height → (g.walk height 0 [] root).1 = g.outline root) ∧
      g.ExpandsOnce root (g.outline root) := by
  have walk : g.Traverses 0 [] [root] (g.outline root) _ := traverses_walk root (Nat.lt_succ_self g.size)
  exact ⟨⟨_, walk⟩, fun height enough => ((traverses_walk root enough).unique walk).1, walk.expandsOnce⟩

/-- In nested brackets the group occurs again within itself, and its letters occur again behind it. -/
example : ((brackets.1.outline brackets.2).filter (·.seen)).map (fun e => (e.depth, e.ref)) =
    [(5, 0), (2, 7)] := by decide

end Outline

end PegMachine.Grammar
