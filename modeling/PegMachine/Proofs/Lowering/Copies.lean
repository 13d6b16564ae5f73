/-
# PegMachine.Proofs.Lowering.Copies — copies are lowered alike

A copy of an expression has its name and its form, over copies of what it refers to; and a
forward reference has one copy, which is a copy of nothing else (`Copies`). Two grammars in
which expressions are copies of each other come to the same bytecode, the same report and the
same errors: only references differ, and lowering keeps none of them but in its record of the
forward references it has met (`Twins`).

Larger grammars are lowered with more height. That makes no difference, because lowering a
well-formed grammar never runs out of it (`Copies.lowered_eq`); until that is known,
computations are compared up to the first of them being cut short (`Concur`).
-/
import PegMachine.Proofs.Condensing.Relation
import PegMachine.Proofs.Lowering.Blames

namespace PegMachine

set_option autoImplicit false

/-- The same form over copies. -/
inductive Expression.Retraces (m : Ref → Ref → Prop) : Expression → Expression → Prop
  | leaf {e : Expression} (leaf : e.isLeaf = true) : Retraces m e e
  | orElse {a b a' b' : Ref} (first : m a a') (second : m b b') :
      Retraces m (.orElse a b) (.orElse a' b')
  | choice {refs refs' : List Ref} (all : List.Forall₂ m refs refs') :
      Retraces m (.choice refs) (.choice refs')
  | maps {e e' : Expression} (maps : Grammar.Maps m e e') : Retraces m e e'

namespace Expression.Retraces

variable {m : Ref → Ref → Prop} {e e' : Expression}

/-- An expression is a copy of itself if what it refers to is. -/
theorem refl (all : ∀ child ∈ e.children, m child child) : Retraces m e e := by
  have each {refs : List Ref} (all : ∀ child ∈ refs, m child child) : List.Forall₂ m refs refs :=
    List.forall₂_same.mpr all
  have both {a b : Ref} (all : ∀ child ∈ [a, b], m child child) : m a a ∧ m b b := by
    simpa using all
  cases e with
  | orElse => exact .orElse (both all).1 (both all).2
  | seq => exact .maps (.seq (both all).1 (both all).2)
  | keepLeft => exact .maps (.keepLeft (both all).1 (both all).2)
  | keepRight => exact .maps (.keepRight (both all).1 (both all).2)
  | followedBy => exact .maps (.followedBy (both all).1 (both all).2)
  | notFollowedBy => exact .maps (.notFollowedBy (both all).1 (both all).2)
  | choice => exact .choice (each all)
  | combine => exact .maps (.combine (each all))
  | optional body => exact .maps (.optional (all body (.head _)))
  | many body => exact .maps (.many (all body (.head _)))
  | transform f body => exact .maps (.transform (all body (.head _)))
  | idiom kind body => exact .maps (.idiom (all body (.head _)))
  | forward target =>
      cases target with
      | none => exact .maps .opened
      | some t => exact .maps (.closed (all t (.head _)))
  | _ => exact .leaf rfl

/-- The same form is described in the same words. -/
theorem form_eq (same : Retraces m e e') : e'.form = e.form := by
  cases same with
  | leaf | orElse => rfl
  | choice all => exact congrArg (fun n => s!"Choice({n})") all.length_eq.symm
  | maps maps =>
      cases maps with
      | combine all => exact congrArg (fun n => s!"Lift({n})") all.length_eq.symm
      | _ => rfl

theorem of_seq {first second : Ref} (same : Retraces m (.seq first second) e') :
    ∃ first' second', e' = .seq first' second' ∧ m first first' ∧ m second second' := by
  cases same with
  | leaf leaf => nomatch leaf
  | maps maps =>
      cases maps with
      | seq left right => exact ⟨_, _, rfl, left, right⟩

theorem to_seq {first' second' : Ref} (same : Retraces m e (.seq first' second')) :
    ∃ first second, e = .seq first second := by
  cases same with
  | leaf leaf => nomatch leaf
  | maps maps =>
      cases maps with
      | seq => exact ⟨_, _, rfl⟩

end Expression.Retraces

/-! ## Computations side by side -/

/-- Forward references that correspond are known by the same index; all else is equal. -/
structure Lowering.Twins (pair : Ref → Ref → Prop) (s s' : Lowering) : Prop where
  tables : s'.tables = s.tables
  entries : s'.entries = s.entries
  known : ∀ r r', pair r r' → s'.subroutines[r']? = s.subroutines[r]?

namespace Lower

open Lowering (Twins)

/-- The same was yielded, or the same went wrong, unless the first was cut short. -/
inductive Concur {α : Type} (pair : Ref → Ref → Prop) :
    Except LoweringError (α × Lowering) → Except LoweringError (α × Lowering) → Prop
  | ok {a : α} {s s' : Lowering} (twins : Twins pair s s') : Concur pair (.ok (a, s)) (.ok (a, s'))
  | error {e : LoweringError} : Concur pair (.error e) (.error e)
  | endless {label : String} {x : Except LoweringError (α × Lowering)} :
      Concur pair (.error (.endless label)) x

/-- Two computations concur wherever forward references are known alike. -/
def Agrees {α : Type} (pair : Ref → Ref → Prop) (x x' : Lower α) : Prop :=
  ∀ s s', Twins pair s s' → Concur pair (x s) (x' s')

/-- Two parts concur wherever they are to stand. -/
def PartAgrees (pair : Ref → Ref → Prop) (part part' : Part) : Prop :=
  ∀ base, Agrees pair (part base) (part' base)

section Agrees

variable {α β : Type} {pair : Ref → Ref → Prop}

theorem Agrees.bind {x x' : Lower α} {f f' : α → Lower β} (first : Agrees pair x x')
    (rest : ∀ a, Agrees pair (f a) (f' a)) : Agrees pair (x >>= f) (x' >>= f') := by
  intro s s' twins
  have concur := first s s' twins
  show Concur pair (x s >>= fun p => f p.1 p.2) (x' s' >>= fun p => f' p.1 p.2)
  generalize x s = done at concur ⊢
  generalize x' s' = done' at concur ⊢
  cases concur with
  | ok twins => exact rest _ _ _ twins
  | error => exact .error
  | endless => exact .endless

theorem agrees_pure (a : α) : Agrees pair (pure a : Lower α) (pure a) := fun _ _ twins => .ok twins

theorem agrees_throw (e : LoweringError) : Agrees pair (throw e : Lower α) (throw e) :=
  fun _ _ _ => .error

theorem agrees_jump (op : Opcode) (source target : Nat) :
    Agrees pair (jump op source target) (jump op source target) := by
  rw [jump]
  split
  · exact agrees_pure _
  · exact agrees_throw _

theorem agrees_table (add : Tables → Except LoweringError (Nat × Tables)) :
    Agrees pair (table add) (table add) := by
  intro s s' twins
  have steps (s : Lowering) : table add s =
      (add s.tables >>= fun p => .ok (p.1, { s with tables := p.2 })) := by
    show (table add).run s = _
    simp [table]
    rfl
  rw [steps, steps, twins.tables]
  cases add s.tables with
  | error e => exact .error
  | ok entry => exact .ok ⟨rfl, twins.entries, twins.known⟩

/-- Go on with the states. -/
theorem agrees_get {f f' : Lowering → Lower α}
    (rest : ∀ s s', Twins pair s s' → Agrees pair (f s) (f' s')) :
    Agrees pair (get >>= f) (get >>= f') :=
  fun s s' twins => rest s s' twins s s' twins

/-- Go on with other states in which forward references are known alike. -/
theorem agrees_modify {f f' : Lowering → Lowering} {rest rest' : PUnit → Lower α}
    (keeps : ∀ s s', Twins pair s s' → Twins pair (f s) (f' s'))
    (agrees : Agrees pair (rest ⟨⟩) (rest' ⟨⟩)) :
    Agrees pair (modify f >>= rest) (modify f' >>= rest') :=
  fun s s' twins => agrees (f s) (f' s') (keeps s s' twins)

end Agrees

/-! ## Layouts -/

section Layouts

variable {pair : Ref → Ref → Prop}

theorem agrees_parts {gap : Nat} {ps ps' : List Part} (all : List.Forall₂ (PartAgrees pair) ps ps')
    (start : Nat) : Agrees pair (parts gap start ps) (parts gap start ps') := by
  induction all generalizing start with
  | nil => exact agrees_pure _
  | cons first _ ih =>
      exact (first _).bind fun _ => (ih _).bind fun _ => agrees_pure _

theorem agrees_itemWords (fail : Nat) (fragments : List Fragment) (start : Nat) :
    Agrees pair (itemWords fail start fragments) (itemWords fail start fragments) := by
  induction fragments generalizing start with
  | nil => exact agrees_pure _
  | cons code rest ih =>
      exact (agrees_jump _ _ _).bind fun _ => (ih _).bind fun _ => agrees_pure _

theorem agrees_alternativeWords (ok : Nat) (fragments : List Fragment) (start : Nat) :
    Agrees pair (alternativeWords ok start fragments) (alternativeWords ok start fragments) := by
  induction fragments generalizing start with
  | nil => exact agrees_pure _
  | cons code rest ih =>
      exact (agrees_jump _ _ _).bind fun _ => (ih _).bind fun _ => agrees_pure _

theorem agrees_sequence {items items' : List Part}
    (all : List.Forall₂ (PartAgrees pair) items items') (f : Option Combiner) :
    PartAgrees pair (sequence items f) (sequence items' f) := by
  intro base
  rw [sequence, sequence, all.length_eq]
  refine (agrees_parts all _).bind fun fragments => ?_
  refine (agrees_table _).bind fun _ => ?_
  refine (agrees_itemWords _ _ _).bind fun _ => ?_
  cases f with
  | none => exact (agrees_pure _).bind fun _ => (agrees_jump _ _ _).bind fun _ => agrees_pure _
  | some f =>
      exact (agrees_table _).bind fun _ => (agrees_jump _ _ _).bind fun _ =>
        (agrees_pure _).bind fun _ => (agrees_jump _ _ _).bind fun _ => agrees_pure _

theorem agrees_choice {alternatives alternatives' : List Part}
    (all : List.Forall₂ (PartAgrees pair) alternatives alternatives') (label : String) :
    PartAgrees pair (choice alternatives label) (choice alternatives' label) := by
  intro base
  cases all with
  | nil => exact agrees_throw _
  | cons first rest =>
      exact (agrees_parts (.cons first rest) _).bind fun _ =>
        (agrees_alternativeWords _ _ _).bind fun _ => (agrees_jump _ _ _).bind fun _ =>
          agrees_pure _

section Two

variable {first first' second second' : Part} (left : PartAgrees pair first first')
variable (right : PartAgrees pair second second')
include left right

theorem agrees_keepLeft : PartAgrees pair (keepLeft first second) (keepLeft first' second') :=
  fun _ => (left _).bind fun _ => (right _).bind fun _ => (agrees_jump _ _ _).bind fun _ =>
    (agrees_jump _ _ _).bind fun _ => (agrees_jump _ _ _).bind fun _ => agrees_pure _

theorem agrees_keepRight : PartAgrees pair (keepRight first second) (keepRight first' second') :=
  fun _ => (left _).bind fun _ => (right _).bind fun _ => (agrees_jump _ _ _).bind fun _ =>
    (agrees_jump _ _ _).bind fun _ => (agrees_jump _ _ _).bind fun _ => agrees_pure _

theorem agrees_followedBy : PartAgrees pair (followedBy first second) (followedBy first' second') :=
  fun _ => (left _).bind fun _ => (right _).bind fun _ => (agrees_jump _ _ _).bind fun _ =>
    (agrees_jump _ _ _).bind fun _ => (agrees_jump _ _ _).bind fun _ => agrees_pure _

theorem agrees_notFollowedBy (label : String) :
    PartAgrees pair (notFollowedBy first second label) (notFollowedBy first' second' label) :=
  fun _ => (agrees_table _).bind fun _ => (left _).bind fun _ => (right _).bind fun _ =>
    (agrees_jump _ _ _).bind fun _ => (agrees_jump _ _ _).bind fun _ =>
      (agrees_jump _ _ _).bind fun _ => agrees_pure _

end Two

section One

variable {body body' : Part} (inner : PartAgrees pair body body')
include inner

theorem agrees_optional (fallback : Datum) :
    PartAgrees pair (optional body fallback) (optional body' fallback) :=
  fun _ => (inner _).bind fun _ => (agrees_table _).bind fun _ => (agrees_jump _ _ _).bind fun _ =>
    (agrees_jump _ _ _).bind fun _ => agrees_pure _

theorem agrees_many (least : Nat) (label : String) :
    PartAgrees pair (many body least label) (many body' least label) :=
  fun _ => (inner _).bind fun _ => (agrees_table _).bind fun _ => (agrees_jump _ _ _).bind fun _ =>
    (agrees_jump _ _ _).bind fun _ => (agrees_jump _ _ _).bind fun _ => agrees_pure _

theorem agrees_transform (f : Transform) :
    PartAgrees pair (transform f body) (transform f body') :=
  fun _ => (inner _).bind fun _ => (agrees_table _).bind fun _ => (agrees_jump _ _ _).bind fun _ =>
    (agrees_jump _ _ _).bind fun _ => agrees_pure _

theorem agrees_announced (name : String) :
    PartAgrees pair (announced name body) (announced name body') :=
  fun _ => (agrees_table _).bind fun _ => (inner _).bind fun _ => agrees_pure _

end One

/-- A word that refers to an entry of a table. -/
theorem agrees_entry (add : Tables → Except LoweringError (Nat × Tables)) (op : Opcode) :
    PartAgrees pair (fun _ => do return [Word.instruction op (← table add)])
      (fun _ => do return [Word.instruction op (← table add)]) :=
  fun _ => (agrees_table _).bind fun _ => agrees_pure _

theorem twins_insert {r r' : Ref} (same : ∀ s s', pair s s' → (s = r ↔ s' = r')) (index : Nat)
    {s s' : Lowering} (twins : Twins pair s s') :
    Twins pair { s with subroutines := s.subroutines.insert r index }
      { s' with subroutines := s'.subroutines.insert r' index } := by
  refine ⟨twins.tables, twins.entries, ?_⟩
  intro a a' related
  show (s'.subroutines.insert r' index)[a']? = (s.subroutines.insert r index)[a]?
  have alike : compare r' a' = .eq ↔ compare r a = .eq := by
    rw [Std.LawfulEqCmp.compare_eq_iff_eq, Std.LawfulEqCmp.compare_eq_iff_eq, eq_comm,
      ← same a a' related, eq_comm]
  rw [Std.TreeMap.getElem?_insert, Std.TreeMap.getElem?_insert, twins.known a a' related]
  simp only [alike]

theorem twins_place (index : Nat) (range : CodeRange) (entry : Log.Entry) {s s' : Lowering}
    (twins : Twins pair s s') :
    Twins pair { s with tables := s.tables.placeSubroutine index range, entries := entry :: s.entries }
      { s' with tables := s'.tables.placeSubroutine index range, entries := entry :: s'.entries } := by
  refine ⟨?_, ?_, twins.known⟩
  · show s'.tables.placeSubroutine index range = _
    rw [twins.tables]
  · show entry :: s'.entries = _
    rw [twins.entries]

/-- Forward references that correspond are met at the same time. -/
theorem agrees_forward {r r' : Ref} (label : String) {target target' : Option Part}
    (here : pair r r') (same : ∀ s s', pair s s' → (s = r ↔ s' = r'))
    (inner : Option.Rel (PartAgrees pair) target target') :
    PartAgrees pair (forward r label target) (forward r' label target') := by
  intro base
  apply agrees_get
  intro s s' twins
  rw [twins.known r r' here]
  split
  · exact agrees_pure _
  · cases inner with
    | none => exact agrees_throw _
    | some inner =>
        refine (agrees_table _).bind fun index => ?_
        refine agrees_modify (fun _ _ => twins_insert same index) ?_
        refine (inner base).bind fun code => ?_
        exact agrees_modify (fun _ _ => twins_place _ _ _) (agrees_pure _)

end Layouts

end Lower

/-! ## Copies -/

namespace Grammar

/-- A relation between the expressions of a grammar and copies of them in another, no smaller one. -/
structure Copies (g g' : Grammar) (m : Ref → Ref → Prop) : Prop where
  larger : g.size ≤ g'.size
  inside : ∀ r r', m r r' → r < g.size
  name : ∀ r r', m r r' → g'.name r' = g.name r
  form : ∀ r r', m r r' → Expression.Retraces m (g.expression r) (g'.expression r')
  /-- Forward references are copied one to one. -/
  apart : ∀ r r' s s', Forwards g m r r' → Forwards g m s s' → (s = r ↔ s' = r')

namespace Copies

variable {g g' : Grammar} {m : Ref → Ref → Prop} {traced : Bool} {r r' : Ref}

theorem label (copies : Copies g g' m) (pair : m r r') : g'.label r' = g.label r := by
  have name : (g'.node r').name = (g.node r).name := copies.name r r' pair
  have form : (g'.node r').expression.form = (g.node r).expression.form :=
    (copies.form r r' pair).form_eq
  rw [Grammar.label, Grammar.label, Node.label, Node.label, name, form]

theorem caption (copies : Copies g g' m) (pair : m r r') :
    (g'.node r').caption = (g.node r).caption := by
  have name : (g'.node r').name = (g.node r).name := copies.name r r' pair
  have form : (g'.node r').expression.form = (g.node r).expression.form :=
    (copies.form r r' pair).form_eq
  rw [Node.caption, Node.caption, name, form]

theorem sequenceItems (copies : Copies g g' m) (limit : Nat) (pair : m r r') :
    List.Forall₂ m (g.sequenceItems limit r) (g'.sequenceItems limit r') := by
  induction limit generalizing r r' with
  | zero => exact .cons pair .nil
  | succ limit ih =>
      have same := copies.form r r' pair
      rw [Grammar.sequenceItems, Grammar.sequenceItems]
      split
      · rename_i first second seq
        rw [seq] at same
        obtain ⟨first', second', seq', left, right⟩ := same.of_seq
        rw [seq']
        exact List.rel_append (ih left) (.cons right .nil)
      · rename_i other
        split
        · rename_i seq'
          rw [seq'] at same
          obtain ⟨first, second, seq⟩ := same.to_seq
          exact absurd seq (other first second)
        · exact .cons pair .nil

theorem agrees_form (copies : Copies g g' m) (wellFormed : g.WellFormed)
    {part part' : Ref → Lower.Part}
    (parts : ∀ r r', m r r' → Lower.PartAgrees (Forwards g m) (part r) (part' r')) (pair : m r r') :
    Lower.PartAgrees (Forwards g m) (g.lowerExpression part r (g.expression r))
      (g'.lowerExpression part' r' (g'.expression r')) := by
  have all {refs refs' : List Ref} (copied : List.Forall₂ m refs refs') :
      List.Forall₂ (Lower.PartAgrees (Forwards g m)) (refs.map part) (refs'.map part') := by
    rw [List.forall₂_map_left_iff, List.forall₂_map_right_iff]
    exact copied.imp parts
  have label := copies.label pair
  have same := copies.form r r' pair
  generalize form : g.expression r = e, form' : g'.expression r' = e' at same
  cases same with
  | leaf leaf =>
      cases e with
      | finish => exact fun _ => Lower.agrees_pure _
      | char | oneOf | escaped | test | scan | literal | keyword =>
          simp only [lowerExpression, label]
          exact Lower.agrees_entry _ _
      | _ => cases leaf
  | orElse first second =>
      simp only [lowerExpression, label]
      exact Lower.agrees_choice (all (.cons first (.cons second .nil))) _
  | choice copied =>
      simp only [lowerExpression, label]
      exact Lower.agrees_choice (all copied) _
  | maps maps =>
      cases maps with
      | seq =>
          have inside := copies.inside r r' pair
          have items := copies.sequenceItems g'.size pair
          rw [sequenceItems_enough wellFormed inside
            (Nat.lt_of_lt_of_le inside copies.larger) inside] at items
          exact Lower.agrees_sequence (all items) none
      | keepLeft first second => exact Lower.agrees_keepLeft (parts _ _ first) (parts _ _ second)
      | keepRight first second => exact Lower.agrees_keepRight (parts _ _ first) (parts _ _ second)
      | followedBy first second => exact Lower.agrees_followedBy (parts _ _ first) (parts _ _ second)
      | notFollowedBy first second =>
          simp only [lowerExpression, label]
          exact Lower.agrees_notFollowedBy (parts _ _ first) (parts _ _ second) _
      | combine copied => exact Lower.agrees_sequence (all copied) _
      | optional inner => exact Lower.agrees_optional (parts _ _ inner) _
      | many inner =>
          simp only [lowerExpression, copies.label inner]
          exact Lower.agrees_many (parts _ _ inner) _ _
      | transform inner => exact Lower.agrees_transform (parts _ _ inner) _
      | idiom inner => exact parts _ _ inner
      | closed aimed =>
          have here : Forwards g m r r' := ⟨pair, by rw [form]; rfl⟩
          simp only [lowerExpression, label]
          exact Lower.agrees_forward _ here (fun s s' => copies.apart r r' s s' here)
            (.some (parts _ _ aimed))
      | opened =>
          have here : Forwards g m r r' := ⟨pair, by rw [form]; rfl⟩
          simp only [lowerExpression, label]
          exact Lower.agrees_forward _ here (fun s s' => copies.apart r r' s s' here) .none

/-- A copy is lowered as what it is a copy of, with at least as much height. -/
theorem agrees_lower (copies : Copies g g' m) (wellFormed : g.WellFormed) {height height' : Nat}
    (enough : height ≤ height') (pair : m r r') :
    Lower.PartAgrees (Forwards g m) (g.lower traced height r) (g'.lower traced height' r') := by
  induction height generalizing height' r r' with
  | zero => exact fun _ _ _ _ => .endless
  | succ height ih =>
      obtain ⟨more, rfl⟩ := Nat.exists_eq_add_of_lt enough
      have parts (r r' : Ref) (pair : m r r') : Lower.PartAgrees (Forwards g m)
          (g.lower traced height r) (g'.lower traced (height + more) r') :=
        ih (Nat.le_add_right _ _) pair
      have form := copies.agrees_form wellFormed parts pair
      simp only [lower, copies.name r r' pair]
      split
      · exact Lower.agrees_announced form _
      · exact form

/-- Copies are compiled to the same bytecode, with the same report, or fail for the same reason. -/
theorem lowered_eq (copies : Copies g g' m) (wellFormed : g.WellFormed) (pair : m r r') :
    g'.lowered traced r' = g.lowered traced r := by
  have height : g.walkLimit ≤ g'.walkLimit :=
    Nat.mul_le_mul (Nat.succ_le_succ copies.larger) (Nat.succ_le_succ copies.larger)
  have concur : Lower.Concur _ (g.lower traced g.walkLimit r 0 {})
      (g'.lower traced g'.walkLimit r' 0 {}) :=
    copies.agrees_lower wellFormed height pair 0 {} {} ⟨rfl, rfl, fun _ _ _ => by simp⟩
  have never (label : String) : g.lowered traced r ≠ .error (.endless label) :=
    lowered_ne_endless wellFormed (copies.inside r r' pair) label
  simp only [lowered, StateT.run, copies.caption pair] at never ⊢
  generalize g.lower traced g.walkLimit r 0 {} = done at concur never ⊢
  generalize g'.lower traced g'.walkLimit r' 0 {} = done' at concur ⊢
  cases concur with
  | @ok _ s s' twins =>
      obtain ⟨tables, _, entries⟩ := s
      obtain ⟨tables', _, entries'⟩ := s'
      obtain ⟨rfl, rfl, -⟩ := twins
      rfl
  | error => rfl
  | endless => exact absurd rfl (never _)

end Copies

end Grammar

end PegMachine
