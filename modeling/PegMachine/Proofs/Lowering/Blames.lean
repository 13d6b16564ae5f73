/-
# PegMachine.Proofs.Lowering.Blames — why lowering fails

Lowering fails where operands do not suffice, and where it meets an open forward reference
or an empty choice, which the error names. `Lower.Blames` says that a computation fails for
given reasons alone, and that it keeps the record of forward references; layouts fail for the
reasons of their parts, or because something overflows.

Nothing else goes wrong: a well-formed grammar is never lowered endlessly, because a walk
that enters each forward reference once has enough height (`Grammar.blames_lower`).
-/
import PegMachine.Proofs.Lowering.Follows
import PegMachine.Proofs.Lowering.Reaches

namespace PegMachine

set_option autoImplicit false

/-- Whether an operand, a table or the code as a whole would be too large. -/
def LoweringError.overflows : LoweringError → Bool
  | .jumpTooLong .. | .tableFull _ => true
  | _ => false

/-- A computation that may fail has failed in one of its steps. -/
theorem bind_eq_error {ε α β : Type} {x : Except ε α} {f : α → Except ε β} {e : ε} :
    x >>= f = .error e ↔ x = .error e ∨ ∃ a, x = .ok a ∧ f a = .error e := by
  cases x with
  | ok a =>
      constructor
      · exact fun failed => .inr ⟨a, rfl, failed⟩
      · rintro (failed | ⟨a', same, failed⟩)
        · cases failed
        · cases same
          exact failed
  | error e' =>
      constructor
      · intro failed
        cases failed
        exact .inl rfl
      · rintro (failed | ⟨a, done, -⟩)
        · cases failed
          rfl
        · cases done

/-! ## Tables -/

/-- A computation fails only because something overflows. -/
def FailsFull {α : Type} (x : Except LoweringError α) : Prop := ∀ e, x = .error e → e.overflows = true

section Tables

variable {α β : Type}

theorem FailsFull.bind {x : Except LoweringError α} {f : α → Except LoweringError β}
    (first : FailsFull x) (rest : ∀ a, FailsFull (f a)) : FailsFull (x >>= f) := by
  intro e failed
  rcases bind_eq_error.mp failed with failed | ⟨a, -, failed⟩
  · exact first e failed
  · exact rest a e failed

theorem failsFull_ok (a : α) : FailsFull (.ok a) := nofun

theorem failsFull_nextIndex (table : TableName) (size : Nat) : FailsFull (Tables.nextIndex table size) := by
  intro e failed
  rw [Tables.nextIndex] at failed
  split at failed
  · cases failed
  · cases failed
    rfl

/-- An entry that takes the next index of its table. -/
theorem failsFull_push (table : TableName) (size : Nat) (make : Nat → α) :
    FailsFull (Tables.nextIndex table size >>= fun index => .ok (make index)) :=
  (failsFull_nextIndex table size).bind fun _ => failsFull_ok _

theorem failsFull_internLabel (t : Tables) (label : String) : FailsFull (t.internLabel label) := by
  rw [Tables.internLabel]
  split
  · exact failsFull_ok _
  · exact failsFull_push _ _ _

theorem failsFull_addTest (t : Tables) (test : CharTest) (label : String) :
    FailsFull (t.addTest test label) :=
  (failsFull_internLabel t label).bind fun _ => failsFull_push _ _ _

theorem failsFull_addValue (t : Tables) (value : Datum) : FailsFull (t.addValue value) :=
  failsFull_push _ _ _

theorem failsFull_addLiteral (t : Tables) (text : String) (anyCase : Bool) (value : Datum) :
    FailsFull (t.addLiteral text anyCase value) :=
  (failsFull_addValue t value).bind fun _ => failsFull_push _ _ _

theorem failsFull_addScan (t : Tables) (test : CharTest) (least : Nat) (label : String) :
    FailsFull (t.addScan test least label) :=
  (failsFull_internLabel t label).bind fun _ => failsFull_push _ _ _

theorem failsFull_addArity (t : Tables) (least : Nat) (label : String) :
    FailsFull (t.addArity least label) :=
  (failsFull_internLabel t label).bind fun _ => failsFull_push _ _ _

theorem failsFull_addTransform (t : Tables) (f : Transform) : FailsFull (t.addTransform f) :=
  failsFull_push _ _ _

theorem failsFull_addCombiner (t : Tables) (f : Combiner) : FailsFull (t.addCombiner f) :=
  failsFull_push _ _ _

theorem failsFull_addSubroutine (t : Tables) (label : String) : FailsFull (t.addSubroutine label) :=
  (failsFull_internLabel t label).bind fun _ => failsFull_push _ _ _

end Tables

namespace Lower

/-! ## Computations -/

theorem bind_eq_error {α β : Type} {x : Lower α} {f : α → Lower β} {s : Lowering}
    {e : LoweringError} :
    (x >>= f) s = .error e ↔ x s = .error e ∨ ∃ a u, x s = .ok (a, u) ∧ f a u = .error e := by
  show (x s >>= fun p => f p.1 p.2) = _ ↔ _
  simp only [PegMachine.bind_eq_error, Prod.exists]

/-- Once forward references have been met, a computation fails only for such reasons, and if it
does not fail, all that were met still are. -/
def Blames {α : Type} (reason : LoweringError → Prop) (seen : Ref → Prop) (x : Lower α) : Prop :=
  ∀ s : Lowering, (∀ r, seen r → r ∈ s.subroutines) →
    (∀ e, x s = .error e → reason e) ∧
      ∀ a s', x s = .ok (a, s') → ∀ r, r ∈ s.subroutines → r ∈ s'.subroutines

section Blames

variable {α β : Type} {reason : LoweringError → Prop} {seen : Ref → Prop}

theorem Blames.bind {x : Lower α} {f : α → Lower β} (first : Blames reason seen x)
    (rest : ∀ a, Blames reason seen (f a)) : Blames reason seen (x >>= f) := by
  intro s known
  obtain ⟨fails, keeps⟩ := first s known
  have later {a : α} {u : Lowering} (done : x s = .ok (a, u)) :=
    rest a u fun r met => keeps a u done r (known r met)
  constructor
  · intro e failed
    rcases bind_eq_error.mp failed with failed | ⟨a, u, done, failed⟩
    · exact fails e failed
    · exact (later done).1 e failed
  · intro b s' done r mem
    obtain ⟨a, u, done, done'⟩ := bind_eq_ok.mp done
    exact (later done).2 b s' done' r (keeps a u done r mem)

theorem blames_pure (a : α) : Blames reason seen (pure a : Lower α) := by
  intro s _
  refine ⟨nofun, ?_⟩
  intro a' s' done r mem
  obtain ⟨-, rfl⟩ := pure_eq_ok.mp done
  exact mem

theorem blames_throw {e : LoweringError} (holds : reason e) :
    Blames reason seen (throw e : Lower α) := by
  intro s _
  refine ⟨?_, nofun⟩
  intro e' failed
  exact Except.error.inj failed ▸ holds

theorem blames_table (full : ∀ e : LoweringError, e.overflows = true → reason e)
    {add : Tables → Except LoweringError (Nat × Tables)} (fails : ∀ t, FailsFull (add t)) :
    Blames reason seen (table add) := by
  intro s _
  constructor
  · intro e failed
    have steps : table add s =
        (add s.tables >>= fun p => .ok (p.1, { s with tables := p.2 })) := by
      show (table add).run s = _
      simp [table]
      rfl
    rw [steps] at failed
    rcases PegMachine.bind_eq_error.mp failed with failed | ⟨_, -, failed⟩
    · exact full e (fails _ e failed)
    · cases failed
  · intro index s' done r mem
    obtain ⟨t, -, rfl⟩ := table_eq_ok.mp done
    exact mem

theorem blames_jump (full : ∀ e : LoweringError, e.overflows = true → reason e) (op : Opcode)
    (source target : Nat) : Blames reason seen (jump op source target) := by
  rw [jump]
  split
  · exact blames_pure _
  · exact blames_throw (full _ rfl)

/-- Go on with the state. -/
theorem blames_get {f : Lowering → Lower α}
    (rest : ∀ s, (∀ r, seen r → r ∈ s.subroutines) → Blames reason seen (f s)) :
    Blames reason seen (get >>= f) := fun s known => rest s known s known

/-- Go on with another state, in which more forward references may have been met. -/
theorem blames_modify {seen' : Ref → Prop} {f : Lowering → Lowering} {rest : PUnit → Lower α}
    (keeps : ∀ s r, r ∈ s.subroutines → r ∈ (f s).subroutines)
    (more : ∀ s : Lowering, (∀ r, seen r → r ∈ s.subroutines) → ∀ r, seen' r → r ∈ (f s).subroutines)
    (blames : Blames reason seen' (rest ⟨⟩)) : Blames reason seen (modify f >>= rest) := by
  intro s known
  obtain ⟨fails, kept⟩ := blames (f s) (more s known)
  exact ⟨fails, fun a s' done r mem => kept a s' done r (keeps s r mem)⟩

end Blames

/-! ## Layouts -/

section Layouts

variable {reason : LoweringError → Prop} {seen : Ref → Prop}
variable (full : ∀ e : LoweringError, e.overflows = true → reason e)

/-- A part fails only for such reasons, wherever it is to stand. -/
def PartBlames (reason : LoweringError → Prop) (seen : Ref → Prop) (part : Part) : Prop :=
  ∀ base, Blames reason seen (part base)

theorem blames_parts {gap : Nat} {ps : List Part} (all : ∀ p ∈ ps, PartBlames reason seen p)
    (start : Nat) : Blames reason seen (parts gap start ps) := by
  induction ps generalizing start with
  | nil => exact blames_pure _
  | cons p ps ih =>
      obtain ⟨first, rest⟩ := List.forall_mem_cons.mp all
      exact (first _).bind fun _ => (ih rest _).bind fun _ => blames_pure _

include full

theorem blames_itemWords (fail : Nat) (fragments : List Fragment) (start : Nat) :
    Blames reason seen (itemWords fail start fragments) := by
  induction fragments generalizing start with
  | nil => exact blames_pure _
  | cons code rest ih =>
      exact (blames_jump full _ _ _).bind fun _ => (ih _).bind fun _ => blames_pure _

theorem blames_alternativeWords (ok : Nat) (fragments : List Fragment) (start : Nat) :
    Blames reason seen (alternativeWords ok start fragments) := by
  induction fragments generalizing start with
  | nil => exact blames_pure _
  | cons code rest ih =>
      exact (blames_jump full _ _ _).bind fun _ => (ih _).bind fun _ => blames_pure _

theorem blames_sequence {items : List Part} (all : ∀ p ∈ items, PartBlames reason seen p)
    (f : Option Combiner) : PartBlames reason seen (sequence items f) := by
  intro base
  refine (blames_parts all _).bind fun fragments => ?_
  refine (blames_table full fun t => failsFull_addArity t _ _).bind fun _ => ?_
  refine (blames_itemWords full _ _ _).bind fun _ => ?_
  cases f with
  | none => exact (blames_pure _).bind fun _ => (blames_jump full _ _ _).bind fun _ => blames_pure _
  | some f =>
      exact (blames_table full fun t => failsFull_addCombiner t f).bind fun _ =>
        (blames_jump full _ _ _).bind fun _ => (blames_pure _).bind fun _ =>
          (blames_jump full _ _ _).bind fun _ => blames_pure _

theorem blames_choice {alternatives : List Part} {label : String}
    (all : ∀ p ∈ alternatives, PartBlames reason seen p)
    (empty : alternatives = [] → reason (.emptyChoice label)) :
    PartBlames reason seen (choice alternatives label) := by
  intro base
  cases alternatives with
  | nil => exact blames_throw (empty rfl)
  | cons p ps =>
      exact (blames_parts all _).bind fun _ => (blames_alternativeWords full _ _ _).bind fun _ =>
        (blames_jump full _ _ _).bind fun _ => blames_pure _

section Two

variable {first second : Part} (left : PartBlames reason seen first)
variable (right : PartBlames reason seen second)
include left right

theorem blames_keepLeft : PartBlames reason seen (keepLeft first second) := fun _ =>
  (left _).bind fun _ => (right _).bind fun _ => (blames_jump full _ _ _).bind fun _ =>
    (blames_jump full _ _ _).bind fun _ => (blames_jump full _ _ _).bind fun _ => blames_pure _

theorem blames_keepRight : PartBlames reason seen (keepRight first second) := fun _ =>
  (left _).bind fun _ => (right _).bind fun _ => (blames_jump full _ _ _).bind fun _ =>
    (blames_jump full _ _ _).bind fun _ => (blames_jump full _ _ _).bind fun _ => blames_pure _

theorem blames_followedBy : PartBlames reason seen (followedBy first second) := fun _ =>
  (left _).bind fun _ => (right _).bind fun _ => (blames_jump full _ _ _).bind fun _ =>
    (blames_jump full _ _ _).bind fun _ => (blames_jump full _ _ _).bind fun _ => blames_pure _

theorem blames_notFollowedBy (label : String) :
    PartBlames reason seen (notFollowedBy first second label) := fun _ =>
  (blames_table full fun t => failsFull_internLabel t label).bind fun _ =>
    (left _).bind fun _ => (right _).bind fun _ => (blames_jump full _ _ _).bind fun _ =>
      (blames_jump full _ _ _).bind fun _ => (blames_jump full _ _ _).bind fun _ => blames_pure _

end Two

section One

variable {body : Part} (inner : PartBlames reason seen body)
include inner

theorem blames_optional (fallback : Datum) : PartBlames reason seen (optional body fallback) :=
  fun _ => (inner _).bind fun _ =>
    (blames_table full fun t => failsFull_addValue t fallback).bind fun _ =>
      (blames_jump full _ _ _).bind fun _ => (blames_jump full _ _ _).bind fun _ => blames_pure _

theorem blames_many (least : Nat) (label : String) : PartBlames reason seen (many body least label) :=
  fun _ => (inner _).bind fun _ =>
    (blames_table full fun t => failsFull_addArity t least label).bind fun _ =>
      (blames_jump full _ _ _).bind fun _ => (blames_jump full _ _ _).bind fun _ =>
        (blames_jump full _ _ _).bind fun _ => blames_pure _

theorem blames_transform (f : Transform) : PartBlames reason seen (transform f body) :=
  fun _ => (inner _).bind fun _ =>
    (blames_table full fun t => failsFull_addTransform t f).bind fun _ =>
      (blames_jump full _ _ _).bind fun _ => (blames_jump full _ _ _).bind fun _ => blames_pure _

theorem blames_announced (name : String) : PartBlames reason seen (announced name body) :=
  fun _ => (blames_table full fun t => failsFull_internLabel t name).bind fun _ =>
    (inner _).bind fun _ => blames_pure _

end One

/-- A word that refers to an entry of a table. -/
theorem blames_entry {add : Tables → Except LoweringError (Nat × Tables)}
    (fails : ∀ t, FailsFull (add t)) (op : Opcode) :
    PartBlames reason seen fun _ => do return [Word.instruction op (← table add)] :=
  fun _ => (blames_table full fails).bind fun _ => blames_pure _

/-- A forward reference that is met for the first time fails if its target does, the forward
reference having been met, or if it has no target. -/
theorem blames_forward {r : Ref} {label : String} {target : Option Part}
    (opened : target = none → reason (.openForward label))
    (inner : ∀ part, target = some part → ¬ seen r →
      PartBlames reason (fun s => seen s ∨ s = r) part) :
    PartBlames reason seen (forward r label target) := by
  intro base
  apply blames_get
  intro s known
  split
  · exact blames_pure _
  · rename_i unmet
    have new : ¬ seen r := by
      intro met
      have mem := known r met
      rw [← Std.TreeMap.isSome_getElem?_iff_mem, unmet] at mem
      nomatch mem
    split
    · exact blames_throw (opened rfl)
    · rename_i part
      refine (blames_table full fun t => failsFull_addSubroutine t label).bind fun index => ?_
      have keeps (s : Lowering) (a : Ref) (mem : a ∈ s.subroutines) :
          a ∈ s.subroutines.insert r index := Std.TreeMap.mem_insert.mpr (.inr mem)
      have knows (s : Lowering) (known : ∀ a, seen a → a ∈ s.subroutines) (a : Ref)
          (met : seen a ∨ a = r) : a ∈ s.subroutines.insert r index := by
        rcases met with met | rfl
        · exact keeps s a (known a met)
        · exact Std.TreeMap.mem_insert_self
      refine blames_modify keeps knows ?_
      refine (inner part rfl new base).bind fun code => ?_
      exact blames_modify (fun _ _ mem => mem) (fun _ known => known) (blames_pure _)

end Layouts

end Lower

/-! ## Expressions -/

namespace Grammar

/-- What an error says is wrong with an expression, which it names. -/
inductive Faults (g : Grammar) (r : Ref) : LoweringError → Prop
  | opened (form : g.expression r = .forward none) : Faults g r (.openForward (g.label r))
  | empty (form : g.expression r = .choice []) : Faults g r (.emptyChoice (g.label r))

/-- Something overflows, or something is wrong with an expression that is reached. -/
def Blamed (g : Grammar) (root : Ref) (e : LoweringError) : Prop :=
  e.overflows = true ∨ ∃ r, g.Reaches root r ∧ g.Faults r e

section Blamed

variable {g : Grammar} {traced : Bool} {root : Ref}

open Lower in
/-- A form fails for the reasons of its parts, or because something is wrong with it. -/
theorem blames_form {part : Ref → Part} {r : Ref} {seen : Ref → Prop} (reaches : g.Reaches root r)
    (parts : (g.expression r).isForward = false →
      ∀ s ∈ (g.expression r).children, PartBlames (g.Blamed root) seen (part s))
    (items : ∀ a b, g.expression r = .seq a b →
      ∀ item ∈ g.sequenceItems g.size r, PartBlames (g.Blamed root) seen (part item))
    (target : ∀ t, g.expression r = .forward (some t) → ¬ seen r →
      PartBlames (g.Blamed root) (fun s => seen s ∨ s = r) (part t)) :
    PartBlames (g.Blamed root) seen (g.lowerExpression part r (g.expression r)) := by
  have full (e : LoweringError) (overflows : e.overflows = true) : g.Blamed root e := .inl overflows
  cases form : g.expression r with
  | char | oneOf | escaped | test => exact blames_entry full (fun t => failsFull_addTest t _ _) _
  | scan => exact blames_entry full (fun t => failsFull_addScan t _ _ _) _
  | literal | keyword => exact blames_entry full (fun t => failsFull_addLiteral t _ _ _) _
  | finish => exact fun _ => blames_pure _
  | seq first second =>
      exact blames_sequence full (List.forall_mem_map.mpr (items first second form)) none
  | orElse first second =>
      rw [form] at parts
      have both := List.forall_mem_cons.mpr ⟨parts rfl first (.head _),
        List.forall_mem_singleton.mpr (parts rfl second (.tail _ (.head _)))⟩
      have either : PartBlames (g.Blamed root) seen (Lower.choice [part first, part second] (g.label r)) :=
        blames_choice full both nofun
      exact either
  | choice alternatives =>
      rw [form] at parts
      have all : ∀ p ∈ alternatives.map part, Lower.PartBlames (g.Blamed root) seen p :=
        List.forall_mem_map.mpr (parts rfl)
      apply blames_choice full all
      intro none
      rw [List.map_eq_nil_iff] at none
      exact .inr ⟨r, reaches, .empty (by rw [form, none])⟩
  | keepLeft first second =>
      rw [form] at parts
      exact blames_keepLeft full (parts rfl first (.head _)) (parts rfl second (.tail _ (.head _)))
  | keepRight first second =>
      rw [form] at parts
      exact blames_keepRight full (parts rfl first (.head _)) (parts rfl second (.tail _ (.head _)))
  | followedBy first second =>
      rw [form] at parts
      exact blames_followedBy full (parts rfl first (.head _)) (parts rfl second (.tail _ (.head _)))
  | notFollowedBy first second =>
      rw [form] at parts
      exact blames_notFollowedBy full (parts rfl first (.head _))
        (parts rfl second (.tail _ (.head _))) _
  | combine f refs =>
      rw [form] at parts
      exact blames_sequence full (List.forall_mem_map.mpr (parts rfl)) (some f)
  | optional body fallback =>
      rw [form] at parts
      exact blames_optional full (parts rfl body (.head _)) fallback
  | many body least =>
      rw [form] at parts
      exact blames_many full (parts rfl body (.head _)) least _
  | transform f body =>
      rw [form] at parts
      exact blames_transform full (parts rfl body (.head _)) f
  | idiom kind body =>
      rw [form] at parts
      exact parts rfl body (.head _)
  | forward aim =>
      apply blames_forward full
      · intro none
        rw [Option.map_eq_none_iff] at none
        exact .inr ⟨r, reaches, .opened (by rw [form, none])⟩
      · intro p some_ new
        obtain ⟨t, rfl, rfl⟩ := Option.map_eq_some_iff.mp some_
        exact target t form new

open Lower in
/-- With enough height lowering fails only because something overflows, or because of something
that is reached. Every forward reference is entered once at most, and between two of them the
references descend. -/
theorem blames_lower (wellFormed : g.WellFormed) (inside : root < g.size) {height r : Nat}
    {seen : Ref → Prop} (reaches : g.Reaches root r) (enough : g.ahead seen r ≤ height) :
    PartBlames (g.Blamed root) seen (g.lower traced height r) := by
  induction height generalizing r seen with
  | zero => exact absurd enough (by simp [ahead])
  | succ height ih =>
      have size {s : Nat} (reaches : g.Reaches root s) : s < g.size := by
        induction reaches with
        | refl => exact inside
        | tail _ child ih => exact (wellFormed _ ih _ child).1
      -- Between two forward references what is reached is earlier, so there is height left for it.
      have below {s : Nat} (further : g.Reaches r s) (earlier : s < r) :
          PartBlames (g.Blamed root) seen (g.lower traced height s) := by
        have less : g.ahead seen s < g.ahead seen r := ahead_child (fun _ met => met) earlier
        exact ih (reaches.trans further) (Nat.le_of_lt_succ (Nat.lt_of_lt_of_le less enough))
      have form : PartBlames (g.Blamed root) seen
          (g.lowerExpression (g.lower traced height) r (g.expression r)) := by
        apply blames_form reaches
        · intro other s mem
          exact below (.single mem) ((wellFormed r (size reaches) s mem).2 other)
        · intro a b form item mem
          obtain ⟨-, earlier⟩ := @items_earlier g wellFormed g.size r (size reaches) item mem
          exact below (reaches_item mem) (earlier (Nat.lt_of_le_of_lt (Nat.zero_le _) (size reaches)) a b form)
        · intro t form new
          -- A target may be later, but its forward reference counts as seen from here on.
          have further : g.Reaches root t := reaches.tail (by rw [form]; exact .head _)
          have forward : (g.expression r).isForward = true := by rw [form]; rfl
          have less : g.ahead (fun s => seen s ∨ s = r) t < g.ahead seen r :=
            ahead_target (fun _ => .inl) (size reaches) forward new (.inr rfl) (size further)
          exact ih further (Nat.le_of_lt_succ (Nat.lt_of_lt_of_le less enough))
      simp only [lower]
      split
      · exact blames_announced (fun e overflows => .inl overflows) form _
      · exact form

/-- Lowering fails only because something overflows, or because of something that is reached. -/
theorem lowered_blames (wellFormed : g.WellFormed) (inside : root < g.size) {e : LoweringError}
    (failed : g.lowered traced root = .error e) : g.Blamed root e := by
  rcases bind_eq_error.mp failed with failed | ⟨⟨code, s⟩, -, failed⟩
  · have blames : Lower.PartBlames (g.Blamed root) (fun _ => False) (g.lower traced g.walkLimit root) :=
      blames_lower wellFormed inside .refl (ahead_le_walkLimit _ inside)
    exact (blames 0 {} fun _ met => met.elim).1 e failed
  · simp only at failed
    split at failed
    · nomatch failed
    · cases failed
      exact .inl rfl

/-- So lowering is never endless. -/
theorem lowered_ne_endless (wellFormed : g.WellFormed) (inside : root < g.size) (label : String) :
    g.lowered traced root ≠ .error (.endless label) := by
  intro endless
  rcases lowered_blames wellFormed inside endless with overflows | ⟨r, -, faults⟩
  · nomatch overflows
  · nomatch faults

end Blamed

end Grammar

end PegMachine
