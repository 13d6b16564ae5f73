/-
# PegMachine.Proofs.Lowering.Closed — fragments refer to what is there

Every word of a fragment is an instruction. If it jumps, it jumps to an address of the
fragment or just behind it; if it refers to a table, there is an entry (`Fits`). This is
shown of each layout, for parts of which it holds, and so of every expression
(`Grammar.tidy_lower`): each part is a fragment inside a larger one, and its jumps stay
inside the larger one if they stay inside the part.

That operands refer to entries needs tables whose indices operands can hold, as lowering
has them from its start on (`Lowering.Consistent`). Where jumps lead does not depend on
that.
-/
import PegMachine.Proofs.Lowering.Follows

namespace PegMachine

set_option autoImplicit false

/-- There is an entry with this index in the table that an opcode refers to. -/
def Tables.Has (t : Tables) (index : Nat) : Opcode → Prop
  | .test => index < t.tests.size
  | .literal | .keyword => index < t.literals.size
  | .scan => index < t.scans.size
  | .gather => index < t.arities.size
  | .transform => index < t.transforms.size
  | .combine => index < t.combiners.size
  | .default => index < t.values.size
  | .refuse | .announce => index < t.labels.size
  | .call => index < t.subroutines.size
  | _ => True

/-- Whether words with this opcode have no operand: they neither jump nor refer to a table. -/
def Opcode.plain : Opcode → Bool
  | .finish | .mark | .unmark | .rewind | .restart | .collect | .discard | .push | .pop => true
  | _ => false

theorem Opcode.not_jumps_of_plain {op : Opcode} (plain : op.plain = true) : op.jumps = false := by
  cases op <;> simp_all [Opcode.plain, Opcode.jumps]

theorem Tables.has_of_plain {t : Tables} {index : Nat} {op : Opcode} (plain : op.plain = true) :
    t.Has index op := by
  cases op <;> trivial

theorem Tables.has_of_jumps {t : Tables} {index : Nat} {op : Opcode} (jumps : op.jumps = true) :
    t.Has index op := by
  cases op <;> trivial

/-- The tables are sound, and have the subroutines that are known. -/
structure Lowering.Consistent (s : Lowering) : Prop where
  sound : s.tables.Sound
  known : ∀ {r : Ref} {index : Nat}, s.subroutines[r]? = some index →
    index < s.tables.subroutines.size

theorem Lowering.consistent_empty : Lowering.Consistent {} := by
  refine ⟨Tables.sound_empty, ?_⟩
  intro r index known
  simp at known

/-! ## Words in a fragment -/

/-- A word at an address fits into code from `start` to `stop`. It refers to an entry of the
tables if these are what they should be, that is, if `assured`. -/
def Fits (t : Tables) (assured : Prop) (start stop pc : Nat) (w : Word) : Prop :=
  ∃ op, Word.opcode? w = some op ∧
    (op.jumps = true → start ≤ Word.target pc w ∧ Word.target pc w ≤ stop) ∧
    (assured → t.Has (Word.operand w) op)

/-- The words of code from an address on fit. -/
def AllFit (t : Tables) (assured : Prop) (start stop : Nat) : Nat → Fragment → Prop
  | _, [] => True
  | pc, w :: rest => Fits t assured start stop pc w ∧ AllFit t assured start stop (pc + 1) rest

section Fits

variable {t : Tables} {assured assured' : Prop} {start stop start' stop' pc : Nat}

theorem Fits.bare {op : Opcode} (plain : op.plain = true) :
    Fits t assured start stop pc (Lower.word op) := by
  refine ⟨op, Word.opcode?_instruction _ _, ?_, fun _ => Tables.has_of_plain plain⟩
  intro jumps
  rw [Opcode.not_jumps_of_plain plain] at jumps
  cases jumps

theorem Fits.refers {op : Opcode} {n : Nat} (straight : op.jumps = false)
    (has : assured → n < Word.operandLimit ∧ t.Has n op) :
    Fits t assured start stop pc (Word.instruction op n) := by
  refine ⟨op, Word.opcode?_instruction _ _, ?_, ?_⟩
  · intro jumps
    rw [straight] at jumps
    cases jumps
  · intro sure
    obtain ⟨fits, has⟩ := has sure
    rwa [Word.operand_instruction _ fits]

theorem Lower.Aimed.fits {op : Opcode} {target : Nat} {w : Word} (aimed : Aimed op pc target w)
    (jumps : op.jumps = true)
    (near : start ≤ target ∧ target ≤ stop ∧ stop ≤ Word.codeLimit) :
    Fits t assured start stop pc w := by
  obtain ⟨distance, found, rfl⟩ := aimed
  obtain ⟨low, high, small⟩ := near
  have there := @Word.target_instruction op _ _ _ (Nat.le_trans high small) found
  exact ⟨op, Word.opcode?_instruction _ _, fun _ => by rw [there]; exact ⟨low, high⟩,
    fun _ => Tables.has_of_jumps jumps⟩

theorem Fits.widen {w : Word} (fits : Fits t assured start stop pc w) (low : start' ≤ start)
    (high : stop ≤ stop') (weaker : assured' → assured) : Fits t assured' start' stop' pc w := by
  obtain ⟨op, known, inside, has⟩ := fits
  refine ⟨op, known, ?_, fun sure => has (weaker sure)⟩
  intro jumps
  exact ⟨Nat.le_trans low (inside jumps).1, Nat.le_trans (inside jumps).2 high⟩

theorem allFit_nil : AllFit t assured start stop pc [] := trivial

theorem allFit_cons {w : Word} {rest : Fragment} : AllFit t assured start stop pc (w :: rest) ↔
    Fits t assured start stop pc w ∧ AllFit t assured start stop (pc + 1) rest := .rfl

theorem allFit_append {front back : Fragment} : AllFit t assured start stop pc (front ++ back) ↔
    AllFit t assured start stop pc front ∧
      AllFit t assured start stop (pc + front.length) back := by
  induction front generalizing pc with
  | nil => simp [AllFit]
  | cons w front ih =>
      have same : pc + (w :: front).length = pc + 1 + front.length := by
        rw [List.length_cons]
        omega
      rw [List.cons_append, allFit_cons, allFit_cons, ih, same, and_assoc]

theorem AllFit.widen {code : Fragment} (fit : AllFit t assured start stop pc code)
    (low : start' ≤ start) (high : stop ≤ stop') (weaker : assured' → assured) :
    AllFit t assured' start' stop' pc code := by
  induction code generalizing pc with
  | nil => trivial
  | cons w rest ih => exact ⟨fit.1.widen low high weaker, ih fit.2⟩

/-- Each word fits where it stands. -/
theorem AllFit.get {code : Fragment} (fit : AllFit t assured start stop pc code) {i : Nat} {w : Word}
    (here : code[i]? = some w) : Fits t assured start stop (pc + i) w := by
  induction code generalizing pc i with
  | nil => nomatch here
  | cons first rest ih =>
      cases i with
      | zero =>
          obtain rfl := Option.some.inj here
          exact fit.1
      | succ i =>
          have same : pc + (i + 1) = pc + 1 + i := by omega
          rw [same]
          exact ih fit.2 here

end Fits

/-! ## Parts -/

/-- The tables only grow, and stay what they should be. -/
structure Lowering.Extends (s s' : Lowering) : Prop where
  below : s.tables.Below s'.tables
  consistent : s.Consistent → s'.Consistent

namespace Lowering.Extends

variable {s s' s'' : Lowering}

theorem refl (s : Lowering) : s.Extends s := ⟨.refl _, id⟩

theorem trans (first : s.Extends s') (second : s'.Extends s'') : s.Extends s'' :=
  ⟨first.below.trans second.below, second.consistent ∘ first.consistent⟩

theorem of_adds {t : Tables} {index : Nat} (adds : Tables.Adds s.tables t index) :
    s.Extends { s with tables := t } := by
  refine ⟨adds.below, ?_⟩
  intro consistent
  refine ⟨adds.sound consistent.sound, ?_⟩
  intro r i known
  exact Nat.lt_of_lt_of_le (consistent.known known) adds.below.subroutines

end Lowering.Extends

/-- The fragment fits into itself. -/
def Tight (t : Tables) (assured : Prop) (base : Nat) (code : Fragment) : Prop :=
  AllFit t assured base (base + code.length) base code

/-- A part is lowered to a fragment that fits into itself, with the tables as they are then or
at any later time. -/
def Tidy (part : Lower.Part) : Prop :=
  ∀ ⦃base : Nat⦄ ⦃s s' : Lowering⦄ ⦃code : Fragment⦄, part base s = .ok (code, s') →
    s.Extends s' ∧ ∀ t, s'.tables.Below t → base + code.length ≤ Word.codeLimit →
      Tight t s.Consistent base code

namespace Lower

/-! ## Single words -/

section Operands

variable {t t' u : Tables} {n : Nat} {base : Nat} {s : Lowering} {op : Opcode}

/-- A word that refers to what was just added. -/
theorem tight_refers (adds : Tables.Adds s.tables t n) (straight : op.jumps = false)
    (has : u.Has n op) : Tight u s.Consistent base [Word.instruction op n] := by
  refine ⟨?_, trivial⟩
  refine .refers straight ?_
  intro consistent
  exact ⟨adds.fits consistent.sound, has⟩

end Operands

theorem tidy_test (t : CharTest) (label : String) : Tidy (test t label) := by
  intro base s s' code lowered
  simp only [test, bind_eq_ok, table_eq_ok, pure_eq_ok] at lowered
  obtain ⟨n, _, ⟨tables, added, rfl⟩, rfl, rfl⟩ := lowered
  obtain ⟨adds, found⟩ := Tables.addTest_eq_ok added
  refine ⟨.of_adds adds, ?_⟩
  intro u below _
  apply tight_refers adds rfl
  exact (Array.getElem?_eq_some_iff.mp (found u below)).1

theorem tidy_scan (t : CharTest) (least : Nat) (itemLabel : String) :
    Tidy (scan t least itemLabel) := by
  intro base s s' code lowered
  simp only [scan, bind_eq_ok, table_eq_ok, pure_eq_ok] at lowered
  obtain ⟨n, _, ⟨tables, added, rfl⟩, rfl, rfl⟩ := lowered
  obtain ⟨adds, found⟩ := Tables.addScan_eq_ok added
  refine ⟨.of_adds adds, ?_⟩
  intro u below _
  apply tight_refers adds rfl
  exact (Array.getElem?_eq_some_iff.mp (found u below)).1

theorem tidy_text {op : Opcode} (kind : op = .literal ∨ op = .keyword) (text : String)
    (anyCase : Bool) (value : Datum) : Tidy (Lower.text op text anyCase value) := by
  intro base s s' code lowered
  simp only [Lower.text, bind_eq_ok, table_eq_ok, pure_eq_ok] at lowered
  obtain ⟨n, _, ⟨tables, added, rfl⟩, rfl, rfl⟩ := lowered
  obtain ⟨adds, i, found, -⟩ := Tables.addLiteral_eq_ok added
  refine ⟨.of_adds adds, ?_⟩
  intro u below _
  have has : n < u.literals.size := (Array.getElem?_eq_some_iff.mp (below.literals _ _ found)).1
  rcases kind with rfl | rfl
  · exact tight_refers adds rfl has
  · exact tight_refers adds rfl has

theorem tidy_finish : Tidy (fun _ => return [word .finish]) := by
  intro base s s' code lowered
  obtain ⟨rfl, rfl⟩ := pure_eq_ok.mp lowered
  refine ⟨.refl _, ?_⟩
  intro t below small
  exact ⟨.bare rfl, trivial⟩

/-! ## Pairs -/

section Pairs

variable {first second : Part}

/-- Two parts that are lowered one after the other fit into any code that they both stand in. -/
theorem fit_pair (left : Tidy first) (right : Tidy second) {leftBase rightBase : Nat}
    {s s₁ s' : Lowering} {leftCode rightCode : Fragment}
    (lowerLeft : first leftBase s = .ok (leftCode, s₁))
    (lowerRight : second rightBase s₁ = .ok (rightCode, s')) :
    s.Extends s' ∧ ∀ t start stop, s'.tables.Below t →
      start ≤ leftBase ∧ leftBase + leftCode.length ≤ stop →
      start ≤ rightBase ∧ rightBase + rightCode.length ≤ stop → stop ≤ Word.codeLimit →
        AllFit t s.Consistent start stop leftBase leftCode ∧
          AllFit t s.Consistent start stop rightBase rightCode := by
  obtain ⟨extends₁, tight₁⟩ := left lowerLeft
  obtain ⟨extends₂, tight₂⟩ := right lowerRight
  refine ⟨extends₁.trans extends₂, ?_⟩
  intro t start stop below inside inside' small
  have fit₁ := tight₁ t (extends₂.below.trans below) (by omega)
  have fit₂ := tight₂ t below (by omega)
  exact ⟨fit₁.widen inside.1 inside.2 id, fit₂.widen inside'.1 inside'.2 extends₁.consistent⟩

theorem tidy_keepLeft (left : Tidy first) (right : Tidy second) : Tidy (keepLeft first second) := by
  intro base s s' code lowered
  simp only [keepLeft, bind_eq_ok, jump_eq_ok, pure_eq_ok] at lowered
  obtain ⟨leftCode, s₁, lowerLeft, rightCode, s₂, lowerRight, w₁, _, ⟨aim₁, rfl⟩, w₂, _,
    ⟨aim₂, rfl⟩, w₃, _, ⟨aim₃, rfl⟩, rfl, rfl⟩ := lowered
  obtain ⟨extends_, fit⟩ := fit_pair left right lowerLeft lowerRight
  refine ⟨extends_, ?_⟩
  intro t below small
  simp (disch := decide) only [Tight, List.length_append, List.length_cons, List.length_nil,
    List.append_assoc, List.cons_append, List.nil_append, allFit_nil, allFit_cons, allFit_append,
    Fits.bare, true_and, and_true] at small ⊢
  obtain ⟨fit₁, fit₂⟩ := fit t base _ below (by omega) (by omega) small
  refine ⟨fit₁, ?_, fit₂, ?_, ?_⟩
  · exact aim₁.fits rfl (by omega)
  · exact aim₂.fits rfl (by omega)
  · exact aim₃.fits rfl (by omega)

theorem tidy_keepRight (left : Tidy first) (right : Tidy second) :
    Tidy (keepRight first second) := by
  intro base s s' code lowered
  simp only [keepRight, bind_eq_ok, jump_eq_ok, pure_eq_ok] at lowered
  obtain ⟨leftCode, s₁, lowerLeft, rightCode, s₂, lowerRight, w₁, _, ⟨aim₁, rfl⟩, w₂, _,
    ⟨aim₂, rfl⟩, w₃, _, ⟨aim₃, rfl⟩, rfl, rfl⟩ := lowered
  obtain ⟨extends_, fit⟩ := fit_pair left right lowerLeft lowerRight
  refine ⟨extends_, ?_⟩
  intro t below small
  simp (disch := decide) only [Tight, List.length_append, List.length_cons, List.length_nil,
    List.append_assoc, List.cons_append, List.nil_append, allFit_nil, allFit_cons, allFit_append,
    Fits.bare, true_and, and_true] at small ⊢
  obtain ⟨fit₁, fit₂⟩ := fit t base _ below (by omega) (by omega) small
  refine ⟨fit₁, ?_, fit₂, ?_, ?_⟩
  · exact aim₁.fits rfl (by omega)
  · exact aim₂.fits rfl (by omega)
  · exact aim₃.fits rfl (by omega)

theorem tidy_followedBy (left : Tidy first) (right : Tidy second) :
    Tidy (followedBy first second) := by
  intro base s s' code lowered
  simp only [followedBy, bind_eq_ok, jump_eq_ok, pure_eq_ok] at lowered
  obtain ⟨leftCode, s₁, lowerLeft, rightCode, s₂, lowerRight, w₁, _, ⟨aim₁, rfl⟩, w₂, _,
    ⟨aim₂, rfl⟩, w₃, _, ⟨aim₃, rfl⟩, rfl, rfl⟩ := lowered
  obtain ⟨extends_, fit⟩ := fit_pair left right lowerLeft lowerRight
  refine ⟨extends_, ?_⟩
  intro t below small
  simp (disch := decide) only [Tight, List.length_append, List.length_cons, List.length_nil,
    List.append_assoc, List.cons_append, List.nil_append, allFit_nil, allFit_cons, allFit_append,
    Fits.bare, true_and, and_true] at small ⊢
  obtain ⟨fit₁, fit₂⟩ := fit t base _ below (by omega) (by omega) small
  refine ⟨fit₁, ?_, fit₂, ?_, ?_⟩
  · exact aim₁.fits rfl (by omega)
  · exact aim₂.fits rfl (by omega)
  · exact aim₃.fits rfl (by omega)

theorem tidy_notFollowedBy (left : Tidy first) (right : Tidy second) (label : String) :
    Tidy (notFollowedBy first second label) := by
  intro base s s' code lowered
  simp only [notFollowedBy, bind_eq_ok, table_eq_ok, jump_eq_ok, pure_eq_ok] at lowered
  obtain ⟨n, _, ⟨tables, interned, rfl⟩, leftCode, s₁, lowerLeft, rightCode, s₂, lowerRight, w₁, _,
    ⟨aim₁, rfl⟩, w₂, _, ⟨aim₂, rfl⟩, w₃, _, ⟨aim₃, rfl⟩, rfl, rfl⟩ := lowered
  obtain ⟨adds, found, -⟩ := Tables.internLabel_eq_ok interned
  have enters : s.Extends { s with tables } := .of_adds adds
  obtain ⟨extends_, fit⟩ := fit_pair left right lowerLeft lowerRight
  refine ⟨enters.trans extends_, ?_⟩
  intro t below small
  have more : tables.Below t := extends_.below.trans below
  have has : n < t.labels.size := Nat.lt_of_lt_of_le (Tables.lt_of_idxOf? found) more.labels.size
  simp (disch := decide) only [Tight, List.length_append, List.length_cons, List.length_nil,
    List.append_assoc, List.cons_append, List.nil_append, allFit_nil, allFit_cons, allFit_append,
    Fits.bare, true_and, and_true] at small ⊢
  obtain ⟨fit₁, fit₂⟩ := fit t base _ below (by omega) (by omega) small
  refine ⟨?_, ?_, ?_, ?_, ?_, ?_⟩
  · exact fit₁.widen (Nat.le_refl _) (Nat.le_refl _) enters.consistent
  · exact aim₁.fits rfl (by omega)
  · exact fit₂.widen (Nat.le_refl _) (Nat.le_refl _) enters.consistent
  · exact aim₂.fits rfl (by omega)
  · exact aim₃.fits rfl (by omega)
  · refine .refers rfl ?_
    intro consistent
    exact ⟨adds.fits consistent.sound, has⟩

end Pairs

/-! ## One part -/

section Single

variable {body : Part}

theorem tidy_optional (tidy : Tidy body) (fallback : Datum) : Tidy (optional body fallback) := by
  intro base s s' code lowered
  simp only [optional, bind_eq_ok, table_eq_ok, jump_eq_ok, pure_eq_ok] at lowered
  obtain ⟨code, s₁, lowerBody, n, _, ⟨tables, added, rfl⟩, w₁, _, ⟨aim₁, rfl⟩, w₂, _,
    ⟨aim₂, rfl⟩, rfl, rfl⟩ := lowered
  obtain ⟨extends₁, tight₁⟩ := tidy lowerBody
  obtain ⟨adds, found⟩ := Tables.addValue_eq_ok added
  refine ⟨extends₁.trans (.of_adds adds), ?_⟩
  intro t below small
  have has : n < t.values.size := (Array.getElem?_eq_some_iff.mp (below.values _ _ found)).1
  simp (disch := decide) only [Tight, List.length_append, List.length_cons, List.length_nil,
    List.cons_append, List.nil_append, allFit_nil, allFit_cons, allFit_append, Fits.bare,
    true_and, and_true] at small ⊢
  have fit := tight₁ t (adds.below.trans below) (by omega)
  refine ⟨?_, ?_, ?_, ?_⟩
  · exact fit.widen (by omega) (by omega) id
  · exact aim₁.fits rfl (by omega)
  · exact aim₂.fits rfl (by omega)
  · refine .refers rfl ?_
    intro consistent
    exact ⟨adds.fits (extends₁.consistent consistent).sound, has⟩

theorem tidy_many (tidy : Tidy body) (least : Nat) (label : String) :
    Tidy (many body least label) := by
  intro base s s' code lowered
  simp only [many, bind_eq_ok, table_eq_ok, jump_eq_ok, pure_eq_ok] at lowered
  obtain ⟨code, s₁, lowerBody, n, _, ⟨tables, added, rfl⟩, w₁, _, ⟨aim₁, rfl⟩, w₂, _,
    ⟨aim₂, rfl⟩, w₃, _, ⟨aim₃, rfl⟩, rfl, rfl⟩ := lowered
  obtain ⟨extends₁, tight₁⟩ := tidy lowerBody
  obtain ⟨adds, found⟩ := Tables.addArity_eq_ok added
  refine ⟨extends₁.trans (.of_adds adds), ?_⟩
  intro t below small
  have has : n < t.arities.size := (Array.getElem?_eq_some_iff.mp (found t below)).1
  simp (disch := decide) only [Tight, List.length_append, List.length_cons, List.length_nil,
    List.cons_append, List.nil_append, allFit_nil, allFit_cons, allFit_append, Fits.bare,
    true_and, and_true] at small ⊢
  have fit := tight₁ t (adds.below.trans below) (by omega)
  refine ⟨?_, ?_, ?_, ?_, ?_⟩
  · exact fit.widen (by omega) (by omega) id
  · exact aim₁.fits rfl (by omega)
  · exact aim₂.fits rfl (by omega)
  · exact aim₃.fits rfl (by omega)
  · refine .refers rfl ?_
    intro consistent
    exact ⟨adds.fits (extends₁.consistent consistent).sound, has⟩

theorem tidy_transform (tidy : Tidy body) (f : Transform) : Tidy (transform f body) := by
  intro base s s' code lowered
  simp only [transform, bind_eq_ok, table_eq_ok, jump_eq_ok, pure_eq_ok] at lowered
  obtain ⟨code, s₁, lowerBody, n, _, ⟨tables, added, rfl⟩, w₁, _, ⟨aim₁, rfl⟩, w₂, _,
    ⟨aim₂, rfl⟩, rfl, rfl⟩ := lowered
  obtain ⟨extends₁, tight₁⟩ := tidy lowerBody
  obtain ⟨adds, found⟩ := Tables.addTransform_eq_ok added
  refine ⟨extends₁.trans (.of_adds adds), ?_⟩
  intro t below small
  have has : n < t.transforms.size := (Array.getElem?_eq_some_iff.mp (below.transforms _ _ found)).1
  simp (disch := decide) only [Tight, List.length_append, List.length_cons, List.length_nil,
    List.cons_append, List.nil_append, allFit_nil, allFit_cons, allFit_append, Fits.bare,
    true_and, and_true] at small ⊢
  have fit := tight₁ t (adds.below.trans below) (by omega)
  refine ⟨?_, ?_, ?_, ?_⟩
  · exact fit.widen (by omega) (by omega) id
  · refine .refers rfl ?_
    intro consistent
    exact ⟨adds.fits (extends₁.consistent consistent).sound, has⟩
  · exact aim₁.fits rfl (by omega)
  · exact aim₂.fits rfl (by omega)

theorem tidy_announced (tidy : Tidy body) (name : String) : Tidy (announced name body) := by
  intro base s s' code lowered
  simp only [announced, bind_eq_ok, table_eq_ok, pure_eq_ok] at lowered
  obtain ⟨n, _, ⟨tables, interned, rfl⟩, code, s₁, lowerBody, rfl, rfl⟩ := lowered
  obtain ⟨adds, found, -⟩ := Tables.internLabel_eq_ok interned
  have enters : s.Extends { s with tables } := .of_adds adds
  obtain ⟨extends₁, tight₁⟩ := tidy lowerBody
  refine ⟨enters.trans extends₁, ?_⟩
  intro t below small
  have has : n < t.labels.size :=
    Nat.lt_of_lt_of_le (Tables.lt_of_idxOf? found) (extends₁.below.trans below).labels.size
  simp only [Tight, List.length_cons, allFit_cons] at small ⊢
  have fit := tight₁ t below (by omega)
  constructor
  · refine .refers rfl ?_
    intro consistent
    exact ⟨adds.fits consistent.sound, has⟩
  · exact fit.widen (by omega) (by omega) enters.consistent

end Single

/-! ## Forward references -/

theorem tidy_forward (r : Ref) (label : String) {target : Option Part}
    (tidy : ∀ part, target = some part → Tidy part) : Tidy (forward r label target) := by
  intro base s s' code lowered
  cases known : s.subroutines[r]? with
  | some index =>
      simp only [forward, bind_eq_ok, get_eq_ok] at lowered
      obtain ⟨_, _, ⟨rfl, rfl⟩, lowered⟩ := lowered
      simp only [known, pure_eq_ok] at lowered
      obtain ⟨rfl, rfl⟩ := lowered
      refine ⟨.refl _, ?_⟩
      intro t below _
      refine ⟨.refers rfl ?_, trivial⟩
      intro consistent
      have inside := consistent.known known
      exact ⟨Nat.lt_of_lt_of_le inside consistent.sound.subroutines_fit,
        Nat.lt_of_lt_of_le inside below.subroutines⟩
  | none =>
      obtain ⟨part, index, t, u, entries, aimed, added, lowerTarget, rfl⟩ :=
        forward_eq_ok lowered known
      obtain ⟨below, sound, rfl, -, label', -, pushed⟩ := Tables.addSubroutine_eq_ok added
      obtain ⟨extends₁, tight₁⟩ := tidy part aimed lowerTarget
      have enters : s.Extends
          { s with tables := t, subroutines := s.subroutines.insert r s.tables.subroutines.size } := by
        refine ⟨below, ?_⟩
        intro consistent
        refine ⟨sound consistent.sound, ?_⟩
        intro r' i found
        show i < t.subroutines.size
        rw [pushed, Array.size_push]
        rw [Std.TreeMap.getElem?_insert] at found
        by_cases same : r = r'
        · obtain rfl : s.tables.subroutines.size = i := by simpa [same] using found
          exact Nat.lt_succ_self _
        · exact Nat.lt_succ_of_lt (consistent.known (by simpa [same] using found))
      have places : u.Extends { u with
          tables := u.tables.placeSubroutine s.tables.subroutines.size ⟨base, base + code.length⟩
          entries } := by
        refine ⟨Tables.below_placeSubroutine, ?_⟩
        intro consistent
        refine ⟨consistent.sound.placeSubroutine, ?_⟩
        intro r' i found
        exact Nat.lt_of_lt_of_le (consistent.known found) Tables.below_placeSubroutine.subroutines
      refine ⟨enters.trans (extends₁.trans places), ?_⟩
      intro v later small
      have tight := tight₁ v (places.below.trans later) small
      exact tight.widen (Nat.le_refl _) (Nat.le_refl _) enters.consistent

/-! ## Lists of parts -/

end Lower

/-- Fragments stand one after the other from an address on, with room for `gap` words behind
each, and fit into themselves. -/
def AllTight (t : Tables) (assured : Prop) (gap : Nat) : Nat → List Fragment → Prop
  | _, [] => True
  | start, code :: rest =>
      Tight t assured start code ∧ AllTight t assured gap (start + code.length + gap) rest

theorem AllTight.weaken {t : Tables} {assured assured' : Prop} {gap start : Nat}
    {codes : List Fragment} (tight : AllTight t assured gap start codes)
    (weaker : assured' → assured) : AllTight t assured' gap start codes := by
  induction codes generalizing start with
  | nil => trivial
  | cons code rest ih =>
      exact ⟨tight.1.widen (Nat.le_refl _) (Nat.le_refl _) weaker, ih tight.2⟩

namespace Lower

theorem tidy_parts {part : Ref → Part} (tidy : ∀ r, Tidy (part r)) {gap start : Nat}
    {refs : List Ref} {s s' : Lowering} {codes : List Fragment}
    (lowered : parts gap start (refs.map part) s = .ok (codes, s')) :
    s.Extends s' ∧ ∀ t, s'.tables.Below t → start + room gap codes ≤ Word.codeLimit →
      AllTight t s.Consistent gap start codes := by
  induction refs generalizing start s codes with
  | nil =>
      obtain ⟨rfl, rfl⟩ := pure_eq_ok.mp lowered
      refine ⟨.refl _, ?_⟩
      intro t below small
      trivial
  | cons r refs ih =>
      simp only [List.map_cons, parts, bind_eq_ok, pure_eq_ok] at lowered
      obtain ⟨code, s₁, lowerFirst, others, s₂, lowerRest, rfl, rfl⟩ := lowered
      obtain ⟨extends₁, tight₁⟩ := tidy r lowerFirst
      obtain ⟨extends₂, tight₂⟩ := ih lowerRest
      refine ⟨extends₁.trans extends₂, ?_⟩
      intro t below small
      rw [room] at small
      constructor
      · exact tight₁ t (extends₂.below.trans below) (by omega)
      · have others := tight₂ t below (by omega)
        exact others.weaken extends₁.consistent

/-- The words of the items of a sequence, inside a fragment that also has the words behind
them. -/
theorem fit_itemWords {t : Tables} {assured : Prop} {base stop fail start : Nat}
    {codes : List Fragment} {body : Fragment} {s s' : Lowering}
    (made : itemWords fail start codes s = .ok (body, s'))
    (tight : AllTight t assured 2 start codes) (low : base ≤ start) (room : start + body.length ≤ stop)
    (near : base ≤ fail ∧ fail ≤ stop ∧ stop ≤ Word.codeLimit) :
    AllFit t assured base stop start body := by
  induction codes generalizing start body with
  | nil =>
      obtain ⟨rfl, rfl⟩ := pure_eq_ok.mp made
      trivial
  | cons code rest ih =>
      simp only [itemWords, bind_eq_ok, jump_eq_ok, pure_eq_ok] at made
      obtain ⟨w, _, ⟨aim, rfl⟩, others, _, made, rfl, rfl⟩ := made
      obtain ⟨first, tight⟩ := tight
      simp (disch := decide) only [List.length_append, List.length_cons, List.append_assoc,
        List.cons_append, List.nil_append, allFit_cons, allFit_append, Fits.bare,
        true_and] at room ⊢
      refine ⟨?_, ?_, ?_⟩
      · exact first.widen low (by omega) id
      · exact aim.fits rfl (by omega)
      · exact ih made tight (by omega) (by omega)

/-- The words of the alternatives of a choice, inside its fragment. -/
theorem fit_alternativeWords {t : Tables} {assured : Prop} {base stop ok start : Nat}
    {codes : List Fragment} {body : Fragment} {s s' : Lowering}
    (made : alternativeWords ok start codes s = .ok (body, s'))
    (tight : AllTight t assured 2 start codes) (low : base ≤ start) (room : start + body.length ≤ stop)
    (near : base ≤ ok ∧ ok ≤ stop ∧ stop ≤ Word.codeLimit) :
    AllFit t assured base stop start body := by
  induction codes generalizing start body with
  | nil =>
      obtain ⟨rfl, rfl⟩ := pure_eq_ok.mp made
      trivial
  | cons code rest ih =>
      rw [alternativeWords] at made
      simp only [bind_eq_ok, jump_eq_ok, pure_eq_ok] at made
      obtain ⟨w, _, ⟨aim, rfl⟩, others, _, made, rfl, rfl⟩ := made
      obtain ⟨first, tight⟩ := tight
      cases rest with
      | nil =>
          obtain ⟨rfl, rfl⟩ := pure_eq_ok.mp made
          simp only [List.length_append, List.length_cons, List.length_nil, List.isEmpty_nil,
            if_true, List.append_nil, allFit_nil, allFit_cons, allFit_append, and_true] at room ⊢
          constructor
          · exact first.widen low (by omega) id
          · exact aim.fits rfl (by omega)
      | cons next rest =>
          simp (disch := decide) only [List.length_append, List.length_cons, List.append_assoc,
            List.isEmpty_cons, Bool.false_eq_true, if_false, List.cons_append, List.nil_append,
            allFit_cons, allFit_append, Fits.bare, true_and] at room ⊢
          refine ⟨?_, ?_, ?_⟩
          · exact first.widen low (by omega) id
          · exact aim.fits rfl (by omega)
          · exact ih made tight (by omega) (by omega)

theorem tidy_sequence {part : Ref → Part} (tidy : ∀ r, Tidy (part r)) (refs : List Ref) :
    Tidy (sequence (refs.map part) none) := by
  intro base s s' code lowered
  simp only [sequence, bind_eq_ok, table_eq_ok, jump_eq_ok, pure_eq_ok, Option.isSome_none,
    Bool.false_eq_true, if_false] at lowered
  obtain ⟨codes, s₁, lowerParts, n, _, ⟨tables, added, rfl⟩, body, s₂, items, _, _, ⟨rfl, rfl⟩, leave,
    _, ⟨aim, rfl⟩, rfl, rfl⟩ := lowered
  obtain ⟨extends₁, tight⟩ := tidy_parts tidy lowerParts
  obtain ⟨adds, found⟩ := Tables.addArity_eq_ok added
  obtain ⟨rfl, size, -⟩ := itemWords_eq_ok items
  refine ⟨extends₁.trans (.of_adds adds), ?_⟩
  intro t below small
  have has : n < t.arities.size := (Array.getElem?_eq_some_iff.mp (found t below)).1
  simp (disch := decide) only [Tight, List.length_append, List.length_cons, List.length_nil,
    List.append_assoc, List.cons_append, List.nil_append, allFit_nil, allFit_cons, allFit_append,
    Fits.bare, true_and, and_true, size] at small ⊢
  have tight := tight t (adds.below.trans below) (by omega)
  refine ⟨?_, ?_, ?_⟩
  · exact fit_itemWords items tight (by omega) (by omega) (by omega)
  · refine .refers rfl ?_
    intro consistent
    exact ⟨adds.fits (extends₁.consistent consistent).sound, has⟩
  · exact aim.fits rfl (by omega)

theorem tidy_combine {part : Ref → Part} (tidy : ∀ r, Tidy (part r)) (refs : List Ref)
    (f : Combiner) : Tidy (sequence (refs.map part) (some f)) := by
  intro base s s' code lowered
  simp only [sequence, bind_eq_ok, table_eq_ok, jump_eq_ok, pure_eq_ok, Option.isSome_some,
    if_true] at lowered
  obtain ⟨codes, s₁, lowerParts, n, _, ⟨tables, added, rfl⟩, body, s₂, items, m, _,
    ⟨tables', added', rfl⟩, w, _, ⟨aim, rfl⟩, _, _, ⟨rfl, rfl⟩, leave, _, ⟨aim', rfl⟩, rfl, rfl⟩ :=
    lowered
  obtain ⟨extends₁, tight⟩ := tidy_parts tidy lowerParts
  obtain ⟨adds, found⟩ := Tables.addArity_eq_ok added
  obtain ⟨rfl, size, -⟩ := itemWords_eq_ok items
  obtain ⟨adds', found'⟩ := Tables.addCombiner_eq_ok added'
  refine ⟨extends₁.trans (.of_adds (adds.trans adds')), ?_⟩
  intro t below small
  have has : n < t.arities.size :=
    (Array.getElem?_eq_some_iff.mp (found t (adds'.below.trans below))).1
  have has' : m < t.combiners.size :=
    (Array.getElem?_eq_some_iff.mp (below.combiners _ _ found')).1
  simp (disch := decide) only [Tight, List.length_append, List.length_cons, List.length_nil,
    List.append_assoc, List.cons_append, List.nil_append, allFit_nil, allFit_cons, allFit_append,
    Fits.bare, true_and, and_true, size] at small ⊢
  have tight := tight t ((adds.trans adds').below.trans below) (by omega)
  refine ⟨?_, ?_, ?_, ?_, ?_⟩
  · exact fit_itemWords items tight (by omega) (by omega) (by omega)
  · refine .refers rfl ?_
    intro consistent
    exact ⟨adds.fits (extends₁.consistent consistent).sound, has⟩
  · refine .refers rfl ?_
    intro consistent
    exact ⟨adds'.fits (adds.sound (extends₁.consistent consistent).sound), has'⟩
  · exact aim.fits rfl (by omega)
  · exact aim'.fits rfl (by omega)

theorem tidy_choice {part : Ref → Part} (tidy : ∀ r, Tidy (part r)) (refs : List Ref)
    (label : String) : Tidy (choice (refs.map part) label) := by
  intro base s s' code lowered
  cases refs with
  | nil => nomatch lowered
  | cons r refs =>
      simp only [choice, bind_eq_ok, jump_eq_ok, pure_eq_ok, List.map_cons, List.isEmpty_cons,
        Bool.false_eq_true, if_false] at lowered
      obtain ⟨codes, s₁, lowerParts, body, s₂, words, leave, _, ⟨aim, rfl⟩, rfl, rfl⟩ := lowered
      rw [← List.map_cons] at lowerParts
      obtain ⟨extends₁, tight⟩ := tidy_parts tidy lowerParts
      obtain ⟨first, rest, rfl⟩ :=
        List.exists_cons_of_length_eq_add_one (length_parts lowerParts)
      obtain ⟨rfl, finish, size, length, -⟩ := alternativeWords_eq_ok words
      have ends : base + 1 + room 2 (first :: rest) - 1 = finish + 1 := by omega
      rw [ends] at aim words
      refine ⟨extends₁, ?_⟩
      intro t below small
      simp (disch := decide) only [Tight, List.length_append, List.length_cons, List.length_nil,
        List.cons_append, List.nil_append, allFit_nil, allFit_cons, allFit_append, Fits.bare,
        true_and, and_true, length] at small ⊢
      have tight := tight t below (by omega)
      constructor
      · exact fit_alternativeWords words tight (by omega) (by omega) (by omega)
      · exact aim.fits rfl (by omega)

end Lower

/-! ## Expressions -/

open Lower in
/-- The fragment of an expression fits into itself. -/
theorem Grammar.tidy_lower (g : Grammar) (traced : Bool) (height : Nat) (r : Ref) :
    Tidy (g.lower traced height r) := by
  induction height generalizing r with
  | zero =>
      intro base s s' code lowered
      nomatch lowered
  | succ height ih =>
      have form : Tidy (g.lowerExpression (g.lower traced height) r (g.expression r)) := by
        cases g.expression r with
        | char c anyCase => exact tidy_test _ _
        | oneOf chars => exact tidy_test _ _
        | escaped c => exact tidy_test _ _
        | test t => exact tidy_test _ _
        | scan t least itemLabel => exact tidy_scan _ _ _
        | literal text anyCase => exact tidy_text (.inl rfl) _ _ _
        | keyword text value anyCase => exact tidy_text (.inr rfl) _ _ _
        | finish => exact tidy_finish
        | seq first second => exact tidy_sequence ih _
        | orElse first second => exact tidy_choice ih [first, second] (g.label r)
        | choice alternatives => exact tidy_choice ih _ _
        | keepLeft first second => exact tidy_keepLeft (ih _) (ih _)
        | keepRight first second => exact tidy_keepRight (ih _) (ih _)
        | followedBy first second => exact tidy_followedBy (ih _) (ih _)
        | notFollowedBy first second => exact tidy_notFollowedBy (ih _) (ih _) _
        | combine f parts => exact tidy_combine ih _ _
        | optional body fallback => exact tidy_optional (ih _) _
        | many body least => exact tidy_many (ih _) _ _
        | transform f body => exact tidy_transform (ih _) _
        | idiom kind body => exact ih _
        | forward target =>
            refine tidy_forward _ _ ?_
            intro part aimed
            obtain ⟨t, -, rfl⟩ := Option.map_eq_some_iff.mp aimed
            exact ih t
      simp only [Grammar.lower]
      split
      · exact tidy_announced form _
      · exact form

end PegMachine
