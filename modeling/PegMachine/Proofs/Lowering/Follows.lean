/-
# PegMachine.Proofs.Lowering.Follows — words do what their code says

`Follows` relates the lowering of an expression to its unfolding: whenever lowering
succeeds, unfolding does, with forward references known alike before and after
(`Tracks`); and in any bytecode that has the fragment at its address and the tables it
was lowered with, the fragment runs as the code says, and so does every subroutine that
was placed on the way.

There is one statement for each layout, built on the one of `Proofs.Machine.Layout`, and
`follows_lower` puts them together by induction on the height of the expression.
-/
import PegMachine.Proofs.Lowering.Tables
import PegMachine.Proofs.Lowering.Unfolding
import PegMachine.Proofs.Machine.Layout

namespace PegMachine

set_option autoImplicit false

open Machine (At AtBare AtJump Behaviour Code Path Runs Surroundings)

/-! ## Successful lowering -/

namespace Lower

theorem bind_eq_ok {α β : Type} {x : Lower α} {f : α → Lower β} {s s' : Lowering} {b : β} :
    (x >>= f) s = .ok (b, s') ↔ ∃ a u, x s = .ok (a, u) ∧ f a u = .ok (b, s') := by
  show (x s >>= fun p => f p.1 p.2) = _ ↔ _
  simp only [PegMachine.bind_eq_ok, Prod.exists]

theorem pure_eq_ok {α : Type} {a b : α} {s s' : Lowering} :
    (pure a : Lower α) s = .ok (b, s') ↔ a = b ∧ s = s' := by
  show Except.ok (a, s) = .ok (b, s') ↔ _
  simp only [Except.ok.injEq, Prod.mk.injEq]

theorem table_eq_ok {add : Tables → Except LoweringError (Nat × Tables)} {s s' : Lowering}
    {index : Nat} : table add s = .ok (index, s') ↔
      ∃ t, add s.tables = .ok (index, t) ∧ { s with tables := t } = s' := by
  have steps : (table add).run s =
      (add s.tables >>= fun p => .ok (p.1, { s with tables := p.2 })) := by
    simp [table]
    rfl
  show (table add).run s = _ ↔ _
  simp only [steps, PegMachine.bind_eq_ok, Prod.exists, Except.ok.injEq, Prod.mk.injEq]
  constructor
  · rintro ⟨i, t, added, rfl, same⟩
    exact ⟨t, added, same⟩
  · rintro ⟨t, added, same⟩
    exact ⟨index, t, added, rfl, same⟩

theorem get_eq_ok {s s' u : Lowering} : (get : Lower Lowering) s = .ok (u, s') ↔ s = u ∧ s = s' :=
  pure_eq_ok

theorem modify_eq_ok {f : Lowering → Lowering} {s s' : Lowering} {x : PUnit} :
    (modify f : Lower PUnit) s = .ok (x, s') ↔ f s = s' := by
  show Except.ok (PUnit.unit, f s) = .ok (x, s') ↔ _
  simp only [Except.ok.injEq, Prod.mk.injEq, true_and]

/-- A word that jumps from one address to another. -/
def Aimed (op : Opcode) (source target : Nat) (w : Word) : Prop :=
  ∃ distance, Word.distance? source target = some distance ∧
    Word.instruction op (Word.ofDistance distance) = w

theorem jump_eq_ok {op : Opcode} {source target : Nat} {s s' : Lowering} {w : Word} :
    jump op source target s = .ok (w, s') ↔ Aimed op source target w ∧ s = s' := by
  cases found : Word.distance? source target with
  | some distance =>
      simp only [jump, found, pure_eq_ok, Aimed, Option.some.injEq, exists_eq_left']
  | none =>
      simp only [jump, found, Aimed]
      exact ⟨nofun, nofun⟩

end Lower

/-! ## Words in their place -/

/-- Words stand from an address on, inside a range that ends at `stop`. -/
def Laid (b : Bytecode) (stop : Nat) : Nat → Fragment → Prop
  | _, [] => True
  | base, w :: rest => At b stop base w ∧ Laid b stop (base + 1) rest

section Laid

variable {b : Bytecode} {stop base : Nat}

theorem laid_cons {w : Word} {rest : Fragment} :
    Laid b stop base (w :: rest) ↔ At b stop base w ∧ Laid b stop (base + 1) rest := .rfl

theorem laid_append {front back : Fragment} : Laid b stop base (front ++ back) ↔
    Laid b stop base front ∧ Laid b stop (base + front.length) back := by
  induction front generalizing base with
  | nil => simp [Laid]
  | cons w front ih =>
      have same : base + (w :: front).length = base + 1 + front.length := by
        rw [List.length_cons]
        omega
      rw [List.cons_append, laid_cons, laid_cons, ih, same, and_assoc]

/-- Inside a range that ends with the words themselves. -/
theorem Laid.tight {stop' : Nat} {code : Fragment} (laid : Laid b stop base code)
    (room : base + code.length ≤ stop') : Laid b stop' base code := by
  induction code generalizing base with
  | nil => trivial
  | cons w rest ih =>
      rw [List.length_cons] at room
      exact ⟨⟨by omega, laid.1.2⟩, ih laid.2 (by omega)⟩

end Laid

/-- A jump, in bytecode of possible size, to an address up to the one behind a word. -/
theorem Lower.Aimed.at {b : Bytecode} {stop source target last : Nat} {op : Opcode} {w w' : Word}
    (aimed : Aimed op source target w) (small : b.code.size ≤ Word.codeLimit)
    (here : At b stop source w) (word : At b stop last w') (near : target ≤ last + 1) :
    AtJump b stop source op target := by
  obtain ⟨distance, found, rfl⟩ := aimed
  have inside := (Array.getElem?_eq_some_iff.mp word.2).1
  exact ⟨_, here, Word.opcode?_instruction _ _, Word.target_instruction (by omega) found⟩

/-! ## The relation -/

/-- Lowering and unfolding know the same of forward references. -/
structure Tracks (s : Lowering) (v : Unfolding) : Prop where
  met : ∀ r, s.subroutines[r]? = v.met.idxOf? r
  count : s.tables.subroutines.size = v.met.length
  sound : s.tables.Sound

theorem tracks_empty : Tracks {} {} := ⟨by simp, rfl, Tables.sound_empty⟩

/-- Calls do what the subroutines of bytecode do at this depth. -/
def Answers (b : Bytecode) (input : Array Char) (depth : Nat) (call : Nat → Behaviour input) :
    Prop :=
  ∀ index < b.subroutines.size, ∀ stop pc, At b stop pc (Word.instruction .call index) →
    Runs b input depth stop pc (pc + 1) (call index)

/-- Words from one address to another do what a code says. -/
def Realizes (b : Bytecode) (stop start exit : Nat) (c : Code) : Prop :=
  ∀ input depth call, Answers b input depth call →
    Runs b input depth stop start exit (c input ⟨b.indexOf, call⟩)

/-- What a subroutine does that has been placed. -/
def Placed (b : Bytecode) (t : Tables) (index : Nat) (c : Code) : Prop :=
  ∃ sub, t.subroutines[index]? = some sub ∧
    Realizes b sub.range.stop sub.range.start sub.range.stop c

/-- The subroutines met on the way have been placed. -/
def PlacedSince (b : Bytecode) (v : Unfolding) (s' : Lowering) (v' : Unfolding) : Prop :=
  ∀ i, v.met.length ≤ i → i < v'.met.length → Placed b s'.tables i (v'.bodies i)

/-- Bytecode that has all of the tables, and possible size. -/
structure Hosts (b : Bytecode) (t : Tables) : Prop where
  below : t.Below b.toTables
  small : b.code.size ≤ Word.codeLimit

theorem Hosts.of_below {b : Bytecode} {t u : Tables} (hosts : Hosts b u) (below : t.Below u) :
    Hosts b t := ⟨below.trans hosts.below, hosts.small⟩

/-- What lowering and unfolding a part leave as it was. -/
structure Moves (s s' : Lowering) (v v' : Unfolding) : Prop where
  tracks : Tracks s' v'
  below : s.tables.Below s'.tables
  longer : v.met.length ≤ v'.met.length
  kept : ∀ i < v.met.length,
    s'.tables.subroutines[i]? = s.tables.subroutines[i]? ∧ v'.bodies i = v.bodies i

/-- Lowering a part goes along with unfolding it. -/
def Follows (part : Lower.Part) (u : Unfold Code) : Prop :=
  ∀ ⦃base : Nat⦄ ⦃s s' : Lowering⦄ ⦃code : Fragment⦄ ⦃v : Unfolding⦄,
    part base s = .ok (code, s') → Tracks s v →
    ∃ c v', u v = some (c, v') ∧ Moves s s' v v' ∧
      ∀ ⦃b : Bytecode⦄ ⦃stop : Nat⦄, Hosts b s'.tables → Laid b stop base code →
        Realizes b stop base (base + code.length) c ∧ PlacedSince b v s' v'

section Moves

variable {b : Bytecode} {s s' s'' : Lowering} {v v' v'' : Unfolding}

theorem Moves.refl (tracks : Tracks s v) : Moves s s v v :=
  ⟨tracks, .refl _, Nat.le_refl _, fun _ _ => ⟨rfl, rfl⟩⟩

theorem Moves.trans (first : Moves s s' v v') (second : Moves s' s'' v' v'') :
    Moves s s'' v v'' := by
  refine ⟨second.tracks, first.below.trans second.below,
    Nat.le_trans first.longer second.longer, ?_⟩
  intro i old
  obtain ⟨entry, body⟩ := second.kept i (Nat.lt_of_lt_of_le old first.longer)
  exact ⟨entry.trans (first.kept i old).1, body.trans (first.kept i old).2⟩

/-- Adding to the tables is not seen by unfolding. -/
theorem Moves.of_adds {t : Tables} {index : Nat} (tracks : Tracks s v)
    (adds : Tables.Adds s.tables t index) : Moves s { s with tables := t } v v :=
  ⟨⟨tracks.met, by rw [adds.subroutines]; exact tracks.count, adds.sound tracks.sound⟩,
    adds.below, Nat.le_refl _, fun _ _ => ⟨by rw [adds.subroutines], rfl⟩⟩

theorem PlacedSince.refl : PlacedSince b v s v := fun i old new => absurd new (by omega)

theorem PlacedSince.trans (first : PlacedSince b v s' v') (moves : Moves s' s'' v' v'')
    (second : PlacedSince b v' s'' v'') : PlacedSince b v s'' v'' := by
  intro i old new
  by_cases earlier : i < v'.met.length
  · obtain ⟨sub, known, realizes⟩ := first i old earlier
    obtain ⟨entry, body⟩ := moves.kept i earlier
    exact ⟨sub, entry.trans known, body ▸ realizes⟩
  · exact second i (by omega) new

/-- Later additions to the tables place nothing. -/
theorem PlacedSince.of_adds {t : Tables} {index : Nat} (placed : PlacedSince b v s' v')
    (adds : Tables.Adds s'.tables t index) : PlacedSince b v { s' with tables := t } v' := by
  intro i old new
  obtain ⟨sub, known, realizes⟩ := placed i old new
  exact ⟨sub, by rw [adds.subroutines]; exact known, realizes⟩

end Moves

/-- The words of a layout end where its behaviour does. -/
theorem Machine.Runs.to {b : Bytecode} {input : Array Char} {depth stop start exit exit' : Nat}
    {body : Behaviour input} (runs : Runs b input depth stop start exit body)
    (same : exit = exit') : Runs b input depth stop start exit' body := same ▸ runs

theorem Unfold.bind_some {α β : Type} {x : Unfold α} {v v' : Unfolding} {a : α}
    (done : x v = some (a, v')) (f : α → Unfold β) : (x >>= f) v = f a v' := by
  show (x v).bind (fun p => f p.1 p.2) = _
  rw [done, Option.bind_some]

namespace Lower

/-! ## Single words -/

theorem follows_test (t : CharTest) (label : String) :
    Follows (test t label) (return .test t label) := by
  intro base s s' code v lowered tracks
  simp only [test, bind_eq_ok, table_eq_ok, pure_eq_ok] at lowered
  obtain ⟨index, _, ⟨tables, added, rfl⟩, rfl, rfl⟩ := lowered
  obtain ⟨adds, found⟩ := Tables.addTest_eq_ok added
  refine ⟨_, _, rfl, .of_adds tracks adds, ?_⟩
  intro b stop hosts laid
  refine ⟨?_, .refl⟩
  intro input depth call answers pos register marks collections
  exact .test laid.1 (adds.fits tracks.sound) (found _ hosts.below)

theorem follows_scan (t : CharTest) (least : Nat) (itemLabel : String) :
    Follows (scan t least itemLabel) (return .scan t least itemLabel) := by
  intro base s s' code v lowered tracks
  simp only [scan, bind_eq_ok, table_eq_ok, pure_eq_ok] at lowered
  obtain ⟨index, _, ⟨tables, added, rfl⟩, rfl, rfl⟩ := lowered
  obtain ⟨adds, found⟩ := Tables.addScan_eq_ok added
  refine ⟨_, _, rfl, .of_adds tracks adds, ?_⟩
  intro b stop hosts laid
  refine ⟨?_, .refl⟩
  intro input depth call answers pos register marks collections
  exact .scan laid.1 (adds.fits tracks.sound) (found _ hosts.below)

theorem follows_text {op : Opcode} (kind : op = .literal ∨ op = .keyword) (text : String)
    (anyCase : Bool) (value : Datum) :
    Follows (Lower.text op text anyCase value) (return .text text anyCase value) := by
  intro base s s' code v lowered tracks
  simp only [Lower.text, bind_eq_ok, table_eq_ok, pure_eq_ok] at lowered
  obtain ⟨index, _, ⟨tables, added, rfl⟩, rfl, rfl⟩ := lowered
  obtain ⟨adds, i, found, stored⟩ := Tables.addLiteral_eq_ok added
  refine ⟨_, _, rfl, .of_adds tracks adds, ?_⟩
  intro b stop hosts laid
  refine ⟨?_, .refl⟩
  intro input depth call answers pos register marks collections
  have path : Path b input depth stop ⟨base, pos, register, marks, collections⟩ []
      ⟨base + 1, (Machine.readLiteral ⟨text.toList, anyCase, i⟩ value input pos).2,
        (Machine.readLiteral ⟨text.toList, anyCase, i⟩ value input pos).1, marks, collections⟩ :=
    .literal kind laid.1 (adds.fits tracks.sound) (hosts.below.literals _ _ found)
      (hosts.below.values _ _ stored)
  exact path

theorem follows_finish : Follows (fun _ => return [word .finish]) (return .finish) := by
  intro base s s' code v lowered tracks
  obtain ⟨rfl, rfl⟩ := pure_eq_ok.mp lowered
  refine ⟨_, _, rfl, .refl tracks, ?_⟩
  intro b stop hosts laid
  refine ⟨?_, .refl⟩
  intro input depth call answers pos register marks collections
  exact .finish laid.1

/-! ## Pairs -/

section Pairs

variable {first second : Part} {u u' : Unfold Code}

/-- Two parts that are lowered one after the other go along with unfolding them in that order,
whatever code is then made of theirs. -/
theorem follows_pair (left : Follows first u) (right : Follows second u')
    {leftBase rightBase : Nat} {s s₁ s' : Lowering} {leftCode rightCode : Fragment} {v : Unfolding}
    (lowerLeft : first leftBase s = .ok (leftCode, s₁))
    (lowerRight : second rightBase s₁ = .ok (rightCode, s')) (tracks : Tracks s v) :
    ∃ c c' v', (∀ join : Code → Code → Code,
        (do return join (← u) (← u') : Unfold Code) v = some (join c c', v')) ∧
      Moves s s' v v' ∧
      ∀ ⦃b : Bytecode⦄ ⦃stop : Nat⦄, Hosts b s'.tables → Laid b stop leftBase leftCode →
        Laid b stop rightBase rightCode →
        Realizes b stop leftBase (leftBase + leftCode.length) c ∧
          Realizes b stop rightBase (rightBase + rightCode.length) c' ∧ PlacedSince b v s' v' := by
  obtain ⟨c, v₁, unfolds, moves, runs⟩ := left lowerLeft tracks
  obtain ⟨c', v₂, unfolds', moves', runs'⟩ := right lowerRight moves.tracks
  refine ⟨c, c', v₂, ?_, moves.trans moves', ?_⟩
  · intro join
    rw [Unfold.bind_some unfolds, Unfold.bind_some unfolds']
    rfl
  · intro b stop hosts laidLeft laidRight
    obtain ⟨realizes, placed⟩ := runs (hosts.of_below moves'.below) laidLeft
    obtain ⟨realizes', placed'⟩ := runs' hosts laidRight
    exact ⟨realizes, realizes', placed.trans moves' placed'⟩

theorem follows_keepLeft (left : Follows first u) (right : Follows second u') :
    Follows (keepLeft first second) (return .keepLeft (← u) (← u')) := by
  intro base s s' code v lowered tracks
  simp only [keepLeft, bind_eq_ok, jump_eq_ok, pure_eq_ok] at lowered
  obtain ⟨leftCode, s₁, lowerLeft, rightCode, s₂, lowerRight, w₁, _, ⟨aim₁, rfl⟩, w₂, _,
    ⟨aim₂, rfl⟩, w₃, _, ⟨aim₃, rfl⟩, rfl, rfl⟩ := lowered
  obtain ⟨c, c', v', unfolds, moves, runs⟩ := follows_pair left right lowerLeft lowerRight tracks
  refine ⟨.keepLeft c c', v', unfolds .keepLeft, moves, ?_⟩
  intro b stop hosts laid
  simp only [List.append_assoc, List.cons_append, List.nil_append, laid_cons, laid_append] at laid
  obtain ⟨collect, mark, laidLeft, jump₁, push, laidRight, jump₂, pop, unmark, jump₃, rewind,
    discard, -⟩ := laid
  obtain ⟨realizes, realizes', placed⟩ := runs hosts laidLeft laidRight
  refine ⟨?_, placed⟩
  intro input depth call answers
  have jump₁ := aim₁.at hosts.small jump₁ rewind (by omega)
  have jump₂ := aim₂.at hosts.small jump₂ rewind (by omega)
  have jump₃ := aim₃.at hosts.small jump₃ discard (by omega)
  have whole := Machine.runs_keepLeft collect mark (realizes _ _ _ answers) jump₁ push
    (realizes' _ _ _ answers) jump₂ pop unmark jump₃ rewind discard
  exact whole.to (by simp; omega)

theorem follows_keepRight (left : Follows first u) (right : Follows second u') :
    Follows (keepRight first second) (return .keepRight (← u) (← u')) := by
  intro base s s' code v lowered tracks
  simp only [keepRight, bind_eq_ok, jump_eq_ok, pure_eq_ok] at lowered
  obtain ⟨leftCode, s₁, lowerLeft, rightCode, s₂, lowerRight, w₁, _, ⟨aim₁, rfl⟩, w₂, _,
    ⟨aim₂, rfl⟩, w₃, _, ⟨aim₃, rfl⟩, rfl, rfl⟩ := lowered
  obtain ⟨c, c', v', unfolds, moves, runs⟩ := follows_pair left right lowerLeft lowerRight tracks
  refine ⟨.keepRight c c', v', unfolds .keepRight, moves, ?_⟩
  intro b stop hosts laid
  simp only [List.append_assoc, List.cons_append, List.nil_append, laid_cons, laid_append] at laid
  obtain ⟨mark, laidLeft, jump₁, laidRight, jump₂, unmark, jump₃, rewind, -⟩ := laid
  obtain ⟨realizes, realizes', placed⟩ := runs hosts laidLeft laidRight
  refine ⟨?_, placed⟩
  intro input depth call answers
  have jump₁ := aim₁.at hosts.small jump₁ rewind (by omega)
  have jump₂ := aim₂.at hosts.small jump₂ rewind (by omega)
  have jump₃ := aim₃.at hosts.small jump₃ rewind (by omega)
  have whole := Machine.runs_keepRight mark (realizes _ _ _ answers) jump₁
    (realizes' _ _ _ answers) jump₂ unmark jump₃ rewind
  exact whole.to (by simp; omega)

theorem follows_followedBy (left : Follows first u) (right : Follows second u') :
    Follows (followedBy first second) (return .followedBy (← u) (← u')) := by
  intro base s s' code v lowered tracks
  simp only [followedBy, bind_eq_ok, jump_eq_ok, pure_eq_ok] at lowered
  obtain ⟨leftCode, s₁, lowerLeft, rightCode, s₂, lowerRight, w₁, _, ⟨aim₁, rfl⟩, w₂, _,
    ⟨aim₂, rfl⟩, w₃, _, ⟨aim₃, rfl⟩, rfl, rfl⟩ := lowered
  obtain ⟨c, c', v', unfolds, moves, runs⟩ := follows_pair left right lowerLeft lowerRight tracks
  refine ⟨.followedBy c c', v', unfolds .followedBy, moves, ?_⟩
  intro b stop hosts laid
  simp only [List.append_assoc, List.cons_append, List.nil_append, laid_cons, laid_append] at laid
  obtain ⟨collect, mark, laidLeft, jump₁, push, peek, laidRight, back, jump₂, pop, unmark, jump₃,
    rewind, discard, -⟩ := laid
  obtain ⟨realizes, realizes', placed⟩ := runs hosts laidLeft laidRight
  refine ⟨?_, placed⟩
  intro input depth call answers
  have jump₁ := aim₁.at hosts.small jump₁ rewind (by omega)
  have jump₂ := aim₂.at hosts.small jump₂ rewind (by omega)
  have jump₃ := aim₃.at hosts.small jump₃ discard (by omega)
  have whole := Machine.runs_followedBy collect mark (realizes _ _ _ answers) jump₁ push peek
    (realizes' _ _ _ answers) back jump₂ pop unmark jump₃ rewind discard
  exact whole.to (by simp; omega)

theorem follows_notFollowedBy (left : Follows first u) (right : Follows second u')
    (label : String) :
    Follows (notFollowedBy first second label) (return .notFollowedBy (← u) (← u') label) := by
  intro base s s' code v lowered tracks
  simp only [notFollowedBy, bind_eq_ok, table_eq_ok, jump_eq_ok, pure_eq_ok] at lowered
  obtain ⟨index, _, ⟨tables, interned, rfl⟩, leftCode, s₁, lowerLeft, rightCode, s₂, lowerRight, w₁,
    _, ⟨aim₁, rfl⟩, w₂, _, ⟨aim₂, rfl⟩, w₃, _, ⟨aim₃, rfl⟩, rfl, rfl⟩ := lowered
  obtain ⟨adds, found, -⟩ := Tables.internLabel_eq_ok interned
  have enters : Moves s { s with tables } v v := .of_adds tracks adds
  obtain ⟨c, c', v', unfolds, moves, runs⟩ :=
    follows_pair left right lowerLeft lowerRight enters.tracks
  refine ⟨.notFollowedBy c c' label, v', unfolds (.notFollowedBy · · label), enters.trans moves, ?_⟩
  intro b stop hosts laid
  simp only [List.append_assoc, List.cons_append, List.nil_append, laid_cons, laid_append] at laid
  obtain ⟨collect, mark, laidLeft, jump₁, push, peek, laidRight, back, jump₂, pop, unmark, jump₃,
    refuse, rewind, discard, -⟩ := laid
  obtain ⟨realizes, realizes', placed⟩ := runs hosts laidLeft laidRight
  have named : b.indexOf label = index := (moves.below.trans hosts.below).indexOf found
  refine ⟨?_, placed⟩
  intro input depth call answers
  simp only [Code.notFollowedBy, named]
  have jump₁ := aim₁.at hosts.small jump₁ rewind (by omega)
  have jump₂ := aim₂.at hosts.small jump₂ refuse (by omega)
  have jump₃ := aim₃.at hosts.small jump₃ discard (by omega)
  have whole := Machine.runs_notFollowedBy collect mark (realizes _ _ _ answers) jump₁ push peek
    (realizes' _ _ _ answers) back jump₂ pop unmark jump₃ refuse (adds.fits tracks.sound) rewind
    discard
  exact whole.to (by simp; omega)

end Pairs

/-! ## One part -/

section Single

variable {body : Part} {u : Unfold Code}

theorem follows_optional (follows : Follows body u) (fallback : Datum) :
    Follows (optional body fallback) (return .optional (← u) fallback) := by
  intro base s s' code v lowered tracks
  simp only [optional, bind_eq_ok, table_eq_ok, jump_eq_ok, pure_eq_ok] at lowered
  obtain ⟨code, s₁, lowerBody, index, _, ⟨tables, added, rfl⟩, w₁, _, ⟨aim₁, rfl⟩, w₂, _,
    ⟨aim₂, rfl⟩, rfl, rfl⟩ := lowered
  obtain ⟨c, v₁, unfolds, moves, runs⟩ := follows lowerBody tracks
  obtain ⟨adds, found⟩ := Tables.addValue_eq_ok added
  refine ⟨.optional c fallback, v₁, ?_, moves.trans (.of_adds moves.tracks adds), ?_⟩
  · rw [Unfold.bind_some unfolds]
    rfl
  · intro b stop hosts laid
    simp only [List.cons_append, List.nil_append, laid_cons, laid_append] at laid
    obtain ⟨mark, laidBody, jump₁, unmark, jump₂, rewind, default, -⟩ := laid
    obtain ⟨realizes, placed⟩ := runs (hosts.of_below adds.below) laidBody
    refine ⟨?_, placed.of_adds adds⟩
    intro input depth call answers
    have jump₁ := aim₁.at hosts.small jump₁ rewind (by omega)
    have jump₂ := aim₂.at hosts.small jump₂ default (by omega)
    have whole := Machine.runs_optional mark (realizes _ _ _ answers) jump₁ unmark jump₂ rewind
      default (adds.fits moves.tracks.sound) (hosts.below.values _ _ found)
    exact whole.to (by simp; omega)

theorem follows_many (follows : Follows body u) (least : Nat) (label : String) :
    Follows (many body least label) (return .many (← u) least label) := by
  intro base s s' code v lowered tracks
  simp only [many, bind_eq_ok, table_eq_ok, jump_eq_ok, pure_eq_ok] at lowered
  obtain ⟨code, s₁, lowerBody, index, _, ⟨tables, added, rfl⟩, w₁, _, ⟨aim₁, rfl⟩, w₂, _,
    ⟨aim₂, rfl⟩, w₃, _, ⟨aim₃, rfl⟩, rfl, rfl⟩ := lowered
  obtain ⟨c, v₁, unfolds, moves, runs⟩ := follows lowerBody tracks
  obtain ⟨adds, found⟩ := Tables.addArity_eq_ok added
  refine ⟨.many c least label, v₁, ?_, moves.trans (.of_adds moves.tracks adds), ?_⟩
  · rw [Unfold.bind_some unfolds]
    rfl
  · intro b stop hosts laid
    simp only [List.cons_append, List.nil_append, laid_cons, laid_append] at laid
    obtain ⟨collect, mark, laidBody, jump₁, push, jump₂, jump₃, rewind, gather, -⟩ := laid
    obtain ⟨realizes, placed⟩ := runs (hosts.of_below adds.below) laidBody
    refine ⟨?_, placed.of_adds adds⟩
    intro input depth call answers
    have jump₁ := aim₁.at hosts.small jump₁ rewind (by omega)
    have jump₂ := aim₂.at hosts.small jump₂ mark (by omega)
    have jump₃ := aim₃.at hosts.small jump₃ rewind (by omega)
    have whole := Machine.runs_many collect mark (realizes _ _ _ answers) jump₁ push jump₂ jump₃
      rewind gather (adds.fits moves.tracks.sound) (found _ hosts.below)
    exact whole.to (by simp; omega)

theorem follows_transform (follows : Follows body u) (f : Transform) :
    Follows (transform f body) (return .transform f (← u)) := by
  intro base s s' code v lowered tracks
  simp only [transform, bind_eq_ok, table_eq_ok, jump_eq_ok, pure_eq_ok] at lowered
  obtain ⟨code, s₁, lowerBody, index, _, ⟨tables, added, rfl⟩, w₁, _, ⟨aim₁, rfl⟩, w₂, _,
    ⟨aim₂, rfl⟩, rfl, rfl⟩ := lowered
  obtain ⟨c, v₁, unfolds, moves, runs⟩ := follows lowerBody tracks
  obtain ⟨adds, found⟩ := Tables.addTransform_eq_ok added
  refine ⟨.transform f c, v₁, ?_, moves.trans (.of_adds moves.tracks adds), ?_⟩
  · rw [Unfold.bind_some unfolds]
    rfl
  · intro b stop hosts laid
    simp only [List.cons_append, List.nil_append, laid_cons, laid_append] at laid
    obtain ⟨mark, laidBody, transform, jump₁, unmark, jump₂, rewind, -⟩ := laid
    obtain ⟨realizes, placed⟩ := runs (hosts.of_below adds.below) laidBody
    refine ⟨?_, placed.of_adds adds⟩
    intro input depth call answers
    have jump₁ := aim₁.at hosts.small jump₁ rewind (by omega)
    have jump₂ := aim₂.at hosts.small jump₂ rewind (by omega)
    have whole := Machine.runs_transform mark (realizes _ _ _ answers) transform
      (adds.fits moves.tracks.sound) (hosts.below.transforms _ _ found) jump₁ unmark jump₂ rewind
    exact whole.to (by simp; omega)

theorem follows_announced (follows : Follows body u) (name : String) :
    Follows (announced name body) (return .announced name (← u)) := by
  intro base s s' code v lowered tracks
  simp only [announced, bind_eq_ok, table_eq_ok, pure_eq_ok] at lowered
  obtain ⟨index, _, ⟨tables, interned, rfl⟩, code, s₁, lowerBody, rfl, rfl⟩ := lowered
  obtain ⟨adds, found, -⟩ := Tables.internLabel_eq_ok interned
  have enters : Moves s { s with tables } v v := .of_adds tracks adds
  obtain ⟨c, v₁, unfolds, moves, runs⟩ := follows lowerBody enters.tracks
  refine ⟨.announced name c, v₁, ?_, enters.trans moves, ?_⟩
  · rw [Unfold.bind_some unfolds]
    rfl
  · intro b stop hosts laid
    obtain ⟨announce, laidBody⟩ := laid
    obtain ⟨realizes, placed⟩ := runs hosts laidBody
    have named : b.indexOf name = index := (moves.below.trans hosts.below).indexOf found
    refine ⟨?_, placed⟩
    intro input depth call answers
    simp only [Code.announced, named]
    have whole := Machine.runs_announced announce (adds.fits tracks.sound)
      (realizes _ _ _ answers)
    exact whole.to (by simp; omega)

end Single

end Lower

/-! ## Forward references -/

theorem idxOf?_concat (rs : List Ref) (r r' : Ref) : (rs ++ [r]).idxOf? r' =
    (rs.idxOf? r').or (if r = r' then some rs.length else none) := by
  simp only [List.idxOf?, List.findIdx?_append, List.findIdx?_singleton, beq_iff_eq]
  split <;> simp

section Entering

variable {s u : Lowering} {v v' : Unfolding} {r : Ref} {label : String} {index : Nat} {t : Tables}

/-- A forward reference that is met takes the next index. -/
theorem Tracks.index_eq (tracks : Tracks s v)
    (added : s.tables.addSubroutine label = .ok (index, t)) : index = v.met.length := by
  obtain ⟨-, -, same, -⟩ := Tables.addSubroutine_eq_ok added
  rw [same, tracks.count]

/-- From here on it is known. -/
theorem Tracks.enter (tracks : Tracks s v) (fresh : s.subroutines[r]? = none)
    (added : s.tables.addSubroutine label = .ok (index, t)) :
    Tracks { s with tables := t, subroutines := s.subroutines.insert r index }
      { v with met := v.met ++ [r] } := by
  obtain ⟨-, sound, -, -, _, -, pushed⟩ := Tables.addSubroutine_eq_ok added
  have here : v.met.idxOf? r = none := by rw [← tracks.met, fresh]
  refine ⟨?_, by simp [pushed, tracks.count], sound tracks.sound⟩
  intro r'
  rw [idxOf?_concat, Std.TreeMap.getElem?_insert, tracks.index_eq added]
  by_cases same : r = r'
  · subst same
    simp [here]
  · simp [same, tracks.met]

/-- Once its target has been lowered, the subroutine is placed, and those met before are as they
were. -/
theorem Moves.place (tracks : Tracks s v) (added : s.tables.addSubroutine label = .ok (index, t))
    (moves : Moves { s with tables := t, subroutines := s.subroutines.insert r index } u
      { v with met := v.met ++ [r] } v') (range : CodeRange) (entries : List Log.Entry) (c : Code) :
    Moves s { u with tables := u.tables.placeSubroutine index range, entries } v
        (v'.complete index c) ∧
      ∃ label, (u.tables.placeSubroutine index range).subroutines[index]? = some ⟨range, label⟩ := by
  obtain ⟨below, -, -, -, label', -, pushed⟩ := Tables.addSubroutine_eq_ok added
  obtain rfl := tracks.index_eq added
  have longer : v.met.length + 1 ≤ v'.met.length := by simpa using moves.longer
  have count : s.tables.subroutines.size = v.met.length := tracks.count
  have frame (i : Nat) (old : i < v.met.length + 1) :
      u.tables.subroutines[i]? = (s.tables.subroutines.push ⟨⟨0, 0⟩, label'⟩)[i]? ∧
        v'.bodies i = v.bodies i := by
    have kept := moves.kept i (by simpa using old)
    rwa [pushed] at kept
  refine ⟨⟨⟨moves.tracks.met, ?_, moves.tracks.sound.placeSubroutine⟩,
    below.trans (moves.below.trans Tables.below_placeSubroutine), Nat.le_of_succ_le longer,
    fun i old => ⟨?_, ?_⟩⟩, label', ?_⟩
  · simpa [Tables.placeSubroutine, Unfolding.complete] using moves.tracks.count
  · rw [Tables.getElem?_placeSubroutine, if_neg (by omega), (frame i (by omega)).1,
      Array.getElem?_push_lt (by omega), Array.getElem?_eq_getElem (by omega)]
  · simp only [Unfolding.complete, (frame i (by omega)).2]
    rw [if_neg (by omega)]
  · rw [Tables.getElem?_placeSubroutine, if_pos rfl, (frame _ (by omega)).1, ← count,
      Array.getElem?_push_size]
    rfl

end Entering

namespace Lower

/-- A successful lowering of a forward reference that was not met before. -/
theorem forward_eq_ok {r : Ref} {label : String} {target : Option Part} {base : Nat}
    {s s' : Lowering} {code : Fragment} (lowered : forward r label target base s = .ok (code, s'))
    (fresh : s.subroutines[r]? = none) :
    ∃ part index t u entries, target = some part ∧
      s.tables.addSubroutine label = .ok (index, t) ∧
      part base { s with tables := t, subroutines := s.subroutines.insert r index } =
        .ok (code, u) ∧
      s' = { u with
        tables := u.tables.placeSubroutine index ⟨base, base + code.length⟩, entries } := by
  simp only [forward, bind_eq_ok, get_eq_ok] at lowered
  obtain ⟨_, _, ⟨rfl, rfl⟩, lowered⟩ := lowered
  simp only [fresh] at lowered
  cases target with
  | none => nomatch lowered
  | some part =>
      simp only [bind_eq_ok, table_eq_ok, modify_eq_ok, pure_eq_ok] at lowered
      obtain ⟨index, _, ⟨t, added, rfl⟩, _, _, rfl, code, u, lowerTarget, _, _, rfl, rfl, rfl⟩ :=
        lowered
      exact ⟨part, index, t, u, _, rfl, added, lowerTarget, rfl⟩

theorem follows_forward {part : Ref → Part} {unfolded : Ref → Unfold Code}
    (follows : ∀ r, Follows (part r) (unfolded r)) (r : Ref) (label : String)
    (target : Option Ref) :
    Follows (forward r label (target.map part)) (Unfold.forward r (target.map unfolded)) := by
  intro base s s' code v lowered tracks
  cases known : s.subroutines[r]? with
  | some index =>
      have here : v.met.idxOf? r = some index := by rw [← tracks.met, known]
      simp only [forward, bind_eq_ok, get_eq_ok] at lowered
      obtain ⟨_, _, ⟨rfl, rfl⟩, lowered⟩ := lowered
      simp only [known, pure_eq_ok] at lowered
      obtain ⟨rfl, rfl⟩ := lowered
      refine ⟨.call index, v, by simp only [Unfold.forward, here], .refl tracks, ?_⟩
      intro b stop hosts laid
      refine ⟨?_, .refl⟩
      intro input depth call answers
      have inside : index < v.met.length := (List.idxOf?_eq_some_iff.mp here).1
      have count := tracks.count
      have more := hosts.below.subroutines
      exact answers index (by omega) _ _ laid.1
  | none =>
      have here : v.met.idxOf? r = none := by rw [← tracks.met, known]
      obtain ⟨_, index, t, u, entries, some, added, lowerTarget, rfl⟩ :=
        forward_eq_ok lowered known
      obtain ⟨target, rfl, rfl⟩ := Option.map_eq_some_iff.mp some
      obtain ⟨c, v₁, unfolds, moves, runs⟩ :=
        follows target lowerTarget (tracks.enter known added)
      obtain ⟨whole, label', entry⟩ := moves.place tracks added ⟨base, base + code.length⟩ entries c
      obtain rfl := tracks.index_eq added
      refine ⟨c, v₁.complete v.met.length c, ?_, whole, ?_⟩
      · simp only [Unfold.forward, here, Option.map_some, unfolds, Option.bind_eq_bind,
          Option.bind_some, pure]
      · intro b stop hosts laid
        have tight := laid.tight (Nat.le_refl _)
        obtain ⟨realizes, placed⟩ := runs (hosts.of_below Tables.below_placeSubroutine) laid
        obtain ⟨own, -⟩ := runs (hosts.of_below Tables.below_placeSubroutine) tight
        refine ⟨realizes, ?_⟩
        intro i old new
        simp only [Placed, Unfolding.complete]
        by_cases self : i = v.met.length
        · subst self
          exact ⟨_, entry, by simpa using own⟩
        · obtain ⟨sub, entry, body⟩ := placed i (by simp; omega) new
          refine ⟨sub, ?_, by rw [if_neg self]; exact body⟩
          rw [Tables.getElem?_placeSubroutine, if_neg (Ne.symm self)]
          exact entry

/-! ## Lists of parts -/

end Lower

/-- Fragments stand one after the other from an address on, with room for `gap` words behind
each. -/
def LaidAll (b : Bytecode) (stop gap : Nat) : Nat → List Fragment → Prop
  | _, [] => True
  | start, code :: rest =>
      Laid b stop start code ∧ LaidAll b stop gap (start + code.length + gap) rest

/-- Such fragments do what their codes say. -/
def RealizesAll (b : Bytecode) (stop gap : Nat) : Nat → List Fragment → List Code → Prop
  | _, [], [] => True
  | start, code :: rest, c :: cs => Realizes b stop start (start + code.length) c ∧
      RealizesAll b stop gap (start + code.length + gap) rest cs
  | _, _, _ => False

namespace Lower

variable {part : Ref → Part} {unfolded : Ref → Unfold Code}

theorem length_parts {gap start : Nat} {refs : List Ref} {s s' : Lowering} {codes : List Fragment}
    (lowered : parts gap start (refs.map part) s = .ok (codes, s')) :
    codes.length = refs.length := by
  induction refs generalizing start s codes with
  | nil =>
      obtain ⟨rfl, rfl⟩ := pure_eq_ok.mp lowered
      rfl
  | cons r refs ih =>
      simp only [List.map_cons, parts, bind_eq_ok, pure_eq_ok] at lowered
      obtain ⟨code, s₁, -, others, s₂, lowerRest, rfl, rfl⟩ := lowered
      rw [List.length_cons, List.length_cons, ih lowerRest]

theorem parts_follow (follows : ∀ r, Follows (part r) (unfolded r)) {gap start : Nat}
    {refs : List Ref} {s s' : Lowering} {codes : List Fragment} {v : Unfolding}
    (lowered : parts gap start (refs.map part) s = .ok (codes, s')) (tracks : Tracks s v) :
    ∃ cs v', Unfold.parts (refs.map unfolded) v = some (cs, v') ∧ Moves s s' v v' ∧
      cs.length = refs.length ∧ ∀ {b : Bytecode} {stop : Nat}, Hosts b s'.tables →
        LaidAll b stop gap start codes →
          RealizesAll b stop gap start codes cs ∧ PlacedSince b v s' v' := by
  induction refs generalizing start s codes v with
  | nil =>
      obtain ⟨rfl, rfl⟩ := pure_eq_ok.mp lowered
      exact ⟨[], v, rfl, .refl tracks, rfl, fun _ _ => ⟨trivial, .refl⟩⟩
  | cons r refs ih =>
      simp only [List.map_cons, parts, bind_eq_ok, pure_eq_ok] at lowered
      obtain ⟨code, s₁, lowerFirst, others, s₂, lowerRest, rfl, rfl⟩ := lowered
      obtain ⟨c, v₁, unfolds, moves, runs⟩ := follows r lowerFirst tracks
      obtain ⟨cs, v₂, unfolds', moves', same, runs'⟩ := ih lowerRest moves.tracks
      refine ⟨c :: cs, v₂, ?_, moves.trans moves', by simp [same], ?_⟩
      · rw [List.map_cons, Unfold.parts, Unfold.bind_some unfolds, Unfold.bind_some unfolds']
        rfl
      · intro b stop hosts laid
        -- The first part was lowered with fewer tables; they only grow.
        obtain ⟨realizes, placed⟩ := runs (hosts.of_below moves'.below) laid.1
        obtain ⟨realizes', placed'⟩ := runs' hosts laid.2
        exact ⟨⟨realizes, realizes'⟩, placed.trans moves' placed'⟩

/-- The words of the items of a sequence. -/
theorem itemWords_eq_ok {fail start : Nat} {codes : List Fragment} {body : Fragment}
    {s s' : Lowering} (made : itemWords fail start codes s = .ok (body, s')) :
    s = s' ∧ body.length = room 2 codes ∧ ∀ {b : Bytecode} {stop : Nat}, Laid b stop start body →
      LaidAll b stop 2 start codes ∧ ∀ {last : Nat} {w : Word} {cs : List Code},
        b.code.size ≤ Word.codeLimit → At b stop last w → fail ≤ last + 1 →
        RealizesAll b stop 2 start codes cs → ∀ {input depth call}, Answers b input depth call →
          Machine.ItemsAt b input depth stop fail start (cs.map (· input ⟨b.indexOf, call⟩))
            (start + room 2 codes) := by
  induction codes generalizing start body with
  | nil =>
      obtain ⟨rfl, rfl⟩ := pure_eq_ok.mp made
      refine ⟨rfl, rfl, fun laid => ⟨trivial, ?_⟩⟩
      intro _ _ cs _ _ _ realizes
      cases cs with
      | nil => exact fun _ => rfl
      | cons => exact realizes.elim
  | cons code rest ih =>
      simp only [itemWords, bind_eq_ok, jump_eq_ok, pure_eq_ok] at made
      obtain ⟨w, _, ⟨aim, rfl⟩, others, _, rest', rfl, rfl⟩ := made
      obtain ⟨rfl, same, laidRest⟩ := ih rest'
      refine ⟨rfl, by simp [room, same]; omega, ?_⟩
      intro b stop laid
      simp only [List.append_assoc, List.cons_append, List.nil_append, laid_cons, laid_append] at laid
      obtain ⟨laidFirst, jump, push, laid⟩ := laid
      obtain ⟨laidAll, items⟩ := laidRest laid
      refine ⟨⟨laidFirst, laidAll⟩, ?_⟩
      intro last w cs small here near realizes input depth call answers
      cases cs with
      | nil => exact realizes.elim
      | cons c cs =>
          have finish : start + room 2 (code :: rest) = start + code.length + 2 + room 2 rest := by
            rw [room]
            omega
          rw [finish]
          exact ⟨_, realizes.1 _ _ _ answers, aim.at small jump here near, push,
            items small here near realizes.2 answers⟩

theorem follows_sequence (follows : ∀ r, Follows (part r) (unfolded r)) (refs : List Ref) :
    Follows (sequence (refs.map part) none)
      (return .sequence (← Unfold.parts (refs.map unfolded)) none) := by
  intro base s s' code v lowered tracks
  simp only [sequence, bind_eq_ok, table_eq_ok, jump_eq_ok, pure_eq_ok, Option.isSome_none,
    Bool.false_eq_true, if_false] at lowered
  obtain ⟨codes, s₁, lowerParts, n, _, ⟨t, added, rfl⟩, body, s₂, items, _, _, ⟨rfl, rfl⟩, leave, _,
    ⟨aim, rfl⟩, rfl, rfl⟩ := lowered
  obtain ⟨cs, v₁, unfolds, moves, same, runs⟩ := parts_follow follows lowerParts tracks
  obtain ⟨adds, found⟩ := Tables.addArity_eq_ok added
  obtain ⟨rfl, size, laidItems⟩ := itemWords_eq_ok items
  refine ⟨.sequence cs none, v₁, ?_, moves.trans (.of_adds moves.tracks adds), ?_⟩
  · rw [Unfold.bind_some unfolds]
    rfl
  · intro b stop hosts laid
    simp only [List.append_assoc, List.cons_append, List.nil_append, laid_cons, laid_append,
      size] at laid
    obtain ⟨collect, mark, laidBody, gather, unmark, jump, discard, rewind, -⟩ := laid
    obtain ⟨laidAll, itemsAt⟩ := laidItems laidBody
    obtain ⟨realizes, placed⟩ := runs (hosts.of_below adds.below) laidAll
    refine ⟨?_, placed.of_adds adds⟩
    intro input depth call answers
    have jump := aim.at hosts.small jump rewind (by omega)
    have whole := Machine.runs_sequence collect mark
      (itemsAt hosts.small discard (by omega) realizes answers) gather
      (adds.fits moves.tracks.sound) (found _ hosts.below) (by simp [same]) unmark jump discard
      rewind
    exact whole.to (by simp [size]; omega)

theorem follows_combine (follows : ∀ r, Follows (part r) (unfolded r)) (refs : List Ref)
    (f : Combiner) :
    Follows (sequence (refs.map part) (some f))
      (return .sequence (← Unfold.parts (refs.map unfolded)) (some f)) := by
  intro base s s' code v lowered tracks
  simp only [sequence, bind_eq_ok, table_eq_ok, jump_eq_ok, pure_eq_ok, Option.isSome_some,
    if_true] at lowered
  obtain ⟨codes, s₁, lowerParts, n, _, ⟨t, added, rfl⟩, body, s₂, items, m, _, ⟨t', added', rfl⟩, w,
    _, ⟨aim, rfl⟩, _, _, ⟨rfl, rfl⟩, leave, _, ⟨aim', rfl⟩, rfl, rfl⟩ := lowered
  obtain ⟨cs, v₁, unfolds, moves, same, runs⟩ := parts_follow follows lowerParts tracks
  obtain ⟨adds, found⟩ := Tables.addArity_eq_ok added
  obtain ⟨rfl, size, laidItems⟩ := itemWords_eq_ok items
  obtain ⟨adds', found'⟩ := Tables.addCombiner_eq_ok added'
  have moves' : Moves s { s₁ with tables := t' } v v₁ :=
    moves.trans (.of_adds moves.tracks (adds.trans adds'))
  refine ⟨.sequence cs (some f), v₁, ?_, moves', ?_⟩
  · rw [Unfold.bind_some unfolds]
    rfl
  · intro b stop hosts laid
    simp only [List.append_assoc, List.cons_append, List.nil_append, laid_cons, laid_append,
      size] at laid
    obtain ⟨collect, mark, laidBody, gather, combine, jump, unmark, jump', discard, rewind, -⟩ := laid
    obtain ⟨laidAll, itemsAt⟩ := laidItems laidBody
    obtain ⟨realizes, placed⟩ := runs (hosts.of_below (adds.trans adds').below) laidAll
    have sound := moves.tracks.sound
    refine ⟨?_, placed.of_adds (adds.trans adds')⟩
    intro input depth call answers
    have jump := aim.at hosts.small jump rewind (by omega)
    have jump' := aim'.at hosts.small jump' rewind (by omega)
    have whole := Machine.runs_combined collect mark
      (itemsAt hosts.small discard (by omega) realizes answers) gather (adds.fits sound)
      (found _ (adds'.below.trans hosts.below)) (by simp [same]) combine
      (adds'.fits (adds.sound sound)) (hosts.below.combiners _ _ found') jump unmark jump' discard
      rewind
    exact whole.to (by simp [size]; omega)

/-- The words of the alternatives of a choice; `finish` is the address of the last one's
jump. -/
theorem alternativeWords_eq_ok {ok start : Nat} {code : Fragment} {rest : List Fragment}
    {body : Fragment} {s s' : Lowering}
    (made : alternativeWords ok start (code :: rest) s = .ok (body, s')) :
    s = s' ∧ ∃ finish, start + room 2 (code :: rest) = finish + 2 ∧
      start + body.length = finish + 1 ∧ ∀ {b : Bytecode} {stop : Nat}, Laid b stop start body →
      LaidAll b stop 2 start (code :: rest) ∧ ∀ {last : Nat} {w : Word} {c : Code} {cs : List Code},
        b.code.size ≤ Word.codeLimit → At b stop last w → ok ≤ last + 1 →
        RealizesAll b stop 2 start (code :: rest) (c :: cs) → ∀ {input depth call},
          Answers b input depth call →
          Machine.AlternativesAt b input depth stop ok start (c input ⟨b.indexOf, call⟩)
            (cs.map (· input ⟨b.indexOf, call⟩)) finish := by
  -- The last alternative has no word behind its jump, so the list is never empty.
  induction rest generalizing start code body with
  | nil =>
      simp only [alternativeWords, bind_eq_ok, jump_eq_ok, pure_eq_ok, List.isEmpty_nil, if_true] at made
      obtain ⟨w, _, ⟨aim, rfl⟩, _, _, ⟨rfl, rfl⟩, rfl, rfl⟩ := made
      refine ⟨rfl, start + code.length, by simp [room]; omega, by simp; omega, ?_⟩
      intro b stop laid
      simp only [List.append_assoc, List.cons_append, List.nil_append, laid_cons, laid_append] at laid
      obtain ⟨laidFirst, jump, -⟩ := laid
      refine ⟨⟨laidFirst, trivial⟩, ?_⟩
      intro last w c cs small here near realizes input depth call answers
      cases cs with
      | nil => exact ⟨realizes.1 _ _ _ answers, aim.at small jump here near⟩
      | cons => exact realizes.2.elim
  | cons next rest ih =>
      rw [alternativeWords] at made
      simp only [bind_eq_ok, jump_eq_ok, pure_eq_ok, List.isEmpty_cons, Bool.false_eq_true,
        if_false] at made
      obtain ⟨w, _, ⟨aim, rfl⟩, others, _, rest', rfl, rfl⟩ := made
      obtain ⟨rfl, finish, size, length, laidRest⟩ := ih rest'
      refine ⟨rfl, finish, by rw [room]; omega, by simp; omega, ?_⟩
      intro b stop laid
      simp only [List.append_assoc, List.cons_append, List.nil_append, laid_cons, laid_append] at laid
      obtain ⟨laidFirst, jump, restart, laid⟩ := laid
      obtain ⟨laidAll, alternatives⟩ := laidRest laid
      refine ⟨⟨laidFirst, laidAll⟩, ?_⟩
      intro last w c cs small here near realizes input depth call answers
      cases cs with
      | nil => exact realizes.2.elim
      | cons c' cs =>
          exact ⟨_, realizes.1 _ _ _ answers, aim.at small jump here near, restart,
            alternatives small here near realizes.2 answers⟩

theorem follows_choice (follows : ∀ r, Follows (part r) (unfolded r)) (refs : List Ref)
    (label : String) :
    Follows (choice (refs.map part) label) (Unfold.choice (refs.map unfolded)) := by
  intro base s s' code v lowered tracks
  cases refs with
  | nil => nomatch lowered
  | cons r refs =>
      simp only [choice, bind_eq_ok, jump_eq_ok, pure_eq_ok, List.map_cons, List.isEmpty_cons,
        Bool.false_eq_true, if_false] at lowered
      obtain ⟨codes, s₁, lowerParts, body, s₂, words, leave, _, ⟨aim, rfl⟩, rfl, rfl⟩ := lowered
      rw [← List.map_cons] at lowerParts
      obtain ⟨cs, v₁, unfolds, moves, same, runs⟩ := parts_follow follows lowerParts tracks
      obtain ⟨first, rest, rfl⟩ :=
        List.exists_cons_of_length_eq_add_one (length_parts lowerParts)
      obtain ⟨c, cs, rfl⟩ := List.exists_cons_of_length_eq_add_one same
      obtain ⟨rfl, finish, size, length, laidWords⟩ := alternativeWords_eq_ok words
      refine ⟨.choice c cs, v₁, ?_, moves, ?_⟩
      · rw [Unfold.choice, Unfold.bind_some unfolds]
        rfl
      · intro b stop hosts laid
        have ends : base + 1 + room 2 (first :: rest) - 1 = finish + 1 := by omega
        rw [ends] at aim words
        simp only [List.cons_append, List.nil_append, laid_cons, laid_append, length] at laid
        obtain ⟨mark, laidBody, rewind, jump, unmark, -⟩ := laid
        obtain ⟨laidAll, alternatives⟩ := laidWords laidBody
        obtain ⟨realizes, placed⟩ := runs hosts laidAll
        refine ⟨?_, placed⟩
        intro input depth call answers
        have alternatives := alternatives hosts.small unmark (by omega) realizes answers
        rw [ends] at alternatives
        have jump := aim.at hosts.small jump unmark (by omega)
        have whole := Machine.runs_choice mark alternatives rewind jump unmark
        exact whole.to (by simp; omega)

end Lower

/-! ## Expressions -/

open Lower in
/-- Lowering an expression goes along with unfolding it. -/
theorem Grammar.follows_lower (g : Grammar) (traced : Bool) (height : Nat) (r : Ref) :
    Follows (g.lower traced height r) (g.unfold traced height r) := by
  -- Both walks go down the same expressions with the same height.
  induction height generalizing r with
  | zero =>
      intro base s s' code v lowered
      nomatch lowered
  | succ height ih =>
      have form : Follows (g.lowerExpression (g.lower traced height) r (g.expression r))
          (g.unfoldExpression (g.unfold traced height) r (g.expression r)) := by
        cases g.expression r with
        | char c anyCase => exact follows_test _ _
        | oneOf chars => exact follows_test _ _
        | escaped c => exact follows_test _ _
        | test t => exact follows_test _ _
        | scan t least itemLabel => exact follows_scan _ _ _
        | literal text anyCase => exact follows_text (.inl rfl) _ _ _
        | keyword text value anyCase => exact follows_text (.inr rfl) _ _ _
        | finish => exact follows_finish
        | seq first second => exact follows_sequence ih _
        | orElse first second => exact follows_choice ih [first, second] (g.label r)
        | choice alternatives => exact follows_choice ih _ _
        | keepLeft first second => exact follows_keepLeft (ih _) (ih _)
        | keepRight first second => exact follows_keepRight (ih _) (ih _)
        | followedBy first second => exact follows_followedBy (ih _) (ih _)
        | notFollowedBy first second => exact follows_notFollowedBy (ih _) (ih _) _
        | combine f parts => exact follows_combine ih _ _
        | optional body fallback => exact follows_optional (ih _) _
        | many body least => exact follows_many (ih _) _ _
        | transform f body => exact follows_transform (ih _) _
        | idiom kind body => exact ih _
        | forward target => exact follows_forward ih _ _ _
      simp only [Grammar.lower, Grammar.unfold]
      cases traced with
      | false => exact form
      | true =>
          cases g.name r with
          | none => exact form
          | some name => exact follows_announced form name

end PegMachine
