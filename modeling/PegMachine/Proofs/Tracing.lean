/-
# PegMachine.Proofs.Tracing — announcing rules changes no verdict

Code that announces its named rules has words that other code has not. So every address
behind such a word is another one, and so are the indices of labels, for the names of rules
stand among them. What the machine does along the way is still the same: the same data and
cursor positions, and failures that differ in nothing but the indices of the labels they name
(`Outcome.Twin`). This is shown of unfolded code, where no addresses occur, one operator after
the other, and then of both unfoldings of an expression side by side (`tracing_simulates`).

The wording of a failure comes from the texts of labels. Both indices lead to the same text
as long as they lead to a label at all, which they do in every run
(`Proofs.Machine.Labels`). So not even the message of a failure tells whether rules were
announced (`tracing_transparent`).
-/
import PegMachine.Proofs.Lowering.Sealed
import PegMachine.Proofs.Lowering.Simulates

namespace PegMachine

set_option autoImplicit false

open Machine (Behaviour Code Event Outcome Register Surroundings)

/-! ## Diagnostics -/

/-- Diagnostics that differ in nothing but the index of the label they name. -/
inductive Diagnostic.Twin (indexOf indexOf' : String → Nat) : Diagnostic → Diagnostic → Prop
  | expected (label : String) (pos : Nat) (found : Option Char) :
      Twin indexOf indexOf' (.expected (indexOf label) pos found) (.expected (indexOf' label) pos found)
  | tooFew (least : Nat) (label : String) (pos : Nat) :
      Twin indexOf indexOf' (.tooFew least (indexOf label) pos) (.tooFew least (indexOf' label) pos)
  | same {e : Diagnostic} (nameless : e.label? = none) : Twin indexOf indexOf' e e

/-- Twins are about the same position. -/
theorem Diagnostic.Twin.pos {indexOf indexOf' : String → Nat} {e e' : Diagnostic}
    (twin : e.Twin indexOf indexOf' e') : e.pos = e'.pos := by
  cases twin <;> rfl

/-- Where both indices of a text lead to a label, they lead to the same one. -/
theorem Tables.label_twin {t t' : Tables} {label : String} (inside : t.Labels (some (t.indexOf label)))
    (inside' : t'.Labels (some (t'.indexOf label))) :
    t.label (t.indexOf label) = t'.label (t'.indexOf label) := by
  rw [label_indexOf (inside _ rfl), label_indexOf (inside' _ rfl)]

/-- Twins have the same wording where the labels they name are there. -/
theorem Diagnostic.Twin.message {t t' : Tables} {e e' : Diagnostic}
    (twin : e.Twin t.indexOf t'.indexOf e') (names : t.Labels e.label?)
    (names' : t'.Labels e'.label?) : e.message t = e'.message t' := by
  cases twin with
  | expected label pos found =>
      exact congrArg (fun text => s!"Expected {text} at {pos}. Got {Diagnostic.foundText found} instead.")
        (Tables.label_twin names names')
  | tooFew least label pos =>
      exact congrArg (fun text => s!"Expected at least {least} {text} at {pos}.")
        (Tables.label_twin names names')
  | same nameless =>
      cases e with
      | expected | tooFew => cases nameless
      | expectedChar | trailing | rejected | tooDeep => rfl

namespace Machine

variable {indexOf indexOf' : String → Nat}

/-- The same datum, or failures that are twins. -/
inductive Register.Twin (indexOf indexOf' : String → Nat) : Register → Register → Prop
  | ok (d : Datum) : Twin indexOf indexOf' (.ok d) (.ok d)
  | error {e e' : Diagnostic} (twin : e.Twin indexOf indexOf' e') :
      Twin indexOf indexOf' (.error e) (.error e')

/-- The same cursor position, with registers that are twins; what was reported does not count. -/
structure Outcome.Twin (indexOf indexOf' : String → Nat) (o o' : Outcome) : Prop where
  cursor : o.cursor = o'.cursor
  register : Register.Twin indexOf indexOf' o.register o'.register

namespace Outcome

variable {o o' : Outcome}

theorem Twin.cases (twin : o.Twin indexOf indexOf' o') :
    (∃ d, o.register = .ok d ∧ o'.register = .ok d) ∨
      ∃ e e', o.register = .error e ∧ o'.register = .error e' ∧ e.Twin indexOf indexOf' e' := by
  have same := twin.register
  generalize o.register = register, o'.register = register' at same ⊢
  cases same with
  | ok d => exact .inl ⟨d, rfl, rfl⟩
  | error twin => exact .inr ⟨_, _, rfl, rfl, twin⟩

theorem twin_ok (d : Datum) (cursor : Nat) (events events' : List Event) :
    Twin indexOf indexOf' ⟨.ok d, cursor, events⟩ ⟨.ok d, cursor, events'⟩ := ⟨rfl, .ok d⟩

theorem twin_error {e e' : Diagnostic} (twin : e.Twin indexOf indexOf' e') (cursor : Nat)
    (events events' : List Event) :
    Twin indexOf indexOf' ⟨.error e, cursor, events⟩ ⟨.error e', cursor, events'⟩ := ⟨rfl, .error twin⟩

theorem Twin.after (twin : o.Twin indexOf indexOf' o') (earlier earlier' : List Event) :
    (o.after earlier).Twin indexOf indexOf' (o'.after earlier') := ⟨twin.cursor, twin.register⟩

theorem Twin.andThen (twin : o.Twin indexOf indexOf' o') {next next' : Datum → Nat → Outcome}
    (rest : ∀ d pos, (next d pos).Twin indexOf indexOf' (next' d pos)) :
    (o.andThen next).Twin indexOf indexOf' (o'.andThen next') := by
  rcases twin.cases with ⟨d, done, done'⟩ | ⟨e, e', done, done', -⟩
  · rw [andThen_ok done, andThen_ok done', twin.cursor]
    exact (rest d o'.cursor).after _ _
  · rw [andThen_error done, andThen_error done']
    exact twin

theorem Twin.orBack (twin : o.Twin indexOf indexOf' o') (pos : Nat) :
    (o.orBack pos).Twin indexOf indexOf' (o'.orBack pos) := by
  rcases twin.cases with ⟨d, done, done'⟩ | ⟨e, e', done, done', -⟩
  · rw [orBack_ok done, orBack_ok done']
    exact twin
  · rw [orBack_error done, orBack_error done']
    exact ⟨rfl, twin.register⟩

end Outcome

/-! ## Behaviours -/

namespace Behaviour

variable {input : Array Char} {first first' second second' body body' : Behaviour input}

/-- Twins from every position. -/
def Twin (indexOf indexOf' : String → Nat) (body body' : Behaviour input) : Prop :=
  ∀ pos, (body pos).Twin indexOf indexOf' (body' pos)

theorem test_twin (t : CharTest) (label : String) :
    (test ⟨t, indexOf label⟩ : Behaviour input).Twin indexOf indexOf' (test ⟨t, indexOf' label⟩) := by
  intro pos
  simp only [test, readTest]
  cases t.accept? input pos with
  | some found => exact Outcome.twin_ok _ _ _ _
  | none => exact Outcome.twin_error (.expected label pos _) _ _ _

theorem scan_twin (t : CharTest) (least : Nat) (label : String) :
    (scan ⟨t, least, indexOf label⟩ : Behaviour input).Twin indexOf indexOf'
      (scan ⟨t, least, indexOf' label⟩) := by
  intro pos
  simp only [scan, readRun]
  split
  · exact Outcome.twin_ok _ _ _ _
  · exact Outcome.twin_error (.tooFew least label pos) _ _ _

/-- A text names no label. -/
theorem literal_twin (entry : LiteralEntry) (value : Datum) :
    (literal entry value : Behaviour input).Twin indexOf indexOf' (literal entry value) := by
  intro pos
  simp only [literal, readLiteral]
  split
  · rename_i e differs
    exact Outcome.twin_error (.same (mismatch?_label? differs)) _ _ _
  · exact Outcome.twin_ok _ _ _ _

theorem finish_twin : (finish : Behaviour input).Twin indexOf indexOf' finish := by
  intro pos
  simp only [finish, readEnd]
  split
  · exact Outcome.twin_ok _ _ _ _
  · exact Outcome.twin_error (.same rfl) _ _ _

/-- What a function makes of data does not depend on labels. -/
theorem ofResult_twin (result : Except String Datum) (pos : Nat) (events events' : List Event) :
    Outcome.Twin indexOf indexOf' ⟨.ofResult result pos, pos, events⟩
      ⟨.ofResult result pos, pos, events'⟩ := by
  cases result with
  | ok d => exact Outcome.twin_ok d _ _ _
  | error message => exact Outcome.twin_error (.same rfl) _ _ _

theorem items_twin {parts parts' : List (Behaviour input)}
    (twins : List.Forall₂ (Twin indexOf indexOf') parts parts') (collected : List Datum) (pos : Nat) :
    (items parts collected pos).Twin indexOf indexOf' (items parts' collected pos) := by
  induction twins generalizing collected pos with
  | nil => exact Outcome.twin_ok _ _ _ _
  | cons head _ ih => exact (head pos).andThen fun d stop => ih (d :: collected) stop

theorem sequence_twin {parts parts' : List (Behaviour input)}
    (twins : List.Forall₂ (Twin indexOf indexOf') parts parts') (f : Option Combiner) :
    (sequence parts f).Twin indexOf indexOf' (sequence parts' f) := by
  intro pos
  have made (d : Datum) (stop : Nat) : (made f d stop).Twin indexOf indexOf' (made f d stop) := by
    cases f with
    | none => exact Outcome.twin_ok d _ _ _
    | some f => exact ofResult_twin _ _ _ _
  exact ((items_twin twins [] pos).andThen made).orBack pos

theorem keepLeft_twin (left : first.Twin indexOf indexOf' first')
    (right : second.Twin indexOf indexOf' second') :
    (keepLeft first second).Twin indexOf indexOf' (keepLeft first' second') := by
  intro pos
  have both := (left pos).andThen fun d stop =>
    (right stop).andThen fun _ stop => Outcome.twin_ok d stop [] []
  exact both.orBack pos

theorem keepRight_twin (left : first.Twin indexOf indexOf' first')
    (right : second.Twin indexOf indexOf' second') :
    (keepRight first second).Twin indexOf indexOf' (keepRight first' second') := by
  intro pos
  have both := (left pos).andThen fun _ stop => right stop
  exact both.orBack pos

theorem followedBy_twin (left : first.Twin indexOf indexOf' first')
    (right : second.Twin indexOf indexOf' second') :
    (provided first second demand).Twin indexOf indexOf' (provided first' second' demand) := by
  intro pos
  refine ((left pos).andThen fun d stop => ?_).orBack pos
  rcases (right stop).cases with ⟨d', done, done'⟩ | ⟨e, e', done, done', twin⟩
  · simp only [demand, done, done']
    exact Outcome.twin_ok d _ _ _
  · simp only [demand, done, done']
    exact Outcome.twin_error twin _ _ _

theorem notFollowedBy_twin (left : first.Twin indexOf indexOf' first')
    (right : second.Twin indexOf indexOf' second') (label : String) :
    (provided first second (forbid input (indexOf label))).Twin indexOf indexOf'
      (provided first' second' (forbid input (indexOf' label))) := by
  intro pos
  refine ((left pos).andThen fun d stop => ?_).orBack pos
  rcases (right stop).cases with ⟨d', done, done'⟩ | ⟨e, e', done, done', -⟩
  · simp only [forbid, done, done']
    exact Outcome.twin_error (.expected label stop _) _ _ _
  · simp only [forbid, done, done']
    exact Outcome.twin_ok d _ _ _

theorem choose_twin {rest rest' : List (Behaviour input)} (head : first.Twin indexOf indexOf' first')
    (tail : List.Forall₂ (Twin indexOf indexOf') rest rest') (pos : Nat) :
    (choose first rest pos).Twin indexOf indexOf' (choose first' rest' pos) := by
  induction tail generalizing first first' with
  | nil => exact head pos
  | cons next _ ih =>
      rw [choose, choose]
      rcases (head pos).cases with ⟨d, done, done'⟩ | ⟨e, e', done, done', -⟩
      · simp only [done, done']
        exact head pos
      · simp only [done, done']
        exact (ih next).after _ _

theorem choice_twin {rest rest' : List (Behaviour input)} (head : first.Twin indexOf indexOf' first')
    (tail : List.Forall₂ (Twin indexOf indexOf') rest rest') :
    (choice first rest).Twin indexOf indexOf' (choice first' rest') :=
  fun pos => (choose_twin head tail pos).orBack pos

theorem optional_twin (twin : body.Twin indexOf indexOf' body') (fallback : Datum) :
    (optional body fallback).Twin indexOf indexOf' (optional body' fallback) := by
  intro pos
  simp only [optional]
  rcases (twin pos).cases with ⟨d, done, done'⟩ | ⟨e, e', done, done', -⟩
  · simp only [done, done']
    exact twin pos
  · simp only [done, done']
    exact Outcome.twin_ok fallback _ _ _

theorem loop_twin (twin : body.Twin indexOf indexOf' body') (most : Nat) (collected : List Datum)
    (pos : Nat) :
    (loop body most collected pos).Twin indexOf indexOf' (loop body' most collected pos) := by
  induction most generalizing collected pos with
  | zero => exact Outcome.twin_ok _ _ _ _
  | succ most ih =>
      rw [loop, loop]
      rcases (twin pos).cases with ⟨d, done, done'⟩ | ⟨e, e', done, done', -⟩
      · simp only [done, done', (twin pos).cursor]
        split
        · exact (ih _ _).after _ _
        · exact Outcome.twin_ok _ _ _ _
      · simp only [done, done']
        exact Outcome.twin_ok _ _ _ _

theorem many_twin (twin : body.Twin indexOf indexOf' body') (least : Nat) (label : String) :
    (many body ⟨least, indexOf label⟩).Twin indexOf indexOf' (many body' ⟨least, indexOf' label⟩) := by
  intro pos
  refine (loop_twin twin _ _ _).andThen fun d stop => ?_
  simp only [enough]
  split
  · exact Outcome.twin_ok d _ _ _
  · exact Outcome.twin_error (.tooFew least label stop) _ _ _

theorem transform_twin (twin : body.Twin indexOf indexOf' body') (f : Transform) :
    (transform f body).Twin indexOf indexOf' (transform f body') := by
  intro pos
  have made := (twin pos).andThen fun d stop => ofResult_twin (f d) stop [] []
  exact made.orBack pos

/-- What is announced is only reported. -/
theorem announced_twin (twin : body.Twin indexOf indexOf' body') (label : Nat) :
    (announced label body).Twin indexOf indexOf' body' :=
  fun pos => ⟨(twin pos).cursor, (twin pos).register⟩

theorem called_twin (twin : body.Twin indexOf indexOf' body') (label label' : Nat) :
    (called label body).Twin indexOf indexOf' (called label' body') := by
  intro pos
  have back := (twin pos).orBack pos
  exact ⟨back.cursor, back.register⟩

end Behaviour

/-! ## Codes -/

/-- The codes do the same wherever calls do. -/
def Code.Twin (c c' : Code) : Prop :=
  ∀ ⦃input⦄ (env env' : Surroundings input),
    (∀ i, (env.call i).Twin env.indexOf env'.indexOf (env'.call i)) →
      (c input env).Twin env.indexOf env'.indexOf (c' input env')

theorem Code.call_twin (i : Nat) : (Code.call i).Twin (Code.call i) := fun _ _ _ calls => calls i

theorem Code.behaviours_twin {cs cs' : List Code} (twins : List.Forall₂ Code.Twin cs cs')
    {input : Array Char} {env env' : Surroundings input}
    (calls : ∀ i, (env.call i).Twin env.indexOf env'.indexOf (env'.call i)) :
    List.Forall₂ (Behaviour.Twin env.indexOf env'.indexOf) (cs.map (· input env))
      (cs'.map (· input env')) := by
  rw [List.forall₂_map_left_iff, List.forall₂_map_right_iff]
  exact twins.imp fun _ _ twin => twin env env' calls

/-- Calls do the same if subroutines do, however many may be nested. -/
theorem calls_twin {input : Array Char} (indexOf indexOf' : String → Nat) (labels labels' : Nat → Nat)
    {bodies bodies' : Nat → Code} (twins : ∀ i, (bodies i).Twin (bodies' i)) (depth i : Nat) :
    (calls input indexOf labels bodies depth i).Twin indexOf indexOf'
      (calls input indexOf' labels' bodies' depth i) := by
  induction depth generalizing i with
  | zero => exact fun pos => Outcome.twin_error (.same rfl) _ _ _
  | succ depth ih =>
      have body := twins i ⟨indexOf, calls input indexOf labels bodies depth⟩
        ⟨indexOf', calls input indexOf' labels' bodies' depth⟩ ih
      exact Behaviour.called_twin body _ _

end Machine

/-- Outcomes that are twins are the same verdict. -/
theorem Machine.Outcome.Twin.verdict {t t' : Tables} {o o' : Outcome}
    (twin : o.Twin t.indexOf t'.indexOf o') (labelled : o.Labelled t) (labelled' : o'.Labelled t') :
    o.verdict t = o'.verdict t' := by
  rcases twin.cases with ⟨d, done, done'⟩ | ⟨e, e', done, done', same⟩
  · simp only [Outcome.verdict, done, done', twin.cursor]
  · have message := same.message (labelled.register e done) (labelled'.register e' done')
    simp only [Outcome.verdict, done, done', twin.cursor, same.pos, message]

/-! ## Unfolding with and without announcements -/

namespace Grammar

section Unfolding

variable {g : Grammar} {part part' : Ref → Unfold Code}

/-- The parts are unfolded to codes that do the same. -/
abbrev Unfolded (part part' : Ref → Unfold Code) : Prop :=
  ∀ r, Unfold.Simulates Code.Twin Eq (part r) (part' r) Code.Twin

theorem Unfolded.parts (same : Unfolded part part') (refs : List Ref) :
    Unfold.Simulates Code.Twin Eq (Unfold.parts (refs.map part)) (Unfold.parts (refs.map part'))
      (List.Forall₂ Code.Twin) := by
  apply Unfold.simulates_parts
  rw [List.forall₂_map_left_iff, List.forall₂_map_right_iff]
  exact List.forall₂_same.mpr fun r _ => same r

theorem Unfolded.sequence (same : Unfolded part part') (refs : List Ref) (f : Option Combiner) :
    Unfold.Simulates Code.Twin Eq (do return .sequence (← Unfold.parts (refs.map part)) f)
      (do return .sequence (← Unfold.parts (refs.map part')) f) Code.Twin := by
  apply (same.parts refs).last
  intro cs cs' twins input env env' calls
  exact Behaviour.sequence_twin (Code.behaviours_twin twins calls) f

theorem Unfolded.choice (same : Unfolded part part') (refs : List Ref) :
    Unfold.Simulates Code.Twin Eq (Unfold.choice (refs.map part)) (Unfold.choice (refs.map part'))
      Code.Twin := by
  intro v w v' w' c c' alike done done'
  obtain ⟨first, rest, parts, rfl⟩ := Unfold.choice_eq_some.mp done
  obtain ⟨first', rest', parts', rfl⟩ := Unfold.choice_eq_some.mp done'
  obtain ⟨alike', twins⟩ := same.parts refs alike parts parts'
  refine ⟨alike', ?_⟩
  intro input env env' calls
  have behaviours := Code.behaviours_twin twins calls
  rw [List.map_cons, List.map_cons] at behaviours
  cases behaviours with
  | cons head tail => exact Behaviour.choice_twin head tail

/-- Every form is unfolded alike where its parts are. -/
theorem form_unfolded (same : Unfolded part part') (r : Ref) (e : Expression) :
    Unfold.Simulates Code.Twin Eq (g.unfoldExpression part r e) (g.unfoldExpression part' r e)
      Code.Twin := by
  cases e with
  | char | oneOf | escaped | test =>
      exact Unfold.simulates_pure fun input env env' _ => Behaviour.test_twin _ _
  | scan t least itemLabel =>
      exact Unfold.simulates_pure fun input env env' _ => Behaviour.scan_twin _ _ _
  | literal | keyword =>
      exact Unfold.simulates_pure fun input env env' _ => Behaviour.literal_twin _ _
  | finish => exact Unfold.simulates_pure fun input env env' _ => Behaviour.finish_twin
  | seq a b => exact same.sequence _ none
  | combine f refs => exact same.sequence refs (some f)
  | orElse a b => exact same.choice [a, b]
  | choice refs => exact same.choice refs
  | keepLeft a b =>
      exact (same a).both (same b) fun c c' d d' left right _ env env' calls =>
        Behaviour.keepLeft_twin (left env env' calls) (right env env' calls)
  | keepRight a b =>
      exact (same a).both (same b) fun c c' d d' left right _ env env' calls =>
        Behaviour.keepRight_twin (left env env' calls) (right env env' calls)
  | followedBy a b =>
      exact (same a).both (same b) fun c c' d d' left right _ env env' calls =>
        Behaviour.followedBy_twin (left env env' calls) (right env env' calls)
  | notFollowedBy a b =>
      exact (same a).both (same b) fun c c' d d' left right _ env env' calls =>
        Behaviour.notFollowedBy_twin (left env env' calls) (right env env' calls) _
  | optional body fallback =>
      exact (same body).last fun c c' twin _ env env' calls =>
        Behaviour.optional_twin (twin env env' calls) fallback
  | many body least =>
      exact (same body).last fun c c' twin _ env env' calls =>
        Behaviour.many_twin (twin env env' calls) least _
  | transform f body =>
      exact (same body).last fun c c' twin _ env env' calls =>
        Behaviour.transform_twin (twin env env' calls) f
  | idiom kind body => exact same body
  | forward target =>
      have same_ref (s s' : Ref) (eq : s = s') : s = r ↔ s' = r := by rw [eq]
      cases target with
      | none => exact Unfold.simulates_open Code.call_twin rfl same_ref
      | some target => exact Unfold.simulates_forward Code.call_twin rfl same_ref (same target)

/-- The code that announces its rules does the same as the code that does not. -/
theorem tracing_simulates (g : Grammar) (height : Nat) :
    Unfolded (g.unfold true height) (g.unfold false height) := by
  induction height with
  | zero => exact fun r _ _ _ _ _ _ _ done => nomatch done
  | succ height ih =>
      intro r
      have form := form_unfolded (g := g) ih r (g.expression r)
      simp only [unfold]
      split
      · intro v w v' w' c c' alike done done'
        obtain ⟨inner, unfolds, rfl⟩ := Unfold.last_eq_some.mp done
        obtain ⟨alike', twin⟩ := form alike unfolds done'
        exact ⟨alike', fun input env env' calls => Behaviour.announced_twin (twin env env' calls) _⟩
      · exact form

end Unfolding

/-! ## Parses with and without announcements -/

section Parses

variable {g : Grammar} {condense : Bool} {root : Ref} {lowered lowered' : Lowered}

/-- Whether or not the rules of an expression are announced, every parse comes to the same verdict. -/
theorem tracing_transparent (announcing : g.compile ⟨condense, true⟩ root = .ok lowered)
    (silent : g.compile ⟨condense, false⟩ root = .ok lowered') (input : Array Char) (pos : Nat) :
    ∃ v, lowered.bytecode.Parses input pos v ∧ lowered'.bytecode.Parses input pos v := by
  obtain ⟨c, v, unfolds, runs⟩ := compiled_of_compile announcing
  obtain ⟨c', v', unfolds', runs'⟩ := compiled_of_compile silent
  have start : Unfolding.Alike Code.Twin Eq {} {} :=
    ⟨.nil, fun _ _ _ _ _ => Behaviour.finish_twin⟩
  obtain ⟨alike, twin⟩ := tracing_simulates _ _ _ start unfolds unfolds'
  have calls := @Machine.calls_twin input lowered.bytecode.indexOf lowered'.bytecode.indexOf
    lowered.bytecode.routineLabel lowered'.bytecode.routineLabel _ _ alike.bodies callLimit
  have ends := runs.ends input pos
  have ends' := runs'.ends input pos
  have same := (twin (lowered.bytecode.surroundings v.bodies callLimit input)
    (lowered'.bytecode.surroundings v'.bodies callLimit input) calls pos).verdict
      (outcome_labelled announcing ends) (outcome_labelled silent ends')
  exact ⟨_, ⟨_, ends, rfl⟩, ⟨_, ends', same⟩⟩

/-- Letters in brackets that are never closed fail with the same message. -/
theorem brackets_tracing :
    ∃ lowered lowered', brackets.1.compile ⟨true, true⟩ brackets.2 = .ok lowered ∧
      brackets.1.compile ⟨true, false⟩ brackets.2 = .ok lowered' ∧
      ∃ v, lowered.bytecode.Parses #['(', 'y'] 0 v ∧ lowered'.bytecode.Parses #['(', 'y'] 0 v := by
  obtain ⟨lowered, announcing⟩ := brackets_compiles ⟨true, true⟩
  obtain ⟨lowered', silent⟩ := brackets_compiles ⟨true, false⟩
  exact ⟨lowered, lowered', announcing, silent, tracing_transparent announcing silent _ _⟩

end Parses

end Grammar

end PegMachine
