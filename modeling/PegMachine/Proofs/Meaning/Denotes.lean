/-
# PegMachine.Proofs.Meaning.Denotes — codes do what expressions mean

`Denotes` says that a behaviour comes to what an expression means, from every position
where no call is refused on the way. There is one statement for each form of expression;
`unfold_denotes` puts them together: the code of an expression denotes it, and so does
the code of every subroutine met on the way, provided that calls do.

That calls do is shown by induction on how many of them may be nested
(`calls_denote`). With none left every call is refused, and there is nothing to say.
-/
import PegMachine.Proofs.Lowering.Compiled
import PegMachine.Proofs.Meaning.Settles

namespace PegMachine

set_option autoImplicit false

open Grammar (Evaluation Result)
open Machine

section Forms

variable {g : Grammar} {input : Array Char} {traced : Bool} {indexOf : String → Nat}

/-- A behaviour comes to what an expression means, wherever no call is refused. -/
abbrev Denotes (g : Grammar) (traced : Bool) (indexOf : String → Nat) (r : Ref)
    (body : Behaviour input) : Prop :=
  Denoted traced indexOf (fun fuel => g.evaluate input fuel) r body

/-- The same for what the form of an expression means, without its name. -/
def DenotesForm (g : Grammar) (traced : Bool) (indexOf : String → Nat) (r : Ref) (e : Expression)
    (body : Behaviour input) : Prop :=
  ∀ pos, Unrefused (body pos).events →
    Settles traced indexOf
      (fun fuel => g.evaluateForm input fuel (g.evaluate input fuel) r pos e)
      (body pos).result (body pos).events

/-- An evaluation that settles tells what an expression comes to. -/
theorem comes_of_settles {r : Ref} {pos : Nat} {result : Result} {events : List Event}
    (settles : Settles traced indexOf (fun fuel => g.evaluate input fuel r pos) result events)
    (result' : Result) : g.Comes input r pos result' ↔ result' = result := by
  obtain ⟨names, enough, settled, -⟩ := settles
  have means : g.Means input r pos result names.reverse :=
    ⟨enough, by simpa using settled enough (Nat.le_refl _) []⟩
  exact means.comes_iff

/-! ## Reading the input -/

theorem test_result (entry : TestEntry) (pos : Nat) :
    ((Behaviour.test entry : Behaviour input) pos).result =
      Evaluation.testAt entry.test input pos := by
  simp only [Behaviour.test, readTest, Evaluation.testAt, Outcome.result]
  cases entry.test.accept? input pos <;> rfl

theorem test_denotes (t : CharTest) (label : Nat) (pos : Nat) :
    Settles traced indexOf (fun _ => return Evaluation.testAt t input pos)
      ((Behaviour.test ⟨t, label⟩ : Behaviour input) pos).result [] := by
  rw [test_result]
  exact .pure _

/-- Where a text breaks off. -/
theorem mismatch?_eq (anyCase : Bool) (chars : List Char) (pos : Nat) :
    match mismatch? anyCase input pos chars with
    | none => Evaluation.agreeing anyCase input pos chars = chars.length
    | some e => Evaluation.agreeing anyCase input pos chars < chars.length ∧
        e.pos = pos + Evaluation.agreeing anyCase input pos chars := by
  induction chars generalizing pos with
  | nil => rfl
  | cons expected rest ih =>
      have ih := ih (pos + 1)
      rw [mismatch?, Evaluation.agreeing]
      cases input[pos]? with
      | none => exact ⟨Nat.succ_pos _, rfl⟩
      | some found =>
          by_cases agree : Text.agrees anyCase found expected
          · simp only [agree, if_true]
            split at ih
            · rw [ih, List.length_cons]
            · rw [List.length_cons]
              omega
          · simp only [agree]
            exact ⟨Nat.succ_pos _, rfl⟩

theorem text_result (text : String) (anyCase : Bool) (i : Nat) (value : Datum) (pos : Nat) :
    ((Behaviour.literal ⟨text.toList, anyCase, i⟩ value : Behaviour input) pos).result =
      Evaluation.textAt text anyCase value input pos := by
  have differ := @mismatch?_eq input anyCase text.toList pos
  simp only [Behaviour.literal, readLiteral, Evaluation.textAt, Outcome.result]
  split at differ
  · rename_i agree
    simp only [agree, differ, if_true]
  · rename_i e broke
    obtain ⟨short, at'⟩ := differ
    simp only [broke]
    rw [if_neg (by omega), at']

theorem text_denotes (text : String) (anyCase : Bool) (i : Nat) (value : Datum) (pos : Nat) :
    Settles traced indexOf (fun _ => return Evaluation.textAt text anyCase value input pos)
      ((Behaviour.literal ⟨text.toList, anyCase, i⟩ value : Behaviour input) pos).result [] := by
  rw [text_result]
  exact .pure _

theorem finish_result (pos : Nat) :
    ((Behaviour.finish : Behaviour input) pos).result = Evaluation.endAt input pos := by
  simp only [Behaviour.finish, readEnd, Evaluation.endAt, Outcome.result]
  by_cases inside : pos < input.size
  · simp [inside, Diagnostic.pos]
  · simp [inside]

theorem finish_denotes (pos : Nat) :
    Settles traced indexOf (fun _ => return Evaluation.endAt input pos)
      ((Behaviour.finish : Behaviour input) pos).result [] := by
  rw [finish_result]
  exact .pure _

theorem scan_result (t : CharTest) (least label pos : Nat) :
    ((Behaviour.scan ⟨t, least, label⟩ : Behaviour input) pos).result =
      if least ≤ (acceptRun t input (input.size - pos) pos).1.length then
        .matched (.list (acceptRun t input (input.size - pos) pos).1)
          (acceptRun t input (input.size - pos) pos).2
      else .failed pos := by
  by_cases many : least ≤ (acceptRun t input (input.size - pos) pos).1.length
  · simp only [Behaviour.scan, readRun, Outcome.result, many, if_true]
  · simp only [Behaviour.scan, readRun, Outcome.result, many, if_false, Diagnostic.pos]

theorem scan_denotes (t : CharTest) (least label : Nat) (r : Ref) (itemLabel : String) :
    DenotesForm g traced indexOf r (.scan t least itemLabel)
      (Behaviour.scan ⟨t, least, label⟩ : Behaviour input) := by
  intro pos _
  have rounds := @loop_settles input traced indexOf (.test ⟨t, label⟩)
    (fun _ pos => return Evaluation.testAt t input pos) (fun pos _ => test_denotes t label pos)
    (input.size - pos + 1) pos [] (Nat.le_refl _)
  rw [Behaviour.loop_test ⟨t, label⟩ (Nat.le_refl _)] at rounds
  obtain ⟨values, same, names, enough, settled, reported⟩ := rounds unrefused_nil
  obtain rfl : (acceptRun t input (input.size - pos) pos).1 = values := by simpa using same
  have run : Settles traced indexOf
      (fun fuel => Evaluation.repeated (fun pos => return Evaluation.testAt t input pos) fuel pos)
      (acceptRun t input (input.size - pos) pos) [] :=
    ⟨names, enough, fun fuel le entered => settled fuel fuel le le entered, reported⟩
  rw [scan_result]
  exact run.last fun fuel => rfl

/-! ## Sequences, choices and repetitions -/

variable {refs : List Ref} {parts : List (Behaviour input)}

/-- What a function makes of the data of a sequence. -/
theorem combined_result (f : Combiner) (ds : List Datum) (pos : Nat) :
    (Behaviour.made (some f) (.list ds) pos).result = Evaluation.applied (f ds) pos := by
  have list : (Datum.list ds).items = ds := rfl
  simp only [Behaviour.made, list, Register.ofResult, Evaluation.applied]
  cases f ds <;> rfl

theorem sequence_settles (denote : List.Forall₂ (Denotes g traced indexOf) refs parts)
    {f : Combiner} {f' : Option Combiner}
    (same : ∀ ds pos, (Behaviour.made f' (.list ds) pos).result = Evaluation.applied (f ds) pos)
    {pos : Nat} (clean : Unrefused (Behaviour.sequence parts f' pos).events) :
    Settles traced indexOf (fun fuel => Evaluation.sequence (g.evaluate input fuel) refs f pos)
      (Behaviour.sequence parts f' pos).result (Behaviour.sequence parts f' pos).events := by
  rw [Behaviour.sequence_events] at clean ⊢
  obtain ⟨result, settles, found⟩ := items_settle denote clean
  cases result with
  | error at' =>
      obtain ⟨e, failed, rfl⟩ := found
      rw [Behaviour.sequence_result, Outcome.andThen_error failed, Outcome.result_error failed]
      exact settles.last fun _ => rfl
  | ok result =>
      obtain ⟨values, stop⟩ := result
      obtain ⟨ok, rfl⟩ := found
      rw [Behaviour.sequence_result, Outcome.andThen_ok ok, Outcome.result_after, List.reverse_nil,
        List.nil_append, same]
      exact settles.last fun _ => rfl

theorem seq_denotes (denote : List.Forall₂ (Denotes g traced indexOf) refs parts) {r a b : Ref}
    (chain : g.sequenceItems g.size r = refs) :
    DenotesForm g traced indexOf r (.seq a b) (.sequence parts none) := by
  intro pos clean
  simp only [Grammar.evaluateForm, chain]
  exact sequence_settles denote (fun _ _ => rfl) clean

theorem combine_denotes (denote : List.Forall₂ (Denotes g traced indexOf) refs parts) (r : Ref)
    (f : Combiner) :
    DenotesForm g traced indexOf r (.combine f refs) (.sequence parts (some f)) := by
  intro pos clean
  exact sequence_settles denote (combined_result f) clean

theorem choice_denotes {first : Behaviour input}
    (denote : List.Forall₂ (Denotes g traced indexOf) refs (first :: parts)) {pos : Nat}
    (clean : Unrefused (Behaviour.choice first parts pos).events) :
    Settles traced indexOf (fun fuel => Evaluation.choice (g.evaluate input fuel) refs pos)
      (Behaviour.choice first parts pos).result (Behaviour.choice first parts pos).events := by
  simp only [Behaviour.choice, Outcome.orBack_events, Outcome.result_orBack] at clean ⊢
  cases denote with
  | cons head tail => exact choice_settles head tail clean

section Single

variable {r r' : Ref} {body : Behaviour input}

theorem optional_denotes (denotes : Denotes g traced indexOf r' body) (fallback : Datum) :
    DenotesForm g traced indexOf r (.optional r' fallback) (.optional body fallback) := by
  intro pos clean
  have denotes := denotes pos
  simp only [Behaviour.optional] at clean ⊢
  cases done : (body pos).register with
  | ok d =>
      simp only [done] at clean ⊢
      rw [Outcome.result_ok done] at denotes ⊢
      exact (denotes clean).last fun _ => rfl
  | error e =>
      simp only [done] at clean ⊢
      rw [Outcome.result_error done] at denotes
      exact (denotes clean).last fun _ => rfl

/-- What becomes of the data of a repetition. -/
theorem many_result {least label pos : Nat} {values : List Datum}
    (ok : (Behaviour.loop body (Behaviour.rounds input pos) [] pos).register = .ok (.list values)) :
    (Behaviour.many body ⟨least, label⟩ pos).result =
      if least ≤ values.length then
        .matched (.list values) (Behaviour.loop body (Behaviour.rounds input pos) [] pos).cursor
      else .failed (Behaviour.loop body (Behaviour.rounds input pos) [] pos).cursor := by
  have list : (Datum.list values).items = values := rfl
  simp only [Behaviour.many]
  rw [Outcome.andThen_ok ok, Outcome.result_after]
  simp only [Behaviour.enough, list]
  split <;> rfl

theorem many_denotes (denotes : Denotes g traced indexOf r' body) (least label : Nat) :
    DenotesForm g traced indexOf r (.many r' least) (.many body ⟨least, label⟩) := by
  intro pos clean
  have rounds := @loop_settles input traced indexOf body (fun fuel => g.evaluate input fuel r')
    denotes (Behaviour.rounds input pos) pos [] (Nat.le_refl _)
  rw [Behaviour.many_events] at clean ⊢
  obtain ⟨values, ok, names, enough, settled, reported⟩ := rounds clean
  rw [List.reverse_nil, List.nil_append] at ok
  have run : Settles traced indexOf
      (fun fuel => Evaluation.repeated (g.evaluate input fuel r') fuel pos) _ _ :=
    ⟨names, enough, fun fuel le entered => settled fuel fuel le le entered, reported⟩
  apply run.last
  intro fuel
  rw [many_result ok]

theorem transform_denotes (denotes : Denotes g traced indexOf r' body) (f : Transform) :
    DenotesForm g traced indexOf r (.transform f r') (.transform f body) := by
  intro pos clean
  simp only [Behaviour.transform, Outcome.orBack_events, Outcome.result_orBack] at clean ⊢
  have denotes := denotes pos
  cases done : (body pos).register with
  | error e =>
      rw [Outcome.andThen_error done] at clean ⊢
      rw [Outcome.result_error done] at denotes ⊢
      exact (denotes clean).last fun _ => rfl
  | ok d =>
      rw [Outcome.andThen_ok done, Outcome.after_events, List.nil_append] at clean ⊢
      rw [Outcome.result_ok done] at denotes
      apply (denotes clean).last
      intro fuel
      simp only [Outcome.result, Register.ofResult, Evaluation.applied]
      cases f d <;> rfl

end Single

section Pairs

variable {r a b : Ref} {first second : Behaviour input} {pos : Nat}

/-- Going on with a second part and deciding by its result. -/
def Decides (second : Behaviour input) (decide : Datum → Nat → Result → Result)
    (next : Datum → Nat → Outcome) : Prop :=
  ∀ d stop, (next d stop).events = (second stop).events ∧
    (next d stop).result = decide d stop (second stop).result

theorem keepLeft_decides (second : Behaviour input) :
    Decides second
      (fun value _ result => match result with
        | .matched _ stop => .matched value stop
        | .failed at' => .failed at')
      fun d stop => (second stop).andThen fun _ stop => ⟨.ok d, stop, []⟩ := by
  intro d stop
  cases done : (second stop).register with
  | ok d' => simp [Outcome.andThen_ok done, Outcome.result, done, Outcome.after]
  | error e => simp [Outcome.andThen_error done, Outcome.result, done]

theorem demand_decides (second : Behaviour input) :
    Decides second
      (fun value stop result => match result with
        | .matched .. => .matched value stop
        | .failed at' => .failed at')
      fun d stop => ⟨Behaviour.demand d stop (second stop).register, stop, (second stop).events⟩ := by
  intro d stop
  refine ⟨rfl, ?_⟩
  cases done : (second stop).register <;> simp [Outcome.result, Behaviour.demand, done]

theorem forbid_decides (second : Behaviour input) (label : Nat) :
    Decides second
      (fun value stop result => match result with
        | .matched .. => .failed stop
        | .failed _ => .matched value stop)
      fun d stop =>
        ⟨Behaviour.forbid input label d stop (second stop).register, stop, (second stop).events⟩ := by
  intro d stop
  refine ⟨rfl, ?_⟩
  cases done : (second stop).register <;>
    simp [Outcome.result, Behaviour.forbid, done, Diagnostic.pos]

/-- A part, and what follows from a second part behind it. -/
theorem provided_settles (left : Denotes g traced indexOf a first)
    (right : Denotes g traced indexOf b second) {decide : Datum → Nat → Result → Result}
    {next : Datum → Nat → Outcome} (decides : Decides second decide next)
    (clean : Unrefused ((first pos).andThen next).events) :
    Settles traced indexOf (fun fuel => Evaluation.provided (g.evaluate input fuel) a b pos decide)
      ((first pos).andThen next).result ((first pos).andThen next).events := by
  apply Settles.andThen clean (left pos)
  intro d cleanRight
  obtain ⟨events, result⟩ := decides d (first pos).cursor
  rw [events] at cleanRight ⊢
  rw [result]
  exact (right _ cleanRight).last fun _ => rfl

theorem keepLeft_denotes (left : Denotes g traced indexOf a first)
    (right : Denotes g traced indexOf b second) :
    DenotesForm g traced indexOf r (.keepLeft a b) (.keepLeft first second) := by
  intro pos clean
  simp only [Behaviour.keepLeft, Outcome.orBack_events, Outcome.result_orBack] at clean ⊢
  exact provided_settles left right (keepLeft_decides second) clean

theorem keepRight_denotes (left : Denotes g traced indexOf a first)
    (right : Denotes g traced indexOf b second) :
    DenotesForm g traced indexOf r (.keepRight a b) (.keepRight first second) := by
  intro pos clean
  simp only [Behaviour.keepRight, Outcome.orBack_events, Outcome.result_orBack] at clean ⊢
  exact provided_settles left right (fun _ _ => ⟨rfl, rfl⟩) clean

theorem followedBy_denotes (left : Denotes g traced indexOf a first)
    (right : Denotes g traced indexOf b second) :
    DenotesForm g traced indexOf r (.followedBy a b)
      (.provided first second Behaviour.demand) := by
  intro pos clean
  simp only [Behaviour.provided, Outcome.orBack_events, Outcome.result_orBack] at clean ⊢
  exact provided_settles left right (demand_decides second) clean

theorem notFollowedBy_denotes (left : Denotes g traced indexOf a first)
    (right : Denotes g traced indexOf b second) (label : Nat) :
    DenotesForm g traced indexOf r (.notFollowedBy a b)
      (.provided first second (Behaviour.forbid input label)) := by
  intro pos clean
  simp only [Behaviour.provided, Outcome.orBack_events, Outcome.result_orBack] at clean ⊢
  exact provided_settles left right (forbid_decides second label) clean

end Pairs

end Forms

/-! ## Names -/

section Names

variable {g : Grammar} {input : Array Char} {indexOf : String → Nat} {r : Ref}
variable {body : Behaviour input}

/-- Without an announcement an expression means what its form does. -/
theorem denotes_of_form {traced : Bool} (silent : traced = true → g.name r = none)
    (denotes : DenotesForm g traced indexOf r (g.expression r) body) :
    Denotes g traced indexOf r body := by
  intro pos clean
  obtain ⟨names, enough, settled, reported⟩ := denotes pos clean
  cases named : g.name r with
  | none =>
      refine ⟨names, enough + 1, ?_, reported⟩
      intro fuel le entered
      obtain ⟨fuel, rfl⟩ : ∃ k, fuel = k + 1 := ⟨fuel - 1, by omega⟩
      refine Evaluation.bind_eq_some.mpr ⟨(), entered, ?_, settled fuel (by omega) entered⟩
      rw [named]
      rfl
  | some name =>
      refine ⟨names ++ [(name, pos)], enough + 1, ?_, ?_⟩
      · intro fuel le entered
        obtain ⟨fuel, rfl⟩ : ∃ k, fuel = k + 1 := ⟨fuel - 1, by omega⟩
        refine Evaluation.bind_eq_some.mpr ⟨(), (name, pos) :: entered, ?_, ?_⟩
        · rw [named]
          rfl
        · rw [List.append_assoc]
          exact settled fuel (by omega) _
      · intro on
        nomatch named.symm.trans (silent on)

theorem announced_denotes {name : String} (named : g.name r = some name)
    (denotes : DenotesForm g true indexOf r (g.expression r) body) :
    Denotes g true indexOf r (.announced (indexOf name) body) := by
  intro pos clean
  simp only [Behaviour.announced, Outcome.after_events, Outcome.result_after] at clean ⊢
  obtain ⟨names, enough, settled, reported⟩ := denotes pos (unrefused_append.mp clean).1
  refine ⟨names ++ [(name, pos)], enough + 1, ?_, ?_⟩
  · intro fuel le entered
    obtain ⟨fuel, rfl⟩ : ∃ k, fuel = k + 1 := ⟨fuel - 1, by omega⟩
    refine Evaluation.bind_eq_some.mpr ⟨(), (name, pos) :: entered, ?_, ?_⟩
    · rw [named]
      rfl
    · rw [List.append_assoc]
      exact settled fuel (by omega) _
  · intro on
    rw [rules_append, reported on, List.map_append]
    rfl

end Names

/-! ## Codes -/

/-- What a subroutine has to do: what the target of its forward reference means. -/
def RoutineDenotes (g : Grammar) (traced : Bool) (indexOf : String → Nat) (r : Ref)
    {input : Array Char} (body : Behaviour input) : Prop :=
  ∃ target, g.expression r = .forward (some target) ∧ Denotes g traced indexOf target body

section Codes

variable {g : Grammar} {input : Array Char} {traced : Bool} {final : List Ref}

/-- A form means what its code does, if the parts do. -/
theorem denotes_of_assembled {env : Surroundings input} {r : Ref} {e : Expression} {c : Code}
    (assembled :
      g.Assembled (fun r c => Denotes g traced env.indexOf r (c input env)) r e c) :
    DenotesForm g traced env.indexOf r e (c input env) := by
  cases assembled with
  | char | oneOf | escaped | test =>
      intro pos _
      exact test_denotes _ _ pos
  | scan => exact scan_denotes _ _ _ _ _
  | literal | keyword =>
      intro pos _
      exact text_denotes _ _ _ _ pos
  | finish =>
      intro pos _
      exact finish_denotes pos
  | seq items => exact seq_denotes (List.forall₂_map_right_iff.mpr items) rfl
  | orElse parts | choice parts =>
      intro pos clean
      exact choice_denotes (List.forall₂_map_right_iff.mpr parts) clean
  | keepLeft left right => exact keepLeft_denotes left right
  | keepRight left right => exact keepRight_denotes left right
  | followedBy left right => exact followedBy_denotes left right
  | notFollowedBy left right => exact notFollowedBy_denotes left right _
  | combine parts => exact combine_denotes (List.forall₂_map_right_iff.mpr parts) r _
  | optional inner => exact optional_denotes inner _
  | many inner => exact many_denotes inner _ _
  | transform inner => exact transform_denotes inner _
  | idiom inner => exact inner

open Unfold in
/-- The code of an expression denotes it, and so do those of the subroutines, if calls do. -/
theorem unfold_denotes {env : Surroundings input}
    (calls : ∀ i r, final[i]? = some r → RoutineDenotes g traced env.indexOf r (env.call i))
    (height : Nat) (r : Ref) :
    Upholds (fun r c => RoutineDenotes g traced env.indexOf r (c input env)) [] final
      (g.unfold traced height r) (fun c => Denotes g traced env.indexOf r (c input env)) := by
  apply Grammar.unfold_upholds
    fun r c => DenotesForm g traced env.indexOf r (g.expression r) (c input env)
  · intro r c assembled
    exact denotes_of_assembled assembled
  · intro i r known _
    obtain ⟨t, aimed, denotes⟩ := calls i r known
    rw [aimed]
    exact denotes
  · intro r t c form _ _ denotes
    rw [form]
    exact ⟨denotes, t, form, denotes⟩
  · intro r name c on named denotes
    subst on
    exact announced_denotes named denotes
  · intro r c silent denotes
    exact denotes_of_form silent denotes

/-- A call does what its subroutine does, apart from the report that it was called. -/
theorem called_denotes {indexOf : String → Nat} {r : Ref} {body : Behaviour input} (label : Nat)
    (denotes : Denotes g traced indexOf r body) :
    Denotes g traced indexOf r (.called label body) := by
  intro pos clean
  simp only [Behaviour.called, Outcome.orBack_events] at clean ⊢
  have inner : Unrefused (body pos).events := fun l p mem => clean l p (by simp [mem])
  have result : (⟨((body pos).orBack pos).register, ((body pos).orBack pos).cursor,
      .leave label ((body pos).orBack pos).register.isOk ((body pos).orBack pos).cursor ::
        ((body pos).events ++ [.enter label pos])⟩ : Outcome).result = (body pos).result :=
    (Outcome.result_orBack (body pos) pos)
  rw [result]
  apply (denotes pos inner).of_rules
  have same : rules [.enter label pos] = [] := rfl
  show rules ((body pos).events ++ [.enter label pos]) = _
  rw [rules_append, same, List.append_nil]

/-- However many calls may be nested, they do what the targets mean. -/
theorem calls_denote {b : Bytecode} {height : Nat} {root : Ref} {c : Code} {v : Unfolding}
    (unfolds : g.unfold traced height root {} = some (c, v)) (depth i : Nat) (r : Ref)
    (known : v.met[i]? = some r) :
    RoutineDenotes g traced b.indexOf r ((b.surroundings v.bodies depth input).call i) := by
  induction depth generalizing i r with
  | zero =>
      have covers := (g.unfold_covers traced v.met height root (List.nil_subset _) unfolds (List.prefix_refl _)).2
      obtain ⟨t, aimed, -⟩ := covers i r (Nat.zero_le _) known
      refine ⟨t, aimed, ?_⟩
      intro pos clean
      exact absurd (List.mem_singleton.mpr rfl) (clean (b.routineLabel i) pos)
  | succ depth ih =>
      have routines := (unfold_denotes ih height root (List.nil_subset _) unfolds (List.prefix_refl _)).2
      obtain ⟨t, aimed, denotes⟩ := routines i r (Nat.zero_le _) known
      exact ⟨t, aimed, called_denotes _ denotes⟩

/-- The code of an expression denotes it. -/
theorem code_denotes {b : Bytecode} {height : Nat} {root : Ref} {c : Code} {v : Unfolding}
    (unfolds : g.unfold traced height root {} = some (c, v)) (depth : Nat) :
    Denotes g traced b.indexOf root (c input (b.surroundings v.bodies depth input)) :=
  (unfold_denotes (calls_denote unfolds depth) height root (List.nil_subset _) unfolds (List.prefix_refl _)).1

end Codes

end PegMachine
