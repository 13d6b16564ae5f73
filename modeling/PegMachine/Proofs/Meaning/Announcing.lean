/-
# PegMachine.Proofs.Meaning.Announcing — which rules a run announces

Code that announces its rules reports a named expression where it is entered. Where no call
is refused, what a run of it reports are the named expressions that evaluation enters, in the
same order (`announces_entered`).

Evaluation takes a chain of sequences nested to the left for one sequence, as lowering does,
and does not enter the inner ones. They have names of their own all the same, and an
evaluation that leaves none out enters them as well (`evaluateInFull`), right behind the
sequence that they begin. So a rule is not announced if another sequence begins with it:
`unannounced_rule` is one. As long as no such rule is reached, evaluation in full enters what
evaluation does (`evaluateInFull_eq`), and every rule that is entered is announced.
-/
import PegMachine.Proofs.Lowering.Reaches
import PegMachine.Proofs.Lowering.Sealed
import PegMachine.Proofs.Meaning.Parsing

namespace PegMachine

set_option autoImplicit false

/-! ## Evaluation in full -/

namespace Grammar

open Evaluation

/-- A sequence and those that it begins with, the outermost first. -/
def spine (g : Grammar) : (limit : Nat) → Ref → List Ref
  | 0, _ => []
  | limit + 1, r =>
    match g.expression r with
    | .seq first _ => r :: g.spine limit first
    | _ => []

/-- The names of the sequences that a sequence begins with: its chain absorbs them. -/
def absorbedNames (g : Grammar) (r : Ref) : List String :=
  (g.spine g.size r).tail.filterMap g.name

/-- Match an expression at a position; of a chain enter the inner sequences too. -/
def evaluateInFull (g : Grammar) (input : Array Char) : (fuel : Nat) → Ref → Nat → Evaluation Result
  | 0, _, _ => exhausted
  | fuel + 1, r, pos => do
    enter (g.name r) pos
    (g.absorbedNames r).forM fun name => enter (some name) pos
    g.evaluateForm input fuel (g.evaluateInFull input fuel) r pos (g.expression r)

/-- An expression comes to this result at a position, after entering these named expressions,
with none left out, the earliest first. -/
def MeansInFull (g : Grammar) (input : Array Char) (r : Ref) (pos : Nat) (result : Result)
    (entered : List (String × Nat)) : Prop :=
  ∃ fuel, g.evaluateInFull input fuel r pos [] = some (result, entered.reverse)

section InFull

variable {g : Grammar} {input : Array Char} {eval eval' : Ref → Nat → Evaluation Result}

theorem items_congr {refs : List Ref} (same : ∀ s ∈ refs, eval s = eval' s) (pos : Nat) :
    items eval refs pos = items eval' refs pos := by
  induction refs generalizing pos with
  | nil => rfl
  | cons r rest ih =>
      have later (stop : Nat) := ih (fun s mem => same s (.tail _ mem)) stop
      simp only [items, same r (.head _), later]

theorem sequence_congr {parts : List Ref} (same : ∀ s ∈ parts, eval s = eval' s) (f : Combiner)
    (pos : Nat) : Evaluation.sequence eval parts f pos = Evaluation.sequence eval' parts f pos := by
  rw [Evaluation.sequence, Evaluation.sequence, items_congr same]

theorem choice_congr {refs : List Ref} (same : ∀ s ∈ refs, eval s = eval' s) (pos : Nat) :
    Evaluation.choice eval refs pos = Evaluation.choice eval' refs pos := by
  induction refs with
  | nil => rfl
  | cons r rest ih =>
      cases rest with
      | nil => exact congrFun (same r (.head _)) pos
      | cons next rest =>
          simp only [Evaluation.choice, same r (.head _), ih fun s mem => same s (.tail _ mem)]

/-- The form of an expression asks only for what it reaches. -/
theorem evaluateForm_congr {r : Ref} (same : ∀ s, g.Reaches r s → eval s = eval' s) (fuel pos : Nat) :
    g.evaluateForm input fuel eval r pos (g.expression r) =
      g.evaluateForm input fuel eval' r pos (g.expression r) := by
  have child {s : Ref} (mem : s ∈ (g.expression r).children) : eval s = eval' s := same s (.single mem)
  generalize form : g.expression r = e at child ⊢
  cases e with
  | char | oneOf | escaped | test | scan | literal | keyword | finish => rfl
  | seq => exact sequence_congr (fun s mem => same s (reaches_item mem)) _ pos
  | combine f parts => exact sequence_congr (fun s mem => child mem) f pos
  | orElse a b =>
      have both : ∀ s ∈ [a, b], eval s = eval' s := fun s mem => child mem
      exact choice_congr both pos
  | choice refs => exact choice_congr (fun s mem => child mem) pos
  | keepLeft a b | keepRight a b | followedBy a b | notFollowedBy a b =>
      simp only [evaluateForm, provided, child (s := a) (.head _), child (s := b) (.tail _ (.head _))]
  | optional body | many body | transform f body | idiom kind body =>
      simp only [evaluateForm, child (s := body) (.head _)]
  | forward target =>
      cases target with
      | none => rfl
      | some target => exact congrFun (child (.head _)) pos

/-- Where no chain absorbs a named sequence, evaluation leaves nothing out. -/
theorem evaluateInFull_eq {root : Ref} (nothing : ∀ r, g.Reaches root r → g.absorbedNames r = [])
    (fuel : Nat) {r : Ref} (reaches : g.Reaches root r) :
    g.evaluateInFull input fuel r = g.evaluate input fuel r := by
  induction fuel generalizing r with
  | zero => rfl
  | succ fuel ih =>
      funext pos
      have form : g.evaluateForm input fuel (g.evaluateInFull input fuel) r pos (g.expression r) =
          g.evaluateForm input fuel (g.evaluate input fuel) r pos (g.expression r) :=
        evaluateForm_congr (fun s further => ih (reaches.trans further)) fuel pos
      simp only [evaluateInFull, evaluate, nothing r reaches, form]
      rfl

end InFull

end Grammar

/-! ## Announcements -/

namespace Machine

/-- The rules that an outcome reports, by their names, and where they are entered, the earliest
first. -/
def Outcome.announcements (o : Outcome) (tables : Tables) : List (String × Nat) :=
  (rules o.events).reverse.map fun rule => (tables.label rule.1, rule.2)

/-- Whether an entry announces a rule. -/
def announces (e : Log.Entry) : Bool := e.level = .notice && e.tag = .plain

/-- Among the entries of a run it is the announcements of rules that are plain notices. -/
theorem announcements_eq (o : Outcome) (tables : Tables) :
    ((o.entries tables).filter announces).map (·.text) =
      (o.announcements tables).map fun rule => s!"{rule.1} at {rule.2}" := by
  suffices ∀ (events : List Event) (indent : Nat),
      ((entries tables indent events).filter announces).map (·.text) =
        (rules events).map fun rule => s!"{tables.label rule.1} at {rule.2}" by
    rw [Outcome.entries, this, Outcome.announcements, rules, rules, List.filterMap_reverse, List.map_map]
    rfl
  intro events
  induction events with
  | nil => exact fun _ => rfl
  | cons event rest ih =>
      intro indent
      cases event with
      | rule label pos => exact congrArg (_ :: ·) (ih indent)
      | enter label pos => exact ih (indent + 1)
      | leave label ok pos => exact ih (indent - 1)
      | refused label pos | word pc w pos => exact ih indent

/-- If an outcome names labels that are there, its announcements are the rules that were entered. -/
theorem Outcome.announcements_of_rules {o : Outcome} {t : Tables} (labelled : o.Labelled t)
    {names : List (String × Nat)} (reported : rules o.events = names.map fun e => (t.indexOf e.1, e.2)) :
    o.announcements t = names.reverse := by
  have known : ∀ e ∈ names, t.label (t.indexOf e.1) = e.1 := by
    intro e mem
    have rule : (t.indexOf e.1, e.2) ∈ rules o.events := by
      rw [reported]
      exact List.mem_map_of_mem mem
    obtain ⟨event, listed, reports⟩ := List.mem_filterMap.mp rule
    have names := labelled.events event listed
    cases event with
    | rule label pos =>
        obtain ⟨rfl, -⟩ := Prod.mk.inj (Option.some.inj reports)
        exact Tables.label_indexOf (labels_some.mp names)
    | enter | leave | refused | word => cases reports
  rw [announcements, reported, ← List.map_reverse, List.map_map, List.map_congr_left, List.map_id]
  intro e mem
  exact Prod.ext (known e (List.mem_reverse.mp mem)) rfl

end Machine

namespace Grammar

open Machine

section Announcing

variable {g : Grammar} {root : Ref} {lowered : Lowered}

/-- Unless a call is refused, a run announces the named expressions that evaluation enters. These
are all there are to enter, if no named sequence that is reached begins another one. -/
theorem announces_entered (compiled : g.compile ⟨false, true⟩ root = .ok lowered)
    (input : Array Char) (pos : Nat) :
    ∃ o, lowered.bytecode.Ends input pos o ∧ (Unrefused o.events →
      ∃ result entered, g.Means input root pos result entered ∧
        o.announcements lowered.bytecode.toTables = entered ∧
        ((∀ r, g.Reaches root r → g.absorbedNames r = []) →
          g.MeansInFull input root pos result entered)) := by
  have lowers : g.lowered true root = .ok lowered := compiled
  obtain ⟨c, v, unfolds, runs⟩ := compiled_of_lowered lowers
  have ends := runs.ends input pos
  refine ⟨_, ends, ?_⟩
  intro clean
  obtain ⟨names, enough, settled, reported⟩ := code_denotes unfolds callLimit pos clean
  have evaluated := settled enough (Nat.le_refl _) []
  dsimp only at evaluated
  rw [List.append_nil, ← List.reverse_reverse names] at evaluated
  refine ⟨_, names.reverse, ⟨enough, evaluated⟩,
    Outcome.announcements_of_rules (outcome_labelled compiled ends) (reported rfl), ?_⟩
  intro nothing
  rw [← evaluateInFull_eq nothing enough .refl] at evaluated
  exact ⟨enough, evaluated⟩

/-- No chain absorbs a name if none of the expressions there are does. -/
theorem absorbedNames_of_all (all : ∀ r < g.size, g.absorbedNames r = []) (r : Ref) :
    g.absorbedNames r = [] := by
  by_cases inside : r < g.size
  · exact all r inside
  · have missing := expression_missing (Nat.le_of_not_lt inside)
    rw [absorbedNames]
    cases g.size with
    | zero => rfl
    | succ limit => rw [spine, missing]; rfl

/-- Reading letters in brackets, the rule of groups is announced at each bracket and at the letter. -/
theorem brackets_announced :
    ∃ lowered, brackets.1.compile ⟨false, true⟩ brackets.2 = .ok lowered ∧
      ∃ o, lowered.bytecode.Ends #['(', 'y', ')', 'x'] 0 o ∧ Unrefused o.events ∧
        (∀ r, brackets.1.Reaches brackets.2 r → brackets.1.absorbedNames r = []) ∧
        o.announcements lowered.bytecode.toTables = [("group", 0), ("group", 1)] ∧
        ∃ result, brackets.1.MeansInFull #['(', 'y', ')', 'x'] brackets.2 0 result
          [("group", 0), ("group", 1)] := by
  obtain ⟨lowered, compiled⟩ := brackets_compiles ⟨false, true⟩
  obtain ⟨o, ends, announced⟩ := announces_entered compiled #['(', 'y', ')', 'x'] 0
  have evaluated : (brackets.1.compile ⟨false, true⟩ brackets.2).toOption.any (fun lowered =>
      lowered.bytecode.endsIn #['(', 'y', ')', 'x'] 0 100 fun o => decide (Unrefused o.events) &&
        decide (o.announcements lowered.bytecode.toTables = [("group", 0), ("group", 1)])) =
        true := by decide +kernel
  rw [compiled] at evaluated
  have known := of_endsIn evaluated ends
  rw [Bool.and_eq_true, decide_eq_true_iff, decide_eq_true_iff] at known
  obtain ⟨clean, list⟩ := known
  have nothing (r : Ref) : brackets.1.absorbedNames r = [] :=
    absorbedNames_of_all (by decide) r
  obtain ⟨result, entered, -, same, full⟩ := announced clean
  rw [list] at same
  subst same
  exact ⟨lowered, compiled, o, ends, clean, fun r _ => nothing r, list, result,
    full fun r _ => nothing r⟩

/-! ## A rule that is not announced -/

/-- A pair of letters, which is named, and one more. -/
def triple : Grammar × Ref :=
  let build : Build Ref := do
    let pair ← Build.named (← Build.seq (← Build.char 'a') (← Build.char 'b')) "pair"
    Build.seq pair (← Build.char 'c')
  let (root, g) := build.run {}
  (g, root)

/-- The pair begins the triple, and so it is entered but not announced. -/
theorem unannounced_rule :
    ∃ lowered, triple.1.compile ⟨false, true⟩ triple.2 = .ok lowered ∧
      ∃ o, lowered.bytecode.Ends #['a', 'b', 'c'] 0 o ∧ Unrefused o.events ∧
        triple.1.MeansInFull #['a', 'b', 'c'] triple.2 0
          (.matched (.list [.char 'a', .char 'b', .char 'c']) 3) [("pair", 0)] ∧
        o.announcements lowered.bytecode.toTables = [] := by
  obtain ⟨lowered, compiled⟩ : ∃ lowered, triple.1.compile ⟨false, true⟩ triple.2 = .ok lowered :=
    exists_of_isOk (by decide +kernel)
  obtain ⟨o, ends, -⟩ := announces_entered compiled #['a', 'b', 'c'] 0
  have evaluated : (triple.1.compile ⟨false, true⟩ triple.2).toOption.any (fun lowered =>
      lowered.bytecode.endsIn #['a', 'b', 'c'] 0 100 fun o => decide (Unrefused o.events) &&
        decide (o.announcements lowered.bytecode.toTables = [])) = true := by decide +kernel
  rw [compiled] at evaluated
  have known := of_endsIn evaluated ends
  rw [Bool.and_eq_true, decide_eq_true_iff, decide_eq_true_iff] at known
  exact ⟨lowered, compiled, o, ends, known.1, ⟨3, rfl⟩, known.2⟩

end Announcing

end Grammar

end PegMachine
