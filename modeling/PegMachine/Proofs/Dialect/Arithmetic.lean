/-
# PegMachine.Proofs.Dialect.Arithmetic — formulas are read and evaluated

A text is read to its end exactly if it is one for a formula that is worth something, with
parentheses nested no deeper than calls may be; and then the result is what the formula is worth
(`formula_parses_iff`).

A chain is evaluated once its operands are read, and where that fails, so does the repetition around
it, which then ends one operand earlier. So a formula that is worth nothing may still be read in
part; it is the end of the input, or the closing parenthesis, that is missed. Both directions are
therefore said of texts with something behind them. What is worth a number is taken in front of
what cannot go on (`body_takes`), and whatever is derived from the expression is worth its datum
(`body_derives`), so that nothing else can have been read. Both go by the depth of parentheses, of
which each is a call, and along the steps of a chain.
-/
import PegMachine.Dialect.Arithmetic
import PegMachine.Proofs.Dialect.Formulas
import PegMachine.Proofs.Lexing
import PegMachine.Proofs.Meaning.Whole

namespace PegMachine.Arithmetic

set_option autoImplicit false

open Lexeme (Number Numeral)
open Grammar (IsSpace Skips Padded Numbers space)

/-! ## Evaluating while reading -/

theorem inRange?_eq (i : Int) : (inRange? i).map Datum.int = (Number.ofInt? i).map Number.datum := by
  rw [inRange?, Number.ofInt?]
  split <;> rfl

theorem number_datum (n : Number) : number n.datum = .ok (toDouble n) := by
  cases n <;> rfl

/-- Operators on integers do what they do on numbers: they yield what has 64 bits. -/
theorem onIntegers_datum {op : Operator} (other : op ≠ .div) (i j : Int64) :
    (onIntegers op.symbol i j).toOption = (op.apply (.int i) (.int j)).map Number.datum := by
  have within {result : Int} {made : Except ArithmeticError Datum}
      (same : made = ((inRange? result).map Datum.int).elim (.error (.overflow i op.symbol j)) .ok) :
      made.toOption = (Number.ofInt? result).map Number.datum := by
    rw [same, inRange?_eq]
    cases Number.ofInt? result <;> rfl
  cases op with
  | div => exact absurd rfl other
  | add | sub | mul =>
      refine within ?_
      simp only [onIntegers, Operator.symbol]
      cases inRange? _ <;> rfl

theorem divide_datum (x y : Number) :
    (divide x.datum y.datum).toOption = (Operator.div.apply x y).map Number.datum := by
  have divided : divide x.datum y.datum = if (toDouble y == 0.0) = true then .error .divisionByZero
      else .ok (.float (toDouble x / toDouble y)) := by
    rw [divide, number_datum, number_datum]
    rfl
  have applied : Operator.div.apply x y =
      if (toDouble y == 0.0) = true then none else some (.float (toDouble x / toDouble y)) := by
    cases x <;> cases y <;> rfl
  rw [divided, applied]
  split <;> rfl

/-- The operators on data do what they do on numbers. -/
theorem apply_datum (op : Operator) (x y : Number) :
    (apply (some op.symbol) x.datum y.datum).toOption = (op.apply x y).map Number.datum := by
  by_cases other : op = .div
  · subst other
    exact divide_datum x y
  cases x with
  | float x => cases op <;> first | exact absurd rfl other | cases y <;> rfl
  | int i =>
      cases y with
      | float y => cases op <;> first | exact absurd rfl other | rfl
      | int j =>
          rw [← onIntegers_datum other]
          cases op <;> first | exact absurd rfl other | rfl

/-- The data of a step: the operator and the right operand. -/
def Step.datum (s : Step) : Datum := .list [.char s.op.symbol, s.value.datum]

theorem applyAll_steps (first : Number) (steps : List Step) :
    (applyAll first.datum (steps.map Step.datum)).toOption = (total first steps).map Number.datum := by
  induction steps generalizing first with
  | nil => rfl
  | cons s steps ih =>
      have applied := apply_datum s.op first s.value
      have here : applyAll first.datum ((s :: steps).map Step.datum) =
          (apply (some s.op.symbol) first.datum s.value.datum).bind fun d =>
            applyAll d (steps.map Step.datum) := rfl
      rw [here, total, List.foldlM_cons]
      cases made : apply (some s.op.symbol) first.datum s.value.datum with
      | error e =>
          rw [made] at applied
          have nothing : s.op.apply first s.value = none := Option.map_eq_none_iff.mp applied.symm
          rw [nothing]
          rfl
      | ok d =>
          rw [made] at applied
          obtain ⟨n, some_, rfl⟩ := Option.map_eq_some_iff.mp applied.symm
          rw [some_]
          exact ih n

/-- A chain is evaluated to what its steps make of the first operand. -/
theorem fold_eq_ok {first : Number} {steps : List Step} {d : Datum} :
    fold (.list [first.datum, .list (steps.map Step.datum)]) = .ok d ↔
      ∃ n, total first steps = some n ∧ n.datum = d := by
  have parts : applyAll (Datum.nth (Datum.list [first.datum, .list (steps.map Step.datum)]).items 0)
      (Datum.nth (Datum.list [first.datum, .list (steps.map Step.datum)]).items 1).items =
        applyAll first.datum (steps.map Step.datum) := rfl
  rw [fold, parts, ← Option.map_eq_some_iff, ← applyAll_steps]
  cases applyAll first.datum (steps.map Step.datum) <;> simp [Except.toOption]

/-! ## The expressions of a formula -/

section Shapes

variable {g : Grammar}

/-- One of two operators. -/
inductive Selects (g : Grammar) (op op' : Operator) (r : Ref) : Prop
  | of {a b : Ref} (isEither : g.expression r = .orElse a b)
      (isFirst : g.expression a = .char op.symbol false)
      (isSecond : g.expression b = .char op'.symbol false) : Selects g op op' r

/-- Operands with operators between them. -/
inductive Chains (g : Grammar) (operand operator r : Ref) : Prop
  | of {whole run step : Ref} (isFolded : g.expression r = .transform fold whole)
      (isWhole : g.expression whole = .seq operand run) (isRun : g.expression run = .many step 0)
      (isStep : g.expression step = .seq operator operand) : Chains g operand operator r

/-- An expression in parentheses. -/
inductive Grouped (g : Grammar) (inner r : Ref) : Prop
  | of {front opened closed : Ref} (isWhole : g.expression r = .keepLeft front closed)
      (isFront : g.expression front = .keepRight opened inner)
      (isOpened : g.expression opened = .char '(' false)
      (isClosed : g.expression closed = .char ')' false) : Grouped g inner r

end Shapes

/-- The expressions of a formula, by what they are for. -/
structure Layout (g : Grammar) where
  {blank number group simple factor times term plus body sum finish root : Ref}
  skips : g.Skips blank
  numbers : g.Numbers number
  isGroup : Grouped g sum group
  isSimple : g.expression simple = .orElse number group
  isFactor : Padded g blank simple factor
  isTimes : Selects g .mul .div times
  isTerm : Chains g factor times term
  isPlus : Selects g .add .sub plus
  isBody : Chains g term plus body
  isSum : g.expression sum = .forward (some body)
  isFinish : g.expression finish = .finish
  isRoot : g.expression root = .keepLeft sum finish

open Build in
theorem builds_chain {o : List Ref} (operand operator : Ref) :
    Builds o (chain operand operator) (fun _ => o) (fun later r => Chains later operand operator r) := by
  refine (builds_add rfl).bind fun step => ?_
  refine (builds_add rfl).bind fun run => ?_
  refine (builds_add rfl).bind fun whole => ?_
  refine (builds_add rfl).mono ?_
  intro later r isFolded isWhole isRun isStep
  exact .of isFolded isWhole isRun isStep

open Build in
/-- What is put together reads formulas. -/
theorem grammar_builds :
    Builds [] grammar (fun _ => []) fun later r => ∃ layout : Layout later, layout.root = r := by
  refine (builds_forwardNamed _).bind fun sum => ?_
  refine builds_whitespace.bind fun blank => ?_
  refine (builds_add rfl).bind fun opening => ?_
  refine (builds_add rfl).bind fun opened => ?_
  refine (builds_add rfl).bind fun closing => ?_
  refine (builds_add rfl).bind fun group => ?_
  refine builds_number.bind fun number => ?_
  refine (builds_add rfl).bind fun simple => ?_
  refine (builds_add rfl).bind fun front => ?_
  refine (builds_add rfl).bind fun factor => ?_
  refine (builds_named _ _).bind fun factor' => ?_
  refine (builds_add rfl).bind fun star => ?_
  refine (builds_add rfl).bind fun slash => ?_
  refine (builds_add rfl).bind fun times => ?_
  refine (builds_named _ _).bind fun times' => ?_
  refine (builds_chain _ _).bind fun term => ?_
  refine (builds_named _ _).bind fun term' => ?_
  refine (builds_add rfl).bind fun cross => ?_
  refine (builds_add rfl).bind fun dash => ?_
  refine (builds_add rfl).bind fun plus => ?_
  refine (builds_named _ _).bind fun plus' => ?_
  refine (builds_chain _ _).bind fun body => ?_
  refine (builds_close [] [] sum body).bind fun _ => ?_
  refine (builds_add rfl).bind fun finish => ?_
  refine (builds_add rfl).mono ?_
  -- What is known of the nodes comes in the reverse of the order in which they were added.
  rintro later r isRoot isFinish isSum isBody rfl isPlus isDash isCross rfl isTerm rfl isTimes isSlash
    isStar rfl isFactor isFront isSimple numbers isGroup isClosing isOpened isOpening skips -
  let layout : Layout later := {
    isGroup := .of isGroup isOpened isOpening isClosing
    isFactor := .of isFactor isFront
    isTimes := .of isTimes isStar isSlash
    isPlus := .of isPlus isCross isDash
    skips, numbers, isSimple, isTerm, isBody, isSum, isFinish, isRoot }
  exact ⟨layout, rfl⟩

/-! ## Chains -/

/-- What stands behind begins with one of these characters, if with any. -/
def Followed (chars rest : List Char) : Prop := ∀ c ∈ rest.head?, c ∈ chars

theorem Followed.mono {chars chars' rest : List Char} (followed : Followed chars rest)
    (sub : chars ⊆ chars') : Followed chars' rest := fun c here => sub (followed c here)

/-- What holds of the characters holds of the one behind. -/
theorem Followed.forall {chars rest : List Char} (followed : Followed chars rest) {property : Char → Prop}
    [DecidablePred property] (all : chars.all (fun c => decide (property c)) = true) :
    ∀ c ∈ rest.head?, property c := fun c here => Lexeme.forall_of_all all c (followed c here)

section Chains

variable {g : Grammar} {k : Nat} {a b : Operator} {operand operator r : Ref} {text rest : List Char}

theorem Selects.takes (selects : Selects g a b operator) (apart : a.symbol ≠ b.symbol) {op : Operator}
    (mem : op ∈ [a, b]) : g.Takes k operator [op.symbol] rest (.char op.symbol) := by
  obtain ⟨isEither, isFirst, isSecond⟩ := selects
  refine .of isEither (.orElse ?_)
  simp only [List.mem_cons, List.not_mem_nil, or_false] at mem
  rcases mem with rfl | rfl
  · exact .here (Grammar.takes_char isFirst)
  · refine .later (Grammar.refuses_char isFirst ?_) (.here (Grammar.takes_char isSecond))
    rintro c ⟨⟩
    exact apart.symm

theorem Selects.refuses (selects : Selects g a b operator)
    (other : ∀ c ∈ rest.head?, c ≠ a.symbol ∧ c ≠ b.symbol) : g.Refuses k operator rest := by
  obtain ⟨isEither, isFirst, isSecond⟩ := selects
  refine .of isEither (.orElse ?_)
  simp only [List.forall_mem_cons]
  exact ⟨Grammar.refuses_char isFirst fun c here => (other c here).1,
    Grammar.refuses_char isSecond fun c here => (other c here).2, fun _ mem => by cases mem⟩

theorem Selects.derives {start : List Ref} {d : Datum} (selects : Selects g a b operator)
    (derived : g.Derives start k operator text rest d) :
    ∃ op ∈ [a, b], text = [op.symbol] ∧ d = .char op.symbol := by
  obtain ⟨isEither, isFirst, isSecond⟩ := selects
  rcases derived.orElse isEither with first | second
  · exact ⟨a, by simp, first.char isFirst⟩
  · exact ⟨b, by simp, second.char isSecond⟩

theorem Selects.single (selects : Selects g a b operator) (x y : Ref) :
    g.expression operator ≠ .seq x y := by
  obtain ⟨isEither, -⟩ := selects
  rw [isEither]
  rintro ⟨⟩

variable {renders : Formula → List Char → Prop} (chains : Chains g operand operator r)
variable (selects : Selects g a b operator) (single : ∀ x y, g.expression operand ≠ .seq x y)

include chains selects single in
/-- A chain is taken if its operands are taken in front of operators and of what follows the chain. -/
theorem Chains.takes {after : List Char} {n : Number} (apart : a.symbol ≠ b.symbol)
    (each : ∀ {text rest n}, Worth renders text n → Followed (a.symbol :: b.symbol :: after) rest →
      g.Takes k operand text rest n.datum)
    (ends : a.symbol ∉ after ∧ b.symbol ∉ after) (worth : Worth (Chain [a, b] renders) text n)
    (behind : Followed after rest) : g.Takes k r text rest n.datum := by
  obtain @⟨_, run, _, isFolded, isWhole, isRun, isStep⟩ := chains
  obtain ⟨head, first, steps, rfl, starts, good, made⟩ := worth_chain_iff.mp worth
  have operator_here {op : Operator} (mem : op ∈ [a, b]) (rest : List Char) :
      Followed (a.symbol :: b.symbol :: after) (op.symbol :: rest) := by
    simp only [List.mem_cons, List.not_mem_nil, or_false] at mem
    rintro c ⟨⟩
    rcases mem with rfl | rfl <;> simp
  have ends_here : Followed (a.symbol :: b.symbol :: after) rest := behind.mono (by simp)
  have no_operator (c : Char) (here : c ∈ rest.head?) : c ≠ a.symbol ∧ c ≠ b.symbol :=
    ⟨fun same => ends.1 (same ▸ behind c here), fun same => ends.2 (same ▸ behind c here)⟩
  have run : g.Takes k run (steps.flatMap Step.write) rest (.list (steps.map Step.datum)) := by
    refine .of isRun (.many (Grammar.rounds_flatMap ?_ ?_ ?_ ends_here ?_) (Nat.zero_le _))
    · intro s mem rest followed
      obtain ⟨known, worth⟩ := good s mem
      exact Grammar.takes_pair isStep selects.single (selects.takes apart known) (each worth followed)
    · exact fun s _ => List.cons_ne_nil _ _
    · exact fun s mem rest => operator_here (good s mem).1 _
    · exact Grammar.refuses_pair isStep selects.single (selects.refuses no_operator)
  have front : g.Takes k operand head (steps.flatMap Step.write ++ rest) first.datum := by
    refine each starts ?_
    cases steps with
    | nil => exact ends_here
    | cons s steps => exact operator_here (good s (.head _)).1 _
  exact .of isFolded (.transform (Grammar.takes_pair isWhole single front run)
    (fold_eq_ok.mpr ⟨n, made, rfl⟩))

include chains selects single in
/-- What is derived from a chain is worth what it yields, if that holds of its operands. -/
theorem Chains.derives {start : List Ref} {d : Datum}
    (each : ∀ {text rest d}, g.Derives start k operand text rest d →
      ∃ n, d = n.datum ∧ Worth renders text n)
    (derived : g.Derives start k r text rest d) :
    ∃ n, d = n.datum ∧ Worth (Chain [a, b] renders) text n := by
  obtain @⟨_, _, step, isFolded, isWhole, isRun, isStep⟩ := chains
  obtain ⟨d', pair, made⟩ := derived.transform isFolded
  obtain ⟨head, behind, _, _, rfl, rfl, front, run⟩ := pair.pair isWhole single
  obtain ⟨first, rfl, starts⟩ := each front
  have each_step {text rest : List Char} {d : Datum} (derives : g.Derives start k step text rest d) :
      ∃ s : Step, text = s.write ∧ d = s.datum ∧ (s.op ∈ [a, b] ∧ Worth renders s.text s.value) := by
    obtain ⟨mark, next, _, _, rfl, rfl, symbol, right⟩ := derives.pair isStep selects.single
    obtain ⟨op, mem, rfl, rfl⟩ := selects.derives symbol
    obtain ⟨n, rfl, worth⟩ := each right
    exact ⟨⟨op, next, n⟩, rfl, rfl, mem, worth⟩
  cases run.form isRun with
  | many rounds _ =>
      obtain ⟨steps, rfl, rfl, good⟩ := rounds.rounds_mem each_step
      obtain ⟨n, total, rfl⟩ := fold_eq_ok.mp made
      exact ⟨n, rfl, worth_chain_iff.mpr ⟨head, first, steps, rfl, starts, good, total⟩⟩

end Chains

/-! ## Formulas -/

namespace Layout

variable {g : Grammar} (layout : Layout g) {k : Nat} {inner : Formula → List Char → Prop}
variable {text rest : List Char} {n : Number} {d : Datum}

theorem factor_single (x y : Ref) : g.expression layout.factor ≠ .seq x y := by
  obtain ⟨isWhole, -⟩ := layout.isFactor
  rw [isWhole]
  rintro ⟨⟩

theorem term_single (x y : Ref) : g.expression layout.term ≠ .seq x y := by
  obtain ⟨isFolded, -⟩ := layout.isTerm
  rw [isFolded]
  rintro ⟨⟩

section Takes

variable (grouped : ∀ {text rest n}, Worth inner text n → Followed [')'] rest →
  g.Takes k layout.sum text rest n.datum)

include grouped in
theorem factor_takes (worth : Worth (Factor inner) text n)
    (behind : Followed ['*', '/', '+', '-', ')'] rest) : g.Takes k layout.factor text rest n.datum := by
  obtain ⟨e, renders, value⟩ := worth
  have ends : ∀ c ∈ rest.head?, c ∉ space := behind.forall (by decide)
  cases renders with
  | @numeral numeral front back before spaces =>
      -- Behind the numeral stands white space, or what stands behind the factor.
      have apart : ∀ c ∈ (back ++ rest).head?, c ∉ Lexeme.digits ∧ c ≠ '.' := by
        cases back with
        | nil => exact behind.forall (by decide)
        | cons c back =>
            have each : ∀ c ∈ space, c ∉ Lexeme.digits ∧ c ≠ '.' := Lexeme.forall_of_all (by decide)
            rintro d ⟨⟩
            exact each c (spaces c (.head _))
      have simple : g.Takes k layout.simple numeral.text (back ++ rest) n.datum :=
        .of layout.isSimple (.orElse (.here (layout.numbers.takes k value apart)))
      exact layout.isFactor.takes layout.skips before spaces simple
        (Grammar.numeral_visible numeral _) ends
  | @group _ front text back before spaces inside =>
      obtain ⟨isWhole, isFront, isOpened, isClosed⟩ := layout.isGroup
      have sum := grouped ⟨e, inside, value⟩ (by rintro c ⟨⟩; simp : Followed [')'] (')' :: (back ++ rest)))
      have group : g.Takes k layout.group ('(' :: text ++ [')']) (back ++ rest) n.datum :=
        .of isWhole (.keepLeft (.of isFront (.keepRight (Grammar.takes_char isOpened) sum))
          (Grammar.takes_char isClosed))
      have no_number : g.Refuses k layout.number ('(' :: text ++ [')'] ++ (back ++ rest)) := by
        refine layout.numbers.refuses k ?_
        rintro c ⟨⟩
        decide
      have simple : g.Takes k layout.simple ('(' :: text ++ [')']) (back ++ rest) n.datum :=
        .of layout.isSimple (.orElse (.later no_number (.here group)))
      refine layout.isFactor.takes layout.skips before spaces simple ?_ ends
      rintro c ⟨⟩
      decide

include grouped in
theorem term_takes (worth : Worth (Product inner) text n) (behind : Followed ['+', '-', ')'] rest) :
    g.Takes k layout.term text rest n.datum :=
  layout.isTerm.takes layout.isTimes layout.factor_single (by decide) (layout.factor_takes grouped)
    (by decide) worth behind

include grouped in
theorem sum_takes (worth : Worth (Sum inner) text n) (behind : Followed [')'] rest) :
    g.Takes k layout.body text rest n.datum :=
  layout.isBody.takes layout.isPlus layout.term_single (by decide) (layout.term_takes grouped)
    (by decide) worth behind

end Takes

/-- What is worth a number is taken, with a call for each depth of parentheses. -/
theorem body_takes (worth : Worth (Renders k) text n) (behind : Followed [')'] rest) :
    g.Takes k layout.body text rest n.datum := by
  induction k generalizing text rest n with
  | zero =>
      refine layout.sum_takes ?_ worth behind
      rintro text rest n ⟨e, ⟨⟩, -⟩
  | succ k ih =>
      refine layout.sum_takes ?_ worth behind
      intro text rest n worth behind
      exact .of layout.isSum (.forward (ih worth behind))

section Derives

variable (grouped : ∀ {text rest d}, g.Derives [layout.sum] k layout.sum text rest d →
  ∃ n, d = n.datum ∧ Worth inner text n)

include grouped in
theorem factor_derives (derived : g.Derives [layout.sum] k layout.factor text rest d) :
    ∃ n, d = n.datum ∧ Worth (Factor inner) text n := by
  obtain ⟨front, middle, back, _, rfl, before, behind, simple⟩ :=
    layout.isFactor.derives derived layout.skips
  rcases simple.orElse layout.isSimple with number | group
  · obtain ⟨numeral, n, rfl, value, rfl⟩ := layout.numbers.derives number
    exact ⟨n, rfl, .numeral numeral, .numeral before behind, value⟩
  · obtain ⟨isWhole, isFront, isOpened, isClosed⟩ := layout.isGroup
    obtain ⟨opened, closed, _, rfl, left, right⟩ := group.keepLeft isWhole
    obtain ⟨mark, inside, _, rfl, opening, sum⟩ := left.keepRight isFront
    obtain ⟨rfl, -⟩ := opening.char isOpened
    obtain ⟨rfl, -⟩ := right.char isClosed
    obtain ⟨n, rfl, e, renders, value⟩ := grouped sum
    exact ⟨n, rfl, e, .group before behind renders, value⟩

include grouped in
theorem sum_derives (derived : g.Derives [layout.sum] k layout.body text rest d) :
    ∃ n, d = n.datum ∧ Worth (Sum inner) text n := by
  refine layout.isBody.derives layout.isPlus layout.term_single ?_ derived
  intro text rest d derived
  exact layout.isTerm.derives layout.isTimes layout.factor_single (layout.factor_derives grouped) derived

end Derives

/-- What is derived from the expression is worth its datum; a call is left for each depth of
parentheses. -/
theorem body_derives (derived : g.Derives [layout.sum] k layout.body text rest d) :
    ∃ n, d = n.datum ∧ Worth (Renders k) text n := by
  induction k generalizing text rest d with
  | zero =>
      refine layout.sum_derives ?_ derived
      intro text rest d derived
      cases derived.form layout.isSum with
      | inlined new _ => exact absurd (List.mem_singleton_self _) new
  | succ k ih =>
      refine layout.sum_derives ?_ derived
      intro text rest d derived
      cases derived.form layout.isSum with
      | inlined new _ => exact absurd (List.mem_singleton_self _) new
      | called inner => exact ih inner

end Layout

/-! ## The grammar -/

/-- The grammar of formulas, and the expression for them. -/
def formula : Grammar × Ref :=
  let (root, g) := grammar.run {}
  (g, root)

theorem formula_layout : ∃ layout : Layout formula.1, layout.root = formula.2 := by
  rw [formula]
  exact grammar_builds.whole

theorem formula_compiles (options : Grammar.CompileOptions) :
    ∃ lowered, formula.1.compile options formula.2 = .ok lowered := by
  have ok : (formula.1.compile options formula.2).isOk = true := by
    obtain ⟨condense, traced⟩ := options
    cases condense <;> cases traced <;> decide +kernel
  exact exists_of_isOk ok

theorem formula_regular : formula.1.Regular formula.2 :=
  ⟨by decide, by decide, by decide,
    fun r _ => Grammar.choices_of_complete (by decide) r⟩

/-- A text is read to its end exactly if it is one for a formula that is worth something, with no
more parentheses nested than calls may be, and then the result is what the formula is worth. -/
theorem formula_parses_iff (options : Grammar.CompileOptions) :
    ∃ lowered, formula.1.compile options formula.2 = .ok lowered ∧
      ∀ (text : List Char) (m : Match), lowered.bytecode.Parses text.toArray 0 (.ok m) ↔
        ∃ e n, Renders callLimit e text ∧ e.evaluate = some n ∧ m = ⟨n.datum, text.length⟩ := by
  obtain ⟨lowered, compiled⟩ := formula_compiles options
  refine ⟨lowered, compiled, ?_⟩
  intro text m
  obtain ⟨layout, isRoot⟩ := formula_layout
  obtain ⟨body, reads, derived, parses⟩ := whole_parses_iff (isRoot ▸ layout.isRoot) layout.isSum
    layout.isFinish compiled (fun _ => formula_regular) text.toArray 0
  rw [parses]
  constructor
  · rintro ⟨found, nothing⟩
    obtain ⟨part, rest, spans, derives⟩ := derived.derives found
    obtain rfl : rest = [] := spans.behind.symm.trans nothing
    have whole : text = part := by simpa using spans.stands
    obtain ⟨n, same, e, renders, value⟩ := layout.body_derives derives
    refine ⟨e, n, whole ▸ renders, value, ?_⟩
    rw [← same, whole, ← Nat.zero_add part.length, ← spans.stop]
  · rintro ⟨e, n, renders, value, rfl⟩
    have takes : formula.1.Takes callLimit layout.body text [] n.datum :=
      layout.body_takes ⟨e, renders, value⟩ (by rintro c ⟨⟩)
    have found := reads.takes (Nat.le_refl _) takes
      (by simp : text.toArray.toList.drop 0 = text ++ [])
    rw [Nat.zero_add] at found
    exact ⟨found, by simp⟩

/-- A sum in parentheses, and a factor behind it. -/
def sample : Formula :=
  .binary .mul (.binary .add (.numeral (.ofInt 1)) (.numeral (.ofInt 2))) (.numeral (.ofInt 3))

theorem sample_renders (depth : Nat) : Renders (depth + 2) sample "(1 + 2)*3".toList := by
  have nowhere : IsSpace [] := Grammar.isSpace_nil
  have blank : IsSpace [' '] := Lexeme.forall_of_all (by decide)
  have inside : Renders (depth + 1) (.binary .add (.numeral (.ofInt 1)) (.numeral (.ofInt 2)))
      (([] ++ (Numeral.ofInt 1).text ++ [' ']) ++ '+' :: ([' '] ++ (Numeral.ofInt 2).text ++ [])) :=
    .step (.single (.single (.numeral nowhere blank))) (by simp) (.single (.numeral blank nowhere))
  have whole : Product (Renders (depth + 1)) sample _ :=
    .step (.single (.group nowhere nowhere inside)) (by simp) (.numeral nowhere nowhere)
  have rendered : Renders (depth + 2) sample _ := .single whole
  convert rendered using 1
  decide +kernel

theorem sample_worth : sample.evaluate = some (.int 9) := by
  have one : (Numeral.ofInt 1).value? = some (.int 1) := Lexeme.value?_ofInt 1
  have two : (Numeral.ofInt 2).value? = some (.int 2) := Lexeme.value?_ofInt 2
  have three : (Numeral.ofInt 3).value? = some (.int 3) := Lexeme.value?_ofInt 3
  rw [sample, Formula.evaluate, Formula.evaluate, Formula.evaluate, Formula.evaluate, Formula.evaluate,
    one, two, three]
  rfl

/-- It is read to its end, and is nine. -/
theorem sample_evaluated :
    ∃ lowered, formula.1.compile ⟨true, false⟩ formula.2 = .ok lowered ∧
      lowered.bytecode.Parses "(1 + 2)*3".toList.toArray 0 (.ok ⟨.int 9, 9⟩) := by
  obtain ⟨lowered, compiled, parses⟩ := formula_parses_iff ⟨true, false⟩
  have length : "(1 + 2)*3".toList.length = 9 := by decide
  refine ⟨lowered, compiled, (parses _ _).mpr ⟨sample, .int 9, sample_renders 998, sample_worth, ?_⟩⟩
  rw [length]
  rfl

end PegMachine.Arithmetic
