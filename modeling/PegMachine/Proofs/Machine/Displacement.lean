/-
# PegMachine.Proofs.Machine.Displacement — reading a suffix

What stands in front of the position where a run begins does not matter. A run over the rest of the
input alone passes through the same states, only that all its positions are counted from there:
moving them by the length of what was left out (`State.displace`) turns its first state into the
first state of the run over the whole input, and every word keeps it that way (`step_displaced`). So
both runs end or neither does, and what they leave and report differs in positions only
(`run_displaced`).

The bytecode may be anything. No instruction makes a datum of a position, and the two that
compare positions or measure what is left (`loop`, `scan`) do not depend on where these are counted from.
-/
import PegMachine.Machine.Parse

namespace PegMachine

set_option autoImplicit false

/-- The same diagnostic about a position further on. -/
def Diagnostic.displace (k : Nat) : Diagnostic → Diagnostic
  | expected label pos found => expected label (k + pos) found
  | expectedChar char pos found => expectedChar char (k + pos) found
  | trailing pos found => trailing (k + pos) found
  | tooFew least label pos => tooFew least label (k + pos)
  | rejected message pos => rejected message (k + pos)
  | tooDeep pos => tooDeep (k + pos)

@[simp] theorem Diagnostic.pos_displace (k : Nat) (e : Diagnostic) : (e.displace k).pos = k + e.pos := by
  cases e <;> rfl

/-- The second verdict is the first one further on: the same datum, or a failure in the same place.
The message of a failure may name positions, and is left out. -/
def Verdict.Ahead (k : Nat) : Verdict → Verdict → Prop
  | .ok m, .ok m' => m'.value = m.value ∧ m'.stop = k + m.stop
  | .error f, .error f' => f'.pos = k + f.pos ∧ f'.errorPos = k + f.errorPos
  | _, _ => False

namespace Machine

/-- What an input holds from a position on. -/
structure Suffix (input : Array Char) (k : Nat) (later : Array Char) : Prop where
  size : input.size = k + later.size
  get : ∀ i, input[k + i]? = later[i]?

theorem suffix_extract {input : Array Char} {k : Nat} (inside : k ≤ input.size) :
    Suffix input k (input.extract k) where
  size := by
    rw [Array.size_extract]
    omega
  get i := by
    rw [Array.getElem?_extract]
    split
    · rfl
    · exact Array.getElem?_eq_none (by omega)

/-! ## Further on -/

def Register.displace (k : Nat) (register : Register) : Register := register.mapError (·.displace k)

def Reading.displace (k : Nat) (reading : Reading) : Reading :=
  (Register.displace k reading.1, k + reading.2)

def State.displace (k : Nat) (s : State) : State :=
  { s with cursor := k + s.cursor, register := Register.displace k s.register,
           marks := s.marks.map (k + ·) }

def Step.displace (k : Nat) : Step → Step
  | .next s => .next (s.displace k)
  | .announce label s => .announce label (s.displace k)
  | .call index => .call index
  | .fault => .fault

def Event.displace (k : Nat) : Event → Event
  | .rule label pos => .rule label (k + pos)
  | .enter label pos => .enter label (k + pos)
  | .leave label ok pos => .leave label ok (k + pos)
  | .refused label pos => .refused label (k + pos)
  | .word pc w pos => .word pc w (k + pos)

def Outcome.displace (k : Nat) (o : Outcome) : Outcome :=
  ⟨Register.displace k o.register, k + o.cursor, o.events.map (·.displace k)⟩

def Run.displace (k : Nat) : Run → Run
  | .ended o => .ended (o.displace k)
  | .fault pc => .fault pc
  | .exhausted => .exhausted

section Displaced

variable {b : Bytecode} {input later : Array Char} {k : Nat}

@[simp] theorem displace_ok (d : Datum) : Register.displace k (.ok d) = .ok d := rfl

@[simp] theorem displace_error (e : Diagnostic) :
    Register.displace k (.error e) = .error (e.displace k) := rfl

theorem displace_ended (o : Outcome) : Run.displace k (.ended o) = .ended (o.displace k) := rfl

@[simp] theorem isOk_displace (register : Register) : (Register.displace k register).isOk = register.isOk := by
  cases register <;> rfl

/-! ## Reading the input -/

theorem accept?_displaced (suffix : Suffix input k later) (t : CharTest) (pos : Nat) :
    t.accept? input (k + pos) = t.accept? later pos := by
  simp only [CharTest.accept?, CharTest.escapeAt?, CharTest.plainAt?, Nat.add_assoc, suffix.get]

theorem readTest_displaced (suffix : Suffix input k later) (entry : TestEntry) (pos : Nat) :
    readTest entry input (k + pos) = (readTest entry later pos).displace k := by
  rw [readTest, readTest, accept?_displaced suffix, suffix.get]
  cases entry.test.accept? later pos with
  | none => rfl
  | some found => simp [Reading.displace, Nat.add_assoc]

theorem mismatch?_displaced (suffix : Suffix input k later) (anyCase : Bool) (chars : List Char)
    (pos : Nat) :
    mismatch? anyCase input (k + pos) chars =
      (mismatch? anyCase later pos chars).map (·.displace k) := by
  induction chars generalizing pos with
  | nil => rfl
  | cons c rest ih =>
      rw [mismatch?, mismatch?, suffix.get, Nat.add_assoc, ih]
      cases later[pos]? with
      | none => rfl
      | some found =>
          simp only
          split <;> rfl

theorem readLiteral_displaced (suffix : Suffix input k later) (entry : LiteralEntry) (value : Datum)
    (pos : Nat) : readLiteral entry value input (k + pos) = (readLiteral entry value later pos).displace k := by
  rw [readLiteral, readLiteral, mismatch?_displaced suffix]
  cases mismatch? entry.anyCase later pos entry.text with
  | none => simp [Reading.displace, Nat.add_assoc]
  | some e => rfl

theorem acceptRun_displaced (suffix : Suffix input k later) (test : CharTest) (most pos : Nat) :
    acceptRun test input most (k + pos) =
      ((acceptRun test later most pos).1, k + (acceptRun test later most pos).2) := by
  induction most generalizing pos with
  | zero => rfl
  | succ most ih =>
      rw [acceptRun, acceptRun, accept?_displaced suffix]
      cases test.accept? later pos with
      | none => rfl
      | some found => simp only [Nat.add_assoc, ih]

theorem readRun_displaced (suffix : Suffix input k later) (entry : ScanEntry) (pos : Nat) :
    readRun entry input (k + pos) = (readRun entry later pos).displace k := by
  have left : input.size - (k + pos) = later.size - pos := by
    rw [suffix.size]
    omega
  simp only [readRun, acceptRun_displaced suffix, left]
  split <;> rfl

theorem readEnd_displaced (suffix : Suffix input k later) (pos : Nat) :
    readEnd input (k + pos) = (readEnd later pos).displace k := by
  rw [readEnd, readEnd, suffix.get]
  cases later[pos]? <;> rfl

/-! ## One word -/

theorem read_displaced (s : State) {reading reading' : Reading} (same : reading' = reading.displace k) :
    (s.displace k).read reading' = (s.read reading).displace k := by
  rw [same]
  rfl

theorem branch_displaced (s : State) (w : Word) (taken : Bool) :
    (s.displace k).branch w taken = (s.branch w taken).displace k := by
  cases taken <;> rfl

theorem loop_displaced (s : State) (w : Word) : (s.displace k).loop w = (s.loop w).displace k := by
  cases same : s.marks with
  | nil => simp [State.loop, State.displace, State.advance, same]
  | cons start marks =>
      -- Two positions are in the same order wherever they are counted from.
      have order : (k + start < k + s.cursor) = (start < s.cursor) := by simp
      simp only [State.loop, State.displace, same, List.map_cons, order]
      exact branch_displaced { s with marks } w (start < s.cursor)

theorem rewound_displaced (s : State) : (s.displace k).rewound = s.rewound.displace k := by
  cases same : s.marks <;> simp [State.rewound, State.displace, same]

theorem push_displaced (s : State) : (s.displace k).push = s.push.displace k := by
  cases done : s.register with
  | error e => simp [State.push, State.displace, State.advance, done]
  | ok d => cases opened : s.collections <;> simp [State.push, State.displace, State.advance, done, opened]

theorem pop_displaced (s : State) : (s.displace k).pop = s.pop.displace k := by
  rcases opened : s.collections with - | ⟨- | ⟨d, items⟩, outer⟩ <;>
    simp [State.pop, State.displace, State.yield, opened]

theorem gather_displaced (s : State) (arity : Arity) :
    (s.displace k).gather arity = (s.gather arity).displace k := by
  simp only [State.gather, State.displace, apply_ite (Register.displace k), displace_ok, displace_error,
    Diagnostic.displace]
  rfl

theorem accepted_displaced (s : State) (result : Except String Datum) :
    (s.displace k).accepted result = Register.displace k (s.accepted result) := by
  cases result <;> rfl

theorem transform_displaced (s : State) (f : Transform) :
    (s.displace k).transform f = (s.transform f).displace k := by
  cases done : s.register with
  | error e => simp [State.transform, State.displace, State.advance, done]
  | ok d =>
      have front : (s.displace k).register = .ok d := by simp [State.displace, done]
      simp only [State.transform, front, done, accepted_displaced]
      rfl

theorem combine_displaced (s : State) (f : Combiner) :
    (s.displace k).combine f = (s.combine f).displace k := by
  cases done : s.register with
  | error e => simp [State.combine, State.displace, State.advance, done]
  | ok d =>
      have front : (s.displace k).register = .ok d := by simp [State.displace, done]
      simp only [State.combine, front, done, accepted_displaced]
      rfl

theorem orDefault_displaced (s : State) (d : Datum) :
    (s.displace k).orDefault d = (s.orDefault d).displace k := by
  cases done : s.register <;> simp [State.orDefault, State.displace, State.advance, State.yield, done]

theorem withEntry_displaced {α : Type} {table : Array α} {index : Nat} {f f' : α → State}
    (each : ∀ entry, f' entry = (f entry).displace k) :
    withEntry table index f' = (withEntry table index f).displace k := by
  rw [withEntry, withEntry]
  cases table[index]? with
  | none => rfl
  | some entry => simp only [each, Step.displace]

theorem execute_displaced (suffix : Suffix input k later) (s : State) (w : Word) (op : Opcode) :
    execute b input (s.displace k) w op = (execute b later s w op).displace k := by
  have isOk : (s.displace k).isOk = s.isOk := isOk_displace s.register
  cases op with
  | test => exact withEntry_displaced fun entry => read_displaced s (readTest_displaced suffix entry _)
  | literal | keyword =>
      simp only [execute, stepLiteral]
      cases b.literals[Word.operand w]? with
      | none => rfl
      | some entry =>
          exact withEntry_displaced fun value =>
            read_displaced s (readLiteral_displaced suffix entry value _)
  | scan => exact withEntry_displaced fun entry => read_displaced s (readRun_displaced suffix entry _)
  | finish => exact congrArg Step.next (read_displaced s (readEnd_displaced suffix _))
  | jump => rfl
  | jumpIfOk | jumpIfFailed =>
      simp only [execute, isOk, branch_displaced]
      rfl
  | loop => exact congrArg Step.next (loop_displaced s w)
  | mark | collect | discard | announce | call => rfl
  | unmark => simp [execute, Step.displace, State.displace, State.advance, List.map_tail]
  | rewind =>
      simp only [execute, rewound_displaced, Step.displace]
      simp [State.displace, State.advance, State.rewound, List.map_tail]
  | restart =>
      simp only [execute, rewound_displaced]
      rfl
  | push => exact congrArg Step.next (push_displaced s)
  | pop => exact congrArg Step.next (pop_displaced s)
  | gather => exact withEntry_displaced (gather_displaced s)
  | transform =>
      simp only [execute, isOk]
      split
      · exact withEntry_displaced (transform_displaced s)
      · rfl
  | combine =>
      simp only [execute, isOk]
      split
      · exact withEntry_displaced (combine_displaced s)
      · rfl
  | default =>
      simp only [execute, isOk]
      split
      · rfl
      · exact withEntry_displaced (orDefault_displaced s)
  | refuse =>
      have here : input[k + s.cursor]? = later[s.cursor]? := suffix.get s.cursor
      simp only [execute, State.displace, here]
      rfl

/-- A word does the same further on. -/
theorem step_displaced (suffix : Suffix input k later) (s : State) (w : Word) :
    step b input (s.displace k) w = (step b later s w).displace k := by
  rw [step, step]
  split
  · exact execute_displaced suffix s w _
  · rfl

/-! ## Whole runs -/

theorem resume_displaced (s : State) (o : Outcome) :
    (s.displace k).resume (o.displace k).register (o.displace k).cursor =
      (s.resume o.register o.cursor).displace k := by
  simp only [State.resume, State.displace, Outcome.displace, isOk_displace]
  split <;> rfl

theorem report_displaced (input later : Array Char) (reportWords : Bool) (events : List Event)
    (s : State) (w : Word) :
    Setting.report ⟨b, input, reportWords⟩ (events.map (·.displace k)) (s.displace k) w =
      (Setting.report ⟨b, later, reportWords⟩ events s w).map (·.displace k) := by
  cases reportWords <;> rfl

/-- A run does the same further on, and takes as long. -/
theorem run_displaced (suffix : Suffix input k later) (reportWords : Bool) (fuel depth stop : Nat)
    (events : List Event) (s : State) :
    run ⟨b, input, reportWords⟩ fuel depth stop (events.map (·.displace k)) (s.displace k) =
      (run ⟨b, later, reportWords⟩ fuel depth stop events s).displace k := by
  -- Both runs do the same words with the same fuel, a subroutine being a run of its own.
  induction fuel generalizing depth stop events s with
  | zero => rfl
  | succ fuel ih =>
      rw [run, run]
      have pc : (s.displace k).pc = s.pc := rfl
      rw [pc]
      by_cases left : stop ≤ s.pc
      · rw [if_pos left, if_pos left]
        rfl
      · rw [if_neg left, if_neg left]
        cases found : b.code[s.pc]? with
        | none => rfl
        | some w =>
            simp only [step_displaced suffix, report_displaced input later]
            generalize Setting.report ⟨b, later, reportWords⟩ events s w = reported
            cases step b later s w with
            | next next => exact ih ..
            | announce label next => exact ih depth stop (.rule label s.cursor :: reported) next
            | fault => rfl
            | call index =>
                simp only [Step.displace]
                cases known : b.subroutines[index]? with
                | none => rfl
                | some sub =>
                    cases depth with
                    | zero => exact ih 0 stop (.refused sub.label s.cursor :: reported) s.refuseCall
                    | succ depth =>
                        have inner : run ⟨b, input, reportWords⟩ fuel depth sub.range.stop
                            (.enter sub.label (s.displace k).cursor :: reported.map (·.displace k))
                            (.begin sub.range.start (s.displace k).cursor) =
                              (run ⟨b, later, reportWords⟩ fuel depth sub.range.stop
                                (.enter sub.label s.cursor :: reported)
                                (.begin sub.range.start s.cursor)).displace k :=
                          ih depth sub.range.stop (.enter sub.label s.cursor :: reported)
                            (.begin sub.range.start s.cursor)
                        simp only [inner]
                        cases run ⟨b, later, reportWords⟩ fuel depth sub.range.stop
                            (.enter sub.label s.cursor :: reported)
                            (.begin sub.range.start s.cursor) with
                        | ended o =>
                            have isOk : (o.displace k).register.isOk = o.register.isOk :=
                              isOk_displace o.register
                            simp only [displace_ended, resume_displaced, isOk]
                            exact ih (depth + 1) stop
                              (.leave sub.label o.register.isOk
                                (s.resume o.register o.cursor).cursor :: o.events)
                              (s.resume o.register o.cursor)
                        | fault => rfl
                        | exhausted => rfl

/-- A run that ends further on ends where one does from the beginning. -/
theorem ended_of_displaced {ran : Run} {o : Outcome} (ended : ran.displace k = .ended o) :
    ∃ o', ran = .ended o' ∧ o = o'.displace k := by
  cases ran with
  | ended o' => exact ⟨o', rfl, (Run.ended.inj ended).symm⟩
  | fault | exhausted => cases ended

theorem verdict_ahead (o : Outcome) (tables : Tables) :
    (o.verdict tables).Ahead k ((o.displace k).verdict tables) := by
  cases done : o.register with
  | ok d => simp [Outcome.verdict, Outcome.displace, Verdict.Ahead, done]
  | error e => simp [Outcome.verdict, Outcome.displace, Verdict.Ahead, done]

end Displaced

end Machine

namespace Bytecode

open Machine (Outcome State Suffix suffix_extract)

/-- Parses from a position end as parses of the rest of the input do. -/
theorem ends_iff_suffix (b : Bytecode) {input later : Array Char} {pos : Nat}
    (suffix : Suffix input pos later) (o : Outcome) :
    b.Ends input pos o ↔ ∃ o', b.Ends later 0 o' ∧ o = o'.displace pos := by
  have same (fuel : Nat) : Machine.runRange ⟨b, input, false⟩ fuel b.entry pos =
      (Machine.runRange ⟨b, later, false⟩ fuel b.entry 0).displace pos :=
    Machine.run_displaced suffix false fuel callLimit b.entry.stop [] (.begin b.entry.start 0)
  constructor
  · rintro ⟨fuel, ran⟩
    rw [same] at ran
    obtain ⟨o', ran', rfl⟩ := Machine.ended_of_displaced ran
    exact ⟨o', ⟨fuel, ran'⟩, rfl⟩
  · rintro ⟨o', ⟨fuel, ran⟩, rfl⟩
    exact ⟨fuel, by rw [same, ran, Machine.displace_ended]⟩

/-- Hand-written bytecode: one letter after the other in a loop that goes on as long as they are
there, and then another one. -/
def letters : Bytecode where
  labels := #["a"]
  tests := #[⟨.plain (.ofList ['a']), 0⟩]
  values := #[.null]
  literals := #[⟨['b'], false, 0⟩]
  code := #[.instruction .mark 0, .instruction .test 0,
    .instruction .loop (Word.ofDistance (-2)), .instruction .literal 0]
  entry := ⟨0, 4⟩

end Bytecode

end PegMachine
