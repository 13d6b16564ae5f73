/-
# PegMachine.Proofs.Machine.Layout — fragments around fragments

`Runs` says that the code from one address to another does what a behaviour says, on
any stacks and without touching them. For every layout of `Lowering` there is a
statement here: if the parts run where the layout puts them and its own words stand
around them, the whole runs as the operator of `Proofs.Behaviour` says.

Most layouts have one way on for a success and one for a failure, and the one for a
failure goes back to the mark. `Forks` describes such a run, and `Forks.close` joins
the two ways.
-/
import PegMachine.Proofs.Machine.Words

namespace PegMachine.Machine

set_option autoImplicit false

variable {b : Bytecode} {input : Array Char} {depth stop : Nat}

/-- The code from `start` to `exit` does what a behaviour says. -/
def Runs (b : Bytecode) (input : Array Char) (depth stop start exit : Nat)
    (body : Behaviour input) : Prop :=
  ∀ pos register marks collections,
    Path b input depth stop ⟨start, pos, register, marks, collections⟩ (body pos).events
      ⟨exit, (body pos).cursor, (body pos).register, marks, collections⟩

/-- A run to an outcome that has two ways on: a success leads to the state `pass`, a
failure to the address `fail` with collections that satisfy `left`. -/
def Forks (b : Bytecode) (input : Array Char) (depth stop : Nat) (s : State) (o : Outcome)
    (marks : List Nat) (pass : Datum → Nat → State) (fail : Nat)
    (left : List (List Datum) → Prop) : Prop :=
  match o.register with
  | .ok d => Path b input depth stop s o.events (pass d o.cursor)
  | .error e => ∃ collections, left collections ∧
      Path b input depth stop s o.events ⟨fail, o.cursor, .error e, marks, collections⟩

/-- The state at an address behind a success. -/
abbrev passing (exit : Nat) (marks : List Nat) (collections : List (List Datum)) :
    Datum → Nat → State :=
  fun d p => ⟨exit, p, .ok d, marks, collections⟩

section Forks

variable {s t : State} {o : Outcome} {marks : List Nat} {pass pass' : Datum → Nat → State}
variable {fail fail' : Nat} {left left' : List (List Datum) → Prop}

theorem Forks.ok {d : Datum} (forks : Forks b input depth stop s o marks pass fail left)
    (done : o.register = .ok d) : Path b input depth stop s o.events (pass d o.cursor) := by
  rw [Forks, done] at forks
  exact forks

theorem Forks.error {e : Diagnostic} (forks : Forks b input depth stop s o marks pass fail left)
    (done : o.register = .error e) : ∃ collections, left collections ∧
      Path b input depth stop s o.events ⟨fail, o.cursor, .error e, marks, collections⟩ := by
  rw [Forks, done] at forks
  exact forks

theorem Forks.of_ok {d : Datum} (done : o.register = .ok d)
    (path : Path b input depth stop s o.events (pass d o.cursor)) :
    Forks b input depth stop s o marks pass fail left := by
  rw [Forks, done]
  exact path

theorem Forks.of_error {e : Diagnostic} (done : o.register = .error e)
    {collections : List (List Datum)} (kept : left collections)
    (path : Path b input depth stop s o.events ⟨fail, o.cursor, .error e, marks, collections⟩) :
    Forks b input depth stop s o marks pass fail left := by
  rw [Forks, done]
  exact ⟨collections, kept, path⟩

/-- Begin earlier. -/
theorem Forks.after {earlier : List Event} (first : Path b input depth stop s earlier t)
    (forks : Forks b input depth stop t o marks pass fail left) :
    Forks b input depth stop s (o.after earlier) marks pass fail left := by
  cases done : o.register with
  | ok d => exact .of_ok done (first.trans (forks.ok done))
  | error e =>
      obtain ⟨collections, kept, path⟩ := forks.error done
      exact .of_error done kept (first.trans path)

theorem Forks.before (first : Path b input depth stop s [] t)
    (forks : Forks b input depth stop t o marks pass fail left) :
    Forks b input depth stop s o marks pass fail left := by
  have whole := forks.after first
  rwa [Outcome.after, List.append_nil] at whole

/-- Go on a little after a success. -/
theorem Forks.onOk (forks : Forks b input depth stop s o marks pass fail left)
    (more : ∀ d p, Path b input depth stop (pass d p) [] (pass' d p)) :
    Forks b input depth stop s o marks pass' fail left := by
  cases done : o.register with
  | ok d => exact .of_ok done ((forks.ok done).andThen (more d _))
  | error e =>
      obtain ⟨collections, kept, path⟩ := forks.error done
      exact .of_error done kept path

/-- Go on a little after a failure. -/
theorem Forks.onError (forks : Forks b input depth stop s o marks pass fail left)
    (more : ∀ e p collections, left collections → ∃ collections', left' collections' ∧
      Path b input depth stop ⟨fail, p, .error e, marks, collections⟩ []
        ⟨fail', p, .error e, marks, collections'⟩) :
    Forks b input depth stop s o marks pass fail' left' := by
  cases done : o.register with
  | ok d => exact .of_ok done (forks.ok done)
  | error e =>
      obtain ⟨collections, kept, path⟩ := forks.error done
      obtain ⟨collections', kept', rest⟩ := more e _ collections kept
      exact .of_error done kept' (path.andThen rest)

/-- After a success another part follows, which shares the way on for a failure. -/
theorem Forks.andThen (forks : Forks b input depth stop s o marks pass fail left)
    {next : Datum → Nat → Outcome}
    (rest : ∀ d p, o.register = .ok d →
      Forks b input depth stop (pass d p) (next d p) marks pass' fail left) :
    Forks b input depth stop s (o.andThen next) marks pass' fail left := by
  cases done : o.register with
  | error e =>
      obtain ⟨collections, kept, path⟩ := forks.error done
      rw [Outcome.andThen_error done]
      exact .of_error done kept path
  | ok d =>
      rw [Outcome.andThen_ok done]
      exact (rest d o.cursor done).after (forks.ok done)

/-- A part, and behind it a jump for its failure. -/
theorem Runs.forks {start exit pos : Nat} {body : Behaviour input} {register : Register}
    {collections : List (List Datum)} (runs : Runs b input depth stop start exit body)
    (failed : AtJump b stop exit .jumpIfFailed fail) (kept : left collections) :
    Forks b input depth stop ⟨start, pos, register, marks, collections⟩ (body pos) marks
      (passing (exit + 1) marks collections) fail left := by
  have path := runs pos register marks collections
  cases done : (body pos).register with
  | ok d =>
      rw [done] at path
      exact .of_ok done (path.andThen (.jumpIfFailed_ok failed))
  | error e =>
      rw [done] at path
      exact .of_error done kept (path.andThen (.jumpIfFailed_error failed))

/-- The two ways come together behind a layout's last words: a success forgets the mark,
a failure goes back to it. -/
theorem Forks.close {exit pos : Nat} {collections : List (List Datum)}
    (forks : Forks b input depth stop s o (pos :: marks)
      (passing exit (pos :: marks) collections) fail left)
    (kept : left collections) (unmark : AtBare b stop exit .unmark)
    (leave : AtJump b stop (exit + 1) .jump (fail + 1)) (rewind : AtBare b stop fail .rewind) :
    ∃ collections', left collections' ∧ Path b input depth stop s (o.orBack pos).events
      ⟨fail + 1, (o.orBack pos).cursor, (o.orBack pos).register, marks, collections'⟩ := by
  cases done : o.register with
  | ok d =>
      rw [Outcome.orBack_ok done, done]
      have path := (forks.ok done).andThen (.unmark unmark)
      exact ⟨collections, kept, path.andThen (.jump leave)⟩
  | error e =>
      obtain ⟨collections', kept', path⟩ := forks.error done
      rw [Outcome.orBack_error done, done]
      exact ⟨collections', kept', path.andThen (.rewind rewind)⟩

end Forks

/-! ## Sequences -/

/-- Items from an address on, each with a jump to `fail` and the word that collects its
datum; they end at `finish`. -/
def ItemsAt (b : Bytecode) (input : Array Char) (depth stop fail : Nat) :
    Nat → List (Behaviour input) → Nat → Prop
  | start, [], finish => start = finish
  | start, part :: rest, finish => ∃ exit, Runs b input depth stop start exit part ∧
      AtJump b stop exit .jumpIfFailed fail ∧ AtBare b stop (exit + 1) .push ∧
      ItemsAt b input depth stop fail (exit + 2) rest finish

/-- What stands in front of an open collection. -/
def Above (collections : List (List Datum)) (all : List (List Datum)) : Prop :=
  ∃ items, all = items :: collections

theorem items_list {parts : List (Behaviour input)} {collected : List Datum} {pos : Nat} {d : Datum}
    (done : (Behaviour.items parts collected pos).register = .ok d) : ∃ ds, d = .list ds := by
  induction parts generalizing collected pos with
  | nil => exact ⟨_, (Except.ok.inj done).symm⟩
  | cons part rest ih =>
      rw [Behaviour.items] at done
      cases first : (part pos).register with
      | ok d =>
          rw [Outcome.andThen_ok first, Outcome.after_register] at done
          exact ih done
      | error e => simp [Outcome.andThen_error first, first] at done

/-- The items and the word that ends their collection. -/
theorem items_forks {fail start finish n pos : Nat} {parts : List (Behaviour input)}
    {collected : List Datum} {arity : Arity} {register : Register} {marks : List Nat}
    {collections : List (List Datum)}
    (items : ItemsAt b input depth stop fail start parts finish)
    (gather : At b stop finish (Word.instruction .gather n)) (fits : n < Word.operandLimit)
    (known : b.arities[n]? = some arity) (large : arity.least ≤ collected.length + parts.length) :
    Forks b input depth stop ⟨start, pos, register, marks, collected :: collections⟩
      (Behaviour.items parts collected pos) marks
      (passing (finish + 1) marks collections) fail (Above collections) := by
  induction parts generalizing start collected pos register with
  | nil =>
      have enough : (Behaviour.enough arity (.list collected.reverse) pos).register =
          .ok (.list collected.reverse) := by
        have large : arity.least ≤ (Datum.list collected.reverse).items.length := by
          simpa [Datum.items, Datum.items?] using large
        rw [Behaviour.enough, if_pos large]
      have path : Path b input depth stop ⟨finish, pos, register, marks, collected :: collections⟩ []
          ⟨finish + 1, pos, (Behaviour.enough arity (.list collected.reverse) pos).register, marks,
            collections⟩ := .gather gather fits known
      rw [enough] at path
      subst items
      exact .of_ok rfl path
  | cons part rest ih =>
      obtain ⟨exit, runs, failed, push, items⟩ := items
      apply ((runs.forks failed ⟨collected, rfl⟩).onOk fun d p => .push push).andThen
      intro d p _
      apply ih items
      simp only [List.length_cons] at *
      omega

section Sequences

variable {base finish n m : Nat} {parts : List (Behaviour input)} {arity : Arity}

/-- A sequence up to the word behind its items; a failure has only the mark left. -/
theorem opened_forks {fail pos : Nat} {register : Register} {marks : List Nat}
    {collections : List (List Datum)} (collect : AtBare b stop base .collect)
    (mark : AtBare b stop (base + 1) .mark)
    (items : ItemsAt b input depth stop fail (base + 2) parts finish)
    (gather : At b stop finish (Word.instruction .gather n)) (fits : n < Word.operandLimit)
    (known : b.arities[n]? = some arity) (exact : arity.least = parts.length)
    (discard : AtBare b stop fail .discard) :
    Forks b input depth stop ⟨base, pos, register, marks, collections⟩
      (Behaviour.items parts [] pos) (pos :: marks)
      (passing (finish + 1) (pos :: marks) collections) (fail + 1)
      (collections = ·) := by
  apply Forks.before ((Path.collect collect).before (.mark mark))
  apply (items_forks items gather fits known (by simp [exact])).onError
  intro e p all above
  obtain ⟨junk, rfl⟩ := above
  exact ⟨collections, rfl, .discard discard⟩

theorem runs_sequence (collect : AtBare b stop base .collect)
    (mark : AtBare b stop (base + 1) .mark)
    (items : ItemsAt b input depth stop (finish + 3) (base + 2) parts finish)
    (gather : At b stop finish (Word.instruction .gather n)) (fits : n < Word.operandLimit)
    (known : b.arities[n]? = some arity) (exact : arity.least = parts.length)
    (unmark : AtBare b stop (finish + 1) .unmark)
    (leave : AtJump b stop (finish + 2) .jump (finish + 5))
    (discard : AtBare b stop (finish + 3) .discard)
    (rewind : AtBare b stop (finish + 4) .rewind) :
    Runs b input depth stop base (finish + 5) (.sequence parts none) := by
  intro pos register marks collections
  have forks : Forks b input depth stop ⟨base, pos, register, marks, collections⟩
      ((Behaviour.items parts [] pos).andThen (Behaviour.made none)) (pos :: marks)
      (passing (finish + 1) (pos :: marks) collections) (finish + 4) (collections = ·) :=
    (opened_forks collect mark items gather fits known exact discard).andThen
      fun d p done => .of_ok rfl .stay
  obtain ⟨_, rfl, path⟩ := forks.close rfl unmark leave rewind
  exact path

theorem runs_combined {f : Combiner} (collect : AtBare b stop base .collect)
    (mark : AtBare b stop (base + 1) .mark)
    (items : ItemsAt b input depth stop (finish + 5) (base + 2) parts finish)
    (gather : At b stop finish (Word.instruction .gather n)) (fits : n < Word.operandLimit)
    (known : b.arities[n]? = some arity) (exact : arity.least = parts.length)
    (combine : At b stop (finish + 1) (Word.instruction .combine m))
    (fits' : m < Word.operandLimit) (known' : b.combiners[m]? = some f)
    (failed : AtJump b stop (finish + 2) .jumpIfFailed (finish + 6))
    (unmark : AtBare b stop (finish + 3) .unmark)
    (leave : AtJump b stop (finish + 4) .jump (finish + 7))
    (discard : AtBare b stop (finish + 5) .discard)
    (rewind : AtBare b stop (finish + 6) .rewind) :
    Runs b input depth stop base (finish + 7) (.sequence parts (some f)) := by
  intro pos register marks collections
  have applied (ds : List Datum) (p : Nat) :
      Forks b input depth stop ⟨finish + 1, p, .ok (.list ds), pos :: marks, collections⟩
        (Behaviour.made (some f) (.list ds) p) (pos :: marks)
        (passing (finish + 3) (pos :: marks) collections) (finish + 6) (collections = ·) := by
    have path : Path b input depth stop ⟨finish + 1, p, .ok (.list ds), pos :: marks, collections⟩
        [] ⟨finish + 2, p, .ofResult (f ds) p, pos :: marks, collections⟩ :=
      .combine combine fits' known'
    cases made : Register.ofResult (f ds) p with
    | ok d =>
        rw [made] at path
        exact .of_ok made (path.andThen (.jumpIfFailed_ok failed))
    | error e =>
        rw [made] at path
        exact .of_error made rfl (path.andThen (.jumpIfFailed_error failed))
  have forks : Forks b input depth stop ⟨base, pos, register, marks, collections⟩
      ((Behaviour.items parts [] pos).andThen (Behaviour.made (some f))) (pos :: marks)
      (passing (finish + 3) (pos :: marks) collections) (finish + 6) (collections = ·) := by
    apply (opened_forks collect mark items gather fits known exact discard).andThen
    intro d p done
    obtain ⟨ds, rfl⟩ := items_list done
    exact applied ds p
  obtain ⟨_, rfl, path⟩ := forks.close rfl unmark leave rewind
  exact path

end Sequences

/-! ## Two parts -/

section Pairs

variable {base exit exit' fail n : Nat} {first second : Behaviour input}

theorem runs_keepRight (mark : AtBare b stop base .mark)
    (left : Runs b input depth stop (base + 1) exit first)
    (leftFailed : AtJump b stop exit .jumpIfFailed (exit' + 3))
    (right : Runs b input depth stop (exit + 1) exit' second)
    (rightFailed : AtJump b stop exit' .jumpIfFailed (exit' + 3))
    (unmark : AtBare b stop (exit' + 1) .unmark)
    (leave : AtJump b stop (exit' + 2) .jump (exit' + 4))
    (rewind : AtBare b stop (exit' + 3) .rewind) :
    Runs b input depth stop base (exit' + 4) (.keepRight first second) := by
  intro pos register marks collections
  have forks : Forks b input depth stop ⟨base, pos, register, marks, collections⟩
      ((first pos).andThen fun _ p => second p) (pos :: marks)
      (passing (exit' + 1) (pos :: marks) collections) (exit' + 3) (collections = ·) := by
    apply Forks.before (Path.mark mark)
    apply (left.forks leftFailed rfl).andThen
    intro d p done
    exact right.forks rightFailed rfl
  obtain ⟨_, rfl, path⟩ := forks.close rfl unmark leave rewind
  exact path

/-- A layout that keeps the datum of its first part while something else follows. -/
theorem runs_keeping {last : Nat} {whole : Behaviour input} {next : Datum → Nat → Outcome}
    (shape : ∀ pos, whole pos = ((first pos).andThen next).orBack pos)
    (collect : AtBare b stop base .collect) (mark : AtBare b stop (base + 1) .mark)
    (left : Runs b input depth stop (base + 2) exit first)
    (leftFailed : AtJump b stop exit .jumpIfFailed fail) (push : AtBare b stop (exit + 1) .push)
    (rest : ∀ d p marks collections,
      Forks b input depth stop ⟨exit + 2, p, .ok .null, marks, [d] :: collections⟩ (next d p) marks
        (passing last marks ([] :: collections)) fail (Above collections))
    (unmark : AtBare b stop last .unmark) (leave : AtJump b stop (last + 1) .jump (fail + 1))
    (rewind : AtBare b stop fail .rewind) (discard : AtBare b stop (fail + 1) .discard) :
    Runs b input depth stop base (fail + 2) whole := by
  intro pos register marks collections
  have forks : Forks b input depth stop ⟨base, pos, register, marks, collections⟩
      ((first pos).andThen next) (pos :: marks) (passing last (pos :: marks) ([] :: collections))
      fail (Above collections) := by
    apply Forks.before ((Path.collect collect).before (.mark mark))
    apply ((left.forks leftFailed ⟨[], rfl⟩).onOk fun d p => .push push).andThen
    intro d p done
    exact rest d p (pos :: marks) collections
  obtain ⟨_, ⟨items, rfl⟩, path⟩ := forks.close ⟨[], rfl⟩ unmark leave rewind
  rw [shape]
  exact path.andThen (.discard discard)

theorem runs_keepLeft (collect : AtBare b stop base .collect)
    (mark : AtBare b stop (base + 1) .mark)
    (left : Runs b input depth stop (base + 2) exit first)
    (leftFailed : AtJump b stop exit .jumpIfFailed (exit' + 4))
    (push : AtBare b stop (exit + 1) .push)
    (right : Runs b input depth stop (exit + 2) exit' second)
    (rightFailed : AtJump b stop exit' .jumpIfFailed (exit' + 4))
    (pop : AtBare b stop (exit' + 1) .pop) (unmark : AtBare b stop (exit' + 2) .unmark)
    (leave : AtJump b stop (exit' + 3) .jump (exit' + 5))
    (rewind : AtBare b stop (exit' + 4) .rewind)
    (discard : AtBare b stop (exit' + 5) .discard) :
    Runs b input depth stop base (exit' + 6) (.keepLeft first second) := by
  refine runs_keeping (fun _ => rfl) collect mark left leftFailed push ?_ unmark leave rewind discard
  intro d p marks collections
  apply (right.forks rightFailed ⟨[d], rfl⟩).andThen
  intro d' p' done
  exact .of_ok rfl (.pop pop)

/-- The second part, from behind the first up to the word that goes back there. -/
theorem peeked_path {pos : Nat} {d : Datum} {marks : List Nat}
    {collections : List (List Datum)} (mark : AtBare b stop base .mark)
    (right : Runs b input depth stop (base + 1) exit second)
    (back : AtBare b stop exit .rewind) :
    Path b input depth stop ⟨base, pos, .ok .null, marks, [d] :: collections⟩ (second pos).events
      ⟨exit + 1, pos, (second pos).register, marks, [d] :: collections⟩ := by
  have path := right pos (.ok .null) (pos :: marks) ([d] :: collections)
  exact .before (.mark mark) (path.andThen (.rewind back))

theorem runs_followedBy (collect : AtBare b stop base .collect)
    (mark : AtBare b stop (base + 1) .mark)
    (left : Runs b input depth stop (base + 2) exit first)
    (leftFailed : AtJump b stop exit .jumpIfFailed (exit' + 5))
    (push : AtBare b stop (exit + 1) .push) (peek : AtBare b stop (exit + 2) .mark)
    (right : Runs b input depth stop (exit + 3) exit' second)
    (back : AtBare b stop exit' .rewind)
    (rightFailed : AtJump b stop (exit' + 1) .jumpIfFailed (exit' + 5))
    (pop : AtBare b stop (exit' + 2) .pop) (unmark : AtBare b stop (exit' + 3) .unmark)
    (leave : AtJump b stop (exit' + 4) .jump (exit' + 6))
    (rewind : AtBare b stop (exit' + 5) .rewind)
    (discard : AtBare b stop (exit' + 6) .discard) :
    Runs b input depth stop base (exit' + 7) (.provided first second Behaviour.demand) := by
  refine runs_keeping (fun _ => rfl) collect mark left leftFailed push ?_ unmark leave rewind discard
  intro d p marks collections
  have path : Path b input depth stop ⟨exit + 2, p, .ok .null, marks, [d] :: collections⟩
      (second p).events ⟨exit' + 1, p, (second p).register, marks, [d] :: collections⟩ :=
    peeked_path peek right back
  cases done : (second p).register with
  | ok d' =>
      rw [done] at path
      have path := path.andThen (.jumpIfFailed_ok rightFailed)
      exact .of_ok rfl (path.andThen (.pop pop))
  | error e =>
      rw [done] at path
      exact .of_error rfl ⟨[d], rfl⟩ (path.andThen (.jumpIfFailed_error rightFailed))

theorem runs_notFollowedBy (collect : AtBare b stop base .collect)
    (mark : AtBare b stop (base + 1) .mark)
    (left : Runs b input depth stop (base + 2) exit first)
    (leftFailed : AtJump b stop exit .jumpIfFailed (exit' + 6))
    (push : AtBare b stop (exit + 1) .push) (peek : AtBare b stop (exit + 2) .mark)
    (right : Runs b input depth stop (exit + 3) exit' second)
    (back : AtBare b stop exit' .rewind)
    (rightMatched : AtJump b stop (exit' + 1) .jumpIfOk (exit' + 5))
    (pop : AtBare b stop (exit' + 2) .pop) (unmark : AtBare b stop (exit' + 3) .unmark)
    (leave : AtJump b stop (exit' + 4) .jump (exit' + 7))
    (refuse : At b stop (exit' + 5) (Word.instruction .refuse n)) (fits : n < Word.operandLimit)
    (rewind : AtBare b stop (exit' + 6) .rewind)
    (discard : AtBare b stop (exit' + 7) .discard) :
    Runs b input depth stop base (exit' + 8)
      (.provided first second (Behaviour.forbid input n)) := by
  refine runs_keeping (fun _ => rfl) collect mark left leftFailed push ?_ unmark leave rewind discard
  intro d p marks collections
  have path : Path b input depth stop ⟨exit + 2, p, .ok .null, marks, [d] :: collections⟩
      (second p).events ⟨exit' + 1, p, (second p).register, marks, [d] :: collections⟩ :=
    peeked_path peek right back
  cases done : (second p).register with
  | ok d' =>
      rw [done] at path
      have path := path.andThen (.jumpIfOk_ok rightMatched)
      exact .of_error rfl ⟨[d], rfl⟩ (path.andThen (.refusal refuse fits))
  | error e =>
      rw [done] at path
      have path := path.andThen (.jumpIfOk_error rightMatched)
      exact .of_ok rfl (path.andThen (.pop pop))

end Pairs

/-! ## Choices -/

/-- Alternatives from an address on, each with a jump to `ok` and, but for the last, a word
that starts over; they end at the last one's jump. -/
def AlternativesAt (b : Bytecode) (input : Array Char) (depth stop ok : Nat) :
    Nat → Behaviour input → List (Behaviour input) → Nat → Prop
  | start, first, [], finish =>
      Runs b input depth stop start finish first ∧ AtJump b stop finish .jumpIfOk ok
  | start, first, next :: rest, finish => ∃ exit, Runs b input depth stop start exit first ∧
      AtJump b stop exit .jumpIfOk ok ∧ AtBare b stop (exit + 1) .restart ∧
      AlternativesAt b input depth stop ok (exit + 2) next rest finish

theorem choose_forks {ok start finish pos : Nat} {first : Behaviour input}
    {rest : List (Behaviour input)} {register : Register} {marks : List Nat}
    {collections : List (List Datum)}
    (alternatives : AlternativesAt b input depth stop ok start first rest finish) :
    Forks b input depth stop ⟨start, pos, register, pos :: marks, collections⟩
      (Behaviour.choose first rest pos) (pos :: marks)
      (passing ok (pos :: marks) collections) (finish + 1) (collections = ·) := by
  induction rest generalizing start first register with
  | nil =>
      obtain ⟨runs, matched⟩ := alternatives
      have path := runs pos register (pos :: marks) collections
      rw [Behaviour.choose]
      cases done : (first pos).register with
      | ok d =>
          rw [done] at path
          exact .of_ok done (path.andThen (.jumpIfOk_ok matched))
      | error e =>
          rw [done] at path
          exact .of_error done rfl (path.andThen (.jumpIfOk_error matched))
  | cons next rest ih =>
      obtain ⟨exit, runs, matched, restart, alternatives⟩ := alternatives
      have path := runs pos register (pos :: marks) collections
      rw [Behaviour.choose]
      cases done : (first pos).register with
      | ok d =>
          rw [done] at path
          exact .of_ok done (path.andThen (.jumpIfOk_ok matched))
      | error e =>
          rw [done] at path
          have path := path.andThen (.jumpIfOk_error matched)
          exact (ih alternatives).after (path.andThen (.restart restart))

theorem runs_choice {base finish : Nat} {first : Behaviour input} {rest : List (Behaviour input)}
    (mark : AtBare b stop base .mark)
    (alternatives : AlternativesAt b input depth stop (finish + 3) (base + 1) first rest finish)
    (rewind : AtBare b stop (finish + 1) .rewind)
    (leave : AtJump b stop (finish + 2) .jump (finish + 4))
    (unmark : AtBare b stop (finish + 3) .unmark) :
    Runs b input depth stop base (finish + 4) (.choice first rest) := by
  intro pos register marks collections
  have forks : Forks b input depth stop ⟨base, pos, register, marks, collections⟩
      (Behaviour.choose first rest pos) (pos :: marks)
      (passing (finish + 3) (pos :: marks) collections) (finish + 1) (collections = ·) :=
    .before (.mark mark) (choose_forks alternatives)
  simp only [Behaviour.choice]
  cases done : (Behaviour.choose first rest pos).register with
  | ok d =>
      rw [Outcome.orBack_ok done, done]
      exact (forks.ok done).andThen (.unmark unmark)
  | error e =>
      obtain ⟨_, rfl, path⟩ := forks.error done
      rw [Outcome.orBack_error done, done]
      have path := path.andThen (.rewind rewind)
      exact path.andThen (.jump leave)

/-! ## One part -/

section Single

variable {base exit n : Nat} {body : Behaviour input}

theorem runs_optional {fallback : Datum} (mark : AtBare b stop base .mark)
    (runs : Runs b input depth stop (base + 1) exit body)
    (failed : AtJump b stop exit .jumpIfFailed (exit + 3))
    (unmark : AtBare b stop (exit + 1) .unmark)
    (leave : AtJump b stop (exit + 2) .jump (exit + 5))
    (rewind : AtBare b stop (exit + 3) .rewind)
    (default : At b stop (exit + 4) (Word.instruction .default n)) (fits : n < Word.operandLimit)
    (known : b.values[n]? = some fallback) :
    Runs b input depth stop base (exit + 5) (.optional body fallback) := by
  intro pos register marks collections
  have path := runs pos register (pos :: marks) collections
  simp only [Behaviour.optional]
  cases done : (body pos).register with
  | ok d =>
      rw [done] at path
      simp only [done]
      have path := path.andThen (.jumpIfFailed_ok failed)
      have path := path.andThen (.unmark unmark)
      exact .before (.mark mark) (path.andThen (.jump leave))
  | error e =>
      rw [done] at path
      have path := path.andThen (.jumpIfFailed_error failed)
      have path := path.andThen (.rewind rewind)
      exact .before (.mark mark) (path.andThen (.default default fits known))

theorem runs_transform {f : Transform} (mark : AtBare b stop base .mark)
    (runs : Runs b input depth stop (base + 1) exit body)
    (transform : At b stop exit (Word.instruction .transform n)) (fits : n < Word.operandLimit)
    (known : b.transforms[n]? = some f)
    (failed : AtJump b stop (exit + 1) .jumpIfFailed (exit + 4))
    (unmark : AtBare b stop (exit + 2) .unmark)
    (leave : AtJump b stop (exit + 3) .jump (exit + 5))
    (rewind : AtBare b stop (exit + 4) .rewind) :
    Runs b input depth stop base (exit + 5) (.transform f body) := by
  intro pos register marks collections
  have forks : Forks b input depth stop ⟨base, pos, register, marks, collections⟩
      ((body pos).andThen fun d p => ⟨.ofResult (f d) p, p, []⟩) (pos :: marks)
      (passing (exit + 2) (pos :: marks) collections) (exit + 4) (collections = ·) := by
    have path := (Path.mark mark).before (runs pos register (pos :: marks) collections)
    cases done : (body pos).register with
    | error e =>
        rw [done] at path
        rw [Outcome.andThen_error done]
        have path := path.andThen (.transform_error transform)
        exact .of_error done rfl (path.andThen (.jumpIfFailed_error failed))
    | ok d =>
        rw [done] at path
        rw [Outcome.andThen_ok done]
        have path := path.andThen (.transform_ok transform fits known)
        apply Forks.after path
        cases made : Register.ofResult (f d) (body pos).cursor with
        | ok d' => exact .of_ok rfl (.jumpIfFailed_ok failed)
        | error e => exact .of_error rfl rfl (.jumpIfFailed_error failed)
  obtain ⟨_, rfl, path⟩ := forks.close rfl unmark leave rewind
  exact path

/-- The rounds of a repetition, up to the word that ends its collection. -/
theorem loop_path {most pos : Nat} {collected : List Datum} {register : Register}
    {marks : List Nat} {collections : List (List Datum)} (mark : AtBare b stop base .mark)
    (runs : Runs b input depth stop (base + 1) exit body)
    (failed : AtJump b stop exit .jumpIfFailed (exit + 4))
    (push : AtBare b stop (exit + 1) .push)
    (again : AtJump b stop (exit + 2) .loop base)
    (leave : AtJump b stop (exit + 3) .jump (exit + 5))
    (rewind : AtBare b stop (exit + 4) .rewind) (many : Behaviour.rounds input pos ≤ most) :
    ∃ register' items,
      (Behaviour.loop body most collected pos).register = .ok (.list items.reverse) ∧
      Path b input depth stop ⟨base, pos, register, marks, collected :: collections⟩
        (Behaviour.loop body most collected pos).events
        ⟨exit + 5, (Behaviour.loop body most collected pos).cursor, register', marks,
          items :: collections⟩ := by
  -- The bound on the rounds goes down with the characters that are left, as only a round that moves
  -- goes on.
  induction most generalizing pos collected register with
  | zero => simp [Behaviour.rounds] at many
  | succ most ih =>
      have path := (Path.mark mark).before
        (runs pos register (pos :: marks) (collected :: collections))
      rw [Behaviour.loop]
      cases done : (body pos).register with
      | error e =>
          rw [done] at path
          have path := path.andThen (.jumpIfFailed_error failed)
          exact ⟨_, collected, rfl, path.andThen (.rewind rewind)⟩
      | ok d =>
          rw [done] at path
          have path := path.andThen (.jumpIfFailed_ok failed)
          have path := path.andThen (.push push)
          have within := body.within pos
          by_cases moved : pos < (body pos).cursor
          · have fewer : Behaviour.rounds input (body pos).cursor ≤ most := by
              simp only [Behaviour.rounds, Outcome.Within] at *
              omega
            obtain ⟨register', items, ok, rest⟩ :=
              @ih (body pos).cursor (d :: collected) (.ok .null) fewer
            have path := path.andThen (.loop_again again moved)
            simp only [moved, if_true]
            exact ⟨register', items, ok, path.trans rest⟩
          · have path := path.andThen (.loop_done again moved)
            simp only [moved, if_false]
            exact ⟨_, d :: collected, rfl, path.andThen (.jump leave)⟩

open Behaviour in
theorem runs_many {arity : Arity} (collect : AtBare b stop base .collect)
    (mark : AtBare b stop (base + 1) .mark)
    (runs : Runs b input depth stop (base + 2) exit body)
    (failed : AtJump b stop exit .jumpIfFailed (exit + 4))
    (push : AtBare b stop (exit + 1) .push)
    (again : AtJump b stop (exit + 2) .loop (base + 1))
    (leave : AtJump b stop (exit + 3) .jump (exit + 5))
    (rewind : AtBare b stop (exit + 4) .rewind)
    (gather : At b stop (exit + 5) (Word.instruction .gather n)) (fits : n < Word.operandLimit)
    (known : b.arities[n]? = some arity) :
    Runs b input depth stop base (exit + 6) (.many body arity) := by
  intro pos register marks collections
  obtain ⟨register', items, ok, path⟩ :=
    @loop_path b input depth stop (base + 1) exit body _ pos [] register marks collections mark runs
      failed push again leave rewind (Nat.le_refl _)
  have shape : Behaviour.many body arity pos =
      (enough arity (.list items.reverse) (loop body (rounds input pos) [] pos).cursor).after
        (loop body (rounds input pos) [] pos).events := Outcome.andThen_ok ok _
  have stays (d : Datum) (p : Nat) : (enough arity d p).cursor = p ∧ (enough arity d p).events = [] := by
    rw [enough]
    split <;> exact ⟨rfl, rfl⟩
  rw [shape, Outcome.after_register, Outcome.after_cursor, Outcome.after_events,
    (stays _ _).1, (stays _ _).2, List.nil_append]
  exact .before (.collect collect) (path.andThen (.gather gather fits known))

/-! ## Rules -/

theorem runs_announced {label : Nat}
    (announce : At b stop base (Word.instruction .announce label))
    (fits : label < Word.operandLimit) (runs : Runs b input depth stop (base + 1) exit body) :
    Runs b input depth stop base exit (.announced label body) := by
  intro pos register marks collections
  exact (Path.announcement announce fits).trans (runs pos register marks collections)

end Single

end PegMachine.Machine
