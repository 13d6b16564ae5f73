/-
# PegMachine.Proofs.Separating — lists with separators

A list of items with separators between them always matches, whatever the item and the
separator are. It collects the datum of a first item, if there is one, and then that of one
item after the other for as long as a separator and an item behind it match (`Collects`).
None is left out, added or moved, and a separator with no item behind it is not consumed.

What the items are is a matter of the code they were lowered to, for a call that is refused
changes what an item matches, and the first item and the others are lowered to different
code: a forward reference in the item stands for its target only where it is met first. So
the theorem names the behaviours of the three parts where they stand (`Performs`). Unless a
call is refused in one of them, it comes to what the item or the separator means.
-/
import PegMachine.Proofs.Condensing.Transparent
import PegMachine.Proofs.Meaning.Whole
import PegMachine.Proofs.Orderly

namespace PegMachine

set_option autoImplicit false

open Machine

namespace Machine.Behaviour

variable {input : Array Char}

/-! ## Rounds -/

/-- Rounds of a separator and an item behind it, as long as both match: the data of the items, and
where they end. A round that consumes nothing is the last. -/
inductive Gathers (separator item : Behaviour input) : Nat → List Datum → Nat → Prop
  | done {pos : Nat}
      (fails : ∀ d mid, (separator pos).match? = some (d, mid) → (item mid).match? = none) :
      Gathers separator item pos [] pos
  | idle {pos mid stop : Nat} {d d' : Datum} (behind : (separator pos).match? = some (d', mid))
      (matched : (item mid).match? = some (d, stop)) (still : stop = pos) :
      Gathers separator item pos [d] stop
  | round {pos mid next stop : Nat} {d d' : Datum} {ds : List Datum}
      (behind : (separator pos).match? = some (d', mid)) (matched : (item mid).match? = some (d, next))
      (moved : pos < next) (others : Gathers separator item next ds stop) :
      Gathers separator item pos (d :: ds) stop

/-- A first item, if there is one, and then others behind separators. -/
inductive Collects (first separator item : Behaviour input) : Nat → List Datum → Nat → Prop
  | present {pos next stop : Nat} {d : Datum} {ds : List Datum}
      (matched : (first pos).match? = some (d, next)) (others : Gathers separator item next ds stop) :
      Collects first separator item pos (d :: ds) stop
  | absent {pos stop : Nat} {ds : List Datum} (fails : (first pos).match? = none)
      (others : Gathers separator item pos ds stop) : Collects first separator item pos ds stop

section Rounds

variable {first separator item : Behaviour input}

/-- Only one list is gathered, as a behaviour matches in one way at most. -/
theorem Gathers.unique {pos stop stop' : Nat} {ds ds' : List Datum}
    (gathers : Gathers separator item pos ds stop) (gathers' : Gathers separator item pos ds' stop') :
    ds' = ds ∧ stop' = stop := by
  have same {pos mid mid' stop stop' : Nat} {d d' e e' : Datum}
      (behind : (separator pos).match? = some (e, mid)) (matched : (item mid).match? = some (d, stop))
      (behind' : (separator pos).match? = some (e', mid'))
      (matched' : (item mid').match? = some (d', stop')) : d' = d ∧ stop' = stop := by
    obtain ⟨-, rfl⟩ := Prod.mk.inj (Option.some.inj (behind.symm.trans behind'))
    obtain ⟨rfl, rfl⟩ := Prod.mk.inj (Option.some.inj (matched.symm.trans matched'))
    exact ⟨rfl, rfl⟩
  induction gathers generalizing ds' stop' with
  | done fails =>
      cases gathers' with
      | done => exact ⟨rfl, rfl⟩
      | idle behind matched | round behind matched => cases (fails _ _ behind).symm.trans matched
  | idle behind matched still =>
      cases gathers' with
      | done fails => cases (fails _ _ behind).symm.trans matched
      | idle behind' matched' =>
          obtain ⟨rfl, rfl⟩ := same behind matched behind' matched'
          exact ⟨rfl, rfl⟩
      | round behind' matched' moved =>
          obtain ⟨rfl, rfl⟩ := same behind matched behind' matched'
          omega
  | round behind matched moved _ ih =>
      cases gathers' with
      | done fails => cases (fails _ _ behind).symm.trans matched
      | idle behind' matched' still =>
          obtain ⟨rfl, rfl⟩ := same behind matched behind' matched'
          omega
      | round behind' matched' _ others' =>
          obtain ⟨rfl, rfl⟩ := same behind matched behind' matched'
          obtain ⟨rfl, rfl⟩ := ih others'
          exact ⟨rfl, rfl⟩

theorem Collects.unique {pos stop stop' : Nat} {ds ds' : List Datum}
    (collects : Collects first separator item pos ds stop)
    (collects' : Collects first separator item pos ds' stop') : ds' = ds ∧ stop' = stop := by
  cases collects with
  | present matched others =>
      cases collects' with
      | present matched' others' =>
          obtain ⟨rfl, rfl⟩ := Prod.mk.inj (Option.some.inj (matched.symm.trans matched'))
          obtain ⟨rfl, rfl⟩ := others.unique others'
          exact ⟨rfl, rfl⟩
      | absent fails' => cases matched.symm.trans fails'
  | absent fails others =>
      cases collects' with
      | present matched' => cases matched'.symm.trans fails
      | absent _ others' => exact others.unique others'

theorem match?_within {body : Behaviour input} {pos stop : Nat} {d : Datum}
    (matched : (body pos).match? = some (d, stop)) : pos ≤ stop ∧ stop ≤ max pos input.size := by
  have within := body.within pos
  cases done : (body pos).register with
  | error e => cases (Outcome.match?_error done).symm.trans matched
  | ok d' =>
      obtain ⟨-, rfl⟩ := Prod.mk.inj (Option.some.inj ((Outcome.match?_ok done).symm.trans matched))
      exact within

/-- A repetition gathers the items, if it is allowed all the rounds that there can be. -/
theorem loop_gathers {most pos : Nat} (enough : rounds input pos ≤ most) (collected : List Datum) :
    ∃ ds stop, Gathers separator item pos ds stop ∧
      (loop (keepRight separator item) most collected pos).match? =
        some (.list (collected.reverse ++ ds), stop) := by
  -- A round but the last moves the cursor, and there are fewer positions left behind it.
  induction most generalizing pos collected with
  | zero => cases enough
  | succ most ih =>
      rw [match?_loop]
      cases round : (keepRight separator item pos).match? with
      | none =>
          rw [match?_keepRight] at round
          refine ⟨[], pos, .done ?_, by rw [List.append_nil]⟩
          intro d mid behind
          rwa [behind] at round
      | some found =>
          obtain ⟨d, stop⟩ := found
          have within := match?_within round
          rw [match?_keepRight] at round
          obtain ⟨⟨d', mid⟩, behind, matched⟩ := Option.bind_eq_some_iff.mp round
          dsimp only
          by_cases moved : pos < stop
          · have fewer : rounds input stop ≤ most := by
              simp only [rounds] at enough ⊢
              omega
            obtain ⟨ds, last, gathers, others⟩ := ih fewer (d :: collected)
            refine ⟨d :: ds, last, .round behind matched moved gathers, ?_⟩
            rw [if_pos moved, others, List.reverse_cons, List.append_assoc, List.singleton_append]
          · refine ⟨[d], stop, .idle behind matched (by omega), ?_⟩
            rw [if_neg moved, List.reverse_cons]

/-- What an expression for a list does, if its parts do these things. -/
def joined (first separator item : Behaviour input) : Behaviour input :=
  sequence [optional (transform (fun d => .ok (.list [d])) first) .null,
    many (keepRight separator item) ⟨0, 0⟩] (some fun ds => .ok (Build.joinItems ds))

/-- It always matches, and collects the items. -/
theorem joined_collects (pos : Nat) :
    ∃ ds stop, Collects first separator item pos ds stop ∧
      (joined first separator item pos).match? = some (.list ds, stop) := by
  obtain ⟨head, start, ahead⟩ : ∃ head start,
      (optional (transform (fun d => .ok (.list [d])) first) .null pos).match? =
        some (head, start) ∧
      ∀ ds stop, Gathers separator item start ds stop →
        Collects first separator item pos (head.items ++ ds) stop := by
    rw [match?_optional, match?_transform]
    cases matched : (first pos).match? with
    | none => exact ⟨.null, pos, rfl, fun ds stop others => .absent matched others⟩
    | some found => exact ⟨.list [found.1], found.2, rfl, fun ds stop others => .present matched others⟩
  obtain ⟨ds, stop, gathers, run⟩ :=
    @loop_gathers input separator item _ start (Nat.le_refl _) []
  refine ⟨_, stop, ahead.2 ds stop gathers, ?_⟩
  have rest : (many (keepRight separator item) ⟨0, 0⟩ start).match? = some (.list ds, stop) := by
    rw [match?_many, run]
    rfl
  rw [joined, match?_sequence, items, Outcome.match?_andThen, ahead.1, Option.bind_some, items,
    Outcome.match?_andThen, rest]
  rfl

end Rounds

/-! ## Meaning -/

/-- Unless a call is refused, a behaviour comes to what an expression means. -/
def Tells (body : Behaviour input) (g : Grammar) (r : Ref) : Prop :=
  ∀ pos, Unrefused (body pos).events →
    ∀ result, g.Comes input r pos result ↔ result = (body pos).result

theorem tells_of_denotes {g : Grammar} {traced : Bool} {indexOf : String → Nat} {r : Ref}
    {body : Behaviour input} (denotes : Denotes g traced indexOf r body) : body.Tells g r :=
  fun pos clean => comes_of_settles (denotes pos clean)

theorem Tells.alike {g : Grammar} {r : Ref} {body body' : Behaviour input} (tells : body.Tells g r)
    (alike : body.Alike body') : body'.Tells g r := by
  intro pos clean
  rw [← (alike pos).1]
  exact tells pos ((alike pos).2.mpr clean)

end Machine.Behaviour

namespace Grammar

/-! ## The code of a list -/

/-- The expression is a list of items with separators between them, where the first item is an
expression of its own. -/
inductive Joins (g : Grammar) (first separator item r : Ref) : Prop
  | of {boxed head pair others whole : Ref} (idiom : g.expression r = .idiom .separated whole)
      (isWhole : g.expression whole = .combine (fun ds => .ok (Build.joinItems ds)) [head, others])
      (isHead : g.expression head = .optional boxed .null)
      (isBoxed : g.expression boxed = .transform (fun d => .ok (.list [d])) first)
      (isOthers : g.expression others = .many pair 0)
      (isPair : g.expression pair = .keepRight separator item) : Joins g first separator item r

/-- The codes of the parts of a list, which are unfolded one after the other. -/
inductive PartCodes (g : Grammar) (traced : Bool) (first separator item : Ref) (v v' : Unfolding)
    (own between other : Code) : Prop
  | of {limit : Nat} {u w : Unfolding} (ownCode : g.unfold traced limit first v = some (own, u))
      (betweenCode : g.unfold traced limit separator u = some (between, w))
      (otherCode : g.unfold traced limit item w = some (other, v')) :
      PartCodes g traced first separator item v v' own between other

section Joins

variable {g g' : Grammar} {first separator item root : Ref}

theorem Separates.joins (separates : g.Separates item separator root) :
    g.Joins item separator item root := by
  obtain ⟨idiom, isWhole, isFirst, isBoxed, isOthers, isPair⟩ := separates
  exact .of idiom isWhole isFirst isBoxed isOthers isPair

theorem Separates.inside (separates : g.Separates item separator root) : root < g.size := by
  obtain ⟨idiom, -⟩ := separates
  exact inside_of_expression (by rw [idiom]; nofun)

/-- Condensing changes the parts of a list, but not how they are put together. -/
theorem Joins.condensed {m : Ref → Ref → Prop} (condensation : Condensation g g' m)
    (joins : g.Joins first separator item root) {root' : Ref} (pair : m root root') :
    ∃ first' separator' item', g'.Joins first' separator' item' root' ∧
      m first first' ∧ m separator separator' ∧ m item item' := by
  obtain ⟨idiom, isWhole, isHead, isBoxed, isOthers, isPair⟩ := joins
  have keeps {r r' : Ref} {e : Expression} (form : g.expression r = e) (pair : m r r')
      (compound : e.isLeaf = false) (ordered : e.alternatives? = none)
      (rounds : ∀ body least inner t, e = .many body least → m body inner →
        g'.expression inner ≠ .test t) : Maps m e (g'.expression r') := by
    subst form
    exact condensation.keeps_form pair compound ordered rounds
  obtain ⟨whole', idiom', whole⟩ := (keeps idiom pair rfl rfl nofun).of_idiom
  obtain ⟨parts', isWhole', parts⟩ := (keeps isWhole whole rfl rfl nofun).of_combine
  obtain _ | ⟨head, _ | ⟨others, _ | _⟩⟩ := parts
  obtain ⟨boxed', isHead', boxed⟩ := (keeps isHead head rfl rfl nofun).of_optional
  obtain ⟨first', isBoxed', own⟩ := (keeps isBoxed boxed rfl rfl nofun).of_transform
  -- A pair is no test, so the rounds do not become a run of characters.
  have each (inner : Ref) (pair : m _ inner) := (keeps isPair pair rfl rfl nofun).of_keepRight
  obtain ⟨pair', isOthers', pair⟩ := by
    refine (keeps isOthers others rfl rfl ?_).of_many
    rintro _ _ inner t ⟨⟩ pair test
    obtain ⟨_, _, isPair', -⟩ := each inner pair
    cases test.symm.trans isPair'
  obtain ⟨separator', item', isPair', behind, further⟩ := each pair' pair
  exact ⟨first', separator', item', .of idiom' isWhole' isHead' isBoxed' isOthers' isPair', own, behind,
    further⟩

/-- The code of a list is put together from the codes of its parts. -/
theorem Joins.unfold (joins : g.Joins first separator item root) {traced : Bool} {height : Nat}
    {v v' : Unfolding} {c : Code} (unfolds : g.unfold traced height root v = some (c, v')) :
    ∃ own between other, g.PartCodes traced first separator item v v' own between other ∧
      ∀ (input : Array Char) (env : Surroundings input), (c input env).Alike
        (Behaviour.joined (own input env) (between input env) (other input env)) := by
  obtain ⟨idiom, isWhole, isHead, isBoxed, isOthers, isPair⟩ := joins
  obtain ⟨_, c₀, -, whole, outer⟩ := unfold_form idiom unfolds
  obtain ⟨height, c₁, -, whole, inner⟩ := unfold_form isWhole whole
  obtain ⟨codes, parts, rfl⟩ := Unfold.last_eq_some.mp whole
  obtain ⟨c₂, u, _, head, rest, rfl⟩ := Unfold.parts_cons.mp parts
  obtain ⟨c₃, _, _, others, nothing, rfl⟩ := Unfold.parts_cons.mp rest
  obtain ⟨rfl, rfl⟩ := Unfold.pure_eq_some.mp nothing
  -- The first item, boxed, or nothing.
  obtain ⟨_, _, rfl, headForm, option⟩ := unfold_form isHead head
  obtain ⟨c₄, boxed, rfl⟩ := Unfold.last_eq_some.mp headForm
  obtain ⟨_, _, rfl, boxedForm, box⟩ := unfold_form isBoxed boxed
  obtain ⟨own, ownCode, rfl⟩ := Unfold.last_eq_some.mp boxedForm
  -- The rounds, whose parts nest as deeply.
  obtain ⟨_, _, same, othersForm, rounds⟩ := unfold_form isOthers others
  obtain rfl := Nat.succ.inj same
  obtain ⟨c₅, pair, rfl⟩ := Unfold.last_eq_some.mp othersForm
  obtain ⟨_, _, same, pairForm, both⟩ := unfold_form isPair pair
  obtain rfl := Nat.succ.inj same
  obtain ⟨between, w, betweenCode, last⟩ := Unfold.bind_eq_some.mp pairForm
  obtain ⟨other, otherCode, rfl⟩ := Unfold.last_eq_some.mp last
  refine ⟨own, between, other, .of ownCode betweenCode otherCode, ?_⟩
  intro input env
  have head := (option.behaves env).trans (Behaviour.optional_alike (box.behaves env) _)
  have others := (rounds.behaves env).trans (Behaviour.many_alike (both.behaves env) 0 _ 0)
  have whole := Behaviour.sequence_alike (.cons head (.cons others .nil))
    (some fun ds => .ok (Build.joinItems ds))
  exact (outer.behaves env).trans ((inner.behaves env).trans whole)

end Joins

section PartCodes

variable {g g' : Grammar} {traced : Bool} {first separator item root : Ref} {v : Unfolding}
variable {own between other c : Code} {height : Nat}

/-- Unless a call is refused, the codes come to what the parts mean. -/
theorem PartCodes.tell (codes : g.PartCodes traced first separator item {} v own between other)
    (unfolds : g.unfold traced height root {} = some (c, v)) (b : Bytecode) (depth : Nat)
    (input : Array Char) :
    (own input (b.surroundings v.bodies depth input)).Tells g first ∧
      (between input (b.surroundings v.bodies depth input)).Tells g separator ∧
      (other input (b.surroundings v.bodies depth input)).Tells g item := by
  obtain ⟨ownCode, betweenCode, otherCode⟩ := codes
  have denotes {limit : Nat} {r : Ref} {part : Code} {u u' : Unfolding}
      (unfolds' : g.unfold traced limit r u = some (part, u')) (within : u'.met <+: v.met) :
      (part input (b.surroundings v.bodies depth input)).Tells g r :=
    Behaviour.tells_of_denotes
      (unfold_denotes (calls_denote unfolds depth) limit r (List.nil_subset _) unfolds' within).1
  have last := (g.grows_unfold _ _ _ otherCode).met
  have rest := (g.grows_unfold _ _ _ betweenCode).met.trans last
  exact ⟨denotes ownCode rest, denotes betweenCode last, denotes otherCode (List.prefix_refl _)⟩

/-- The codes of the parts and those of their condensed forms do alike things. -/
theorem PartCodes.condensed {m : Ref → Ref → Prop} (condensation : Condensation g g' m)
    (wellFormed : g.WellFormed) (modest : g.Modest)
    (codes : g.PartCodes traced first separator item {} v own between other)
    {first' separator' item' : Ref} (head : m first first') (behind : m separator separator')
    (further : m item item') {traced' : Bool} {v' : Unfolding} {own' between' other' : Code}
    (codes' : g'.PartCodes traced' first' separator' item' {} v' own' between' other') (b : Bytecode)
    (depth : Nat) (input : Array Char) {env env' : Surroundings input}
    (same : env = b.surroundings v.bodies depth input)
    (same' : env' = b.surroundings v'.bodies depth input) :
    (own input env).Alike (own' input env') ∧ (between input env).Alike (between' input env') ∧
      (other input env).Alike (other' input env') := by
  subst same same'
  obtain ⟨ownCode, betweenCode, otherCode⟩ := codes
  obtain ⟨ownCode', betweenCode', otherCode'⟩ := codes'
  have start : Unfolding.Alike Code.Alike (Forwards g m) {} {} := ⟨.nil, fun _ _ _ _ _ => .refl _⟩
  have simulates {limit limit' : Nat} {r r' : Ref} {u w : Unfolding} {part part' : Code}
      {v v' : Unfolding} (pair : m r r') (alike : u.Alike Code.Alike (Forwards g m) w)
      (unfolds : g.unfold traced limit r u = some (part, v))
      (unfolds' : g'.unfold traced' limit' r' w = some (part', v')) :
      v.Alike Code.Alike (Forwards g m) v' ∧ part.Alike part' :=
    condensed_simulates condensation wellFormed modest limit r r' pair limit' alike unfolds unfolds'
  obtain ⟨alike, ownAlike⟩ := simulates head start ownCode ownCode'
  obtain ⟨alike, betweenAlike⟩ := simulates behind alike betweenCode betweenCode'
  obtain ⟨alike, otherAlike⟩ := simulates further alike otherCode otherCode'
  have calls (i : Nat) : ((b.surroundings v.bodies depth input).call i).Alike
      ((b.surroundings v'.bodies depth input).call i) := calls_alike _ _ _ _ alike.bodies depth i
  exact ⟨ownAlike _ _ calls, betweenAlike _ _ calls, otherAlike _ _ calls⟩

end PartCodes

/-! ## Parts in their places -/

/-- In the grammar that is lowered the second expression stands for the first: it is a condensed form
of it, or it is the same. -/
def Becomes (g : Grammar) (options : CompileOptions) (root r r' : Ref) : Prop :=
  if options.condense then ∃ m, Condensation g (g.prepared options root).1 m ∧ m r r' else r' = r

/-- What bytecode does for an expression in one of the places where it was lowered. Unless a call is
refused, it comes to what the expression means. -/
structure Performs (g : Grammar) (options : CompileOptions) (root : Ref) (lowered : Lowered)
    {input : Array Char} (r : Ref) (body : Behaviour input) : Prop where
  code : ∃ c v, Compiled lowered.bytecode c v ∧ ∃ r' height u u' part, g.Becomes options root r r' ∧
    (g.prepared options root).1.unfold options.traced height r' u = some (part, u') ∧
    body = part input (lowered.bytecode.surroundings v.bodies callLimit input)
  tells : (options.condense = true → g.Regular root) → body.Tells g r

section Performs

variable {g : Grammar} {options : CompileOptions} {first separator item root : Ref} {lowered : Lowered}

/-- What the codes of the parts do in the bytecode. -/
theorem PartCodes.performs {first' separator' item' : Ref} {v : Unfolding}
    {own between other c : Code} {input : Array Char} (codes : (g.prepared options root).1.PartCodes
      options.traced first' separator' item' {} v own between other)
    (runs : Compiled lowered.bytecode c v) {env : Surroundings input}
    (same : env = lowered.bytecode.surroundings v.bodies callLimit input)
    (head : g.Becomes options root first first') (behind : g.Becomes options root separator separator')
    (further : g.Becomes options root item item')
    (tell : (options.condense = true → g.Regular root) → (own input env).Tells g first ∧
      (between input env).Tells g separator ∧ (other input env).Tells g item) :
    g.Performs options root lowered first (own input env) ∧
      g.Performs options root lowered separator (between input env) ∧
      g.Performs options root lowered item (other input env) := by
  subst same
  obtain ⟨ownCode, betweenCode, otherCode⟩ := codes
  have performs {limit : Nat} {r r' : Ref} {w w' : Unfolding} {part : Code}
      (becomes : g.Becomes options root r r')
      (unfolds : (g.prepared options root).1.unfold options.traced limit r' w = some (part, w'))
      (tells : (options.condense = true → g.Regular root) → (part input _).Tells g r) :
      g.Performs options root lowered r (part input _) :=
    ⟨⟨c, v, runs, r', limit, w, w', part, becomes, unfolds, rfl⟩, tells⟩
  exact ⟨performs head ownCode fun regular => (tell regular).1,
    performs behind betweenCode fun regular => (tell regular).2.1,
    performs further otherCode fun regular => (tell regular).2.2⟩

/-- A parse with a list is put together from what bytecode does for the parts. -/
theorem Joins.performs (joins : g.Joins first separator item root) (wellFormed : g.WellFormed)
    (inside : root < g.size) (compiled : g.compile options root = .ok lowered) (input : Array Char) :
    ∃ own between other : Behaviour input, (g.Performs options root lowered first own ∧
      g.Performs options root lowered separator between ∧
      g.Performs options root lowered item other) ∧
      ∀ pos, ∃ o, lowered.bytecode.Ends input pos o ∧
        o.match? = (Behaviour.joined own between other pos).match? := by
  obtain ⟨c, v, unfolds, runs⟩ := compiled_of_compile compiled
  have ends (body : Behaviour input)
      (alike : (c input (lowered.bytecode.surroundings v.bodies callLimit input)).Alike body) (pos : Nat) :
      ∃ o, lowered.bytecode.Ends input pos o ∧ o.match? = (body pos).match? :=
    ⟨_, runs.ends input pos, Outcome.match?_congr (alike pos).1⟩
  obtain ⟨condense, traced⟩ := options
  cases condense with
  | false =>
      obtain ⟨own, between, other, codes, alike⟩ := joins.unfold unfolds
      have tell := codes.tell unfolds lowered.bytecode callLimit input
      refine ⟨own input _, between input _, other input _,
        PartCodes.performs ?_ runs rfl rfl rfl rfl fun _ => tell, ends _ (alike input _)⟩
      exact codes
  | true =>
      obtain ⟨m, condensation, pair⟩ := condense_condensation wellFormed inside
      obtain ⟨first', separator', item', joins', head, behind, further⟩ :=
        joins.condensed condensation pair
      obtain ⟨own, between, other, codes, alike⟩ := joins'.unfold unfolds
      have becomes {r r' : Ref} (pair : m r r') : g.Becomes ⟨true, traced⟩ root r r' :=
        ⟨m, condensation, pair⟩
      refine ⟨own input _, between input _, other input _, PartCodes.performs ?_ runs rfl
        (becomes head) (becomes behind) (becomes further) ?_, ends _ (alike input _)⟩
      · exact codes
      -- Unless a call is refused, the condensed parts do what those do that they were condensed from.
      intro regular
      obtain ⟨-, -, modest, some_⟩ := regular rfl
      obtain ⟨c₀, v₀, unfolds₀⟩ : ∃ c v, g.unfold traced g.walkLimit root {} = some (c, v) :=
        unfolds_of_condensed wellFormed inside compiled some_
      obtain ⟨own₀, between₀, other₀, codes₀, -⟩ := joins.unfold unfolds₀
      obtain ⟨tell, tell', tell''⟩ := codes₀.tell unfolds₀ lowered.bytecode callLimit input
      obtain ⟨alike, alike', alike''⟩ := codes₀.condensed condensation wellFormed modest head behind
        further codes lowered.bytecode callLimit input rfl rfl
      exact ⟨tell.alike alike, tell'.alike alike', tell''.alike alike''⟩

end Performs

end Grammar

namespace Build

open Grammar (CompileOptions Lowered)

/-- Whatever its item and its separator are, every parse with a list matches. From any position it
yields the one list that is collected from what the first item, the separator and the others do there:
the data of the items one after the other, as they are, and the end of the last item. What is appended
and closed later may lead back to the list. -/
theorem separated_parses {g g' later : Grammar} {item separator root : Ref}
    (built : (separated item separator).run g = (root, g')) (before : g'.Before later)
    (wellFormed : later.WellFormed) {options : CompileOptions} {lowered : Lowered}
    (compiled : later.compile options root = .ok lowered) (input : Array Char) :
    ∃ first between next : Behaviour input, later.Performs options root lowered item first ∧
      later.Performs options root lowered separator between ∧
      later.Performs options root lowered item next ∧
      ∀ pos, ∃ ds stop,
        (∀ verdict, lowered.bytecode.Parses input pos verdict ↔ verdict = .ok ⟨.list ds, stop⟩) ∧
        ∀ ds' stop', Behaviour.Collects first between next pos ds' stop' ↔ ds' = ds ∧ stop' = stop := by
  have built : separated item separator g = (root, g') := built
  have separates : later.Separates item separator root := by
    have holds := (builds_separated item separator).later g (by rw [built]; exact before)
    rwa [built] at holds
  obtain ⟨first, between, next, ⟨head, behind, further⟩, ends⟩ :=
    separates.joins.performs wellFormed separates.inside compiled input
  refine ⟨first, between, next, head, behind, further, ?_⟩
  intro pos
  obtain ⟨ds, stop, collects, matched⟩ := @Behaviour.joined_collects input first between next pos
  obtain ⟨o, ended, same⟩ := ends pos
  have parses := (parses_iff_match? (m := ⟨.list ds, stop⟩) ended).mpr (same.trans matched)
  refine ⟨ds, stop, ?_, ?_⟩
  · intro verdict
    exact ⟨fun parses' => Bytecode.parses_unique parses' parses, fun is => is ▸ parses⟩
  · intro ds' stop'
    refine ⟨collects.unique, ?_⟩
    rintro ⟨rfl, rfl⟩
    exact collects

/-- An open forward reference and a comma. -/
def openItem : (Ref × Ref) × Grammar :=
  let build : Build (Ref × Ref) := do
    let item ← forward
    let comma ← char ','
    return (item, comma)
  build.run {}

/-- A list of such items. -/
def itemList : Ref × Grammar := (separated openItem.1.1 openItem.1.2).run openItem.2

/-- Close a forward reference: a list in brackets. -/
def bracket (item list : Ref) : Build Unit := do
  close item (← keepLeft (← keepRight (← char '(') list) (← char ')'))

/-- The same list, where an item is a list in brackets. -/
def nested : Grammar := ((bracket openItem.1.1 itemList.1).run itemList.2).2

theorem before_bracket {g : Grammar} {item list : Ref} (opens : g.Opens [item]) :
    g.Before ((bracket item list) g).2 := by
  have builds : Builds [item] (bracket item list) (fun _ => []) fun _ _ => True := by
    refine (builds_add rfl).bind fun opening => (builds_add rfl).bind fun left => ?_
    refine (builds_add rfl).bind fun closing => (builds_add rfl).bind fun whole => ?_
    exact (builds_close [] [] item whole).mono fun _ _ _ _ _ _ _ => trivial
  exact (builds g opens).1

/-- Whether what was found is an empty list and a list of one, and where it ends. -/
def endsNested (stop : Nat) : Outcome → Bool
  | ⟨.ok (.list [.list [], .list [.list []]]), cursor, _⟩ => cursor == stop
  | _ => false

theorem match?_of_endsNested {stop : Nat} {o : Outcome} (found : endsNested stop o = true) :
    o.match? = some (.list [.list [], .list [.list []]], stop) := by
  unfold endsNested at found
  split at found
  · rw [← beq_iff_eq.mp found]
    rfl
  · cases found

/-- Lists in brackets are items of a list: they are collected as they are, and the comma behind them
is left. -/
theorem nested_collected :
    itemList.2.Before nested ∧ nested.WellFormed ∧
      ∃ lowered, nested.compile ⟨true, false⟩ itemList.1 = .ok lowered ∧
        ∃ first between next : Behaviour "(),(()),".toList.toArray,
          nested.Performs ⟨true, false⟩ itemList.1 lowered openItem.1.1 first ∧
          nested.Performs ⟨true, false⟩ itemList.1 lowered openItem.1.2 between ∧
          nested.Performs ⟨true, false⟩ itemList.1 lowered openItem.1.1 next ∧
          Behaviour.Collects first between next 0 [.list [], .list [.list []]] 7 ∧
          lowered.bytecode.Parses "(),(()),".toList.toArray 0
            (.ok ⟨.list [.list [], .list [.list []]], 7⟩) := by
  have opens : itemList.2.Opens [openItem.1.1] := by
    refine ⟨List.nodup_singleton _, List.forall_mem_singleton.mpr ⟨?_, rfl⟩⟩
    decide
  have before : itemList.2.Before nested := before_bracket opens
  have wellFormed : nested.WellFormed := by decide
  have evaluated : (nested.compile ⟨true, false⟩ itemList.1).toOption.any
      (·.bytecode.endsIn "(),(()),".toList.toArray 0 300 (endsNested 7)) = true := by decide +kernel
  cases compiled : nested.compile ⟨true, false⟩ itemList.1 with
  | error e =>
      rw [compiled] at evaluated
      cases evaluated
  | ok lowered =>
      rw [compiled] at evaluated
      obtain ⟨first, between, next, head, behind, further, parses⟩ :=
        separated_parses (g := openItem.2) rfl before wellFormed compiled "(),(()),".toList.toArray
      obtain ⟨ds, stop, only, collects⟩ := parses 0
      obtain ⟨o, ends, -⟩ := (only _).mpr rfl
      have found := match?_of_endsNested (of_endsIn evaluated ends)
      have parsed : lowered.bytecode.Parses "(),(()),".toList.toArray 0
        (.ok ⟨.list [.list [], .list [.list []]], 7⟩) := (parses_iff_match? ends).mpr found
      obtain ⟨rfl, rfl⟩ : [.list [], .list [.list []]] = ds ∧ 7 = stop := by
        simpa using (only _).mp parsed
      exact ⟨before, wellFormed, lowered, rfl, first, between, next, head, behind, further,
        (collects _ _).mpr ⟨rfl, rfl⟩, parsed⟩

end Build

end PegMachine
