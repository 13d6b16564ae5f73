/-
# PegMachine.Proofs.Dialect.Json — what is written is read back

A datum that JSON can express is read back from its written form by the expression for
documents, condensed or not, as the same datum and to the end of the text
(`display_parses`). Lists and maps may be nested as deeply as calls may: a level costs one
call at most, and none where the body of the forward reference stands itself.

The induction is over data (`Plain`): a value stands in front of a comma, a closing bracket or
brace, or the end of the text, and there may be white space in front of it, for the writer
puts a blank behind commas and colons.
-/
import PegMachine.Dialect.Json
import PegMachine.Proofs.Lexemes
import PegMachine.Proofs.Meaning.Reads

namespace PegMachine.Json

set_option autoImplicit false

open Grammar (Skips Padded Quotes Numbers Separates space)
open Datum (row writeEntry Ends Closes)

/-! ## The expressions of a document -/

section Shapes

variable {g : Grammar}

/-- An expression between an opening and a closing character, with white space in front of it. -/
inductive Bracketed (opening closing : Char) (g : Grammar) (blank inner r : Ref) : Prop
  | of {front first opened closed : Ref} (isWhole : g.expression r = .keepLeft front closed)
      (isFront : g.expression front = .keepRight first inner)
      (isFirst : g.expression first = .keepRight opened blank)
      (isOpened : g.expression opened = .char opening false)
      (isClosed : g.expression closed = .char closing false) : Bracketed opening closing g blank inner r

/-- A string, a colon and a value. -/
inductive Member (g : Grammar) (blank value r : Ref) : Prop
  | of {front key name text colon : Ref} (isWhole : g.expression r = .seq front value)
      (isFront : g.expression front = .keepRight blank key)
      (isKey : g.expression key = .keepLeft name colon)
      (isName : g.expression name = .keepLeft text blank) (isText : g.Quotes text)
      (isColon : g.expression colon = .char ':' false) : Member g blank value r

variable {k : Nat} {blank inner r : Ref} {text rest : List Char} {d : Datum} {opening closing : Char}

theorem Bracketed.takes (bracketed : Bracketed opening closing g blank inner r) (skips : g.Skips blank)
    (takes : g.Takes k inner text (closing :: rest) d)
    (visible : ∀ c ∈ (text ++ closing :: rest).head?, c ∉ space) :
    g.Takes k r (opening :: text ++ [closing]) rest d := by
  obtain ⟨isWhole, isFront, isFirst, isOpened, isClosed⟩ := bracketed
  have first : g.Takes k _ ([opening] ++ []) (text ++ closing :: rest) _ :=
    .of isFirst (.keepRight (Grammar.takes_char isOpened) (skips.nothing k visible))
  exact .of isWhole (.keepLeft (.of isFront (.keepRight first takes)) (Grammar.takes_char isClosed))

theorem Bracketed.refuses (bracketed : Bracketed opening closing g blank inner r)
    (other : ∀ c ∈ rest.head?, c ≠ opening) : g.Refuses k r rest := by
  obtain ⟨isWhole, isFront, isFirst, isOpened, -⟩ := bracketed
  have first : g.Refuses k _ rest :=
    .of isFirst (.keepRight (.here (Grammar.refuses_char isOpened other)))
  exact .of isWhole (.keepLeft (.here (.of isFront (.keepRight (.here first)))))

end Shapes

/-- The expressions of a document, by what they are for. -/
structure Layout (g : Grammar) where
  {blank text number object array yes no null simple value : Ref}
  {pair comma pairs members objectBody comma' items arrayBody finish root : Ref}
  skips : g.Skips blank
  isYes : g.expression yes = .keyword "true" (.bool true) false
  isNo : g.expression no = .keyword "false" (.bool false) false
  isNull : g.expression null = .keyword "null" .null false
  quotes : g.Quotes text
  numbers : g.Numbers number
  isSimple : g.expression simple = .choice [text, number, object, array, yes, no, null]
  isValue : Padded g blank simple value
  member : Member g blank value pair
  isComma : g.expression comma = .char ',' false
  isPairs : g.Separates pair comma pairs
  isMembers : g.expression members = .transform toMap pairs
  isComma' : g.expression comma' = .char ',' false
  isItems : g.Separates value comma' items
  brackets : Bracketed '[' ']' g blank items arrayBody
  isArray : g.expression array = .forward (some arrayBody)
  braces : Bracketed '{' '}' g blank members objectBody
  isObject : g.expression object = .forward (some objectBody)
  isFinish : g.expression finish = .finish
  isRoot : g.expression root = .keepLeft value finish

open Build in
/-- What is put together is a document. -/
theorem grammar_builds :
    Builds [] grammar (fun _ => []) fun later r => ∃ layout : Layout later, layout.root = r := by
  refine (builds_forwardNamed _).bind fun array => ?_
  refine (builds_forwardNamed _).bind fun object => ?_
  refine builds_whitespace.bind fun blank => ?_
  refine (builds_add rfl).bind fun yes => ?_
  refine (builds_named _ _).bind fun yes' => ?_
  refine (builds_add rfl).bind fun no => ?_
  refine (builds_named _ _).bind fun no' => ?_
  refine (builds_add rfl).bind fun null => ?_
  refine (builds_named _ _).bind fun null' => ?_
  refine builds_quotedString.bind fun text => ?_
  refine builds_number.bind fun number => ?_
  refine (builds_add rfl).bind fun simple => ?_
  refine (builds_named _ _).bind fun simple' => ?_
  refine (builds_add rfl).bind fun front => ?_
  refine (builds_add rfl).bind fun value => ?_
  refine builds_quotedString.bind fun text' => ?_
  refine (builds_add rfl).bind fun name => ?_
  refine (builds_add rfl).bind fun colon => ?_
  refine (builds_add rfl).bind fun key => ?_
  refine (builds_add rfl).bind fun front' => ?_
  refine (builds_add rfl).bind fun pair => ?_
  refine (builds_add rfl).bind fun comma => ?_
  refine (builds_separated pair comma).bind fun pairs => ?_
  refine (builds_add rfl).bind fun members => ?_
  refine (builds_add rfl).bind fun opened => ?_
  refine (builds_add rfl).bind fun first => ?_
  refine (builds_add rfl).bind fun comma' => ?_
  refine (builds_separated value comma').bind fun items => ?_
  refine (builds_add rfl).bind fun inner => ?_
  refine (builds_add rfl).bind fun closed => ?_
  refine (builds_add rfl).bind fun arrayBody => ?_
  refine (builds_close [object] [] array arrayBody).bind fun _ => ?_
  refine (builds_add rfl).bind fun opened' => ?_
  refine (builds_add rfl).bind fun first' => ?_
  refine (builds_add rfl).bind fun inner' => ?_
  refine (builds_add rfl).bind fun closed' => ?_
  refine (builds_add rfl).bind fun objectBody => ?_
  refine (builds_close [] [] object objectBody).bind fun _ => ?_
  refine (builds_add rfl).bind fun finish => ?_
  refine (builds_add rfl).bind fun root => ?_
  refine (builds_named _ _).mono ?_
  -- What is known of the nodes comes in the reverse of the order in which they were added.
  rintro later r rfl isRoot isFinish isObject isBraces isClosed' isInner' isFirst' isOpened' isArray
    isBrackets isClosed isInner isItems isComma' isFirst isOpened isMembers isPairs isComma isPair isFront'
    isKey isColon isName quotes' isValue isFront rfl isSimple numbers quotes rfl isNull rfl isNo rfl isYes
    skips - -
  let layout : Layout later := {
    isValue := .of isValue isFront
    member := .of isPair isFront' isKey isName quotes' isColon
    brackets := .of isBrackets isInner isFirst isOpened isClosed
    braces := .of isBraces isInner' isFirst' isOpened' isClosed'
    skips, isYes, isNo, isNull, quotes, numbers, isSimple, isComma, isPairs, isMembers, isComma', isItems,
    isArray, isObject, isFinish, isRoot }
  exact ⟨layout, rfl⟩

/-! ## Data that JSON can express -/

/-- Data in which lists and maps are nested no deeper than this, and whose strings need no escape but
that of the double quote. -/
inductive Plain : Nat → Datum → Prop
  | null {k : Nat} : Plain k .null
  | bool {k : Nat} (b : Bool) : Plain k (.bool b)
  | int {k : Nat} (i : Int64) : Plain k (.int i)
  | text {k : Nat} {s : String} (bare : ∀ c ∈ s.toList, Text.Bare c) : Plain k (.text s)
  | list {k : Nat} {items : List Datum} (all : ∀ d ∈ items, Plain k d) : Plain (k + 1) (.list items)
  | map {k : Nat} {entries : List (String × Datum)} (ascend : Datum.KeysAscend entries)
      (bare : ∀ e ∈ entries, ∀ c ∈ e.1.toList, Text.Bare c) (all : ∀ e ∈ entries, Plain k e.2) :
      Plain (k + 1) (.map entries)

/-- Texts that do not begin with white space, with commas between them. -/
theorem row_visible {α : Type} {xs : List α} {write : α → List Char} {rest : List Char}
    (each : ∀ x ∈ xs, ∀ rest, ∀ c ∈ (write x ++ rest).head?, c ∉ space)
    (behind : ∀ c ∈ rest.head?, c ∉ space) : ∀ c ∈ (row write xs ++ rest).head?, c ∉ space := by
  cases xs with
  | nil => exact behind
  | cons x xs =>
      rw [row, List.append_assoc]
      exact each x (.head _) _

/-- Pairs of keys and values in ascending order make up their map. -/
theorem toMap_pairs {entries : List (String × Datum)} (ascend : Datum.KeysAscend entries) :
    toMap (.list (entries.map fun e => .list [.text e.1, e.2])) = .ok (.map entries) := by
  have members : (entries.map fun e => Datum.list [.text e.1, e.2]).mapM member? = some entries := by
    clear ascend
    induction entries with
    | nil => rfl
    | cons e rest ih => simp [member?, Datum.items, Datum.items?, ih]
  have items (ds : List Datum) : (Datum.list ds).items = ds := rfl
  rw [toMap, items, members]
  dsimp only
  rw [Datum.ofEntries_of_keysAscend ascend]

theorem Plain.visible {k : Nat} {d : Datum} (plain : Plain k d) (rest : List Char) :
    ∀ c ∈ (d.write Text.isPlain ++ rest).head?, c ∉ space := by
  cases plain with
  | int i =>
      intro c here
      rcases Decimal.head?_ofInt i.toInt rest c here with rfl | digit
      · decide
      · intro mem
        have none_ : space.all (fun c => !Decimal.isDigit c) = true := by decide
        have other := List.all_eq_true.mp none_ c mem
        rw [digit] at other
        cases other
  | bool b => cases b <;> rintro c ⟨⟩ <;> decide
  | null | text | list | map =>
      rintro c ⟨⟩
      decide

/-! ## Taking what is written -/

/-- A blank is white space. -/
theorem blank_space : ∀ c ∈ [' '], c ∈ space := by
  intro c mem
  obtain rfl := List.mem_singleton.mp mem
  decide

/-- The expression takes a text with any white space in front of it, where a value may end. -/
def TakesFree (g : Grammar) (k : Nat) (r : Ref) (text : List Char) (d : Datum) : Prop :=
  ∀ front rest : List Char, (∀ c ∈ front, c ∈ space) → Ends rest → g.Takes k r (front ++ text) rest d

section Takes

variable {g : Grammar} {k : Nat}

/-- Items are taken with commas between them if each is taken by itself. -/
theorem separated_takes {α : Type} {item comma r : Ref} (separates : g.Separates item comma r)
    (isComma : g.expression comma = .char ',' false) {xs : List α} {write : α → List Char}
    {yield : α → Datum} (each : ∀ x ∈ xs, TakesFree g k item (write x) (yield x)) {rest : List Char}
    (closes : Closes rest) (refuses : g.Refuses k item rest) :
    g.Takes k r (row write xs) rest (.list (xs.map yield)) := by
  have no_more (pair : Ref) (isPair : g.expression pair = .keepRight comma item) :
      g.Refuses k pair rest :=
    .of isPair (.keepRight (.here (Grammar.refuses_char isComma closes.not_comma)))
  cases xs with
  | nil => exact separates.takes_none refuses fun pair isPair => .none (no_more pair isPair)
  | cons x xs =>
      refine separates.takes_some (each x (.head _) [] _ (fun _ mem => by cases mem) closes.others) ?_
      intro pair isPair
      refine Grammar.rounds_flatMap ?_ ?_ ?_ closes.ends (no_more pair isPair)
      · intro y mem rest ends
        have value := each y (.tail _ mem) [' '] rest blank_space ends
        exact .of isPair (.keepRight (Grammar.takes_char isComma) value)
      · exact fun y _ => List.cons_ne_nil _ _
      · rintro y _ rest c ⟨⟩
        exact .inl rfl

/-- An entry is taken as a pair if its value is taken. -/
theorem Member.takes {blank value r : Ref} (member : Member g blank value r) (skips : g.Skips blank)
    {e : String × Datum} (bare : ∀ c ∈ e.1.toList, Text.Bare c)
    (takes : TakesFree g k value (e.2.write Text.isPlain) e.2) :
    TakesFree g k r (writeEntry Text.isPlain e) (.list [.text e.1, e.2]) := by
  intro front rest spaces ends
  obtain ⟨isWhole, isFront, isKey, isName, isText, isColon⟩ := member
  have colon_visible : ∀ c ∈ ([':'] ++ ([' '] ++ e.2.write Text.isPlain ++ rest)).head?, c ∉ space := by
    rintro c ⟨⟩
    decide
  have quote_visible : ∀ c ∈ (Text.quote Text.isPlain '"' e.1.toList ++ [':'] ++
      ([' '] ++ e.2.write Text.isPlain ++ rest)).head?, c ∉ space := by
    rintro c ⟨⟩
    decide
  have name := Grammar.Takes.of isName
    (.keepLeft (isText.takes_bare k bare _) (skips.nothing k colon_visible))
  rw [List.append_nil] at name
  have key := Grammar.Takes.of isKey (.keepLeft name (Grammar.takes_char isColon))
  have first := Grammar.Takes.of isFront (.keepRight (skips.takes k spaces quote_visible) key)
  have pair := Grammar.takes_pair isWhole (by rw [isFront]; rintro x y ⟨⟩) first
    (takes [' '] rest blank_space ends)
  simpa [writeEntry] using pair

theorem Member.refuses {blank value r : Ref} (member : Member g blank value r) (skips : g.Skips blank)
    {rest : List Char} (closes : Closes rest) : g.Refuses k r rest := by
  obtain ⟨isWhole, isFront, isKey, isName, isText, isColon⟩ := member
  have visible : ∀ c ∈ rest.head?, c ∉ space := closes.ends.forall (by decide)
  have text := isText.refuses k (closes.ends.forall (by decide))
  have key : g.Refuses k _ rest := .of isKey (.keepLeft (.here (.of isName (.keepLeft (.here text)))))
  exact Grammar.refuses_pair isWhole (by rw [isFront]; rintro x y ⟨⟩)
    (.of isFront (.keepRight (.later (skips.nothing k visible) (.here key))))

end Takes

namespace Layout

variable {g : Grammar} (layout : Layout g) {k : Nat} {rest : List Char} {d : Datum}

theorem refuses_array (other : ∀ c ∈ rest.head?, c ≠ '[') : g.Refuses k layout.array rest :=
  .of layout.isArray (.forward (layout.brackets.refuses other))

theorem refuses_object (other : ∀ c ∈ rest.head?, c ≠ '{') : g.Refuses k layout.object rest :=
  .of layout.isObject (.forward (layout.braces.refuses other))

/-- Where a value may end there is no other value. -/
theorem value_refuses (ends : Ends rest) : g.Refuses k layout.value rest := by
  have other {property : Char → Prop} := @Ends.forall rest ends property
  refine layout.isValue.refuses layout.skips (.of layout.isSimple (.choice ?_))
    (other (by decide))
  simp only [List.forall_mem_cons]
  exact ⟨layout.quotes.refuses k (other (by decide)),
    layout.numbers.refuses k (other (by decide)),
    layout.refuses_object (other (by decide)),
    layout.refuses_array (other (by decide)),
    Grammar.refuses_keyword layout.isYes rfl (other (by decide)),
    Grammar.refuses_keyword layout.isNo rfl (other (by decide)),
    Grammar.refuses_keyword layout.isNull rfl (other (by decide)),
    fun _ mem => by cases mem⟩

/-- Where a text begins with no quote, digit or sign, it is left to the alternatives behind strings
and numbers. -/
theorem simple_picks {c : Char} {text : List Char} (other : c ≠ '"' ∧ c ≠ '\'' ∧ c ≠ '-')
    (no_digit : c ∉ Lexeme.digits)
    (picks : g.Picks k [layout.object, layout.array, layout.yes, layout.no, layout.null] (c :: text) rest d) :
    g.Takes k layout.simple (c :: text) rest d := by
  refine .of layout.isSimple (.choice (.later (layout.quotes.refuses k ?_)
    (.later (layout.numbers.refuses k ?_) picks)))
  · rintro d ⟨⟩
    exact ⟨other.1, other.2.1⟩
  · rintro d ⟨⟩
    exact ⟨no_digit, other.2.2⟩

/-- A word that begins with no bracket or brace is left to the keywords. -/
theorem word_picks {c : Char} {text : List Char} (other : c ≠ '"' ∧ c ≠ '\'' ∧ c ≠ '-')
    (no_digit : c ∉ Lexeme.digits) (no_bracket : c ≠ '[' ∧ c ≠ '{')
    (picks : g.Picks k [layout.yes, layout.no, layout.null] (c :: text) rest d) :
    g.Takes k layout.simple (c :: text) rest d := by
  refine layout.simple_picks other no_digit (.later (layout.refuses_object ?_)
    (.later (layout.refuses_array ?_) picks))
  · rintro d ⟨⟩
    exact no_bracket.2
  · rintro d ⟨⟩
    exact no_bracket.1

/-- White space is free in front of a value and behind it. -/
theorem value_takes (plain : Plain k d)
    (simple : ∀ rest, Ends rest → g.Takes k layout.simple (d.write Text.isPlain) rest d) :
    TakesFree g k layout.value (d.write Text.isPlain) d := by
  intro front rest spaces ends
  exact layout.isValue.takes_front layout.skips spaces (simple rest ends) (plain.visible rest)
    (ends.forall (by decide))

/-- What is written is taken. -/
theorem simple_takes (plain : Plain k d) (rest : List Char) (ends : Ends rest) :
    g.Takes k layout.simple (d.write Text.isPlain) rest d := by
  induction plain generalizing rest with
  | null =>
      refine layout.word_picks (by decide) (by decide) (by decide) (.later ?_ (.later ?_ (.here ?_)))
      · exact Grammar.refuses_keyword layout.isYes rfl (by rintro c ⟨⟩; decide)
      · exact Grammar.refuses_keyword layout.isNo rfl (by rintro c ⟨⟩; decide)
      · exact Grammar.takes_keyword layout.isNull
  | bool b =>
      cases b with
      | false =>
          refine layout.word_picks (by decide) (by decide) (by decide) (.later ?_ (.here ?_))
          · exact Grammar.refuses_keyword layout.isYes rfl (by rintro c ⟨⟩; decide)
          · exact Grammar.takes_keyword layout.isNo
      | true =>
          refine layout.word_picks (by decide) (by decide) (by decide) (.here ?_)
          exact Grammar.takes_keyword layout.isYes
  | int i =>
      refine .of layout.isSimple (.choice (.later (layout.quotes.refuses _ ?_)
        (.here (layout.numbers.takes_int _ i (ends.forall (by decide))))))
      intro c here
      rcases Decimal.head?_ofInt i.toInt rest c here with rfl | digit
      · decide
      · constructor <;> rintro rfl <;> cases digit
  | text bare => exact .of layout.isSimple (.choice (.here (layout.quotes.takes_bare _ bare rest)))
  | @list k items all ih =>
      have closes : Closes (']' :: rest) := ⟨_, _, rfl, .inl rfl⟩
      have each (d : Datum) (mem : d ∈ items) := layout.value_takes (all d mem) (ih d mem)
      have visible : ∀ c ∈ (row (Datum.write Text.isPlain) items ++ ']' :: rest).head?, c ∉ space :=
        row_visible (fun d mem => (all d mem).visible)
          (closes.ends.forall (by decide))
      have inner := separated_takes layout.isItems layout.isComma' each closes
        (layout.value_refuses closes.ends)
      have array := layout.brackets.takes layout.skips inner visible
      rw [List.map_id'] at array
      rw [Datum.write, Datum.writeItems_eq]
      refine layout.simple_picks (by decide) (by decide) (.later (layout.refuses_object ?_)
        (.here (.of layout.isArray (.forward array))))
      rintro c ⟨⟩
      decide
  | @map k entries ascend bare all ih =>
      have closes : Closes ('}' :: rest) := ⟨_, _, rfl, .inr rfl⟩
      have each (e : String × Datum) (mem : e ∈ entries) :=
        layout.member.takes layout.skips (bare e mem) (layout.value_takes (all e mem) (ih e mem))
      have visible : ∀ c ∈ (row (writeEntry Text.isPlain) entries ++ '}' :: rest).head?, c ∉ space :=
        row_visible (by rintro e - rest c ⟨⟩; decide)
          (closes.ends.forall (by decide))
      have pairs := separated_takes layout.isPairs layout.isComma each closes
        (layout.member.refuses layout.skips closes)
      have inner := Grammar.Takes.of layout.isMembers (.transform pairs (toMap_pairs ascend))
      have object := layout.braces.takes layout.skips inner visible
      rw [Datum.write, Datum.writeEntries_eq]
      exact layout.simple_picks (by decide) (by decide) (.here (.of layout.isObject (.forward object)))

end Layout

/-! ## The grammar -/

/-- The grammar of documents, and the expression for them. -/
def document : Grammar × Ref :=
  let (root, g) := grammar.run {}
  (g, root)

theorem document_layout : ∃ layout : Layout document.1, layout.root = document.2 := by
  rw [document]
  exact grammar_builds.whole

theorem document_lowers (traced : Bool) :
    ∃ lowered, document.1.compile ⟨false, traced⟩ document.2 = .ok lowered := by
  have ok : (document.1.compile ⟨false, traced⟩ document.2).isOk = true := by
    cases traced <;> decide +kernel
  exact exists_of_isOk ok

theorem document_condenses (traced : Bool) :
    ∃ lowered, document.1.compile ⟨true, traced⟩ document.2 = .ok lowered := by
  have ok : (document.1.compile ⟨true, traced⟩ document.2).isOk = true := by
    cases traced <;> decide +kernel
  exact exists_of_isOk ok

theorem document_compiles (options : Grammar.CompileOptions) :
    ∃ lowered, document.1.compile options document.2 = .ok lowered := by
  obtain ⟨condense, traced⟩ := options
  cases condense with
  | false => exact document_lowers traced
  | true => exact document_condenses traced

theorem document_regular : document.1.Regular document.2 :=
  ⟨by decide +kernel, by decide +kernel, by decide +kernel,
    fun r _ => Grammar.choices_of_complete (by decide +kernel) r⟩

/-- What is written is all of a document. -/
theorem document_takes {k : Nat} {d : Datum} (plain : Plain k d) :
    document.1.Takes k document.2 (d.write Text.isPlain) [] d := by
  obtain ⟨layout, isRoot⟩ := document_layout
  have ends : Ends [] := by rintro c ⟨⟩
  have value := layout.value_takes plain (layout.simple_takes plain) [] [] (fun c mem => by cases mem) ends
  have whole := Grammar.Takes.of layout.isRoot (.keepLeft value (.of layout.isFinish .finish))
  rwa [isRoot, List.append_nil] at whole

/-- What is shown for a datum is read back as the datum, to its end. -/
theorem display_parses {d : Datum} (plain : Plain callLimit d) (options : Grammar.CompileOptions) :
    ∃ lowered, document.1.compile options document.2 = .ok lowered ∧
      lowered.bytecode.Parses d.display.toList.toArray 0 (.ok ⟨d, d.display.length⟩) := by
  obtain ⟨lowered, compiled⟩ := document_compiles options
  have stands : d.display.toList.toArray.toList.drop 0 = d.write Text.isPlain ++ [] := by
    simp [Datum.display]
  have parses := parses_of_takes compiled (fun _ => document_regular) (Nat.le_refl _)
    (document_takes plain) stands
  have length : d.display.length = 0 + (d.write Text.isPlain).length := by simp [Datum.display]
  exact ⟨lowered, compiled, length ▸ parses⟩

/-- A map with a list, a text with quotes and the least integer in it. -/
def sample : Datum :=
  .map [("a b", .list [.null, .text "say \"no\"", .list []]), ("z", .int (-9223372036854775808))]

theorem sample_plain {k : Nat} : Plain (k + 3) sample := by
  have bare (s : String)
      (all : s.toList.all (fun c => 0x20 ≤ c.toNat && c.toNat ≤ 0x7e && c ≠ '\\') = true) :
      ∀ c ∈ s.toList, Text.Bare c := by
    simpa [Text.Bare, and_assoc] using all
  have ascend : "a b" < "z" := by decide
  refine .map (List.pairwise_pair.mpr ascend) ?_ ?_
  · simp only [List.forall_mem_cons]
    exact ⟨bare _ (by decide), bare _ (by decide), fun _ mem => by cases mem⟩
  · simp only [List.forall_mem_cons]
    refine ⟨.list ?_, .int _, fun _ mem => by cases mem⟩
    simp only [List.forall_mem_cons]
    exact ⟨.null, .text (bare _ (by decide)), .list (fun _ mem => by cases mem), fun _ mem => by cases mem⟩

/-- It is read back from what is shown for it. -/
theorem sample_parses :
    Plain callLimit sample ∧ ∃ lowered, document.1.compile ⟨true, false⟩ document.2 = .ok lowered ∧
      lowered.bytecode.Parses sample.display.toList.toArray 0 (.ok ⟨sample, sample.display.length⟩) :=
  ⟨sample_plain, display_parses sample_plain ⟨true, false⟩⟩

end PegMachine.Json
