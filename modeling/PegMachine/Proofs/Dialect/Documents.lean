/-
# PegMachine.Proofs.Dialect.Documents — which texts are documents

The texts of JSON as it is read here (`IsValue`): a value with white space around it is a string, a
number, one of three words, an array or an object. A string stands between quotes of either
kind, and a number is a numeral that denotes something. Whatever a parse accepts is such a text
(`parsed_documents`).

A list of items is an optional first item and any number of items behind commas. So the first
item may be missing in front of a comma, and then the list has the items behind the commas
(`headless_takes`). Where the first item is required there are fewer documents, and
`headless_document` is one that is lost; this is what `required` decides.
-/
import PegMachine.Proofs.Dialect.Json
import PegMachine.Proofs.Lexing

namespace PegMachine.Json

set_option autoImplicit false

open Grammar (IsSpace space)
open Datum (Ends Closes)

/-! ## Texts -/

/-- A text between two quotes of one kind. Behind a backslash the quote belongs to the text, and
so no backslash stands at its end. -/
def IsString (text : List Char) : Prop :=
  ∃ quote inner, (quote = '"' ∨ quote = '\'') ∧ text = quote :: Lexeme.encode quote inner ++ [quote] ∧
    (∀ c ∈ inner, c ∈ Lexeme.quotable) ∧ inner.getLast? ≠ some '\\'

/-- A numeral that denotes a number. -/
def IsNumber (text : List Char) : Prop :=
  ∃ (n : Lexeme.Numeral) (v : Lexeme.Number), n.text = text ∧ n.value? = some v

/-- Items with commas between them. Unless it is required, the first item may be missing in front
of a comma. -/
inductive IsSeries (required : Bool) (item : List Char → Prop) : List Char → Prop
  | nothing : IsSeries required item []
  | items {first : List Char} {others : List (List Char)} (isFirst : item first)
      (areItems : ∀ other ∈ others, item other) :
      IsSeries required item (first ++ others.flatMap (',' :: ·))
  | headless {others : List (List Char)} (free : required = false)
      (areItems : ∀ other ∈ others, item other) : IsSeries required item (others.flatMap (',' :: ·))

mutual

/-- A value with white space around it. -/
inductive IsValue (required : Bool) : List Char → Prop
  | of {front text back : List Char} (before : IsSpace front) (simple : IsSimple required text)
      (behind : IsSpace back) : IsValue required (front ++ text ++ back)

/-- A value without white space around it. -/
inductive IsSimple (required : Bool) : List Char → Prop
  | string {text : List Char} (string : IsString text) : IsSimple required text
  | number {text : List Char} (number : IsNumber text) : IsSimple required text
  | word {word : String} (mem : word ∈ ["true", "false", "null"]) : IsSimple required word.toList
  | array {front inner : List Char} (before : IsSpace front)
      (items : IsSeries required (IsValue required) inner) :
      IsSimple required ('[' :: front ++ inner ++ [']'])
  | object {front inner : List Char} (before : IsSpace front)
      (members : IsSeries required (IsMember required) inner) :
      IsSimple required ('{' :: front ++ inner ++ ['}'])

/-- A string, a colon and a value. -/
inductive IsMember (required : Bool) : List Char → Prop
  | of {front key back value : List Char} (before : IsSpace front) (isKey : IsString key)
      (behind : IsSpace back) (isValue : IsValue required value) :
      IsMember required (front ++ key ++ back ++ ':' :: value)

end

/-- A list as it may be written with a comma in front of its first item. -/
def writeHeadless (items : List Datum) : List Char :=
  '[' :: items.flatMap (fun d => ',' :: d.write Text.isPlain) ++ [']']

/-! ## What is derived -/

section Shapes

variable {g : Grammar} {start : List Ref} {k : Nat} {blank inner r : Ref} {text rest : List Char}
variable {d : Datum} (derived : g.Derives start k r text rest d)

include derived in
theorem Bracketed.derives {opening closing : Char}
    (bracketed : Bracketed opening closing g blank inner r) (skips : g.Skips blank) :
    ∃ front middle rest d, text = opening :: front ++ middle ++ [closing] ∧ IsSpace front ∧
      g.Derives start k inner middle rest d := by
  obtain ⟨isWhole, isFront, isFirst, isOpened, isClosed⟩ := bracketed
  obtain ⟨before, back, _, rfl, left, last⟩ := derived.keepLeft isWhole
  obtain ⟨head, middle, _, rfl, first, body⟩ := left.keepRight isFront
  obtain ⟨mark, front, _, rfl, opened, spaces⟩ := first.keepRight isFirst
  obtain ⟨rfl, -⟩ := opened.char isOpened
  obtain ⟨rfl, -⟩ := last.char isClosed
  exact ⟨front, middle, _, _, rfl, skips.derives spaces, body⟩

include derived in
theorem Member.derives {value : Ref} (member : Member g blank value r) (skips : g.Skips blank) :
    ∃ front key back text' rest d, text = front ++ key ++ back ++ ':' :: text' ∧ IsSpace front ∧
      IsString key ∧ IsSpace back ∧ g.Derives start k value text' rest d := by
  obtain ⟨isWhole, isFront, isKey, isName, isText, isColon⟩ := member
  obtain ⟨head, text', _, _, rfl, -, first, value⟩ :=
    derived.pair isWhole (by rw [isFront]; rintro x y ⟨⟩)
  obtain ⟨front, named, _, rfl, spaces, second⟩ := first.keepRight isFront
  obtain ⟨name, mark, _, rfl, third, colon⟩ := second.keepLeft isKey
  obtain ⟨key, back, _, rfl, quoted, spaces'⟩ := third.keepLeft isName
  obtain ⟨rfl, -⟩ := colon.char isColon
  obtain ⟨quote, inner, isQuote, same, all, last, -⟩ := isText.derives quoted
  exact ⟨front, key, back, text', _, _, by simp, skips.derives spaces,
    ⟨quote, inner, isQuote, same, all, last⟩, skips.derives spaces', value⟩

end Shapes

namespace Layout

variable {g : Grammar} (layout : Layout g) {start : List Ref} {k : Nat} {text rest : List Char}
variable {d : Datum}

/-- What is derived from a list of items is a series of texts that are each derived from an item. -/
theorem series_derives {item comma r : Ref} (separates : g.Separates item comma r)
    (isComma : g.expression comma = .char ',' false) (derived : g.Derives start k r text rest d)
    {property : List Char → Prop}
    (each : ∀ {part rest d}, part.length ≤ text.length → g.Derives start k item part rest d →
      property part) : IsSeries false property text := by
  obtain ⟨first, others, rfl, head, tail⟩ := separates.derives derived isComma
  have all : ∀ other ∈ others, property other := by
    intro other mem
    obtain ⟨rest, d, derives⟩ := tail other mem
    refine each ?_ derives
    obtain ⟨before, behind, rfl⟩ := List.append_of_mem mem
    simp only [List.flatMap_append, List.flatMap_cons, List.length_append, List.length_cons]
    omega
  rcases head with rfl | ⟨rest, d, derives⟩
  · exact .headless rfl all
  · exact .items (each (by simp) derives) all

/-- A value is what `simple` stands for, if that holds of the shorter values within it. -/
theorem simple_derives (derived : g.Derives start k layout.simple text rest d)
    (inner : ∀ {j part rest d}, part.length < text.length → g.Derives start j layout.value part rest d →
      IsValue false part) : IsSimple false text := by
  have word {r : Ref} {w : String} {v : Datum} (mem : w ∈ ["true", "false", "null"])
      (isWord : g.expression r = .keyword w v false) (derives : g.Derives start k r text rest d) :
      IsSimple false text := by
    obtain ⟨rfl, -⟩ := derives.keyword isWord
    exact .word mem
  cases derived.form layout.isSimple with
  | choice chosen =>
      rcases chosen with
        string | ⟨-, number | ⟨-, object | ⟨-, array | ⟨-, yes | ⟨-, no | ⟨-, null | ⟨-, ⟨⟩⟩⟩⟩⟩⟩⟩⟩
      · obtain ⟨quote, inner, isQuote, same, all, last, -⟩ := layout.quotes.derives string
        exact .string ⟨quote, inner, isQuote, same, all, last⟩
      · obtain ⟨n, v, same, value, -⟩ := layout.numbers.derives number
        exact .number ⟨n, v, same, value⟩
      · obtain ⟨j, body⟩ := object.forward layout.isObject
        obtain ⟨front, middle, _, _, rfl, before, members⟩ := layout.braces.derives body layout.skips
        obtain ⟨_, pairs, -⟩ := members.transform layout.isMembers
        refine .object before (series_derives layout.isPairs layout.isComma pairs ?_)
        intro part rest d within member
        obtain ⟨front', key, back, value, _, _, rfl, before', isKey, behind, derives⟩ :=
          layout.member.derives member layout.skips
        refine .of before' isKey behind (inner ?_ derives)
        simp only [List.length_append, List.length_cons] at within ⊢
        omega
      · obtain ⟨j, body⟩ := array.forward layout.isArray
        obtain ⟨front, middle, _, _, rfl, before, items⟩ := layout.brackets.derives body layout.skips
        refine .array before (series_derives layout.isItems layout.isComma' items ?_)
        intro part rest d within item
        refine inner ?_ item
        simp only [List.length_append, List.length_cons]
        omega
      · exact word (by simp) layout.isYes yes
      · exact word (by simp) layout.isNo no
      · exact word (by simp) layout.isNull null

/-- What is derived from a value is a text of a value. The induction is on how long it is. -/
theorem value_derives (derived : g.Derives start k layout.value text rest d) : IsValue false text := by
  generalize length : text.length = n
  induction n using Nat.strong_induction_on generalizing k text rest d with
  | _ n shorter =>
      obtain ⟨front, middle, back, _, rfl, before, behind, simple⟩ :=
        layout.isValue.derives derived layout.skips
      refine .of before (layout.simple_derives simple ?_) behind
      intro j part rest d within derives
      refine shorter part.length ?_ derives rfl
      simp only [List.length_append] at length
      omega

/-- A list whose first item is missing, in front of a comma, has the items behind the commas. -/
theorem headless_takes {items : List Datum} (some_ : items ≠ []) (all : ∀ d ∈ items, Plain k d)
    (rest : List Char) : g.Takes (k + 1) layout.simple (writeHeadless items) rest (.list items) := by
  have closes : Closes (']' :: rest) := ⟨_, _, rfl, .inl rfl⟩
  have behind : Ends (items.flatMap (fun d => ',' :: d.write Text.isPlain) ++ ']' :: rest) := by
    obtain ⟨d, others, rfl⟩ := List.exists_cons_of_ne_nil some_
    rintro c ⟨⟩
    exact .inl rfl
  have list : g.Takes k layout.items (items.flatMap fun d => ',' :: d.write Text.isPlain) (']' :: rest)
      (.list items) := by
    refine layout.isItems.takes_none (layout.value_refuses behind) fun pair isPair => ?_
    have rounds : g.Rounds k pair (items.flatMap fun d => ',' :: d.write Text.isPlain) (']' :: rest)
        (items.map id) := by
      refine Grammar.rounds_flatMap ?_ ?_ ?_ closes.ends ?_
      · intro d mem rest ends
        have value := layout.value_takes (all d mem) (layout.simple_takes (all d mem)) [] rest
          (fun _ mem => by cases mem) ends
        exact .of isPair (.keepRight (Grammar.takes_char layout.isComma') value)
      · exact fun d _ => List.cons_ne_nil _ _
      · rintro d _ rest c ⟨⟩
        exact .inl rfl
      · exact .of isPair (.keepRight (.here (Grammar.refuses_char layout.isComma' closes.not_comma)))
    rwa [List.map_id] at rounds
  have array := layout.brackets.takes layout.skips list (behind.forall (by decide))
  refine layout.simple_picks (by decide) (by decide) (.later (layout.refuses_object ?_)
    (.here (.of layout.isArray (.forward array))))
  rintro c ⟨⟩
  decide

end Layout

/-! ## Documents -/

/-- What a parse accepts is a value with white space around it, from end to end. -/
theorem parsed_documents (options : Grammar.CompileOptions) :
    ∃ lowered, document.1.compile options document.2 = .ok lowered ∧
      ∀ (text : List Char) (m : Match), lowered.bytecode.Parses text.toArray 0 (.ok m) →
        IsValue false text := by
  obtain ⟨lowered, compiled⟩ := document_compiles options
  refine ⟨lowered, compiled, ?_⟩
  intro text m parses
  obtain ⟨layout, isRoot⟩ := document_layout
  obtain ⟨found, rest, spans, derived⟩ := derives_of_parses compiled (fun _ => document_regular) parses
  rw [← isRoot] at derived
  obtain ⟨front, back, _, rfl, value, finish⟩ := derived.keepLeft layout.isRoot
  obtain ⟨rfl, rfl⟩ := finish.finish layout.isFinish
  have whole : text = front := by simpa using spans.stands
  exact whole ▸ layout.value_derives value

/-! ## Lists without a first item -/

/-- A document may be a list whose first item is missing, in front of a comma. -/
theorem headless_parses {items : List Datum} (some_ : items ≠ [])
    (all : ∀ d ∈ items, Plain (callLimit - 1) d) {options : Grammar.CompileOptions}
    {lowered : Grammar.Lowered} (compiled : document.1.compile options document.2 = .ok lowered) :
    lowered.bytecode.Parses (writeHeadless items).toArray 0
      (.ok ⟨.list items, (writeHeadless items).length⟩) := by
  obtain ⟨layout, isRoot⟩ := document_layout
  have simple : document.1.Takes callLimit layout.simple (writeHeadless items) ([] ++ []) (.list items) :=
    layout.headless_takes some_ all []
  have visible : ∀ c ∈ (writeHeadless items ++ []).head?, c ∉ space := by
    rintro c ⟨⟩
    decide
  have value := layout.isValue.takes_front layout.skips Grammar.isSpace_nil simple visible (by rintro c ⟨⟩)
  have whole := Grammar.Takes.of layout.isRoot (.keepLeft value (.of layout.isFinish .finish))
  rw [isRoot, List.nil_append, List.append_nil] at whole
  have parses := parses_of_takes compiled (fun _ => document_regular) (Nat.le_refl _) whole
    (by simp : (writeHeadless items).toArray.toList.drop 0 = writeHeadless items ++ [])
  rwa [Nat.zero_add] at parses

section Required

variable {required : Bool} {text : List Char}

theorem IsSimple.begins (simple : IsSimple required text) : ∃ c others, text = c :: others ∧ c ≠ ',' := by
  cases simple with
  | string string => obtain ⟨quote, inner, rfl | rfl, rfl, -⟩ := string <;> exact ⟨_, _, rfl, by decide⟩
  | number number =>
      obtain ⟨n, v, rfl, -⟩ := number
      obtain ⟨c, others, split, either⟩ := n.text_begins
      refine ⟨c, others, split, ?_⟩
      rintro rfl
      rcases either with same | digit
      · cases same
      · cases digit
  | word mem =>
      simp only [List.mem_cons, List.not_mem_nil, or_false] at mem
      rcases mem with rfl | rfl | rfl <;> exact ⟨_, _, rfl, by decide⟩
  | array | object => exact ⟨_, _, rfl, by decide⟩

theorem IsValue.begins (value : IsValue required text) : ∃ c others, text = c :: others ∧ c ≠ ',' := by
  cases value with
  | @of front _ _ before simple _ =>
      cases front with
      | nil =>
          obtain ⟨c, others, rfl, other⟩ := simple.begins
          exact ⟨c, _, rfl, other⟩
      | cons c front =>
          refine ⟨c, _, rfl, ?_⟩
          rintro rfl
          exact absurd (before ',' (.head _)) (by decide)

/-- What begins with a bracket is an array. -/
theorem IsSimple.of_bracket (simple : IsSimple required ('[' :: text)) :
    ∃ front inner, IsSpace front ∧ IsSeries required (IsValue required) inner ∧
      text = front ++ inner ++ [']'] := by
  generalize whole : '[' :: text = found at simple
  cases simple with
  | string string =>
      obtain ⟨quote, inner, rfl | rfl, rfl, -⟩ := string <;> cases whole
  | number number =>
      obtain ⟨n, v, rfl, -⟩ := number
      obtain ⟨c, others, split, either⟩ := n.text_begins
      rw [split] at whole
      obtain ⟨rfl, -⟩ := List.cons.inj whole
      rcases either with same | digit
      · cases same
      · cases digit
  | word mem =>
      simp only [List.mem_cons, List.not_mem_nil, or_false] at mem
      rcases mem with rfl | rfl | rfl <;> cases whole
  | array before items => exact ⟨_, _, before, items, (List.cons.inj whole).2⟩
  | object => cases (List.cons.inj whole).1

/-- Where the first item is required, no value begins with a bracket and a comma. -/
theorem not_headless (rest : List Char) : ¬ IsValue true ('[' :: ',' :: rest) := by
  intro value
  generalize whole : '[' :: ',' :: rest = text at value
  cases value with
  | @of space text back before simple behind =>
      -- There is no white space in front of the bracket.
      cases space with
      | cons c space =>
          obtain ⟨rfl, -⟩ := List.cons.inj whole
          exact absurd (before '[' (.head _)) (by decide)
      | nil =>
          obtain ⟨c, others, rfl, -⟩ := simple.begins
          obtain ⟨rfl, behind_bracket⟩ := List.cons.inj whole
          obtain ⟨front, inner, spaces, items, rfl⟩ := simple.of_bracket
          cases front with
          | cons c front =>
              obtain ⟨rfl, -⟩ := List.cons.inj behind_bracket
              exact absurd (spaces ',' (.head _)) (by decide)
          | nil =>
              cases items with
              | nothing => cases behind_bracket
              | items isFirst _ =>
                  obtain ⟨c, others, rfl, other⟩ := isFirst.begins
                  exact other (List.cons.inj behind_bracket).1.symm
              | headless free _ => cases free

end Required

/-- The list that begins with a comma and has one item is read, but is lost where first items are
required. -/
theorem headless_document :
    (∃ lowered, document.1.compile ⟨true, false⟩ document.2 = .ok lowered ∧
      lowered.bytecode.Parses "[,1]".toList.toArray 0 (.ok ⟨.list [.int 1], 4⟩)) ∧
    ¬ IsValue true "[,1]".toList := by
  obtain ⟨lowered, compiled⟩ := document_compiles ⟨true, false⟩
  have all : ∀ d ∈ [Datum.int 1], Plain (callLimit - 1) d := by
    intro d mem
    obtain rfl := List.mem_singleton.mp mem
    exact .int 1
  have written : "[,1]".toList = writeHeadless [.int 1] := by decide +kernel
  have parses := headless_parses (List.cons_ne_nil _ _) all compiled
  rw [← written] at parses
  exact ⟨⟨lowered, compiled, parses⟩, not_headless _⟩

/-- Another such list, which is a document as documents are told here. -/
theorem headless_accepted :
    ∃ lowered, document.1.compile ⟨true, false⟩ document.2 = .ok lowered ∧
      lowered.bytecode.Parses "[,1,null]".toList.toArray 0 (.ok ⟨.list [.int 1, .null], 9⟩) ∧
      IsValue false "[,1,null]".toList := by
  obtain ⟨lowered, compiled, accepted⟩ := parsed_documents ⟨true, false⟩
  have all : ∀ d ∈ [Datum.int 1, .null], Plain (callLimit - 1) d := by
    simp only [List.forall_mem_cons]
    exact ⟨.int 1, .null, fun _ mem => by cases mem⟩
  have written : "[,1,null]".toList = writeHeadless [.int 1, .null] := by decide +kernel
  have parses := headless_parses (List.cons_ne_nil _ _) all compiled
  rw [← written] at parses
  exact ⟨lowered, compiled, parses, accepted _ _ parses⟩

end PegMachine.Json
