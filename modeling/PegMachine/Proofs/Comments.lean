/-
# PegMachine.Proofs.Comments — a block comment ends at the first end mark

The expression for block comments does not look for the end mark as a whole. It takes one
character after the other, any but the first of the end mark, and that one only where the end
mark does not go on behind it. So in front of a text it takes a character just if the end mark
does not begin there (`CommentChar.takes`, `CommentChar.refuses`), whatever the mark is: it may be
a single character, and it may overlap with itself.

The characters taken are therefore those in front of the first end mark, or all there are if
there is none; then the mark is missing at the end and the comment is refused
(`Comments.takes_or_refuses`). With an empty end mark nothing is looked for.
-/
import PegMachine.Proofs.Failing
import PegMachine.Proofs.Lexing
import PegMachine.Proofs.Orderly

namespace PegMachine

set_option autoImplicit false

open Grammar (CompileOptions Lowered Orderly)

/-! ## Marks in texts -/

/-- A text is a start mark, a body up to the first end mark behind it, that mark and a rest. -/
structure Text.Enclosed (start stop : List Char) (text body rest : List Char) : Prop where
  stands : text = start ++ (body ++ (stop ++ rest))
  first : ∀ body' rest', text = start ++ (body' ++ (stop ++ rest')) → body.length ≤ body'.length

/-- In front of what follows, a mark begins nowhere in a text. -/
def Text.Unmarked (mark text behind : List Char) : Prop :=
  ∀ front back, text = front ++ back → back ≠ [] → ¬ mark <+: back ++ behind

namespace Text

variable {mark text behind body rest start stop : List Char}

theorem unmarked_nil : Unmarked mark [] behind := by
  intro front back split some_
  exact absurd (List.append_eq_nil_iff.mp split.symm).2 some_

theorem unmarked_cons {c : Char} :
    Unmarked mark (c :: text) behind ↔ ¬ mark <+: c :: (text ++ behind) ∧ Unmarked mark text behind := by
  constructor
  · intro unmarked
    refine ⟨unmarked [] (c :: text) rfl (List.cons_ne_nil _ _), ?_⟩
    intro front back split
    exact unmarked (c :: front) back (by rw [split, List.cons_append])
  · rintro ⟨here, later⟩ front back split some_
    cases front with
    | nil =>
        obtain rfl : c :: text = back := split
        exact here
    | cons d front => exact later front back (List.cons.inj split).2 some_

/-- A mark that is not empty is found for the first time somewhere, or nowhere. -/
theorem exists_first (mark text : List Char) :
    (∃ body rest, text = body ++ (mark ++ rest) ∧ Unmarked mark body (mark ++ rest)) ∨
      Unmarked mark text [] := by
  induction text with
  | nil => exact .inr unmarked_nil
  | cons c text ih =>
      by_cases here : mark <+: c :: text
      · obtain ⟨rest, split⟩ := here
        exact .inl ⟨[], rest, split.symm, unmarked_nil⟩
      rcases ih with ⟨body, rest, rfl, unmarked⟩ | unmarked
      · exact .inl ⟨c :: body, rest, rfl, unmarked_cons.mpr ⟨here, unmarked⟩⟩
      · exact .inr (unmarked_cons.mpr ⟨by rwa [List.append_nil], unmarked⟩)

/-- Where a mark begins nowhere, it does not stand. -/
theorem Unmarked.absent (unmarked : Unmarked mark text []) (some_ : mark ≠ []) (body rest : List Char) :
    text ≠ body ++ (mark ++ rest) := by
  intro split
  refine unmarked body (mark ++ rest) split ?_ ?_
  · exact fun nothing => some_ (List.append_eq_nil_iff.mp nothing).1
  · rw [List.append_nil]
    exact List.prefix_append _ _

/-- Where no mark begins in a body, the mark behind it is the first. -/
theorem Unmarked.enclosed (unmarked : Unmarked stop body (stop ++ rest)) :
    Enclosed start stop (start ++ (body ++ (stop ++ rest))) body rest := by
  refine ⟨rfl, ?_⟩
  intro body' rest' split
  have split := List.append_cancel_left split
  rcases List.append_eq_append_iff.mp split with ⟨more, rfl, -⟩ | ⟨more, rfl, same⟩
  · simp
  · by_cases none_ : more = []
    · simp [none_]
    · refine absurd ?_ (unmarked body' more rfl none_)
      rw [← same]
      exact List.prefix_append _ _

/-- A text is enclosed in one way. -/
theorem Enclosed.unique {body' rest' : List Char} (first : Enclosed start stop text body rest)
    (second : Enclosed start stop text body' rest') : body = body' := by
  have length := Nat.le_antisymm (first.first body' rest' second.stands)
    (second.first body rest first.stands)
  have split := List.append_cancel_left (first.stands.symm.trans second.stands)
  exact (List.append_inj split length).1

end Text

/-! ## The expression for block comments -/

namespace Grammar

/-- An expression for one character in front of an end mark, which begins with `first` and goes on with
`others`. -/
inductive CommentChar (first : Char) (others : List Char) (g : Grammar) (r : Ref) : Prop
  | single (none_ : others = [])
      (isOther : g.expression r = .oneOf (CharClass.ofList [first]).complement) :
      CommentChar first others g r
  | either {other lone mark goesOn : Ref} (some_ : others ≠ [])
      (choice : g.expression r = .choice [other, lone])
      (isOther : g.expression other = .oneOf (CharClass.ofList [first]).complement)
      (isLone : g.expression lone = .notFollowedBy mark goesOn)
      (isMark : g.expression mark = .char first false)
      (isGoesOn : g.expression goesOn = .literal (String.ofList others) false) :
      CommentChar first others g r

section CommentChar

variable {first : Char} {others : List Char} {g : Grammar} {r : Ref} (k : Nat)

theorem takes_other (isOther : g.expression r = .oneOf (CharClass.ofList [first]).complement) {c : Char}
    (other : c ≠ first) (rest : List Char) : g.Takes k r [c] rest (.char c) := by
  refine .of isOther (.oneOf (plain_takes ?_))
  rw [CharClass.contains_complement, CharClass.contains_ofList]
  simpa using other

theorem refuses_other (isOther : g.expression r = .oneOf (CharClass.ofList [first]).complement)
    {text : List Char} (ends : ∀ c ∈ text.head?, c = first) : g.Refuses k r text := by
  refine .of isOther (.oneOf (plain_refuses ?_))
  intro c here
  rw [CharClass.contains_complement, CharClass.contains_ofList, ends c here]
  simp

/-- A character is taken where the end mark does not begin with it. -/
theorem CommentChar.takes (char : CommentChar first others g r) {c : Char} {rest : List Char}
    (unmarked : ¬ first :: others <+: c :: rest) : g.Takes k r [c] rest (.char c) := by
  cases char with
  | single none_ isOther =>
      refine takes_other k isOther ?_ rest
      rintro rfl
      exact unmarked (by rw [none_]; simp)
  | either some_ choice isOther isLone isMark isGoesOn =>
      refine .of choice (.choice ?_)
      by_cases same : c = first
      · subst same
        have goesOn : ¬ others <+: rest := fun stands => unmarked (List.prefix_cons_inj c |>.mpr stands)
        refine .later (refuses_other k isOther (by rintro d ⟨⟩; rfl)) (.here ?_)
        refine .of isLone (.notFollowedBy (takes_char isMark) (refuses_literal isGoesOn ?_))
        rwa [String.toList_ofList]
      · exact .here (takes_other k isOther same rest)

/-- Nothing is taken where the end mark begins, or at the end of the input. -/
theorem CommentChar.refuses (char : CommentChar first others g r) {text : List Char}
    (ends : text = [] ∨ first :: others <+: text) : g.Refuses k r text := by
  have begins : ∀ c ∈ text.head?, c = first := by
    rcases ends with rfl | ⟨rest, rfl⟩
    · nofun
    · rintro c ⟨⟩
      rfl
  cases char with
  | single none_ isOther => exact refuses_other k isOther begins
  | @either _ lone mark goesOn some_ choice isOther isLone isMark isGoesOn =>
      have alone : g.Refuses k lone text := by
        rcases ends with rfl | ⟨rest, rfl⟩
        · exact .of isLone (.notFollowedBy (refuses_char isMark nofun))
        · have begun : g.Takes k mark [first] (others ++ rest) _ := takes_char isMark
          have gone : g.Takes k goesOn (String.ofList others).toList rest _ := takes_literal isGoesOn
          rw [String.toList_ofList] at gone
          exact .of isLone (.followed begun gone)
      refine .of choice (.choice ?_)
      simp only [List.forall_mem_cons]
      exact ⟨refuses_other k isOther begins, alone, nofun⟩

/-- All characters of a text are taken in which the end mark begins nowhere. -/
theorem CommentChar.rounds (char : CommentChar first others g r) {text behind : List Char}
    (unmarked : Text.Unmarked (first :: others) text behind)
    (ends : behind = [] ∨ first :: others <+: behind) : g.Rounds k r text behind (text.map .char) := by
  induction text with
  | nil => exact .none (char.refuses k ends)
  | cons c text ih =>
      obtain ⟨here, later⟩ := Text.unmarked_cons.mp unmarked
      exact .round (char.takes k here) (List.cons_ne_nil _ _) (ih later)

end CommentChar

/-- The expression is one for comments between a start mark and an end mark. -/
inductive Comments (start stop : String) (g : Grammar) (r : Ref) : Prop
  | bare {whole opening : Ref} (none_ : stop.toList = [])
      (isIdiom : g.expression r = .idiom .blockComment whole)
      (isWhole : g.expression whole = .transform (fun _ => .ok (.text "")) opening)
      (isOpening : g.expression opening = .literal start false) : Comments start stop g r
  | of {first : Char} {others : List Char} {whole both opened opening body char closing : Ref}
      (split : stop.toList = first :: others) (isIdiom : g.expression r = .idiom .blockComment whole)
      (isWhole : g.expression whole = .transform (fun d => .ok d.asText) both)
      (isBoth : g.expression both = .keepLeft opened closing)
      (isOpened : g.expression opened = .keepRight opening body)
      (isOpening : g.expression opening = .literal start false)
      (isBody : g.expression body = .many char 0) (isChar : CommentChar first others g char)
      (isClosing : g.expression closing = .literal stop false) : Comments start stop g r

section Comments

variable {start stop : String} {g : Grammar} {root : Ref} {options : CompileOptions}
variable {lowered : Lowered} {input : Array Char} {pos : Nat}

theorem CommentChar.forest {first : Char} {others : List Char} (char : CommentChar first others g root) :
    g.Forest 5 [root] := by
  cases char with
  | single _ isOther => exact (forest_leaf isOther rfl).mono (by decide)
  | either _ choice isOther isLone isMark isGoesOn =>
      have lone := forest_of isLone rfl nofun ((forest_leaf isMark rfl).join (forest_leaf isGoesOn rfl))
      exact forest_of choice rfl nofun ((forest_leaf isOther rfl).join lone)

theorem Comments.forest (comments : Comments start stop g root) : g.Forest 12 [root] := by
  cases comments with
  | bare _ isIdiom isWhole isOpening =>
      have whole := forest_of isWhole rfl nofun (forest_leaf isOpening rfl)
      exact (forest_of isIdiom rfl nofun whole).mono (by decide)
  | of _ isIdiom isWhole isBoth isOpened isOpening isBody isChar isClosing =>
      have body := forest_of isBody rfl nofun isChar.forest
      have opened := forest_of isOpened rfl nofun ((forest_leaf isOpening rfl).join body)
      have both := forest_of isBoth rfl nofun (opened.join (forest_leaf isClosing rfl))
      exact forest_of isIdiom rfl nofun (forest_of isWhole rfl nofun both)

/-- Without the start mark there is no comment. -/
theorem Comments.refuses (comments : Comments start stop g root) (k : Nat) {text : List Char}
    (other : ¬ start.toList <+: text) : g.Refuses k root text := by
  cases comments with
  | bare _ isIdiom isWhole isOpening =>
      exact .of isIdiom (.idiom (.of isWhole (.transform (refuses_literal isOpening other))))
  | of _ isIdiom isWhole isBoth isOpened isOpening _ _ _ =>
      exact .of isIdiom (.idiom (.of isWhole (.transform (.of isBoth (.keepLeft (.here
        (.of isOpened (.keepRight (.here (refuses_literal isOpening other))))))))))

/-- In front of any text a comment is taken up to the first end mark, or else there is none and
everything is refused. -/
theorem Comments.takes_or_refuses (comments : Comments start stop g root) (k : Nat) (text : List Char) :
    (∃ body rest, Text.Enclosed start.toList stop.toList text body rest ∧
      g.Takes k root (start.toList ++ body ++ stop.toList) rest (.text (String.ofList body))) ∨
    (∀ body rest, text ≠ start.toList ++ (body ++ (stop.toList ++ rest))) ∧ g.Refuses k root text := by
  by_cases begins : start.toList <+: text
  case neg =>
    refine .inr ⟨?_, comments.refuses k begins⟩
    rintro body rest rfl
    exact begins (List.prefix_append _ _)
  obtain ⟨text, rfl⟩ := begins
  cases comments with
  | bare none_ isIdiom isWhole isOpening =>
      have opened : g.Takes k _ start.toList text _ := takes_literal isOpening
      refine .inl ⟨[], text, ⟨by rw [none_]; rfl, fun _ _ _ => Nat.zero_le _⟩, ?_⟩
      rw [none_, List.append_nil, List.append_nil]
      exact .of isIdiom (.idiom (.of isWhole (.transform opened rfl)))
  | @of first others _ both opened _ _ _ closing split isIdiom isWhole isBoth isOpened isOpening isBody
      isChar isClosing =>
      have takes {body behind : List Char} (unmarked : Text.Unmarked stop.toList body behind)
          (ends : behind = [] ∨ stop.toList <+: behind) :
          g.Takes k opened (start.toList ++ body) behind (.list (body.map .char)) := by
        rw [split] at unmarked ends
        exact .of isOpened (.keepRight (takes_literal isOpening)
          (.of isBody (.many (isChar.rounds k unmarked ends) (Nat.zero_le _))))
      rcases Text.exists_first stop.toList text with ⟨body, rest, rfl, unmarked⟩ | unmarked
      · have opened := takes unmarked (.inr (List.prefix_append _ _))
        have closed : g.Takes k both (start.toList ++ body ++ stop.toList) rest _ :=
          .of isBoth (.keepLeft opened (takes_literal isClosing))
        refine .inl ⟨body, rest, unmarked.enclosed, ?_⟩
        exact .of isIdiom (.idiom (.of isWhole (.transform closed (by rw [Datum.asText_chars]))))
      · have some_ : stop.toList ≠ [] := by rw [split]; exact List.cons_ne_nil _ _
        have opened := takes unmarked (.inl rfl)
        have open_ : g.Refuses k closing [] :=
          refuses_literal isClosing fun stands => some_ (List.prefix_nil.mp stands)
        have both : g.Refuses k both (start.toList ++ text) := by
          have stops : g.Stops k [_, closing] (start.toList ++ text ++ []) := .later opened (.here open_)
          rw [List.append_nil] at stops
          exact .of isBoth (.keepLeft stops)
        refine .inr ⟨?_, .of isIdiom (.idiom (.of isWhole (.transform both)))⟩
        intro body rest same
        exact unmarked.absent some_ body rest (List.append_cancel_left same)

/-- Where everything is refused a parse fails, and the cursor is back where it was started. -/
theorem fails_at_start (regular : g.Regular root) (compiled : g.compile options root = .ok lowered)
    (refuses : g.Refuses 0 root (input.toList.drop pos)) :
    ∃ f, lowered.bytecode.Parses input pos (.error f) ∧ f.pos = pos := by
  obtain ⟨f, fails⟩ := fails_of_refuses compiled (fun _ => regular) (Nat.zero_le _) refuses
  obtain ⟨v, parses, rewinds⟩ :=
    failed_parse_rewinds compiled (fun _ => ⟨regular.wellFormed, regular.inside⟩) input pos
  obtain rfl := Bytecode.parses_unique fails parses
  exact ⟨f, fails, (rewinds f rfl).resolve_right fun ⟨strays, _⟩ => regular.modest.not_strays strays⟩

/-- A parse with an expression for comments matches what is enclosed. -/
theorem Comments.matches_ (comments : Comments start stop g root) (regular : g.Regular root)
    (compiled : g.compile options root = .ok lowered) {body rest : List Char}
    (enclosed : Text.Enclosed start.toList stop.toList (input.toList.drop pos) body rest) :
    lowered.bytecode.Parses input pos
      (.ok ⟨.text (String.ofList body), pos + start.length + body.length + stop.length⟩) := by
  rcases comments.takes_or_refuses 0 (input.toList.drop pos) with
    ⟨body', rest', enclosed', takes⟩ | ⟨none_, -⟩
  · obtain rfl := enclosed.unique enclosed'
    have stands : input.toList.drop pos = start.toList ++ body ++ stop.toList ++ rest' := by
      rw [enclosed'.stands, List.append_assoc, List.append_assoc]
    have parses := parses_of_takes compiled (fun _ => regular) (Nat.zero_le _) takes stands
    have stop_ : pos + (start.toList ++ body ++ stop.toList).length =
        pos + start.length + body.length + stop.length := by
      simp only [List.length_append, String.length_toList, Nat.add_assoc]
    rwa [stop_] at parses
  · exact absurd enclosed.stands (none_ body rest)

/-- Nothing else is matched. -/
theorem Comments.parses_iff (comments : Comments start stop g root) (regular : g.Regular root)
    (compiled : g.compile options root = .ok lowered) (m : Match) :
    lowered.bytecode.Parses input pos (.ok m) ↔
      ∃ body rest, Text.Enclosed start.toList stop.toList (input.toList.drop pos) body rest ∧
        m = ⟨.text (String.ofList body), pos + start.length + body.length + stop.length⟩ := by
  constructor
  · intro parses
    rcases comments.takes_or_refuses 0 (input.toList.drop pos) with
      ⟨body, rest, enclosed, -⟩ | ⟨-, refuses⟩
    · have matched := comments.matches_ regular compiled enclosed
      exact ⟨body, rest, enclosed, Except.ok.inj (Bytecode.parses_unique parses matched)⟩
    · obtain ⟨f, fails, -⟩ := fails_at_start regular compiled refuses
      cases Bytecode.parses_unique parses fails
  · rintro ⟨body, rest, enclosed, rfl⟩
    exact comments.matches_ regular compiled enclosed

/-- There is something to match where both marks stand, and a failure goes back where they do not. -/
theorem Comments.matched_or_fails (comments : Comments start stop g root) (regular : g.Regular root)
    (compiled : g.compile options root = .ok lowered) (input : Array Char) (pos : Nat) :
    ((∃ m, lowered.bytecode.Parses input pos (.ok m)) ↔
      ∃ body rest, input.toList.drop pos = start.toList ++ (body ++ (stop.toList ++ rest))) ∧
    ((∀ body rest, input.toList.drop pos ≠ start.toList ++ (body ++ (stop.toList ++ rest))) →
      ∃ f, lowered.bytecode.Parses input pos (.error f) ∧ f.pos = pos) := by
  rcases comments.takes_or_refuses 0 (input.toList.drop pos) with
    ⟨body, rest, enclosed, -⟩ | ⟨none_, refuses⟩
  · have matched := comments.matches_ regular compiled enclosed
    exact ⟨iff_of_true ⟨_, matched⟩ ⟨body, rest, enclosed.stands⟩,
      fun none_ => absurd enclosed.stands (none_ body rest)⟩
  · obtain ⟨f, fails, back⟩ := fails_at_start regular compiled refuses
    refine ⟨iff_of_false ?_ ?_, fun _ => ⟨f, fails, back⟩⟩
    · rintro ⟨m, parses⟩
      cases Bytecode.parses_unique parses fails
    · rintro ⟨body, rest, stands⟩
      exact none_ body rest stands

end Comments

end Grammar

namespace Build

open Grammar (CommentChar Comments)

theorem builds_commentChar {o : List Ref} (first : Char) (others : List Char) :
    Builds o (commentChar first others) (fun _ => o) (CommentChar first others) := by
  refine (builds_addNamed rfl _).bind fun other => ?_
  cases others with
  | nil =>
      intro g opens
      exact ⟨.refl g, opens, fun later le isOther => .single rfl isOther⟩
  | cons next others =>
      refine (builds_add rfl).bind fun mark => (builds_add rfl).bind fun goesOn => ?_
      refine (builds_add rfl).bind fun lone => (builds_add rfl).mono ?_
      intro later r choice isLone isGoesOn isMark isOther
      exact .either (List.cons_ne_nil _ _) choice isOther isLone isMark isGoesOn

theorem builds_blockComment {o : List Ref} (start stop : String) :
    Builds o (blockComment start stop) (fun _ => o) (Comments start stop) := by
  rw [blockComment]
  cases split : stop.toList with
  | nil =>
      refine (builds_add rfl).bind fun opening => (builds_add rfl).bind fun whole => ?_
      refine (builds_add rfl).mono ?_
      intro later r isIdiom isWhole isOpening
      exact .bare split isIdiom isWhole isOpening
  | cons first others =>
      refine (builds_commentChar first others).bind fun char => (builds_add rfl).bind fun body => ?_
      refine (builds_add rfl).bind fun opening => (builds_add rfl).bind fun opened => ?_
      refine (builds_add rfl).bind fun closing => (builds_add rfl).bind fun both => ?_
      refine (builds_add rfl).bind fun whole => (builds_add rfl).mono ?_
      intro later r isIdiom isWhole isBoth isClosing isOpened isOpening isBody isChar
      exact .of split isIdiom isWhole isBoth isOpened isOpening isBody isChar isClosing

theorem grows_commentChar {refs : List Ref} (first : Char) (others : List Char) :
    Grows refs (commentChar first others) := by
  refine (grows_leafNamed rfl _).bind fun other => ?_
  cases others with
  | nil => exact grows_return (.head _)
  | cons next others =>
      refine (grows_leaf rfl).bind fun mark => (grows_leaf rfl).bind fun goesOn => ?_
      refine (grows_add (by simp [Expression.children]) rfl).bind fun lone => ?_
      exact grows_add (by simp [Expression.children]) rfl

theorem grows_blockComment {refs : List Ref} (start stop : String) :
    Grows refs (blockComment start stop) := by
  rw [blockComment]
  cases stop.toList with
  | nil =>
      refine (grows_leaf rfl).bind fun opening => ?_
      refine (grows_add (by simp [Expression.children]) rfl).bind fun whole => ?_
      exact grows_add (by simp [Expression.children]) rfl
  | cons first others =>
      refine (grows_commentChar first others).bind fun char => ?_
      refine (grows_add (by simp [Expression.children]) rfl).bind fun body => ?_
      refine (grows_leaf rfl).bind fun opening => ?_
      refine (grows_add (by simp [Expression.children]) rfl).bind fun opened => ?_
      refine (grows_leaf rfl).bind fun closing => ?_
      refine (grows_add (by simp [Expression.children]) rfl).bind fun both => ?_
      refine (grows_add (by simp [Expression.children]) rfl).bind fun whole => ?_
      exact grows_add (by simp [Expression.children]) rfl

/-- In any grammar that is in order, the expression for block comments is compiled, condensed or not.
A parse with it matches the text between the start mark and the first end mark behind it, and ends
behind that mark; it matches if and only if there are both, and otherwise fails where it was started. -/
theorem blockComment_parses {g : Grammar} (orderly : g.Orderly) (options : CompileOptions)
    (start stop : String) :
    ∃ lowered : Lowered, (blockComment start stop).compile g options = .ok lowered ∧
      ∀ (input : Array Char) (pos : Nat),
        (∀ m, lowered.bytecode.Parses input pos (.ok m) ↔
          ∃ body rest, Text.Enclosed start.toList stop.toList (input.toList.drop pos) body rest ∧
            m = ⟨.text (String.ofList body), pos + start.length + body.length + stop.length⟩) ∧
        ((∃ m, lowered.bytecode.Parses input pos (.ok m)) ↔
          ∃ body rest, input.toList.drop pos = start.toList ++ (body ++ (stop.toList ++ rest))) ∧
        ((∀ body rest, input.toList.drop pos ≠ start.toList ++ (body ++ (stop.toList ++ rest))) →
          ∃ f, lowered.bytecode.Parses input pos (.error f) ∧ f.pos = pos) := by
  have comments := (builds_blockComment start stop).holds g
  obtain ⟨regular, lowered, compiled⟩ :=
    (grows_blockComment start stop).compiles orderly comments.forest (by decide) options
  refine ⟨lowered, (compile_eq _ g options).trans compiled, ?_⟩
  intro input pos
  exact ⟨comments.parses_iff regular compiled, comments.matched_or_fails regular compiled input pos⟩

/-- An end mark that overlaps with itself is found at its first place. -/
theorem stars_enclosed :
    Orderly Grammar.brackets.1 ∧
      ∃ lowered, (blockComment "/*" "**/").compile Grammar.brackets.1 ⟨true, false⟩ = .ok lowered ∧
        lowered.bytecode.Parses "x/* a ***/ b **/".toList.toArray 1 (.ok ⟨.text " a *", 10⟩) := by
  obtain ⟨lowered, compiled, parses⟩ :=
    blockComment_parses Grammar.brackets_orderly ⟨true, false⟩ "/*" "**/"
  refine ⟨Grammar.brackets_orderly, lowered, compiled, ((parses _ 1).1 _).mpr ?_⟩
  refine ⟨[' ', 'a', ' ', '*'], " b **/".toList, ?_, ?_⟩
  · have unmarked : Text.Unmarked "**/".toList [' ', 'a', ' ', '*'] ("**/".toList ++ " b **/".toList) := by
      simp only [Text.unmarked_cons, Text.unmarked_nil, and_true]
      decide
    have stands : "x/* a ***/ b **/".toList.toArray.toList.drop 1 =
        "/*".toList ++ ([' ', 'a', ' ', '*'] ++ ("**/".toList ++ " b **/".toList)) := by decide
    rw [stands]
    exact unmarked.enclosed
  · rfl

end Build

end PegMachine
