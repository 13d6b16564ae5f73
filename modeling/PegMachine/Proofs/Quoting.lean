/-
# PegMachine.Proofs.Quoting — quoted strings are read as they are encoded

A text is written between two quotes of one kind, each of its own quotes behind a backslash and
everything else as it is (`Lexeme.Encodes`). A backslash needs none in front of it, for before
anything but the quote in use it stands for itself; so a text that ends with one cannot be
written, and no text is written in two ways.

A parse with the expression for quoted strings matches exactly what is written like that, and
yields the text (`quotedString_parses_iff`), in any grammar and with any options. That it takes
what is written was shown form by form (`Quotes.takes`), and so was that whatever it derives is
written (`Quotes.derives`).
-/
import PegMachine.Proofs.Lexing
import PegMachine.Proofs.Orderly

namespace PegMachine

set_option autoImplicit false

open Grammar (CompileOptions Forest Fills Lowered Orderly Quotes)

/-! ## Encoded texts -/

/-- A text of characters that may stand in quotes is written with one kind of them. -/
structure Lexeme.Encodes (quote : Char) (text written : List Char) : Prop where
  isQuote : quote = '"' ∨ quote = '\''
  quotable : ∀ c ∈ text, c ∈ Lexeme.quotable
  last : text.getLast? ≠ some '\\'
  written : written = quote :: Lexeme.encode quote text ++ [quote]

/-! ## Trees -/

namespace Grammar

variable {g : Grammar} {r : Ref}

theorem Encloses.forest {body envelope : Ref} {n n' : Nat} (encloses : g.Encloses body envelope r)
    (inner : g.Forest n [body]) (outer : g.Forest n' [envelope]) :
    g.Forest (n' + n + 1 + n' + 1 + 1) [r] := by
  obtain ⟨isIdiom, isWhole, isLeft⟩ := encloses
  have left := forest_of isLeft rfl nofun (outer.join inner)
  exact forest_of isIdiom rfl nofun (forest_of isWhole rfl nofun (left.join outer))

theorem Fills.forest {quote : Char} (fills : Fills quote g r) : g.Forest 8 [r] := by
  obtain ⟨isRun, ⟨choice, isLetter, isDigit, isBlank, isOther, isEscape, isSlash⟩⟩ := fills
  have specials := (forest_leaf isEscape rfl).join (forest_leaf isSlash rfl)
  have classes := (forest_leaf isLetter rfl).join ((forest_leaf isDigit rfl).join
    ((forest_leaf isBlank rfl).join ((forest_leaf isOther rfl).join specials)))
  exact forest_of isRun rfl nofun (forest_of choice rfl nofun classes)

theorem Quotes.forest (quotes : g.Quotes r) : g.Forest 28 [r] := by
  obtain ⟨isWhole, isEither, inDoubles, inSingles, fills, fills', isDouble, isSingle⟩ := quotes
  have double := inDoubles.forest fills.forest (forest_leaf isDouble rfl)
  have single := inSingles.forest fills'.forest (forest_leaf isSingle rfl)
  exact forest_of isWhole rfl nofun (forest_of isEither rfl nofun (double.join single))

end Grammar

namespace Build

theorem grows_quotedBody {refs : List Ref} (quote : Char) (label : String) :
    Grows refs (quotedBody quote label) := by
  refine (grows_leafNamed rfl _).bind fun letter => ?_
  refine (grows_leafNamed rfl _).bind fun digit => ?_
  refine (grows_leafNamed rfl _).bind fun blank => ?_
  refine (grows_leafNamed rfl _).bind fun other => ?_
  refine (grows_leaf rfl).bind fun escape => (grows_leaf rfl).bind fun slash => ?_
  refine (grows_add (by simp [Expression.children]) rfl).bind fun one => ?_
  exact grows_add (by simp [Expression.children]) rfl

theorem grows_quotedString {refs : List Ref} : Grows refs quotedString := by
  refine (grows_quotedBody '"' _).bind fun double => (grows_quotedBody '\'' _).bind fun single => ?_
  refine (grows_leaf rfl).bind fun doubleQuote => ?_
  refine (grows_enclosed (by simp) (by simp)).bind fun inDouble => ?_
  refine (grows_leaf rfl).bind fun singleQuote => ?_
  refine (grows_enclosed (by simp) (by simp)).bind fun inSingle => ?_
  refine (grows_add (by simp [Expression.children]) rfl).bind fun either => ?_
  refine (grows_add (by simp [Expression.children]) rfl).bind fun whole => ?_
  exact grows_named (by simp) _

end Build

/-! ## Parsing -/

namespace Grammar

section Quotes

variable {g : Grammar} {root : Ref} {options : CompileOptions} {lowered : Lowered}
variable {input : Array Char} {pos : Nat}

/-- A parse with an expression for quoted strings matches what is written in quotes, and yields the
text. -/
theorem Quotes.parses_iff (quotes : g.Quotes root) (regular : g.Regular root)
    (compiled : g.compile options root = .ok lowered) {m : Match} :
    lowered.bytecode.Parses input pos (.ok m) ↔
      ∃ quote text written rest, Lexeme.Encodes quote text written ∧
        Spans input pos m.stop written rest ∧ m.value = .text (String.ofList text) := by
  constructor
  · intro parses
    obtain ⟨written, rest, spans, derived⟩ := derives_of_parses compiled (fun _ => regular) parses
    obtain ⟨quote, text, isQuote, same, quotable, last, value⟩ := quotes.derives derived
    exact ⟨quote, text, written, rest, ⟨isQuote, quotable, last, same⟩, spans, value⟩
  · rintro ⟨quote, text, written, rest, ⟨isQuote, quotable, last, rfl⟩, ⟨stands, stop⟩, value⟩
    have takes : g.Takes 0 root (quote :: Lexeme.encode quote text ++ [quote]) rest _ :=
      quotes.takes 0 isQuote quotable last
    have parses := parses_of_takes compiled (fun _ => regular) (Nat.zero_le _) takes stands
    rwa [← value, ← stop] at parses

/-- At one position only one text is written, in one way. -/
theorem Quotes.unique (quotes : g.Quotes root) (regular : g.Regular root)
    (compiled : g.compile options root = .ok lowered) {quote quote' : Char}
    {text text' written written' rest rest' : List Char} {stop stop' : Nat}
    (first : Lexeme.Encodes quote text written) (spans : Spans input pos stop written rest)
    (second : Lexeme.Encodes quote' text' written') (spans' : Spans input pos stop' written' rest') :
    quote = quote' ∧ text = text' ∧ stop = stop' := by
  have parses {quote : Char} {text written rest : List Char} {stop : Nat}
      (encodes : Lexeme.Encodes quote text written) (spans : Spans input pos stop written rest) :
      lowered.bytecode.Parses input pos (.ok ⟨.text (String.ofList text), stop⟩) :=
    (quotes.parses_iff regular compiled).mpr ⟨quote, text, written, rest, encodes, spans, rfl⟩
  have same := Except.ok.inj (Bytecode.parses_unique (parses first spans) (parses second spans'))
  obtain ⟨value, rfl⟩ := Match.mk.inj same
  refine ⟨?_, String.ofList_injective (Datum.text.inj value), rfl⟩
  have split := spans.stands.symm.trans spans'.stands
  rw [first.written, second.written] at split
  exact (List.cons.inj split).1

end Quotes

end Grammar

namespace Build

/-- In any grammar that is in order, the expression for quoted strings is compiled, condensed or not,
and a parse with it matches exactly what is written in quotes, and yields the text; so a text in
quotes is read as what it was written for, and what is read is written in one way only. -/
theorem quotedString_parses_iff {g : Grammar} (orderly : g.Orderly) (options : CompileOptions) :
    ∃ lowered : Lowered, quotedString.compile g options = .ok lowered ∧
      (∀ (input : Array Char) (pos : Nat) (m : Match), lowered.bytecode.Parses input pos (.ok m) ↔
        ∃ quote text written rest, Lexeme.Encodes quote text written ∧
          Spans input pos m.stop written rest ∧ m.value = .text (String.ofList text)) ∧
      ∀ (input : Array Char) (pos : Nat) (quote quote' : Char)
        (text text' written written' rest rest' : List Char) (stop stop' : Nat),
        Lexeme.Encodes quote text written → Spans input pos stop written rest →
        Lexeme.Encodes quote' text' written' → Spans input pos stop' written' rest' →
          quote = quote' ∧ text = text' ∧ stop = stop' := by
  have quotes := builds_quotedString.holds g
  obtain ⟨regular, lowered, compiled⟩ :=
    grows_quotedString.compiles orderly quotes.forest (by decide) options
  refine ⟨lowered, (compile_eq _ g options).trans compiled, ?_, ?_⟩
  · exact fun input pos m => quotes.parses_iff regular compiled
  · intro input pos quote quote' text text' written written' rest rest' stop stop' first spans second
      spans'
    exact quotes.unique regular compiled first spans second spans'

/-- In double quotes an escaped quote stands for itself, and a backslash before a letter does too. -/
theorem escapes_read :
    Orderly Grammar.brackets.1 ∧
      ∃ lowered, quotedString.compile Grammar.brackets.1 ⟨true, false⟩ = .ok lowered ∧
        lowered.bytecode.Parses #['x', '"', 'a', '\\', '"', '\\', 'n', '"', 'y'] 1
          (.ok ⟨.text "a\"\\n", 8⟩) := by
  obtain ⟨lowered, compiled, parses, -⟩ := quotedString_parses_iff Grammar.brackets_orderly ⟨true, false⟩
  refine ⟨Grammar.brackets_orderly, lowered, compiled, (parses _ 1 _).mpr ?_⟩
  refine ⟨'"', ['a', '"', '\\', 'n'], ['"', 'a', '\\', '"', '\\', 'n', '"'], ['y'], ?_, ?_, rfl⟩
  · exact ⟨.inl rfl, Lexeme.forall_of_all (by decide), by decide, by decide⟩
  · exact ⟨by decide, rfl⟩

end Build

end PegMachine
