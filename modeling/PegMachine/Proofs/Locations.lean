/-
# PegMachine.Proofs.Locations — places in a text and the lines they are on

A place is found by counting newlines in front of a position, a line by cutting the whole
text at its newlines. The two agree: the line of a place is what stands behind the last
newline in front of the position, followed by what stands in front of the next one
(`getElem?_lines`), and the column is one more than the length of the former (`foldl_after`).
So a line shows a character in the column of its place, unless the character is the newline
or one of the carriage returns at the end of the line, which are not shown
(`lineText_column_iff`), and the caret of a rendered error stands under it (`lines_renderError`).

With every character that is read the place moves on in reading order (`precedes_after`), so
different positions up to the end of a text have different places.

`Location.Narrow` counts in words of 32 bits. Such words hold the place of every character of
a text with fewer than 2³² characters. What stands behind the last of 2³² − 1 characters, all
of them newlines or none, is the only place they do not hold.
-/
import Mathlib.Data.List.DropRight
import PegMachine.Text.Location

namespace PegMachine.Text

set_option autoImplicit false

variable {text front behind : List Char} {pos : Nat}

/-! ## Reading order -/

/-- A place is on an earlier line than another, or further to the left on the same. -/
def Location.Precedes (l m : Location) : Prop :=
  l.line < m.line ∨ (l.line = m.line ∧ l.column < m.column)

theorem Location.Precedes.trans {l m n : Location} (first : l.Precedes m) (second : m.Precedes n) :
    l.Precedes n := by
  simp only [Location.Precedes] at *
  omega

/-- A character more leads on. -/
theorem precedes_after (l : Location) (c : Char) : l.Precedes (l.after c) := by
  rw [Location.after]
  split
  · exact .inl (Nat.lt_succ_self _)
  · exact .inr ⟨rfl, Nat.lt_succ_self _⟩

theorem locate_succ (inside : pos < text.length) :
    locate text (pos + 1) = (locate text pos).after text[pos] := by
  rw [locate, List.take_succ_eq_append_getElem inside, List.foldl_concat, locate]

theorem locate_precedes {later : Nat} (less : pos < later) (inside : later ≤ text.length) :
    (locate text pos).Precedes (locate text later) := by
  induction later, less using Nat.le_induction with
  | base =>
      rw [locate_succ inside]
      exact precedes_after _ _
  | succ later _ ih =>
      rw [locate_succ inside]
      exact (ih (Nat.le_of_succ_le inside)).trans (precedes_after _ _)

theorem locate_behind (outside : text.length ≤ pos) : locate text pos = locate text text.length := by
  rw [locate, locate, List.take_of_length_le outside, List.take_length]

/-! ## Lines -/

/-- What stands in front of the first newline. -/
def firstLine (text : List Char) : List Char := text.takeWhile (· ≠ '\n')

/-- What stands behind the last newline. -/
def lastLine (text : List Char) : List Char := text.rtakeWhile (· ≠ '\n')

theorem firstLine_cons {c : Char} (other : c ≠ '\n') : firstLine (c :: text) = c :: firstLine text :=
  List.takeWhile_cons_of_pos (by simpa using other)

theorem lastLine_snoc {c : Char} (other : c ≠ '\n') : lastLine (front ++ [c]) = lastLine front ++ [c] :=
  List.rtakeWhile_concat_pos _ _ _ (by simpa using other)

theorem lastLine_newline : lastLine (front ++ ['\n']) = [] :=
  List.rtakeWhile_concat_neg _ _ _ (by simp)

/-- The place behind a text. -/
theorem foldl_after (front : List Char) : front.foldl Location.after .start =
    ⟨front.length, front.count '\n' + 1, (lastLine front).length + 1⟩ := by
  induction front using List.reverseRecOn with
  | nil => rfl
  | append_singleton front c ih =>
      rw [List.foldl_concat, ih, Location.after]
      by_cases newline : c = '\n'
      · subst newline
        simp [lastLine_newline]
      · simp [newline, lastLine_snoc newline]

theorem exists_lines (text : List Char) : ∃ line others, lines text = line :: others := by
  cases text with
  | nil => exact ⟨[], [], rfl⟩
  | cons c rest =>
      rw [lines]
      split
      · exact ⟨_, _, rfl⟩
      · split <;> exact ⟨_, _, rfl⟩

theorem lines_newline (rest : List Char) : lines ('\n' :: rest) = [] :: lines rest := by
  rw [lines, if_pos rfl]

theorem lines_cons {c : Char} (other : c ≠ '\n') {rest line : List Char} {others : List (List Char)}
    (cut : lines rest = line :: others) : lines (c :: rest) = (c :: line) :: others := by
  rw [lines, if_neg other, cut]

/-- A newline ends a line. -/
theorem lines_append (front behind : List Char) :
    lines (front ++ '\n' :: behind) = lines front ++ lines behind := by
  induction front with
  | nil => exact lines_newline behind
  | cons c rest ih =>
      by_cases newline : c = '\n'
      · subst newline
        rw [List.cons_append, lines_newline, lines_newline, ih, List.cons_append]
      · obtain ⟨line, others, cut⟩ := exists_lines rest
        rw [cut, List.cons_append] at ih
        rw [List.cons_append, lines_cons newline ih, lines_cons newline cut, List.cons_append]

theorem lines_single (single : '\n' ∉ text) : lines text = [text] := by
  induction text with
  | nil => rfl
  | cons c rest ih =>
      have other : c ≠ '\n' := (List.ne_of_not_mem_cons single).symm
      exact lines_cons other (ih (List.not_mem_of_not_mem_cons single))

theorem length_lines (text : List Char) : (lines text).length = text.count '\n' + 1 := by
  induction text with
  | nil => rfl
  | cons c rest ih =>
      by_cases newline : c = '\n'
      · subst newline
        rw [lines_newline, List.length_cons, ih, List.count_cons_self]
      · obtain ⟨line, others, cut⟩ := exists_lines rest
        rw [lines_cons newline cut, List.count_cons_of_ne newline, ← ih, cut]
        rfl

theorem head?_lines (text : List Char) : (lines text).head? = some (firstLine text) := by
  induction text with
  | nil => rfl
  | cons c rest ih =>
      by_cases newline : c = '\n'
      · subst newline
        rw [lines_newline]
        rfl
      · obtain ⟨line, others, cut⟩ := exists_lines rest
        rw [cut] at ih
        obtain rfl := Option.some.inj ih
        rw [lines_cons newline cut, firstLine_cons newline]
        rfl

theorem newline_not_mem_lines : ∀ line ∈ lines text, '\n' ∉ line := by
  induction text with
  | nil => simp [lines]
  | cons c rest ih =>
      by_cases newline : c = '\n'
      · subst newline
        rw [lines_newline]
        exact List.forall_mem_cons.mpr ⟨List.not_mem_nil, ih⟩
      · obtain ⟨line, others, cut⟩ := exists_lines rest
        rw [cut] at ih
        obtain ⟨first, others⟩ := List.forall_mem_cons.mp ih
        rw [lines_cons newline cut]
        refine List.forall_mem_cons.mpr ⟨?_, others⟩
        exact List.not_mem_cons_of_ne_of_not_mem (Ne.symm newline) first

/-- The line on which one part of a text ends and the next begins. -/
theorem getElem?_lines (front behind : List Char) :
    (lines (front ++ behind))[front.count '\n']? = some (lastLine front ++ firstLine behind) := by
  induction front using List.reverseRecOn generalizing behind with
  | nil =>
      rw [List.nil_append, List.count_nil, ← List.head?_eq_getElem?, head?_lines]
      rfl
  | append_singleton front c ih =>
      rw [List.append_assoc, List.singleton_append]
      by_cases newline : c = '\n'
      · subst newline
        have count : (front ++ ['\n']).count '\n' = (lines front).length := by
          rw [length_lines, List.count_append, List.count_singleton_self]
        rw [lines_append, count, List.getElem?_append_right (Nat.le_refl _), Nat.sub_self,
          ← List.head?_eq_getElem?, head?_lines, lastLine_newline, List.nil_append]
      · have count : (front ++ [c]).count '\n' = front.count '\n' := by
          rw [List.count_append, List.count_singleton, if_neg (by simpa using newline), Nat.add_zero]
        rw [count, ih, firstLine_cons newline, lastLine_snoc newline, List.append_assoc,
          List.singleton_append]

/-! ## Carriage returns -/

theorem withoutReturns_begins (line : List Char) : withoutReturns line <+: line :=
  List.rdropWhile_prefix _ _

/-- Carriage returns at the end do not count. -/
theorem withoutReturns_append_returns (returns : ∀ c ∈ behind, c = '\r') :
    withoutReturns (front ++ behind) = withoutReturns front := by
  have dropped : behind.reverse.dropWhile (· = '\r') = [] := by
    rw [List.dropWhile_eq_nil_iff]
    intro c mem
    simpa using returns c (List.mem_reverse.mp mem)
  rw [withoutReturns, List.reverse_append, List.dropWhile_append, dropped]
  rfl

/-- Anything else at the end keeps what stands in front of it. -/
theorem withoutReturns_append (other : ∃ c ∈ behind, c ≠ '\r') :
    withoutReturns (front ++ behind) = front ++ withoutReturns behind ∧ withoutReturns behind ≠ [] := by
  obtain ⟨c, mem, other⟩ := other
  have kept : behind.reverse.dropWhile (· = '\r') ≠ [] := by
    intro dropped
    rw [List.dropWhile_eq_nil_iff] at dropped
    exact other (by simpa using dropped c (List.mem_reverse.mpr mem))
  constructor
  · rw [withoutReturns, List.reverse_append, List.dropWhile_append,
      if_neg (by simpa only [List.isEmpty_iff] using kept), List.reverse_append, List.reverse_reverse,
      withoutReturns]
  · rw [withoutReturns, Ne, List.reverse_eq_nil_iff]
    exact kept

/-- What stands behind a part of a line is shown where that part ends, just if not only carriage
returns follow. -/
theorem getElem?_withoutReturns_iff {c : Char} {rest : List Char} :
    (withoutReturns (front ++ c :: rest))[front.length]? = some c ↔ ∃ d ∈ c :: rest, d ≠ '\r' := by
  constructor
  · intro shown
    by_contra only
    have returns : ∀ d ∈ c :: rest, d = '\r' := by simpa using only
    rw [withoutReturns_append_returns returns] at shown
    have inside := (List.getElem?_eq_some_iff.mp shown).1
    exact absurd (withoutReturns_begins front).length_le (Nat.not_le.mpr inside)
  · intro other
    obtain ⟨split, some_⟩ := @withoutReturns_append front _ other
    obtain ⟨first, others, cut⟩ := List.exists_cons_of_ne_nil some_
    have begins := withoutReturns_begins (c :: rest)
    rw [cut, List.cons_prefix_cons] at begins
    rw [split, cut, List.getElem?_append_right (Nat.le_refl _), Nat.sub_self, begins.1]
    rfl

/-! ## The line of a place -/

/-- The character at a position is one of the carriage returns at the end of its line. -/
def InFinalReturns (text : List Char) (pos : Nat) : Prop :=
  ∃ count behind, text.drop pos = List.replicate (count + 1) '\r' ++ behind ∧ ∀ c ∈ behind.head?, c = '\n'

/-- On the rest of the line stands something that is no carriage return. -/
theorem exists_other_iff (inside : pos < text.length) :
    (∃ c ∈ firstLine (text.drop pos), c ≠ '\r') ↔ text[pos] ≠ '\n' ∧ ¬ InFinalReturns text pos := by
  have cut := List.drop_eq_getElem_cons inside
  constructor
  · rintro ⟨c, mem, other⟩
    constructor
    · intro newline
      rw [cut, newline] at mem
      exact nomatch mem
    · rintro ⟨count, behind, returns, ends⟩
      have first : firstLine (text.drop pos) = List.replicate (count + 1) '\r' := by
        have nothing : firstLine behind = [] := by
          cases behind with
          | nil => rfl
          | cons d rest =>
              rw [ends d rfl]
              rfl
        rw [returns, firstLine, List.takeWhile_append_of_pos (by simp), ← firstLine, nothing,
          List.append_nil]
      rw [first] at mem
      exact other (List.eq_of_mem_replicate mem)
  · rintro ⟨visible, inner⟩
    by_contra only
    have returns : ∀ c ∈ firstLine (text.drop pos), c = '\r' := by simpa using only
    refine inner ⟨(firstLine (text.drop (pos + 1))).length, (text.drop pos).dropWhile (· ≠ '\n'), ?_, ?_⟩
    · have line : firstLine (text.drop pos) =
          List.replicate ((firstLine (text.drop (pos + 1))).length + 1) '\r' := by
        rw [List.eq_replicate_iff]
        refine ⟨?_, returns⟩
        rw [cut, firstLine_cons visible, List.length_cons]
      rw [← line]
      exact List.takeWhile_append_dropWhile.symm
    · intro c first
      have stops := List.head?_dropWhile_not (· ≠ '\n') (text.drop pos)
      rw [Option.mem_def.mp first] at stops
      simpa using stops

/-- The line of a place, as the text has it. -/
theorem getElem?_lines_locate (text : List Char) (pos : Nat) :
    (lines text)[(locate text pos).line - 1]? =
      some (lastLine (text.take pos) ++ firstLine (text.drop pos)) := by
  rw [locate, foldl_after]
  have cut := getElem?_lines (text.take pos) (text.drop pos)
  rwa [List.take_append_drop] at cut

theorem column_locate (text : List Char) (pos : Nat) :
    (locate text pos).column - 1 = (lastLine (text.take pos)).length := by
  rw [locate, foldl_after]
  rfl

/-- The line of a place is shown from where it begins in the text, as many characters in front of the
position as the column says. -/
theorem lineText_begins (inside : pos ≤ text.length) :
    (locate text pos).column - 1 ≤ pos ∧
      lineText text (locate text pos).line <+: text.drop (pos - ((locate text pos).column - 1)) := by
  obtain ⟨before, cut⟩ : lastLine (text.take pos) <:+ text.take pos := List.rtakeWhile_suffix _ _
  have size := congrArg List.length cut
  rw [List.length_append, List.length_take, Nat.min_eq_left inside] at size
  have begins : pos - (lastLine (text.take pos)).length = before.length := by omega
  have rest : text.drop before.length = lastLine (text.take pos) ++ text.drop pos := by
    have whole := List.take_append_drop pos text
    rw [← cut, List.append_assoc] at whole
    rw [← @List.drop_left _ before (lastLine (text.take pos) ++ text.drop pos), whole]
  rw [column_locate, begins, rest, lineText, getElem?_lines_locate, Option.getD_some]
  refine ⟨by omega, (withoutReturns_begins _).trans ?_⟩
  exact (List.prefix_append_right_inj _).mpr (List.takeWhile_prefix _)

/-- The line of a place shows the character there, unless that belongs to the end of the line. -/
theorem lineText_column_iff (inside : pos < text.length) :
    (lineText text (locate text pos).line)[(locate text pos).column - 1]? = some text[pos] ↔
      text[pos] ≠ '\n' ∧ ¬ InFinalReturns text pos := by
  rw [← exists_other_iff inside, lineText, getElem?_lines_locate, column_locate, Option.getD_some,
    List.drop_eq_getElem_cons inside]
  by_cases newline : text[pos] = '\n'
  · have nothing : firstLine (text[pos] :: text.drop (pos + 1)) = [] := by
      rw [newline]
      rfl
    rw [nothing, List.append_nil]
    refine iff_of_false ?_ (by simp)
    intro shown
    have inside := (List.getElem?_eq_some_iff.mp shown).1
    exact absurd (withoutReturns_begins _).length_le (Nat.not_le.mpr inside)
  · rw [firstLine_cons newline]
    exact getElem?_withoutReturns_iff

theorem newline_not_mem_lineText (text : List Char) (line : Nat) : '\n' ∉ lineText text line := by
  intro mem
  have mem := (withoutReturns_begins _).subset mem
  cases found : (lines text)[line - 1]? with
  | none =>
      rw [found] at mem
      exact nomatch mem
  | some shown =>
      rw [found] at mem
      exact newline_not_mem_lines shown (List.mem_of_getElem? found) mem

/-! ## Rendered errors -/

/-- A rendered error ends in the line of its place and in a line with a caret, both moved to the right
by two blanks. -/
theorem lines_renderError (name : String) (text : List Char) (pos : Nat) (message : String) :
    ∃ above, lines (renderError name text pos message).toList =
      above ++ [' ' :: ' ' :: lineText text (locate text pos).line,
        List.replicate ((locate text pos).column + 1) ' ' ++ ['^']] := by
  obtain ⟨header, written⟩ : ∃ header, (renderError name text pos message).toList =
      header ++ '\n' :: ((' ' :: ' ' :: lineText text (locate text pos).line) ++ '\n' ::
        (' ' :: ' ' :: (List.replicate ((locate text pos).column - 1) ' ' ++ ['^']))) := by
    let place := locate text pos
    refine ⟨(name ++ ":" ++ toString place.line ++ ":" ++ toString place.column ++ ": " ++ message).toList, ?_⟩
    simp [renderError, repeated, toString, place]
  have indent : ' ' :: ' ' :: (List.replicate ((locate text pos).column - 1) ' ' ++ ['^']) =
      List.replicate ((locate text pos).column + 1) ' ' ++ ['^'] := by
    rw [locate, foldl_after]
    rfl
  have line : '\n' ∉ ' ' :: ' ' :: lineText text (locate text pos).line := by
    simpa using newline_not_mem_lineText text _
  have caret : '\n' ∉ List.replicate ((locate text pos).column + 1) ' ' ++ ['^'] := by simp
  refine ⟨lines header, ?_⟩
  rw [written, indent, lines_append, lines_append, lines_single line, lines_single caret]
  rfl

/-! ## Words of 32 bits -/

/-- A place counted in words of 32 bits. -/
structure Location.Narrow where
  offset : UInt32
  line : UInt32
  column : UInt32

namespace Location

def Narrow.start : Narrow := ⟨0, 1, 1⟩

/-- The place behind one more character. -/
def Narrow.after (l : Narrow) (c : Char) : Narrow :=
  if c = '\n' then ⟨l.offset + 1, l.line + 1, 1⟩ else ⟨l.offset + 1, l.line, l.column + 1⟩

/-- The numbers that the words stand for. -/
def Narrow.widen (l : Narrow) : Location := ⟨l.offset.toNat, l.line.toNat, l.column.toNat⟩

/-- What words keep of a place. -/
def narrow (l : Location) : Narrow := ⟨.ofNat l.offset, .ofNat l.line, .ofNat l.column⟩

end Location

/-- The place of a position, counted in words. -/
def locateNarrow (text : List Char) (pos : Nat) : Location.Narrow :=
  (text.take pos).foldl Location.Narrow.after .start

theorem narrow_after (l : Location) (c : Char) : (l.after c).narrow = l.narrow.after c := by
  rw [Location.after, Location.Narrow.after]
  split <;> simp [Location.narrow, UInt32.ofNat_add]

theorem locateNarrow_eq (text : List Char) (pos : Nat) : locateNarrow text pos = (locate text pos).narrow := by
  rw [locateNarrow, locate]
  induction text.take pos using List.reverseRecOn with
  | nil => rfl
  | append_singleton front c ih => rw [List.foldl_concat, List.foldl_concat, ih, narrow_after]

theorem widen_narrow {l : Location} (offset : l.offset < UInt32.size) (line : l.line < UInt32.size)
    (column : l.column < UInt32.size) : l.narrow.widen = l := by
  simp only [Location.narrow, Location.Narrow.widen, UInt32.toNat_ofNat_of_lt' offset,
    UInt32.toNat_ofNat_of_lt' line, UInt32.toNat_ofNat_of_lt' column]

/-- Words hold the place of every character of a text that is short enough to be counted, and the place
of its end if that can be counted, too. -/
theorem locateNarrow_widen (short : text.length < UInt32.size)
    (held : pos < text.length ∨ text.length + 1 < UInt32.size) :
    (locateNarrow text pos).widen = locate text pos := by
  have newlines : (text.take pos).count '\n' ≤ (text.take pos).length := List.count_le_length
  have last : (lastLine (text.take pos)).length ≤ (text.take pos).length :=
    (List.rtakeWhile_suffix _ _).length_le
  have taken : (text.take pos).length = min pos text.length := List.length_take
  rw [locateNarrow_eq]
  apply widen_narrow <;> rw [locate, foldl_after] <;> dsimp only <;> omega

/-! ## Every position -/

/-- Two lines, the second with a carriage return within it and two at its end. -/
def returnsSample : List Char := "[1,\n é\rx\r\r\n]".toList

end PegMachine.Text
