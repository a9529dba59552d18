import Mathlib.Data.List.DropRight
import Mathlib.Data.List.Infix
import PhpStyle.Proofs.Layout

/-!
# Lexemes and the lines of a source

Two facts tie the lexemes of a file to its lines. The place of a lexeme is a
function of the text before it: its line counts the newlines there, its column the
characters behind the last of them. And a lexeme that goes on over the end of a
line is inline HTML or a literal. Every other lexeme is cut where its line ends, so
that a newline can only be its last character.

The first fact follows from how places are passed on from lexeme to lexeme. The
second one has a reason of its own for each way in which a lexeme can begin: a scan
stops at the newline, takes it as its last character, or runs over a class of
characters to which the newline does not belong.
-/

namespace PhpStyle

open List

namespace Position

theorem after_start (text : List Char) :
    ({} : Position).after text =
      ⟨1 + text.count '\n', 1 + (text.rtakeWhile (· ≠ '\n')).length⟩ := by
  induction text using List.reverseRecOn with
  | nil => rfl
  | append_singleton text c ih =>
    have last (position : Position) : position.after [c] = position.next c := rfl
    rw [Lexeme.after_append, ih, last, next]
    by_cases newline : c = '\n'
    · rw [if_pos newline, rtakeWhile_concat_neg _ _ _ (by simp [newline]), newline, count_append]
      rfl
    · rw [if_neg newline, rtakeWhile_concat_pos _ _ _ (by simp [newline]),
        count_append, count_singleton, if_neg (by simpa using newline),
        length_append]
      rfl

end Position

namespace Text

/-- A newline can only be the last character of the text. -/
def IsOneLine (text : List Char) : Prop :=
  '\n' ∉ text.dropLast

instance (text : List Char) : Decidable (IsOneLine text) :=
  inferInstanceAs (Decidable ('\n' ∉ text.dropLast))

variable {text : List Char} {c : Char}

theorem isOneLine_of_not_mem (within : '\n' ∉ text) : IsOneLine text :=
  fun inside => within (dropLast_subset text inside)

theorem isOneLine_singleton (c : Char) : IsOneLine [c] := by
  simp [IsOneLine]

theorem IsOneLine.cons (line : IsOneLine text) (other : c ≠ '\n') : IsOneLine (c :: text) := by
  cases text with
  | nil => exact isOneLine_singleton c
  | cons d text =>
    rw [IsOneLine, dropLast_cons_cons, mem_cons, not_or]
    exact ⟨other.symm, line⟩

theorem isOneLine_iff :
    IsOneLine text ↔ text.count '\n' ≤ 1 ∧ ('\n' ∈ text → text.getLast? = some '\n') := by
  rcases eq_nil_or_concat' text with rfl | ⟨front, last, rfl⟩
  · simp [IsOneLine]
  · rw [IsOneLine, dropLast_concat, getLast?_concat, count_append, mem_append, mem_singleton]
    by_cases newline : last = '\n'
    · simp [newline, count_eq_zero]
    · constructor
      · intro within
        simp [List.count_eq_zero.mpr within, within, newline, Ne.symm newline]
      · rintro ⟨-, ends⟩ inside
        exact newline (Option.some.inj (ends (.inl inside)))

end Text

/-- Kinds of lexemes that may go on over the end of a line. -/
def Kind.spansLines : Kind → Bool
  | inlineHtml | singleQuoted | doubleQuoted | heredoc => true
  | _ => false

namespace Scan

open Text

theorem newline_not_mem_run {belongs : Char → Bool} (other : belongs '\n' = false)
    (text : List Char) : '\n' ∉ text.take (run belongs text) := by
  rw [run, ← List.prefix_iff_eq_take.mp (List.takeWhile_prefix belongs)]
  intro inside
  have := mem_takeWhile_imp inside
  simp [other] at this

theorem isOneLine_spacing (text : List Char) : IsOneLine (text.take (spacing text)) := by
  induction text with
  | nil => exact isOneLine_of_not_mem (by simp)
  | cons c rest ih =>
    rw [spacing]
    split
    · exact isOneLine_singleton c
    · next other =>
        split
        · exact ih.cons other
        · exact isOneLine_of_not_mem (by simp)

theorem isOneLine_lineComment (text : List Char) : IsOneLine (text.take (lineComment text)) := by
  induction text with
  | nil => exact isOneLine_of_not_mem (by simp)
  | cons c rest ih =>
    rw [lineComment]
    split
    · exact isOneLine_of_not_mem (by simp)
    · split
      · exact isOneLine_singleton c
      · next other => exact ih.cons other

theorem isOneLine_blockComment (text : List Char) :
    IsOneLine (text.take (blockComment text).1) := by
  induction text with
  | nil => exact isOneLine_of_not_mem (by simp)
  | cons c rest ih =>
    simp only [blockComment]
    split
    · next closes =>
        rcases closes with ⟨more, split⟩
        rw [← split]
        exact isOneLine_of_not_mem (by simp)
    · split
      · exact isOneLine_singleton c
      · next other => exact ih.cons other

theorem newline_not_mem_number (decimal : Bool) (text : List Char) :
    '\n' ∉ text.take (number decimal text).1 := by
  induction text generalizing decimal with
  | nil => simp
  | cons c rest ih =>
    simp only [number]
    split
    · next belongs =>
        have other : '\n' ≠ c := by
          rintro rfl
          simp at belongs
        rw [take_succ_cons, mem_cons, not_or]
        exact ⟨other, ih _⟩
    · simp

theorem newline_not_mem_name (text : List Char) : '\n' ∉ text.take (name text) := by
  induction text with
  | nil => simp
  | cons c rest ih =>
    rw [name]
    split
    · next belongs =>
        rw [take_succ_cons, mem_cons, not_or]
        exact ⟨(ne_of_test belongs rfl).symm, ih⟩
    · split
      · next joins =>
          rw [take_succ_cons, mem_cons, not_or, joins.1]
          exact ⟨by decide, ih⟩
      · simp

theorem newline_not_mem_heredocIntro (text : List Char) : '\n' ∉ text.take (heredocIntro text) := by
  have indent : '\n' ∉ text.take (run isIndent text) := newline_not_mem_run rfl text
  rw [heredocIntro]
  split
  · next quote =>
      rw [take_add_one, mem_append, not_or, ← head?_drop]
      refine ⟨indent, ?_⟩
      rcases quote with single | double
      · simp [single]
      · simp [double]
  · exact indent

end Scan

namespace Lexeme

open Text

section Step

variable {c : Char} {rest : List Char} {found : Step}

/-- A lexeme outside of PHP that is no text is on one line: an opening tag holds no newline. -/
theorem HtmlStep.isOneLine (begins : HtmlStep c rest found)
    (plain : found.kind.spansLines = false) : IsOneLine (c :: rest.take found.tail) := by
  cases begins with
  | @longTag rest long =>
    apply isOneLine_of_not_mem
    rw [mem_cons, not_or]
    refine ⟨by decide, fun inside => ?_⟩
    have lower := mem_map_of_mem (f := Char.toLower) inside
    rw [equalsIgnoringCase, beq_iff_eq] at long
    rw [long] at lower
    revert lower
    decide
  | echoTag => exact isOneLine_of_not_mem (by simp)
  | shortTag notLong notEcho => exact isOneLine_of_not_mem (by simp)
  | html notOpen => simp [Kind.spansLines] at plain

theorem isOneLine_commentStep (rest : List Char) :
    IsOneLine ('/' :: ('*' :: rest).take (commentStep 2 rest).tail) := by
  have tail_eq : (commentStep 2 rest).tail = (Scan.blockComment rest).1 + 1 := by
    simp only [commentStep]
    omega
  rw [tail_eq, take_succ_cons]
  exact ((Scan.isOneLine_blockComment rest).cons (by decide)).cons (by decide)

theorem isOneLine_commentStep_zero (c : Char) (rest : List Char) :
    IsOneLine (c :: rest.take (commentStep 0 (c :: rest)).tail) := by
  have positive := Scan.blockComment_pos c rest
  have line := Scan.isOneLine_blockComment (c :: rest)
  have tail_eq : (Scan.blockComment (c :: rest)).1 = (commentStep 0 (c :: rest)).tail + 1 := by
    simp only [commentStep]
    omega
  rwa [tail_eq, take_succ_cons] at line

/-- A heredoc without a label is an operator, which ends before the line does. -/
theorem isOneLine_heredocStep (plain : (heredocStep rest).kind.spansLines = false) :
    IsOneLine ('<' :: ('<' :: '<' :: rest).take (heredocStep rest).tail) := by
  simp only [heredocStep] at plain ⊢
  split
  · rw [Nat.add_comm 2, take_succ_cons, take_succ_cons]
    apply isOneLine_of_not_mem
    simpa using Scan.newline_not_mem_heredocIntro rest
  · next labelled =>
      rw [if_neg labelled] at plain
      simp [Kind.spansLines] at plain

theorem isOneLine_operatorStep (c : Char) (rest : List Char) :
    IsOneLine (c :: rest.take (operatorStep c rest).tail) := by
  have written : ∀ entry ∈ Kind.operators, entry.1 ≠ [] ∧ '\n' ∉ entry.1 := by decide
  unfold operatorStep
  split
  · next text kind entry =>
      rcases written _ (mem_of_find?_eq_some entry) with ⟨nonempty, within⟩
      have matched := find?_some entry
      have whole := List.prefix_iff_eq_take.mp (List.isPrefixOf_iff_prefix.mp matched)
      have positive : 0 < text.length := List.length_pos_iff.mpr nonempty
      have length_eq : text.length = text.length - 1 + 1 := by omega
      rw [length_eq, take_succ_cons] at whole
      rw [← whole]
      exact isOneLine_of_not_mem within
  · exact isOneLine_singleton c

/-- A lexeme of PHP that may not span lines holds no newline but at its end, as `?>` may. -/
theorem PhpStep.isOneLine (begins : PhpStep c rest found)
    (plain : found.kind.spansLines = false) : IsOneLine (c :: rest.take found.tail) := by
  cases begins with
  | newline => exact isOneLine_singleton _
  | blanks blank => exact (Scan.isOneLine_spacing rest).cons (ne_of_test blank rfl)
  | attributeStart => exact isOneLine_of_not_mem (by simp)
  | hashComment other => exact (Scan.isOneLine_lineComment rest).cons (by decide)
  | slashComment => exact (Scan.isOneLine_lineComment _).cons (by decide)
  | docOpen space => exact isOneLine_of_not_mem (by simp)
  | @blockComment rest other => exact isOneLine_commentStep rest
  | variableName named =>
    exact (isOneLine_of_not_mem (Scan.newline_not_mem_run rfl rest)).cons (by decide)
  | singleQuoted => simp [Kind.spansLines] at plain
  | doubleQuoted quote => simp [Kind.spansLines] at plain
  | @heredoc rest => exact isOneLine_heredocStep plain
  | @closeTag rest =>
    rw [IsOneLine]
    split
    · next newline =>
        rcases List.head?_eq_some_iff.mp newline with ⟨more, rfl⟩
        simp
    · simp
  | number numeric =>
    have other : c ≠ '\n' := by
      rintro rfl
      simp at numeric
    exact (isOneLine_of_not_mem (Scan.newline_not_mem_number _ rest)).cons other
  | name named =>
    have other : c ≠ '\n' := by
      rintro rfl
      revert named
      simp [isNameStart]
    exact (isOneLine_of_not_mem (Scan.newline_not_mem_name rest)).cons other
  | operator begins => exact isOneLine_operatorStep c rest

theorem DocStep.isOneLine {starAllowed tagAllowed : Bool}
    (begins : DocStep starAllowed tagAllowed c rest found) :
    IsOneLine (c :: rest.take found.tail) := by
  by_cases space : found.kind = .docWhitespace
  · cases begins with
    | newline => exact isOneLine_singleton _
    | blanks blank ends => exact (Scan.isOneLine_spacing rest).cons (ne_of_test blank rfl)
    | _ => simp at space
  · have whole : found.tail = (rest.take found.tail).length :=
      (length_take_of_le begins.tail_le).symm
    exact isOneLine_of_not_mem
      (begins.newline_not_mem (take_append_drop found.tail rest).symm whole space)

/-- What a step announces is one line, unless it is inline HTML or a literal. -/
theorem isOneLine_step (mode : Mode) (c : Char) (rest : List Char)
    (plain : (step mode c rest).kind.spansLines = false) :
    IsOneLine (c :: rest.take (step mode c rest).tail) := by
  cases mode with
  | html => exact (htmlStep_spec c rest).isOneLine plain
  | php => exact (phpStep_spec c rest).isOneLine plain
  | blockComment => exact isOneLine_commentStep_zero c rest
  | docComment starAllowed tagAllowed => exact (docStep_spec starAllowed tagAllowed c rest).isOneLine

end Step

namespace Cuts

variable {mode : Mode} {position : Position} {text : List Char} {lexemes : List Lexeme}

variable {lexeme : Lexeme}

/-- A lexeme that may not span lines is on one line. -/
theorem isOneLine (cuts : Cuts mode position text lexemes) (inside : lexeme ∈ lexemes)
    (plain : lexeme.kind.spansLines = false) : IsOneLine lexeme.text := by
  induction cuts with
  | done => simp at inside
  | @next mode after position c taken rest kind lexemes announced following ih =>
    rcases List.mem_cons.mp inside with rfl | inside
    · have line := isOneLine_step mode c (taken ++ rest) (by rwa [announced])
      rwa [announced, take_left] at line
    · exact ih inside

theorem place_at (cuts : Cuts mode position text lexemes) {index : Nat}
    (found : lexemes[index]? = some lexeme) :
    (⟨lexeme.line, lexeme.column⟩ : Position) =
      position.after ((lexemes.take index).flatMap Lexeme.text) := by
  rcases List.getElem?_eq_some_iff.mp found with ⟨bound, rfl⟩
  rw [← take_append_drop index lexemes, drop_eq_getElem_cons bound] at cuts
  exact cuts.place_append

theorem prefix_at (cuts : Cuts mode position text lexemes) {index : Nat}
    (found : lexemes[index]? = some lexeme) :
    (lexemes.take index).flatMap Lexeme.text ++ lexeme.text <+: text := by
  have joined := (List.take_prefix (index + 1) lexemes).flatMap Lexeme.text
  rw [take_add_one, found, cuts.flatMap_text, flatMap_append] at joined
  simpa using joined

end Cuts

end Lexeme

/-- The places of lexemes are true: before a lexeme there are as many newlines as its line says, and
behind the last of them as many characters as its column says. So lines never decrease. -/
theorem lexeme_places_are_true (source : List Char) :
    (∀ index lexeme, (lex source)[index]? = some lexeme →
      let before := ((lex source).take index).flatMap Lexeme.text
      before ++ lexeme.text <+: source ∧
        lexeme.line = 1 + before.count '\n' ∧
        lexeme.column = 1 + (before.rtakeWhile (· ≠ '\n')).length) ∧
      ((lex source).map Lexeme.line).Pairwise (· ≤ ·) := by
  have cuts := cuts_lex source
  constructor
  · intro index lexeme found before
    have place := cuts.place_at found
    rw [Position.after_start, Position.mk.injEq] at place
    exact ⟨cuts.prefix_at found, place⟩
  · rw [pairwise_map, pairwise_iff_getElem]
    intro first last first_bound last_bound ordered
    exact cuts.line_le (getElem?_eq_getElem first_bound) (getElem?_eq_getElem last_bound)
      (Nat.le_of_lt ordered)

theorem lexeme_places_are_true_behind_string :
    let source := "<?php\n$é = 'x\ny'.z;".toList
    let before := "<?php\n$é = 'x\ny'".toList
    let lexeme : Lexeme := ⟨.operator, ['.'], 3, 3⟩
    (lex source)[7]? = some lexeme ∧ lexeme.line = 1 + before.count '\n' ∧
      lexeme.column = 1 + (before.rtakeWhile (· ≠ '\n')).length := by
  intro source before lexeme
  have found : (lex source)[7]? = some lexeme := by decide +kernel
  have before_eq : ((lex source).take 7).flatMap Lexeme.text = before := by decide +kernel
  have place := ((lexeme_places_are_true source).1 7 lexeme found).2
  rw [before_eq] at place
  exact ⟨found, place⟩

/-- Only inline HTML and literals span lines: any other lexeme has at most one newline, as its last
character. -/
theorem only_literals_span_lines (source : List Char) :
    ∀ lexeme ∈ lex source, lexeme.kind ≠ .inlineHtml → lexeme.kind ≠ .singleQuoted →
      lexeme.kind ≠ .doubleQuoted → lexeme.kind ≠ .heredoc →
      lexeme.text.count '\n' ≤ 1 ∧ ('\n' ∈ lexeme.text → lexeme.text.getLast? = some '\n') := by
  intro lexeme inside notHtml notSingle notDouble notHeredoc
  apply Text.isOneLine_iff.mp
  apply (cuts_lex source).isOneLine inside
  cases kind : lexeme.kind with
  | inlineHtml => exact absurd kind notHtml
  | singleQuoted => exact absurd kind notSingle
  | doubleQuoted => exact absurd kind notDouble
  | heredoc => exact absurd kind notHeredoc
  | _ => rfl

theorem only_literals_span_lines_comment_and_close_tag :
    let source := "<?php /* a\n b */ 'x\ny' <<<\"\n?>\n".toList
    let comment : Lexeme := ⟨.comment, "/* a\n".toList, 1, 7⟩
    let tag : Lexeme := ⟨.closeTag, "?>\n".toList, 4, 1⟩
    (comment ∈ lex source ∧ comment.text.count '\n' ≤ 1 ∧ comment.text.getLast? = some '\n') ∧
      (tag ∈ lex source ∧ tag.text.count '\n' ≤ 1 ∧ tag.text.getLast? = some '\n') := by
  intro source comment tag
  have inside : comment ∈ lex source := by decide +kernel
  have tag_inside : tag ∈ lex source := by decide +kernel
  rcases only_literals_span_lines source comment inside (by decide) (by decide) (by decide)
    (by decide) with ⟨once, last⟩
  rcases only_literals_span_lines source tag tag_inside (by decide) (by decide) (by decide)
    (by decide) with ⟨tag_once, tag_last⟩
  exact ⟨⟨inside, once, last (by decide)⟩, tag_inside, tag_once, tag_last (by decide)⟩

end PhpStyle
