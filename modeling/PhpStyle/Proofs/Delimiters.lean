import PhpStyle.Proofs.Segmentation

/-!
# Where strings, comments and heredocs end

Strings, heredocs and plain comments hold any text up to a sign that ends them. The lexer
looks for the sign with four scans that go from character to character. Here each kind of
sign is described by the places at which it ends a text, whatever stands before: a quote
that no backslash escapes, `*/`, a newline or `?>`, and the label of a heredoc at the
beginning of a line. The main statement is that the lexer stops at the first such place,
and at the end of the source only if there is none.

A block comment is one lexeme on each line, so the lexemes of a file are first put together
to units. What opens a unit decides how it ends.
-/

namespace PhpStyle

open Text List

/-- A text of the given size is left after `count` characters: at the first place where it may end,
or at its own end if there is no such place. -/
def FirstEnd (ends : Nat → Prop) (size count : Nat) : Prop :=
  (ends count ∧ ∀ fewer < count, ¬ends fewer) ∨ (count = size ∧ ∀ other, ¬ends other)

namespace FirstEnd

variable {ends other : Nat → Prop} {size count : Nat}

theorem zero (here : ends 0) : FirstEnd ends size 0 :=
  .inl ⟨here, fun _ before => absurd before (Nat.not_lt_zero _)⟩

theorem succ (notHere : ¬ends 0) (later : FirstEnd (fun place => ends (place + 1)) size count) :
    FirstEnd ends (size + 1) (count + 1) := by
  rcases later with ⟨here, first⟩ | ⟨whole, nowhere⟩
  · refine .inl ⟨here, ?_⟩
    intro fewer before
    cases fewer with
    | zero => exact notHere
    | succ fewer => exact first fewer (by omega)
  · refine .inr ⟨by rw [whole], ?_⟩
    intro place
    cases place with
    | zero => exact notHere
    | succ place => exact nowhere place

theorem congr (firstEnd : FirstEnd ends size count) (same : ∀ place, other place ↔ ends place) :
    FirstEnd other size count := by
  rwa [show other = ends from funext fun place => propext (same place)]

end FirstEnd

/-- A character is escaped if a backslash stands before it that is not escaped itself. -/
def IsEscaped (text : List Char) : Nat → Prop
  | 0 => False
  | place + 1 => text[place]? = some '\\' ∧ ¬IsEscaped text place

/-- The string ends behind a quote that is not escaped. The text is what follows the first quote. -/
def ClosesQuote (quote : Char) (text : List Char) (count : Nat) : Prop :=
  ∃ place, count = place + 1 ∧ text[place]? = some quote ∧ ¬IsEscaped text place

/-- The line comment ends behind a newline or before a closing tag. -/
def EndsLineComment (text : List Char) (count : Nat) : Prop :=
  (∃ place, count = place + 1 ∧ text[place]? = some '\n') ∨ ['?', '>'] <+: text.drop count

/-- The block comment ends behind `*/`. The text is what follows the `/*`. -/
def ClosesComment (text : List Char) (count : Nat) : Prop :=
  ∃ place, count = place + 2 ∧ ['*', '/'] <+: text.drop place

/-- The text begins with the label, which blanks may indent and no name may continue. -/
def LabelEnds (label text : List Char) (count : Nat) : Prop :=
  ∃ indent behind, text = indent ++ (label ++ behind) ∧ (∀ c ∈ indent, isIndent c = true) ∧
    behind.head?.any isNameChar = false ∧ count = indent.length + label.length

/-- The heredoc ends behind its label on a line of its own. The text is what follows the label on
the first line. -/
def ClosesHeredoc (label text : List Char) (count : Nat) : Prop :=
  ∃ lines line length, text = lines ++ '\n' :: line ∧ LabelEnds label line length ∧
    count = lines.length + 1 + length

section Quotes

variable {quote c hidden : Char} {text : List Char} {place : Nat}

theorem isEscaped_cons (plain : c ≠ '\\') :
    IsEscaped (c :: text) (place + 1) ↔ IsEscaped text place := by
  induction place with
  | zero => simp [IsEscaped, plain]
  | succ place ih => rw [IsEscaped, ih, getElem?_cons_succ, IsEscaped]

theorem isEscaped_behind_backslash :
    IsEscaped ('\\' :: hidden :: text) (place + 2) ↔ IsEscaped text place := by
  induction place with
  | zero => simp [IsEscaped]
  | succ place ih =>
    rw [IsEscaped, ih, getElem?_cons_succ, getElem?_cons_succ, IsEscaped]

theorem not_closesQuote_zero : ¬ClosesQuote quote text 0 := by
  rintro ⟨place, count_eq, -⟩
  omega

theorem closesQuote_succ :
    ClosesQuote quote text (place + 1) ↔ text[place]? = some quote ∧ ¬IsEscaped text place := by
  constructor
  · rintro ⟨other, count_eq, closes⟩
    obtain rfl : place = other := by omega
    exact closes
  · intro closes
    exact ⟨place, rfl, closes⟩

theorem closesQuote_cons (plain : c ≠ '\\') (other : c ≠ quote) (count : Nat) :
    ClosesQuote quote (c :: text) (count + 1) ↔ ClosesQuote quote text count := by
  cases count with
  | zero => simp [closesQuote_succ, not_closesQuote_zero, other]
  | succ count =>
    rw [closesQuote_succ, closesQuote_succ, isEscaped_cons plain, getElem?_cons_succ]

/-- A backslash hides itself and the character behind it. -/
theorem closesQuote_behind_backslash (count : Nat) :
    ClosesQuote quote ('\\' :: hidden :: text) (count + 2) ↔ ClosesQuote quote text count := by
  cases count with
  | zero => simp [closesQuote_succ, not_closesQuote_zero, IsEscaped]
  | succ count =>
    rw [closesQuote_succ, closesQuote_succ, isEscaped_behind_backslash, getElem?_cons_succ,
      getElem?_cons_succ]

/-- The scan of a string ends at the first quote that no backslash hides. -/
theorem Scan.firstEnd_quoted (other : quote ≠ '\\') (text : List Char) :
    FirstEnd (ClosesQuote quote text) text.length (quoted quote text) := by
  fun_induction quoted quote text with
  | case1 =>
    refine .inr ⟨rfl, ?_⟩
    rintro count ⟨place, -, found, -⟩
    cases found
  | case2 c =>
    by_cases closes : c = quote
    · subst closes
      refine .succ not_closesQuote_zero (.zero ?_)
      exact closesQuote_succ.mpr ⟨rfl, id⟩
    · refine .inr ⟨rfl, ?_⟩
      rintro count ⟨place, -, found, -⟩
      cases place with
      | zero => exact closes (Option.some.inj found)
      | succ place => cases found
  | case3 hidden rest ih =>
    refine .succ not_closesQuote_zero (.succ ?_ ?_)
    · simp [closesQuote_succ, other.symm]
    · exact ih.congr closesQuote_behind_backslash
  | case4 hidden rest notEscape =>
    exact .succ not_closesQuote_zero (.zero (closesQuote_succ.mpr ⟨rfl, id⟩))
  | case5 c hidden rest notEscape notQuote ih =>
    exact .succ not_closesQuote_zero (ih.congr (closesQuote_cons notEscape notQuote))

end Quotes

section Comments

variable {c : Char} {text : List Char}

theorem endsLineComment_zero : EndsLineComment text 0 ↔ ['?', '>'] <+: text := by
  simp [EndsLineComment]

theorem endsLineComment_cons (goesOn : c ≠ '\n') (count : Nat) :
    EndsLineComment (c :: text) (count + 1) ↔ EndsLineComment text count := by
  have newline : (∃ place, count + 1 = place + 1 ∧ (c :: text)[place]? = some '\n') ↔
      ∃ place, count = place + 1 ∧ text[place]? = some '\n' := by
    constructor
    · rintro ⟨place, count_eq, found⟩
      cases place with
      | zero => exact absurd (Option.some.inj found) goesOn
      | succ place => exact ⟨place, by omega, found⟩
    · rintro ⟨place, rfl, found⟩
      exact ⟨place + 1, rfl, found⟩
  rw [EndsLineComment, newline, drop_succ_cons, EndsLineComment]

/-- The scan of a line comment ends at the first newline or closing tag. -/
theorem Scan.firstEnd_lineComment (text : List Char) :
    FirstEnd (EndsLineComment text) text.length (lineComment text) := by
  induction text with
  | nil =>
    refine .inr ⟨rfl, ?_⟩
    rintro count (⟨place, -, found⟩ | tag)
    · cases found
    · simp at tag
  | cons c rest ih =>
    rw [lineComment]
    by_cases tag : ['?', '>'] <+: c :: rest
    · rw [if_pos tag]
      exact .zero (endsLineComment_zero.mpr tag)
    rw [if_neg tag]
    have notHere : ¬EndsLineComment (c :: rest) 0 := mt endsLineComment_zero.mp tag
    split
    · next newline => exact .succ notHere (.zero (.inl ⟨0, rfl, by rw [newline]; rfl⟩))
    · next goesOn => exact .succ notHere (ih.congr (endsLineComment_cons goesOn))

/-- The part of a block comment on a line ends with the first `*/`, or there is none in it. -/
theorem Scan.blockComment_spec (text : List Char) :
    if (blockComment text).2 then
      ∃ place, (blockComment text).1 = place + 2 ∧ ['*', '/'] <+: text.drop place ∧
        RunsOn text place
    else RunsOn text (blockComment text).1 := by
  induction text with
  | nil => exact .zero _
  | cons c rest ih =>
    rw [blockComment]
    by_cases closes : ['*', '/'] <+: c :: rest
    · rw [if_pos closes]
      exact ⟨0, rfl, closes, .zero _⟩
    rw [if_neg closes]
    split
    · exact .cons closes (.zero _)
    · dsimp only
      split
      · next closed =>
          rw [if_pos closed] at ih
          rcases ih with ⟨place, length_eq, found, runs⟩
          exact ⟨place + 1, by rw [length_eq], found, .cons closes runs⟩
      · next goesOn =>
          rw [if_neg goesOn] at ih
          exact .cons closes ih

theorem firstEnd_of_runsOn {place : Nat} (found : ['*', '/'] <+: text.drop place)
    (runs : RunsOn text place) : FirstEnd (ClosesComment text) text.length (place + 2) := by
  refine .inl ⟨⟨place, rfl, found⟩, ?_⟩
  rintro fewer before ⟨other, rfl, other_found⟩
  exact runs other (by omega) other_found

/-- Text without an end of the comment may be put before it. -/
theorem FirstEnd.append_of_runsOn {piece rest : List Char} {count : Nat}
    (runs : RunsOn (piece ++ rest) piece.length)
    (later : FirstEnd (ClosesComment rest) rest.length count) :
    FirstEnd (ClosesComment (piece ++ rest)) (piece ++ rest).length (piece.length + count) := by
  have behind (place : Nat) : (piece ++ rest).drop (piece.length + place) = rest.drop place := by
    rw [← drop_drop, drop_left]
  have shift {place : Nat} (found : ['*', '/'] <+: (piece ++ rest).drop place) :
      ∃ offset, place = piece.length + offset ∧ ['*', '/'] <+: rest.drop offset := by
    obtain ⟨offset, rfl⟩ := Nat.exists_eq_add_of_le (not_lt.mp fun inside => runs place inside found)
    exact ⟨offset, rfl, by rwa [behind] at found⟩
  rcases later with ⟨⟨place, rfl, found⟩, first⟩ | ⟨whole, nowhere⟩
  · refine .inl ⟨⟨piece.length + place, by omega, by rwa [behind]⟩, ?_⟩
    rintro fewer before ⟨other, rfl, other_found⟩
    rcases shift other_found with ⟨offset, rfl, offset_found⟩
    exact first (offset + 2) (by omega) ⟨offset, rfl, offset_found⟩
  · refine .inr ⟨by rw [whole, length_append], ?_⟩
    rintro count ⟨other, rfl, other_found⟩
    rcases shift other_found with ⟨offset, rfl, offset_found⟩
    exact nowhere (offset + 2) ⟨offset, rfl, offset_found⟩

end Comments

section Heredocs

variable {label : List Char} (named : label ≠ []) (word : ∀ c ∈ label, isNameChar c = true)

include named word

variable {text : List Char} {count : Nat}

theorem labelEnds_iff :
    LabelEnds label text count ↔
      Scan.endsHeredoc label text = true ∧ count = Scan.run isIndent text + label.length := by
  rw [Scan.endsHeredoc_iff named word]
  constructor
  · rintro ⟨indent, behind, rfl, blank, stops, rfl⟩
    exact ⟨⟨indent, behind, rfl, blank, stops⟩, by rw [Scan.run_indent_label named word blank]⟩
  · rintro ⟨⟨indent, behind, rfl, blank, stops⟩, rfl⟩
    exact ⟨indent, behind, rfl, blank, stops, by rw [Scan.run_indent_label named word blank]⟩

omit named in
/-- No newline stands before the end of the label on its line. -/
theorem not_closesHeredoc_of_labelEnds {fewer : Nat} (ends : LabelEnds label text count)
    (before : fewer < count) : ¬ClosesHeredoc label text fewer := by
  rintro ⟨lines, line, length, split, -, rfl⟩
  rcases ends with ⟨indent, behind, text_eq, blank, -, rfl⟩
  have newline : (indent ++ label ++ behind)[lines.length]? = some '\n' := by
    rw [List.append_assoc, ← text_eq, split, getElem?_append_right (Nat.le_refl _), Nat.sub_self]
    rfl
  rw [getElem?_append_left (by rw [length_append]; omega)] at newline
  rcases List.mem_append.mp (mem_of_getElem? newline) with inside | inside
  · exact absurd (blank _ inside) (by decide)
  · exact absurd (word _ inside) (by decide)

omit named word in
theorem closesHeredoc_cons {c : Char} :
    ClosesHeredoc label (c :: text) (count + 1) ↔
      c = '\n' ∧ LabelEnds label text count ∨ ClosesHeredoc label text count := by
  constructor
  · rintro ⟨lines, line, length, split, ends, count_eq⟩
    cases lines with
    | nil =>
      obtain ⟨rfl, rfl⟩ := List.cons.inj split
      obtain rfl : count = length := by rw [length_nil] at count_eq; omega
      exact .inl ⟨rfl, ends⟩
    | cons first lines =>
      obtain ⟨rfl, rfl⟩ := List.cons.inj split
      rw [length_cons] at count_eq
      exact .inr ⟨lines, line, length, rfl, ends, by omega⟩
  · rintro (⟨rfl, ends⟩ | ⟨lines, line, length, rfl, ends, rfl⟩)
    · exact ⟨[], text, count, rfl, ends, by rw [length_nil]; omega⟩
    · exact ⟨c :: lines, line, length, rfl, ends, by rw [length_cons]; omega⟩

/-- The scan of a heredoc, which knows whether it stands at the beginning of a line. -/
theorem Scan.firstEnd_heredocBody (lineStart : Bool) (text : List Char) :
    FirstEnd (fun count => lineStart = true ∧ LabelEnds label text count ∨
      ClosesHeredoc label text count) text.length (heredocBody label lineStart text) := by
  induction text generalizing lineStart with
  | nil =>
    refine .inr ⟨rfl, ?_⟩
    rintro count (⟨-, indent, behind, split, -⟩ | ⟨lines, line, length, split, -⟩)
    · simp [named] at split
    · simp at split
  | cons c rest ih =>
    rw [heredocBody]
    split
    · next ends =>
        rw [Bool.and_eq_true] at ends
        have label_ends := (labelEnds_iff named word).mpr ⟨ends.2, rfl⟩
        refine .inl ⟨.inl ⟨ends.1, label_ends⟩, ?_⟩
        rintro fewer before (⟨-, other⟩ | other)
        · rw [((labelEnds_iff named word).mp other).2] at before
          omega
        · exact not_closesHeredoc_of_labelEnds word label_ends before other
    · next goesOn =>
        have notHere {count : Nat} : ¬(lineStart = true ∧ LabelEnds label (c :: rest) count) := by
          rintro ⟨starts, ends⟩
          exact goesOn (by rw [starts, ((labelEnds_iff named word).mp ends).1]; rfl)
        refine .succ ?_ ((ih (c == '\n')).congr ?_)
        · rintro (here | ⟨lines, line, length, -, -, count_eq⟩)
          · exact notHere here
          · omega
        · intro count
          rw [or_iff_right notHere, closesHeredoc_cons, beq_iff_eq]

end Heredocs

/-- Kinds of lexemes that hold any text up to a sign that ends them. -/
def Kind.isDelimited : Kind → Bool
  | .singleQuoted | .doubleQuoted | .comment | .heredoc => true
  | _ => false

/-- The quotes that open a string of the given kind. -/
inductive OpensString : Char → Kind → Prop where
  | single : OpensString '\'' .singleQuoted
  | double : OpensString '"' .doubleQuoted
  | backtick : OpensString '\x60' .doubleQuoted

/-- The blanks and the quote that may stand between the `<<<` and the label of a heredoc. -/
inductive OpensLabel : List Char → Prop where
  | bare {blanks : List Char} (blank : ∀ c ∈ blanks, isIndent c = true) : OpensLabel blanks
  | quoted {blanks : List Char} {quote : Char} (blank : ∀ c ∈ blanks, isIndent c = true)
      (quotes : quote = '\'' ∨ quote = '"') : OpensLabel (blanks ++ [quote])

/--
Lexemes that make up one construct in front of the rest of the source. A string, a comment or a
heredoc reaches from its opening to the first sign that ends it, or to the end of the source.
-/
inductive IsUnit : List Lexeme → List Char → Prop where
  | string {lexeme : Lexeme} {quote : Char} {taken rest : List Char}
      (opens : OpensString quote lexeme.kind) (text : lexeme.text = quote :: taken)
      (ends : FirstEnd (ClosesQuote quote (taken ++ rest)) (taken ++ rest).length taken.length) :
      IsUnit [lexeme] rest
  | lineComment {lexeme : Lexeme} {opener taken rest : List Char} (kind : lexeme.kind = .comment)
      (opens : opener = ['#'] ∨ opener = ['/', '/']) (text : lexeme.text = opener ++ taken)
      (ends : FirstEnd (EndsLineComment (taken ++ rest)) (taken ++ rest).length taken.length) :
      IsUnit [lexeme] rest
  | blockComment {lines : List Lexeme} {taken rest : List Char}
      (kinds : ∀ line ∈ lines, line.kind = .comment)
      (text : lines.flatMap Lexeme.text = ['/', '*'] ++ taken)
      (ends : FirstEnd (ClosesComment (taken ++ rest)) (taken ++ rest).length taken.length) :
      IsUnit lines rest
  | heredoc {lexeme : Lexeme} {opening label taken rest : List Char} (kind : lexeme.kind = .heredoc)
      (opens : OpensLabel opening) (named : label ≠ [])
      (word : ∀ c ∈ label, isNameChar c = true)
      (whole : (taken ++ rest).head?.any isNameChar = false)
      (text : lexeme.text = ['<', '<', '<'] ++ (opening ++ (label ++ taken)))
      (ends : FirstEnd (ClosesHeredoc label (taken ++ rest)) (taken ++ rest).length taken.length) :
      IsUnit [lexeme] rest
  | plain {lexeme : Lexeme} {rest : List Char} (other : lexeme.kind.isDelimited = false) :
      IsUnit [lexeme] rest

/-- Lexemes put together to units. -/
inductive Units : List (List Lexeme) → Prop where
  | done : Units []
  | next {unit : List Lexeme} {units : List (List Lexeme)}
      (first : IsUnit unit (units.flatten.flatMap Lexeme.text)) (following : Units units) :
      Units (unit :: units)

/-- What is left of a block comment at the start of a line, and the units behind it. -/
structure CommentRest (lexemes lines : List Lexeme) (units : List (List Lexeme)) : Prop where
  split : lexemes = lines ++ units.flatten
  kinds : ∀ line ∈ lines, line.kind = .comment
  ends : FirstEnd (ClosesComment (lexemes.flatMap Lexeme.text))
    (lexemes.flatMap Lexeme.text).length (lines.flatMap Lexeme.text).length
  following : Units units

namespace Lexeme

section Steps

variable {c : Char} {taken rest : List Char} {kind : Kind} {after : Mode} {line column : Nat}

theorem isDelimited_ofWord (text : List Char) : (Kind.ofWord text).isDelimited = false := by
  apply ofWord_satisfies fun kind => kind.isDelimited = false
  · intro kind
    cases kind <;> decide
  · rfl

theorem isDelimited_operatorStep (c : Char) (rest : List Char) :
    (operatorStep c rest).kind.isDelimited = false :=
  operatorStep_satisfies (fun kind => kind.isDelimited = false) (by decide) rfl c rest

theorem opensLabel_heredocIntro {opening : List Char}
    (length : Scan.heredocIntro (opening ++ rest) = opening.length) : OpensLabel opening := by
  simp only [Scan.heredocIntro] at length
  split at length
  · next quotes =>
      obtain rfl | ⟨blanks, quote, rfl⟩ := eq_nil_or_concat' opening
      · simp at length
      · simp only [List.append_assoc, length_append, length_singleton,
          Nat.add_right_cancel_iff] at length quotes
        rw [length, drop_left] at quotes
        exact .quoted (Scan.run_append_eq.mp length).1 (by simpa using quotes)
  · exact .bare (Scan.run_append_eq.mp length).1

/-- A heredoc is a unit: its opening and its label lie inside the lexeme, and the rest of it is the
body. -/
theorem isUnit_heredoc (whole : (heredocStep (taken ++ rest)).tail = taken.length + 2) :
    IsUnit [⟨(heredocStep (taken ++ rest)).kind, '<' :: '<' :: '<' :: taken, line, column⟩]
      rest := by
  rcases heredoc_split (taken ++ rest) with ⟨opening, label, body, split, length, word⟩
  have step_eq := heredocStep_append length word
  rw [← split] at step_eq
  rw [step_eq] at whole ⊢
  split at whole
  · next empty =>
      rw [if_pos empty]
      exact .plain rfl
  · next notEmpty =>
      rw [if_neg notEmpty]
      have named : label ≠ [] := by simpa using notEmpty
      simp only at whole
      obtain ⟨lines, rfl, rfl⟩ :
          ∃ lines, taken = opening ++ label ++ lines ∧ body = lines ++ rest := by
        rw [← List.append_assoc] at split
        rcases List.append_eq_append_iff.mp split with ⟨more, outer, rfl⟩ | inner
        · have lengths := congrArg List.length outer
          simp only [length_append] at lengths
          obtain rfl := List.length_eq_zero_iff.mp (show more.length = 0 by omega)
          exact ⟨[], by simpa using outer.symm, rfl⟩
        · exact inner
      rcases Scan.takeWhile_append_eq.mp word with ⟨letters, stops⟩
      have reaches : lines.length = Scan.heredocBody label false (lines ++ rest) := by
        simp only [length_append] at whole
        omega
      refine .heredoc rfl (opensLabel_heredocIntro length) named letters stops (by simp) ?_
      rw [reaches]
      exact (Scan.firstEnd_heredocBody named letters false (lines ++ rest)).congr (by simp)

/-- A step in PHP code takes a whole unit, or the first line of a block comment. -/
theorem PhpStep.isUnit {text : List Char} {found : Step} (begins : PhpStep c text found)
    (split : text = taken ++ rest) (whole : found.tail = taken.length) :
    (IsUnit [⟨found.kind, c :: taken, line, column⟩] rest ∧ found.mode ≠ .blockComment) ∨
      ∃ piece, c :: taken = '/' :: '*' :: piece ∧ found = commentStep 2 (piece ++ rest) := by
  cases begins with
  | hashComment other =>
    subst split
    refine .inl ⟨.lineComment rfl (.inl rfl) rfl ?_, by simp⟩
    rw [← whole]
    exact Scan.firstEnd_lineComment (taken ++ rest)
  | @slashComment behind =>
    have goesOn : Scan.lineComment ('/' :: behind) = Scan.lineComment behind + 1 := by
      simp [Scan.lineComment]
    rw [goesOn] at whole
    obtain ⟨taken, rfl, rfl⟩ := cons_eq_append split (by rw [← whole]; exact Nat.succ_pos _)
    refine .inl ⟨.lineComment rfl (.inr rfl) rfl ?_, by simp⟩
    rw [← Nat.succ.inj whole]
    exact Scan.firstEnd_lineComment (taken ++ rest)
  | @blockComment behind other =>
    simp only [commentStep] at whole
    obtain ⟨piece, rfl, rfl⟩ := cons_eq_append split (by omega)
    exact .inr ⟨piece, rfl, rfl⟩
  | singleQuoted =>
    subst split
    refine .inl ⟨.string .single rfl ?_, by simp⟩
    rw [← whole]
    exact Scan.firstEnd_quoted (by decide) (taken ++ rest)
  | doubleQuoted quote =>
    subst split
    left
    rcases quote with rfl | rfl
    · refine ⟨.string .double rfl ?_, by simp⟩
      rw [← whole]
      exact Scan.firstEnd_quoted (by decide) (taken ++ rest)
    · refine ⟨.string .backtick rfl ?_, by simp⟩
      rw [← whole]
      exact Scan.firstEnd_quoted (by decide) (taken ++ rest)
  | @heredoc behind =>
    have two_le := two_le_heredocStep_tail behind
    obtain ⟨taken, rfl, inner⟩ := cons_eq_append split (by omega)
    obtain ⟨taken, rfl, rfl⟩ := cons_eq_append inner (by rw [length_cons] at whole; omega)
    refine .inl ⟨isUnit_heredoc whole, ?_⟩
    rw [heredocStep_mode]
    simp
  | number numeric =>
    refine .inl ⟨.plain ?_, by simp⟩
    dsimp only
    split <;> rfl
  | name named => exact .inl ⟨.plain (isDelimited_ofWord _), by simp⟩
  | operator begins =>
    refine .inl ⟨.plain (isDelimited_operatorStep c text), ?_⟩
    rw [operatorStep_mode]
    simp
  | _ => exact .inl ⟨.plain rfl, by simp⟩

end Steps

section Comments

variable {piece rest : List Char} {lexemes : List Lexeme}

/-- What the part of a block comment on a line leaves of it. -/
theorem exists_commentRest (length : (Scan.blockComment (piece ++ rest)).1 = piece.length)
    (text : lexemes.flatMap Lexeme.text = rest)
    (closed : (Scan.blockComment (piece ++ rest)).2 = true →
      ∃ units, lexemes = units.flatten ∧ Units units)
    (goesOn : (Scan.blockComment (piece ++ rest)).2 = false →
      ∃ lines units, CommentRest lexemes lines units) :
    ∃ lines units, lexemes = lines ++ units.flatten ∧ (∀ line ∈ lines, line.kind = .comment) ∧
      FirstEnd (ClosesComment (piece ++ rest)) (piece ++ rest).length
        (piece ++ lines.flatMap Lexeme.text).length ∧ Units units := by
  have ends := Scan.blockComment_spec (piece ++ rest)
  cases closes : (Scan.blockComment (piece ++ rest)).2 with
  | true =>
    rw [closes, if_pos rfl, length] at ends
    rcases ends with ⟨place, length_eq, found, runs⟩
    rcases closed closes with ⟨units, rfl, following⟩
    refine ⟨[], units, rfl, by simp, ?_, following⟩
    rw [flatMap_nil, append_nil, length_eq]
    exact firstEnd_of_runsOn found runs
  | false =>
    rw [closes, if_neg Bool.false_ne_true, length] at ends
    rcases goesOn closes with ⟨lines, units, comment⟩
    refine ⟨lines, units, comment.split, comment.kinds, ?_, comment.following⟩
    rw [show (piece ++ lines.flatMap Lexeme.text).length = _ from length_append]
    apply FirstEnd.append_of_runsOn ends
    rw [← text]
    exact comment.ends

end Comments

/-- Outside of block comments the lexemes make up units, inside of one they are the rest of it and
the units behind it. -/
theorem Cuts.units {mode : Mode} {position : Position} {text : List Char} {lexemes : List Lexeme}
    (cuts : Cuts mode position text lexemes) :
    (mode ≠ .blockComment → ∃ units, lexemes = units.flatten ∧ Units units) ∧
      (mode = .blockComment → ∃ lines units, CommentRest lexemes lines units) := by
  induction cuts with
  | done =>
    refine ⟨fun _ => ⟨[], rfl, .done⟩, fun _ => ⟨[], [], rfl, by simp, .inr ⟨rfl, ?_⟩, .done⟩⟩
    rintro count ⟨place, -, found⟩
    simp at found
  | @next mode after position c taken rest kind lexemes announced following ih =>
    have rest_eq := following.flatMap_text
    have unit_of (first : IsUnit [⟨kind, c :: taken, position.line, position.column⟩] rest)
        (outside : after ≠ .blockComment) :
        ∃ units, (⟨kind, c :: taken, position.line, position.column⟩ :: lexemes : List Lexeme) =
          units.flatten ∧ Units units := by
      rcases ih.1 outside with ⟨units, rfl, later⟩
      refine ⟨[_] :: units, rfl, .next ?_ later⟩
      rwa [rest_eq]
    have remainder {piece : List Char} (seen : Nat)
        (length : (Scan.blockComment (piece ++ rest)).1 = piece.length)
        (mode_eq : after = (commentStep seen (piece ++ rest)).mode) :=
      exists_commentRest length rest_eq
        (fun closes => ih.1 (by rw [mode_eq, commentStep_mode, closes]; simp))
        (fun goesOn => ih.2 (by rw [mode_eq, commentStep_mode, goesOn]; rfl))
    cases mode with
    | html =>
      refine ⟨fun _ => ?_, by simp⟩
      have begins : HtmlStep c (taken ++ rest) ⟨kind, taken.length, after⟩ :=
        announced ▸ htmlStep_spec c (taken ++ rest)
      generalize taken ++ rest = text, taken.length = tail at begins
      cases begins <;> exact unit_of (.plain rfl) (by simp)
    | php =>
      refine ⟨fun _ => ?_, by simp⟩
      have begins : PhpStep c (taken ++ rest) ⟨kind, taken.length, after⟩ :=
        announced ▸ phpStep_spec c (taken ++ rest)
      rcases begins.isUnit rfl rfl with ⟨first, outside⟩ | ⟨piece, opens, found⟩
      · exact unit_of first outside
      · obtain ⟨rfl, rfl⟩ := List.cons.inj opens
        obtain rfl : kind = .comment := congrArg Step.kind found
        have length : (Scan.blockComment (piece ++ rest)).1 = piece.length := by
          have tail_eq := congrArg Step.tail found
          simp only [commentStep, length_cons] at tail_eq
          omega
        rcases remainder 2 length (congrArg Step.mode found) with
          ⟨lines, units, rfl, kinds, ends, later⟩
        rw [← rest_eq, flatMap_append, ← List.append_assoc] at ends
        exact ⟨(_ :: lines) :: units, rfl,
          .next (.blockComment (List.forall_mem_cons.mpr ⟨rfl, kinds⟩) rfl ends) later⟩
    | blockComment =>
      refine ⟨fun other => absurd rfl other, fun _ => ?_⟩
      have found : ⟨kind, taken.length, after⟩ = commentStep 0 (c :: taken ++ rest) :=
        announced.symm
      obtain rfl : kind = .comment := congrArg Step.kind found
      have length : (Scan.blockComment (c :: taken ++ rest)).1 = (c :: taken).length := by
        have tail_eq := congrArg Step.tail found
        have pos := Scan.blockComment_pos c (taken ++ rest)
        simp only [commentStep, cons_append, length_cons] at tail_eq ⊢
        omega
      rcases remainder 0 length (congrArg Step.mode found) with
        ⟨lines, units, rfl, kinds, ends, later⟩
      refine ⟨_ :: lines, units, rfl, List.forall_mem_cons.mpr ⟨rfl, kinds⟩, ?_, later⟩
      rwa [flatMap_cons, flatMap_cons, rest_eq]
    | docComment starAllowed tagAllowed =>
      refine ⟨fun _ => ?_, by simp⟩
      have begins := docStep_of_step announced
      generalize taken ++ rest = text, taken.length = tail at begins
      cases begins <;> exact unit_of (.plain rfl) (by simp)

end Lexeme

/-- Each unit ends where it does in front of the text behind it. -/
theorem Units.isUnit {units front behind : List (List Lexeme)} {unit : List Lexeme}
    (all : Units units) (split : units = front ++ unit :: behind) :
    IsUnit unit (behind.flatten.flatMap Lexeme.text) := by
  induction all generalizing front with
  | done => simp at split
  | next first following ih =>
    cases front with
    | nil =>
      obtain ⟨rfl, rfl⟩ := List.cons.inj split
      exact first
    | cons _ front => exact ih (List.cons.inj split).2

/-- Strings, plain comments and heredocs end at the first sign that ends them. The lexemes of a
source are put together to units, a block comment to one unit; each string ends behind the first
quote that is not escaped, each line comment behind the first newline or before the first `?>`, each
block comment behind the first `*/` and each heredoc behind the first line that is its label; and it
reaches to the end of the source only if there is no such place. -/
theorem delimited_lexemes_end_first (source : List Char) :
    ∃ units : List (List Lexeme), lex source = units.flatten ∧
      ∀ front unit behind, units = front ++ unit :: behind →
        ∃ rest, source = (front.flatten ++ unit).flatMap Lexeme.text ++ rest ∧
          IsUnit unit rest := by
  have cuts := cuts_lex source
  rcases cuts.units.1 (by simp) with ⟨units, lexemes_eq, all⟩
  refine ⟨units, lexemes_eq, ?_⟩
  intro front unit behind split
  refine ⟨behind.flatten.flatMap Lexeme.text, ?_, all.isUnit split⟩
  rw [← cuts.flatMap_text, lexemes_eq, split]
  simp

/-- An escaped quote and an escaped backslash, a star that belongs to the opening of a comment, a
comment that `?>` ends, and a label that a name goes on with. -/
theorem delimited_lexemes_end_first_mixed :
    let source := "<?php 'a\\\\'.\"\\\"\" /*/\n*/#b?>\n<?=<<<A\n AB\n A;".toList
    (lex source).map Lexeme.piece =
      [(.openTag, "<?php".toList), (.whitespace, [' ']), (.singleQuoted, "'a\\\\'".toList),
       (.operator, ['.']), (.doubleQuoted, "\"\\\"\"".toList), (.whitespace, [' ']),
       (.comment, "/*/\n".toList), (.comment, "*/".toList), (.comment, "#b".toList),
       (.closeTag, "?>\n".toList), (.openTagWithEcho, "<?=".toList),
       (.heredoc, "<<<A\n AB\n A".toList), (.semicolon, [';'])] ∧
    ∃ units : List (List Lexeme), lex source = units.flatten ∧
      ∀ front unit behind, units = front ++ unit :: behind →
        ∃ rest, source = (front.flatten ++ unit).flatMap Lexeme.text ++ rest ∧
          IsUnit unit rest :=
  ⟨by decide +kernel, delimited_lexemes_end_first _⟩

end PhpStyle
