import Mathlib.Data.List.Basic
import PhpStyle.Lexeme

/-!
# Cutting a source

The lexer says what the next lexeme is by its length, and cuts that many
characters off the text. This file shows that the lengths are honest: no scan
announces more characters than there are. The relation `Lexeme.Cuts` records
what this gives. Each lexeme of a source is exactly what `Lexeme.step` announces
in front of the text that follows it, and it has at least one character.

Later files reason by induction on `Cuts`. It keeps the text of a lexeme and the
text after it apart, so that one of them can be changed while the other stays.
-/

namespace PhpStyle

open List

namespace Text

theorem ne_of_test {test : Char → Bool} {c d : Char} (passes : test c = true)
    (fails : test d = false) : c ≠ d := by
  rintro rfl
  simp [fails] at passes

theorem isNameChar_of_isNameStart {c : Char} (named : isNameStart c = true) :
    isNameChar c = true := by
  simp only [isNameStart, isNameChar, Char.isAlphanum, Bool.or_eq_true] at named ⊢
  rcases named with (alpha | underscore) | wide
  · exact .inl (.inl (.inl alpha))
  · exact .inl (.inr underscore)
  · exact .inr wide

theorem isDigit_eq_false_of_isNameStart {c : Char} (named : isNameStart c = true) :
    c.isDigit = false := by
  by_contra digit
  have notUnderscore : c ≠ '_' := by
    rintro rfl
    simp at digit
  have isAlpha_eq : c.isAlpha = (decide ('A'.val ≤ c.val ∧ c.val ≤ 'Z'.val) ||
      (decide ('a'.val ≤ c.val) && decide (c.val ≤ 'z'.val))) := rfl
  simp only [isNameStart, isAlpha_eq, Char.isDigit, Char.toNat, UInt32.le_iff_toNat_le, ge_iff_le,
    Bool.and_eq_true, Bool.or_eq_true, decide_eq_true_eq, beq_iff_eq, notUnderscore, or_false,
    Bool.not_eq_false] at named digit
  simp at named digit
  omega

end Text

namespace Scan

open Text

theorem run_le (belongs : Char → Bool) (rest : List Char) : run belongs rest ≤ rest.length :=
  (List.takeWhile_prefix belongs).length_le

theorem before_le (delimiter text : List Char) : before delimiter text ≤ text.length := by
  induction text with
  | nil => simp [before]
  | cons c rest ih =>
    simp only [before, length_cons]
    split <;> omega

theorem spacing_le (text : List Char) : spacing text ≤ text.length := by
  induction text with
  | nil => simp [spacing]
  | cons c rest ih =>
    simp only [spacing, length_cons]
    split
    · omega
    · split <;> omega

theorem lineComment_le (text : List Char) : lineComment text ≤ text.length := by
  induction text with
  | nil => simp [lineComment]
  | cons c rest ih =>
    simp only [lineComment, length_cons]
    split
    · omega
    · split <;> omega

theorem blockComment_le (text : List Char) : (blockComment text).1 ≤ text.length := by
  induction text with
  | nil => simp [blockComment]
  | cons c rest ih =>
    simp only [blockComment]
    split
    · next closes => exact closes.length_le
    · split <;> simp only [length_cons] <;> omega

theorem docLine_le (text : List Char) : docLine text ≤ text.length := by
  induction text with
  | nil => simp [docLine]
  | cons c rest ih =>
    simp only [docLine, length_cons]
    split
    · omega
    · split <;> omega

theorem docText_le_docLine (text : List Char) : docText text ≤ docLine text := by
  have trimmed :=
    (dropWhile_suffix (l := (text.take (docLine text)).reverse) isBlank).length_le
  have taken := length_take_le (docLine text) text
  simp only [docText, length_reverse] at trimmed ⊢
  omega

theorem quoted_le (quote : Char) (text : List Char) : quoted quote text ≤ text.length := by
  fun_induction quoted quote text <;> simp only [length_cons, length_nil] at * <;> omega

theorem heredocIntro_le (text : List Char) : heredocIntro text ≤ text.length := by
  have indent_le := run_le isIndent text
  simp only [heredocIntro]
  split
  · next quoted =>
      have : text.drop (run isIndent text) ≠ [] := by
        intro empty
        simp [empty] at quoted
      have := List.length_pos_iff.mpr this
      simp only [length_drop] at this
      omega
  · exact indent_le

theorem length_le_of_endsHeredoc {label line : List Char} (ends : endsHeredoc label line = true) :
    run isIndent line + label.length ≤ line.length := by
  simp only [endsHeredoc, Bool.and_eq_true, isPrefixOf_iff_prefix] at ends
  have labelled := ends.1.length_le
  have whole := congrArg List.length (takeWhile_append_dropWhile (p := isIndent) (l := line))
  simp only [length_append] at whole
  simp only [run]
  omega

theorem heredocBody_le (label : List Char) (lineStart : Bool) (text : List Char) :
    heredocBody label lineStart text ≤ text.length := by
  induction text generalizing lineStart with
  | nil => simp [heredocBody]
  | cons c rest ih =>
    simp only [heredocBody]
    split
    · next ends =>
        simp only [Bool.and_eq_true] at ends
        exact length_le_of_endsHeredoc ends.2
    · have := ih (c == '\n')
      simp only [length_cons]
      omega

theorem number_le (decimal : Bool) (text : List Char) : (number decimal text).1 ≤ text.length := by
  induction text generalizing decimal with
  | nil => simp [number]
  | cons c rest ih =>
    simp only [number]
    split
    · have := ih (decimal || c == '.')
      simp only [length_cons]
      omega
    · simp

theorem name_le (text : List Char) : name text ≤ text.length := by
  induction text with
  | nil => simp [name]
  | cons c rest ih =>
    simp only [name, length_cons]
    split
    · omega
    · split <;> omega

end Scan

namespace Lexeme

open Text

/-- How the next lexeme outside PHP follows from its first characters. -/
inductive HtmlStep : Char → List Char → Step → Prop where
  | longTag {rest : List Char}
      (long : equalsIgnoringCase (('?' :: rest).take 4) ['?', 'p', 'h', 'p'] = true) :
      HtmlStep '<' ('?' :: rest) ⟨.openTag, 4, .php⟩
  | echoTag {rest : List Char} : HtmlStep '<' ('?' :: '=' :: rest) ⟨.openTagWithEcho, 2, .php⟩
  | shortTag {rest : List Char}
      (notLong : equalsIgnoringCase (('?' :: rest).take 4) ['?', 'p', 'h', 'p'] = false)
      (notEcho : rest.head? ≠ some '=') :
      HtmlStep '<' ('?' :: rest) ⟨.openTag, 1, .php⟩
  | html {c : Char} {rest : List Char} (notOpen : ¬['<', '?'] <+: c :: rest) :
      HtmlStep c rest ⟨.inlineHtml, Scan.before ['<', '?'] rest, .html⟩

variable {c : Char} {rest : List Char} {found : Step}

/-- The next lexeme outside PHP is one that its first characters allow. -/
theorem htmlStep_spec (c : Char) (rest : List Char) : HtmlStep c rest (htmlStep c rest) := by
  unfold htmlStep
  by_cases opens : ['<', '?'] <+: c :: rest
  · rw [if_pos opens]
    rcases opens with ⟨text, split⟩
    simp only [cons_append, nil_append, List.cons.injEq] at split
    rcases split with ⟨rfl, rfl⟩
    by_cases long : equalsIgnoringCase (('?' :: text).take 4) ['?', 'p', 'h', 'p'] = true
    · rw [if_pos long]
      exact .longTag long
    rw [if_neg long]
    by_cases echo : ['?', '='] <+: '?' :: text
    · rw [if_pos echo]
      rcases echo with ⟨text, split⟩
      simp only [cons_append, nil_append, List.cons.injEq, true_and] at split
      subst split
      exact .echoTag
    · rw [if_neg echo]
      refine .shortTag (by simpa using long) ?_
      intro equal
      rcases List.head?_eq_some_iff.mp equal with ⟨text, rfl⟩
      exact echo ⟨text, rfl⟩
  · rw [if_neg opens]
    exact .html opens

/-- The first characters allow only one lexeme outside PHP. -/
theorem HtmlStep.eq_htmlStep (begins : HtmlStep c rest found) : htmlStep c rest = found := by
  unfold htmlStep
  cases begins with
  | longTag long => rw [if_pos (by simp), if_pos long]
  | echoTag => simp [equalsIgnoringCase]
  | @shortTag rest notLong notEcho =>
    have echo : ¬['?', '='] <+: '?' :: rest := by
      rintro ⟨text, split⟩
      simp only [cons_append, nil_append, List.cons.injEq, true_and] at split
      exact notEcho (by simp [← split])
    rw [if_pos (by simp), if_neg (by simpa using notLong), if_neg echo]
  | html notOpen => rw [if_neg notOpen]

theorem HtmlStep.tail_le (begins : HtmlStep c rest found) : found.tail ≤ rest.length := by
  cases begins with
  | longTag long =>
    simp only [equalsIgnoringCase, beq_iff_eq] at long
    have := congrArg List.length long
    simp only [length_map, length_take, length_cons, length_nil] at this ⊢
    omega
  | echoTag => simp
  | shortTag notLong notEcho => simp
  | html notOpen => exact Scan.before_le _ rest

theorem commentStep_tail_le (seen : Nat) (text : List Char) :
    (commentStep seen text).tail ≤ seen + text.length - 1 := by
  have := Scan.blockComment_le text
  simp only [commentStep]
  omega

theorem heredocStep_tail_le (rest : List Char) : (heredocStep rest).tail ≤ 2 + rest.length := by
  have intro_le := Scan.heredocIntro_le rest
  simp only [heredocStep]
  split
  · simp only
    omega
  · have label_le := (List.takeWhile_prefix (l := rest.drop (Scan.heredocIntro rest))
      isNameChar).length_le
    have body_le := Scan.heredocBody_le ((rest.drop (Scan.heredocIntro rest)).takeWhile isNameChar)
      false (rest.drop (Scan.heredocIntro rest +
        ((rest.drop (Scan.heredocIntro rest)).takeWhile isNameChar).length))
    simp only [length_drop] at label_le body_le ⊢
    omega

theorem operatorStep_tail_le (c : Char) (rest : List Char) :
    (operatorStep c rest).tail ≤ rest.length := by
  unfold operatorStep
  split
  · next text kind found =>
      have matched := find?_some found
      have := (List.isPrefixOf_iff_prefix.mp matched).length_le
      simp only [length_cons] at this ⊢
      omega
  · simp

/-- No construct of more than one character begins here. -/
structure BeginsOperator (c : Char) (rest : List Char) : Prop where
  not_space : (isBlank c || c == '\n') = false
  not_hash : c ≠ '#'
  not_comment : c = '/' → rest.head? ≠ some '/' ∧ rest.head? ≠ some '*'
  not_variable : c = '$' → rest.head?.any isNameStart = false
  not_quote : c ≠ '\'' ∧ c ≠ '"' ∧ c ≠ '\x60'
  not_heredoc : ¬['<', '<', '<'] <+: c :: rest
  not_close : c = '?' → rest.head? ≠ some '>'
  not_number : c.isDigit = false ∧ (c = '.' → rest.head?.any Char.isDigit = false)
  not_name : isNameStart c = false ∧ (c = '\\' → rest.head?.any isNameStart = false)

/-- How the first lexeme of PHP code follows from its first characters. -/
inductive PhpStep : Char → List Char → Step → Prop where
  | newline {rest : List Char} : PhpStep '\n' rest ⟨.whitespace, 0, .php⟩
  | blanks {c : Char} {rest : List Char} (blank : isBlank c = true) :
      PhpStep c rest ⟨.whitespace, Scan.spacing rest, .php⟩
  | attributeStart {rest : List Char} : PhpStep '#' ('[' :: rest) ⟨.attributeStart, 1, .php⟩
  | hashComment {rest : List Char} (other : rest.head? ≠ some '[') :
      PhpStep '#' rest ⟨.comment, Scan.lineComment rest, .php⟩
  | slashComment {rest : List Char} :
      PhpStep '/' ('/' :: rest) ⟨.comment, Scan.lineComment ('/' :: rest), .php⟩
  | docOpen {rest : List Char} (space : rest.head?.any isUnicodeSpace = true) :
      PhpStep '/' ('*' :: '*' :: rest) ⟨.docOpen, 2, .docComment false true⟩
  | blockComment {rest : List Char}
      (other : ¬(rest.head? = some '*' ∧ (rest.drop 1).head?.any isUnicodeSpace = true)) :
      PhpStep '/' ('*' :: rest) (commentStep 2 rest)
  | variableName {rest : List Char} (named : rest.head?.any isNameStart = true) :
      PhpStep '$' rest ⟨.variableName, Scan.run isNameChar rest, .php⟩
  | singleQuoted {rest : List Char} : PhpStep '\'' rest ⟨.singleQuoted, Scan.quoted '\'' rest, .php⟩
  | doubleQuoted {c : Char} {rest : List Char} (quote : c = '"' ∨ c = '\x60') :
      PhpStep c rest ⟨.doubleQuoted, Scan.quoted c rest, .php⟩
  | heredoc {rest : List Char} : PhpStep '<' ('<' :: '<' :: rest) (heredocStep rest)
  | closeTag {rest : List Char} :
      PhpStep '?' ('>' :: rest) ⟨.closeTag, if rest.head? = some '\n' then 2 else 1, .html⟩
  | number {c : Char} {rest : List Char}
      (numeric : c.isDigit = true ∨ c = '.' ∧ rest.head?.any Char.isDigit = true) :
      PhpStep c rest ⟨if (Scan.number (c == '.') rest).2 then .decimal else .integer,
        (Scan.number (c == '.') rest).1, .php⟩
  | name {c : Char} {rest : List Char}
      (named : isNameStart c = true ∨ c = '\\' ∧ rest.head?.any isNameStart = true) :
      PhpStep c rest ⟨Kind.ofWord (c :: rest.take (Scan.name rest)), Scan.name rest, .php⟩
  | operator {c : Char} {rest : List Char} (begins : BeginsOperator c rest) :
      PhpStep c rest (operatorStep c rest)

/-- The next lexeme of PHP is one that its first characters allow. -/
theorem phpStep_spec (c : Char) (rest : List Char) : PhpStep c rest (phpStep c rest) := by
  unfold phpStep
  dsimp only
  by_cases space : (isBlank c || c == '\n') = true
  · rw [if_pos space]
    by_cases newline : c = '\n'
    · subst newline
      exact .newline
    · rw [if_neg newline]
      exact .blanks (by simpa [newline] using space)
  rw [if_neg space]
  by_cases opens : (c == '#' && rest.head? == some '[') = true
  · rw [if_pos opens]
    simp only [Bool.and_eq_true, beq_iff_eq, head?_eq_some_iff] at opens
    rcases opens with ⟨rfl, rest, rfl⟩
    exact .attributeStart
  rw [if_neg opens]
  by_cases lineComment : (c == '#' || (c == '/' && rest.head? == some '/')) = true
  · rw [if_pos lineComment]
    simp only [Bool.or_eq_true, Bool.and_eq_true, beq_iff_eq, head?_eq_some_iff] at lineComment
    rcases lineComment with rfl | ⟨rfl, rest, rfl⟩
    · exact .hashComment (by simpa using opens)
    · exact .slashComment
  rw [if_neg lineComment]
  by_cases doc : ['/', '*', '*'] <+: c :: rest ∧ (rest.drop 2).head?.any isUnicodeSpace = true
  · rw [if_pos doc]
    rcases doc with ⟨⟨text, split⟩, space⟩
    simp only [cons_append, nil_append, List.cons.injEq] at split
    rcases split with ⟨rfl, rfl⟩
    exact .docOpen space
  rw [if_neg doc]
  by_cases block : (c == '/' && rest.head? == some '*') = true
  · rw [if_pos block]
    simp only [Bool.and_eq_true, beq_iff_eq, head?_eq_some_iff] at block
    rcases block with ⟨rfl, rest, rfl⟩
    refine .blockComment ?_
    rintro ⟨star, space⟩
    rcases List.head?_eq_some_iff.mp star with ⟨text, rfl⟩
    exact doc ⟨⟨text, rfl⟩, space⟩
  rw [if_neg block]
  by_cases named : (c == '$' && rest.head?.any isNameStart) = true
  · rw [if_pos named]
    simp only [Bool.and_eq_true, beq_iff_eq] at named
    rcases named with ⟨rfl, named⟩
    exact .variableName named
  rw [if_neg named]
  by_cases single : (c == '\'') = true
  · rw [if_pos single]
    obtain rfl := beq_iff_eq.mp single
    exact .singleQuoted
  rw [if_neg single]
  by_cases double : (c == '"' || c == '\x60') = true
  · rw [if_pos double]
    exact .doubleQuoted (by simpa using double)
  rw [if_neg double]
  by_cases heredoc : ['<', '<', '<'] <+: c :: rest
  · rw [if_pos heredoc]
    rcases heredoc with ⟨text, split⟩
    simp only [List.cons_append, List.nil_append, List.cons.injEq] at split
    rcases split with ⟨rfl, rfl⟩
    exact .heredoc
  rw [if_neg heredoc]
  by_cases close : (c == '?' && rest.head? == some '>') = true
  · rw [if_pos close]
    simp only [Bool.and_eq_true, beq_iff_eq, List.head?_eq_some_iff] at close
    rcases close with ⟨rfl, rest, rfl⟩
    exact .closeTag
  rw [if_neg close]
  by_cases numeric : (c.isDigit || (c == '.' && rest.head?.any Char.isDigit)) = true
  · rw [if_pos numeric]
    exact .number (by simpa using numeric)
  rw [if_neg numeric]
  by_cases word : (isNameStart c || (c == '\\' && rest.head?.any isNameStart)) = true
  · rw [if_pos word]
    exact .name (by simpa using word)
  rw [if_neg word]
  refine .operator ⟨?_, ?_, ?_, ?_, ?_, heredoc, ?_, ?_, ?_⟩ <;> simp_all

/-- The first characters allow only one lexeme of PHP. -/
theorem PhpStep.eq_phpStep (begins : PhpStep c rest found) : phpStep c rest = found := by
  unfold phpStep
  cases begins with
  | newline => simp
  | blanks blank =>
    have : c ≠ '\n' := ne_of_test blank (by decide)
    simp [blank, this]
  | attributeStart => simp [isBlank]
  | hashComment other => simp [isBlank, other]
  | slashComment => simp [isBlank]
  | docOpen space => simp [isBlank, space]
  | @blockComment rest other =>
    cases rest with
    | nil => simp [isBlank]
    | cons d rest =>
      by_cases star : d = '*'
      · subst star
        have other : rest.head?.any isUnicodeSpace = false := by simpa using other
        simp [isBlank, other]
      · simp [isBlank, Ne.symm star]
  | variableName named => simp [isBlank, named]
  | singleQuoted => simp [isBlank]
  | doubleQuoted quote => rcases quote with rfl | rfl <;> simp [isBlank]
  | heredoc => simp [isBlank]
  | closeTag => simp [isBlank]
  | number numeric =>
    rcases numeric with digit | ⟨rfl, digit⟩
    · have other (d : Char) (fails : d.isDigit = false) : c ≠ d := ne_of_test digit fails
      simp [isBlank, other ' ' rfl, other '\t' rfl, other '\r' rfl, other '\n' rfl, other '#' rfl,
        other '/' rfl, other '$' rfl, other '\'' rfl, other '"' rfl, other '\x60' rfl,
        other '?' rfl, digit, (other '/' rfl).symm, (other '<' rfl).symm]
    · simp [isBlank, digit]
  | name named =>
    rcases named with named | ⟨rfl, named⟩
    · have other (d : Char) (fails : isNameStart d = false) : c ≠ d := ne_of_test named fails
      have notDigit := isDigit_eq_false_of_isNameStart named
      simp [isBlank, other ' ' rfl, other '\t' rfl, other '\r' rfl, other '\n' rfl, other '#' rfl,
        other '/' rfl, other '$' rfl, other '\'' rfl, other '"' rfl, other '\x60' rfl,
        other '?' rfl, other '.' rfl, notDigit, named, (other '/' rfl).symm,
        (other '<' rfl).symm]
    · simp [isBlank, named]
  | operator begins =>
    rcases begins with ⟨space, hash, comment, named, quotes, heredoc, close, number, word⟩
    have hash : (c == '#') = false := by simpa using hash
    have line : (c == '/' && rest.head? == some '/') = false := by
      simpa using fun slash => (comment slash).1
    have doc : ¬['/', '*', '*'] <+: c :: rest := by
      rintro ⟨text, split⟩
      simp only [List.cons_append, List.nil_append, List.cons.injEq] at split
      exact (comment split.1.symm).2 (by simp [← split.2])
    have block : (c == '/' && rest.head? == some '*') = false := by
      simpa using fun slash => (comment slash).2
    have notVariable : (c == '$' && rest.head?.any isNameStart) = false := by simpa using named
    have single : (c == '\'') = false := by simpa using quotes.1
    have double : (c == '"' || c == '\x60') = false := by simpa using quotes.2
    have notClose : (c == '?' && rest.head? == some '>') = false := by simpa using close
    have notNumber : (c.isDigit || (c == '.' && rest.head?.any Char.isDigit)) = false := by
      simpa using number
    have notName : (isNameStart c || (c == '\\' && rest.head?.any isNameStart)) = false := by
      simpa using word
    simp only [space, hash, line, doc, block, notVariable, single, double, heredoc, notClose,
      notNumber, notName, Bool.false_and, Bool.or_false, false_and, Bool.false_eq_true, if_false]

theorem PhpStep.tail_le (begins : PhpStep c rest found) : found.tail ≤ rest.length := by
  cases begins with
  | newline => simp
  | blanks blank => exact Scan.spacing_le rest
  | attributeStart => simp
  | hashComment other => exact Scan.lineComment_le rest
  | slashComment => exact Scan.lineComment_le _
  | docOpen space => simp
  | @blockComment rest other =>
    have := commentStep_tail_le 2 rest
    simp only [length_cons]
    omega
  | variableName named => exact Scan.run_le isNameChar rest
  | singleQuoted => exact Scan.quoted_le _ rest
  | doubleQuoted quote => exact Scan.quoted_le c rest
  | @heredoc rest =>
    have := heredocStep_tail_le rest
    simp only [length_cons]
    omega
  | @closeTag rest =>
    cases rest with
    | nil => simp
    | cons d rest =>
      simp only [length_cons]
      split <;> omega
  | number numeric => exact Scan.number_le _ rest
  | name named => exact Scan.name_le rest
  | operator begins => exact operatorStep_tail_le c rest

/-- How the next lexeme of a doc comment follows from its first characters. -/
inductive DocStep (starAllowed tagAllowed : Bool) : Char → List Char → Step → Prop where
  | close {rest : List Char} : DocStep starAllowed tagAllowed '*' ('/' :: rest) ⟨.docClose, 1, .php⟩
  | newline {rest : List Char} :
      DocStep starAllowed tagAllowed '\n' rest ⟨.docWhitespace, 0, .docComment true true⟩
  | blanks {c : Char} {rest : List Char} {endsLine : Bool} (blank : isBlank c = true)
      (ends : endsLine = ((c :: rest.take (Scan.spacing rest)).getLast? == some '\n')) :
      DocStep starAllowed tagAllowed c rest ⟨.docWhitespace, Scan.spacing rest,
        .docComment (starAllowed || endsLine) (tagAllowed || endsLine)⟩
  | star {rest : List Char} (allowed : starAllowed = true) (other : rest.head? ≠ some '/') :
      DocStep starAllowed tagAllowed '*' rest ⟨.docStar, 0, .docComment false true⟩
  | tag {rest : List Char} (allowed : tagAllowed = true)
      (named : rest.head?.any isTagChar = true) :
      DocStep starAllowed tagAllowed '@' rest
        ⟨.docTag, Scan.run isTagChar rest, .docComment false false⟩
  | text {c : Char} {rest : List Char} (notClose : ¬['*', '/'] <+: c :: rest)
      (notSpace : isBlank c = false ∧ c ≠ '\n') (notStar : c = '*' → starAllowed = false)
      (notTag : c = '@' → tagAllowed = true → rest.head?.any isTagChar = false) :
      DocStep starAllowed tagAllowed c rest
        ⟨.docString, Scan.docText (c :: rest) - 1, .docComment false false⟩

/-- The next lexeme of a doc comment is one that its first characters allow. -/
theorem docStep_spec (starAllowed tagAllowed : Bool) (c : Char) (rest : List Char) :
    DocStep starAllowed tagAllowed c rest (docStep starAllowed tagAllowed c rest) := by
  unfold docStep
  dsimp only
  by_cases close : ['*', '/'] <+: c :: rest
  · rw [if_pos close]
    rcases close with ⟨text, split⟩
    simp only [cons_append, nil_append, List.cons.injEq] at split
    rcases split with ⟨rfl, rfl⟩
    exact .close
  rw [if_neg close]
  by_cases space : (isBlank c || c == '\n') = true
  · rw [if_pos space]
    by_cases newline : c = '\n'
    · subst newline
      simpa using DocStep.newline
    · simp only [if_neg newline]
      exact .blanks (by simpa [newline] using space) rfl
  rw [if_neg space]
  by_cases star : (c == '*' && starAllowed) = true
  · rw [if_pos star]
    simp only [Bool.and_eq_true, beq_iff_eq] at star
    rcases star with ⟨rfl, allowed⟩
    refine .star allowed ?_
    intro slash
    rcases List.head?_eq_some_iff.mp slash with ⟨text, rfl⟩
    exact close ⟨text, rfl⟩
  rw [if_neg star]
  by_cases tag : (c == '@' && tagAllowed && rest.head?.any isTagChar) = true
  · rw [if_pos tag]
    simp only [Bool.and_eq_true, beq_iff_eq] at tag
    rcases tag with ⟨⟨rfl, allowed⟩, named⟩
    exact .tag allowed named
  rw [if_neg tag]
  refine .text close (by simpa using space) ?_ ?_ <;> simp_all

/-- The first characters allow only one lexeme of a doc comment. -/
theorem DocStep.eq_docStep {starAllowed tagAllowed : Bool}
    (begins : DocStep starAllowed tagAllowed c rest found) :
    docStep starAllowed tagAllowed c rest = found := by
  unfold docStep
  cases begins with
  | close => simp
  | newline => simp
  | blanks blank ends =>
    have notNewline : c ≠ '\n' := ne_of_test blank (by decide)
    have notStar : c ≠ '*' := ne_of_test blank (by decide)
    simp [blank, notNewline, notStar.symm, ends]
  | @star rest allowed other =>
    have notClose : ¬['*', '/'] <+: '*' :: rest := by
      rintro ⟨text, split⟩
      simp only [cons_append, nil_append, List.cons.injEq, true_and] at split
      exact other (by simp [← split])
    simp [notClose, isBlank, allowed]
  | tag allowed named => simp [isBlank, allowed, named]
  | text notClose notSpace notStar notTag =>
    have star : (c == '*' && starAllowed) = false := by simpa using notStar
    have tag : (c == '@' && tagAllowed && rest.head?.any isTagChar) = false := by
      simpa using notTag
    simp [notClose, notSpace, star, tag]

theorem DocStep.tail_le {starAllowed tagAllowed : Bool}
    (begins : DocStep starAllowed tagAllowed c rest found) : found.tail ≤ rest.length := by
  cases begins with
  | close => simp
  | newline => simp
  | blanks blank ends => exact Scan.spacing_le rest
  | star allowed other => simp
  | tag allowed named => exact Scan.run_le isTagChar rest
  | text notClose notSpace notStar notTag =>
    have text_le := Scan.docText_le_docLine (c :: rest)
    have line_le := Scan.docLine_le (c :: rest)
    simp only [length_cons] at line_le ⊢
    omega

/-- A step never announces more characters than there are. -/
theorem step_tail_le (mode : Mode) (c : Char) (rest : List Char) :
    (step mode c rest).tail ≤ rest.length := by
  cases mode with
  | html => exact (htmlStep_spec c rest).tail_le
  | php => exact (phpStep_spec c rest).tail_le
  | blockComment =>
    have := commentStep_tail_le 0 (c :: rest)
    simp only [step, length_cons] at this ⊢
    omega
  | docComment starAllowed tagAllowed => exact (docStep_spec starAllowed tagAllowed c rest).tail_le

/--
The text is cut into the lexemes, beginning in the given mode and at the given place.
Each lexeme is what a step announces in front of the rest of the text.
-/
inductive Cuts : Mode → Position → List Char → List Lexeme → Prop where
  | done {mode : Mode} {position : Position} : Cuts mode position [] []
  | next {mode after : Mode} {position : Position} {c : Char} {taken rest : List Char} {kind : Kind}
      {lexemes : List Lexeme}
      (announced : step mode c (taken ++ rest) = ⟨kind, taken.length, after⟩)
      (following : Cuts after (position.after (c :: taken)) rest lexemes) :
      Cuts mode position (c :: (taken ++ rest))
        (⟨kind, c :: taken, position.line, position.column⟩ :: lexemes)

theorem scan_nil (mode : Mode) (position : Position) : scan mode position [] = [] := by
  rw [scan]

/-- The first lexeme is what the step announces, and the scan goes on behind it. -/
theorem scan_of_step {mode after : Mode} {taken : List Char} {kind : Kind}
    (announced : step mode c (taken ++ rest) = ⟨kind, taken.length, after⟩) (position : Position) :
    scan mode position (c :: (taken ++ rest)) =
      ⟨kind, c :: taken, position.line, position.column⟩ ::
        scan after (position.after (c :: taken)) rest := by
  rw [scan]
  simp [announced]

/-- The scan cuts its text, lexeme by lexeme. -/
theorem cuts_scan (mode : Mode) (position : Position) (text : List Char) :
    Cuts mode position text (scan mode position text) := by
  fun_induction scan mode position text with
  | case1 => exact .done
  | case2 mode position c rest found text ih =>
    have tail_le : found.tail ≤ rest.length := step_tail_le mode c rest
    have split : rest.take found.tail ++ rest.drop found.tail = rest :=
      take_append_drop found.tail rest
    have announced : step mode c (rest.take found.tail ++ rest.drop found.tail) =
        ⟨found.kind, (rest.take found.tail).length, found.mode⟩ := by
      rw [split, length_take_of_le tail_le]
    have cut := Cuts.next announced ih
    rwa [split] at cut

namespace Cuts

variable {mode : Mode} {position : Position} {text : List Char} {lexemes : List Lexeme}

/-- The texts of the lexemes make up the text that was cut. -/
theorem flatMap_text (cuts : Cuts mode position text lexemes) :
    lexemes.flatMap Lexeme.text = text := by
  induction cuts with
  | done => rfl
  | next announced following ih => simp [ih]

/-- No lexeme is empty. -/
theorem text_ne_nil (cuts : Cuts mode position text lexemes) :
    ∀ lexeme ∈ lexemes, lexeme.text ≠ [] := by
  induction cuts with
  | done => simp
  | next announced following ih => simpa using ih

theorem length_le (cuts : Cuts mode position text lexemes) : lexemes.length ≤ text.length := by
  induction cuts with
  | done => simp
  | next announced following ih =>
    simp only [length_cons, length_append]
    omega

end Cuts

end Lexeme

/-- The lexemes of a source are cut from it, starting outside of PHP. -/
theorem cuts_lex (source : List Char) : Lexeme.Cuts .html {} source (lex source) :=
  Lexeme.cuts_scan .html {} source

end PhpStyle
