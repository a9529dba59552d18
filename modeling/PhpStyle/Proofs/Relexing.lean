import Mathlib.Data.List.TakeWhile
import PhpStyle.Proofs.Lookahead

/-!
# Lexing a text that has been edited

An edit works on the texts of lexemes, but the edited text is lexed anew. This
file says which edits the lexer does not notice beyond what they do: a comma put
behind a significant lexeme, a line of a doc comment taken out as a whole, and
the end of such a line taken out from a tag on. A `Revision` is a list of lexemes
with any number of such edits.

The main statement is `cut_revision`: the lexemes of the edited text are those
that were kept, with the commas. Only blanks of a doc comment that come to stand
side by side run together.
-/

namespace PhpStyle

open Scan List

/-- The kind and the text of a lexeme or token. -/
abbrev Piece := Kind × List Char

/-- The kind and the text of a lexeme. -/
def Lexeme.piece (lexeme : Lexeme) : Piece :=
  (lexeme.kind, lexeme.text)

namespace Lexeme

open Text

/-- The kinds and texts of the lexemes of a text that begins in the given mode. -/
def cut (mode : Mode) (text : List Char) : List Piece :=
  (scan mode {} text).map piece

variable {mode after : Mode} {c : Char} {taken rest text blanks : List Char} {kind : Kind}
  {found : Step} {starAllowed tagAllowed : Bool}

/-- What a text is cut into does not depend on its place. -/
theorem map_piece_scan (mode : Mode) (position : Position) (text : List Char) :
    (scan mode position text).map piece = cut mode text := by
  unfold cut
  generalize ({} : Position) = other
  fun_induction scan mode position text generalizing other with
  | case1 => rw [scan_nil]
  | case2 mode position c rest found text ih =>
    conv => rhs; rw [scan]
    simp only [map_cons]
    congr 1
    exact ih _

theorem cut_nil (mode : Mode) : cut mode [] = [] := by
  simp [cut, scan_nil]

theorem cut_of_step (announced : step mode c (taken ++ rest) = ⟨kind, taken.length, after⟩) :
    cut mode (c :: (taken ++ rest)) = (kind, c :: taken) :: cut after rest := by
  rw [cut, scan_of_step announced, map_cons, map_piece_scan]
  rfl

theorem cut_cons (mode : Mode) (c : Char) (rest : List Char) :
    cut mode (c :: rest) = ((step mode c rest).kind, c :: rest.take (step mode c rest).tail) ::
      cut (step mode c rest).mode (rest.drop (step mode c rest).tail) := by
  rw [cut, scan, map_cons, map_piece_scan]
  rfl

theorem ofWord_cases (text : List Char) :
    (Kind.ofWord text).isKeyword = true ∨ Kind.ofWord text = .name := by
  have keywords : ∀ entry ∈ Kind.keywords, entry.2.isKeyword = true := by decide
  unfold Kind.ofWord
  cases found : Kind.keywords.lookup (String.ofList (text.map Char.toLower)) with
  | none => exact .inr rfl
  | some kind =>
    rcases List.lookup_eq_some_iff.mp found with ⟨earlier, later, split, -⟩
    have listed : (String.ofList (text.map Char.toLower), kind) ∈ Kind.keywords := by simp [split]
    exact .inl (keywords _ listed)

/-- What holds of every keyword and of names holds of every word. -/
theorem ofWord_satisfies (holds : Kind → Prop)
    (keywords : ∀ kind : Kind, kind.isKeyword = true → holds kind) (name : holds .name)
    (text : List Char) : holds (Kind.ofWord text) := by
  rcases ofWord_cases text with keyword | same
  · exact keywords _ keyword
  · rwa [same]

/-- The kinds of the lexemes inside a doc comment. -/
def isInner : Kind → Bool
  | .docClose | .docStar | .docWhitespace | .docTag | .docString => true
  | _ => false

theorem ne_docWhitespace (outer : isInner kind = false) : kind ≠ .docWhitespace := by
  rintro rfl
  simp [isInner] at outer

/-- Kinds behind which a comma may be put: significant ones that PHP code follows. -/
def takesComma (kind : Kind) : Bool :=
  kind.isSignificant && kind != .inlineHtml && kind != .closeTag

theorem isInner_of_takesComma (takes : takesComma kind = true) : isInner kind = false := by
  revert takes
  cases kind <;> decide

theorem seesFront_of_takesComma (takes : takesComma kind = true) : seesFront kind = false := by
  revert takes
  cases kind <;> decide

/-- Kinds that the lexer never gives: the neighbours of a word or bracket do. -/
def isContextual : Kind → Bool
  | .anonClass | .closure | .openShortArray | .closeShortArray | .attributeEnd => true
  | _ => false

/-- The kinds of the lexemes of PHP code that stay within it. -/
def isPlain : Kind → Bool
  | .inlineHtml | .openTag | .openTagWithEcho | .closeTag | .comment | .docOpen => false
  | kind => !isInner kind && !isContextual kind

/-- The modes before and behind a lexeme of a kind. -/
inductive Joins : Mode → Kind → Mode → Prop
  | html : Joins .html .inlineHtml .html
  | openTag : Joins .html .openTag .php
  | echoTag : Joins .html .openTagWithEcho .php
  | closeTag : Joins .php .closeTag .html
  | plain {kind : Kind} (plain : isPlain kind = true) : Joins .php kind .php
  | comment {mode after : Mode} (before : mode = .php ∨ mode = .blockComment)
      (behind : after = .php ∨ after = .blockComment) : Joins mode .comment after
  | docOpen : Joins .php .docOpen (.docComment false true)
  | docClose {starAllowed tagAllowed : Bool} :
      Joins (.docComment starAllowed tagAllowed) .docClose .php
  | inner {starAllowed tagAllowed starNext tagNext : Bool} {kind : Kind}
      (inner : isInner kind = true) (goesOn : kind ≠ .docClose) :
      Joins (.docComment starAllowed tagAllowed) kind (.docComment starNext tagNext)

theorem joins_commentStep (before : mode = .php ∨ mode = .blockComment) (seen : Nat)
    (text : List Char) : Joins mode (commentStep seen text).kind (commentStep seen text).mode := by
  refine .comment before ?_
  simp only [commentStep]
  split <;> simp

theorem HtmlStep.joins (begins : HtmlStep c rest found) : Joins .html found.kind found.mode := by
  cases begins with
  | html notOpen => exact .html
  | echoTag => exact .echoTag
  | _ => exact .openTag

theorem DocStep.joins (begins : DocStep starAllowed tagAllowed c rest found) :
    Joins (.docComment starAllowed tagAllowed) found.kind found.mode := by
  cases begins with
  | close => exact .docClose
  | _ => exact .inner rfl (by simp)

theorem PhpStep.joins (begins : PhpStep c rest found) : Joins .php found.kind found.mode := by
  cases begins with
  | hashComment other => exact .comment (.inl rfl) (.inl rfl)
  | slashComment => exact .comment (.inl rfl) (.inl rfl)
  | docOpen space => exact .docOpen
  | blockComment other => exact joins_commentStep (.inl rfl) 2 _
  | heredoc =>
    simp only [heredocStep]
    split <;> exact .plain rfl
  | closeTag => exact .closeTag
  | number numeric => split <;> exact .plain rfl
  | name named =>
    apply ofWord_satisfies fun kind => Joins .php kind .php
    · intro kind keyword
      refine .plain ?_
      revert keyword
      cases kind <;> decide
    · exact .plain rfl
  | operator begins =>
    rw [operatorStep_mode]
    exact .plain (operatorStep_satisfies (fun kind => isPlain kind = true) (by decide) rfl c rest)
  | _ => exact .plain rfl

/-- Every step of the lexer leads from mode to mode as its kind says. -/
theorem step_joins (mode : Mode) (c : Char) (rest : List Char) :
    Joins mode (step mode c rest).kind (step mode c rest).mode := by
  cases mode with
  | html => exact (htmlStep_spec c rest).joins
  | php => exact (phpStep_spec c rest).joins
  | blockComment => exact joins_commentStep (.inr rfl) 0 (c :: rest)
  | docComment starAllowed tagAllowed => exact (docStep_spec starAllowed tagAllowed c rest).joins

theorem joins_of_step {tail : Nat} (announced : step mode c rest = ⟨kind, tail, after⟩) :
    Joins mode kind after := by
  have joins := step_joins mode c rest
  rwa [announced] at joins

namespace Joins

variable {mode after : Mode} {kind : Kind}

theorem isDoc_eq (joins : Joins mode kind after) : mode.isDoc = isInner kind := by
  cases joins with
  | plain plain => revert plain; cases kind <;> decide
  | comment before behind => rcases before with rfl | rfl <;> rfl
  | inner inner goesOn => exact inner.symm
  | _ => rfl

theorem eq_php_of_takesComma (joins : Joins mode kind after) (takes : takesComma kind = true) :
    after = .php := by
  cases joins with
  | inner inner goesOn =>
    rw [isInner_of_takesComma takes] at inner
    cases inner
  | plain plain => rfl
  | comment before behind => cases takes
  | _ => revert takes; decide

theorem sign_eq (joins : Joins mode kind after) (sees : seesFront kind = true) :
    after.sign = mode.sign := by
  cases joins with
  | comment before behind => rcases before with rfl | rfl <;> rcases behind with rfl | rfl <;> rfl
  | openTag => revert sees; decide
  | echoTag => revert sees; decide
  | closeTag => revert sees; decide
  | _ => rfl

end Joins

theorem exists_of_isDoc (inside : mode.isDoc = true) :
    ∃ starAllowed tagAllowed, mode = .docComment starAllowed tagAllowed := by
  cases mode with
  | docComment starAllowed tagAllowed => exact ⟨starAllowed, tagAllowed, rfl⟩
  | _ => simp [Mode.isDoc] at inside

/-- The lexemes inside doc comments have kinds of their own. -/
theorem isDoc_eq_isInner {tail : Nat} (announced : step mode c rest = ⟨kind, tail, after⟩) :
    mode.isDoc = isInner kind :=
  (joins_of_step announced).isDoc_eq

theorem docStep_of_step {starAllowed tagAllowed : Bool}
    (announced : step (.docComment starAllowed tagAllowed) c rest = found) :
    DocStep starAllowed tagAllowed c rest found :=
  announced ▸ docStep_spec starAllowed tagAllowed c rest

/-- What is announced inside a doc comment is announced by the lexing of doc comments. -/
theorem docStep_of_isInner {tail : Nat} (announced : step mode c rest = ⟨kind, tail, after⟩)
    (inner : isInner kind = true) :
    ∃ starAllowed tagAllowed, mode = .docComment starAllowed tagAllowed ∧
      DocStep starAllowed tagAllowed c rest ⟨kind, tail, after⟩ := by
  obtain ⟨starAllowed, tagAllowed, rfl⟩ :=
    exists_of_isDoc ((isDoc_eq_isInner announced).trans inner)
  exact ⟨starAllowed, tagAllowed, rfl, docStep_of_step announced⟩

theorem PhpStep.eq_docOpen (begins : PhpStep c text found) (inside : found.mode.isDoc = true) :
    ∃ rest, c :: text = '/' :: '*' :: '*' :: rest ∧
      found = ⟨.docOpen, 2, .docComment false true⟩ ∧
      rest.head?.any isUnicodeSpace = true := by
  cases begins with
  | @docOpen rest space => exact ⟨rest, rfl, rfl, space⟩
  | @blockComment rest other => simp [commentStep_isDoc 2 rest] at inside
  | @heredoc rest => simp [heredocStep_mode rest, Mode.isDoc] at inside
  | operator begins => simp [operatorStep_mode c text, Mode.isDoc] at inside
  | _ => simp [Mode.isDoc] at inside

/-- Only the opener of a doc comment leads into it. -/
theorem eq_docOpen_of_isDoc (outside : mode.isDoc = false) (inside : after.isDoc = true)
    (announced : step mode c (taken ++ rest) = ⟨kind, taken.length, after⟩) :
    kind = .docOpen ∧ c :: taken = ['/', '*', '*'] ∧ after = .docComment false true ∧
      rest.head?.any isUnicodeSpace = true := by
  obtain rfl : mode = .php := by
    cases joins_of_step announced with
    | docOpen => rfl
    | comment before behind => rcases behind with rfl | rfl <;> cases inside
    | inner inner goesOn => cases outside
    | _ => cases inside
  have begins := phpStep_spec c (taken ++ rest)
  rw [← step, announced] at begins
  rcases begins.eq_docOpen inside with ⟨text, split, found, space⟩
  simp only [Step.mk.injEq] at found
  have lengths : (c :: taken).length = ['/', '*', '*'].length := by simp [found.2.1]
  rcases append_inj (show c :: taken ++ rest = ['/', '*', '*'] ++ text from split) lengths
    with ⟨opener, rfl⟩
  exact ⟨found.1, opener, found.2.2, space⟩

/-- Whitespace of a doc comment is blanks, which a newline may end. -/
theorem spacing_split (reaches : spacing (taken ++ rest) = taken.length) :
    (∀ c ∈ taken, isBlank c = true) ∨
      ∃ blanks, taken = blanks ++ ['\n'] ∧ ∀ c ∈ blanks, isBlank c = true := by
  induction taken with
  | nil => simp
  | cons c taken ih =>
    simp only [cons_append, spacing, length_cons] at reaches
    split at reaches
    · next newline =>
        obtain rfl := List.length_eq_zero_iff.mp (show taken.length = 0 by omega)
        exact .inr ⟨[], by simp [newline]⟩
    · split at reaches
      · next blank =>
          rcases ih (by omega) with blanks | ⟨blanks, rfl, all⟩
          · exact .inl (by simpa [blank] using blanks)
          · exact .inr ⟨c :: blanks, rfl, by simpa [blank] using all⟩
      · omega

/-- Whether a text ends with a newline. -/
def endsLine (text : List Char) : Bool :=
  text.getLast? == some '\n'

/-- The lexeme ends a line of a doc comment. -/
def endsDocLine (lexeme : Lexeme) : Bool :=
  lexeme.kind == .docWhitespace && endsLine lexeme.text

/-- Puts blanks of a doc comment before lexemes. They join whitespace that comes next. -/
def addBlanks (blanks : List Char) : List Piece → List Piece
  | (.docWhitespace, text) :: rest => (.docWhitespace, blanks ++ text) :: rest
  | rest => (.docWhitespace, blanks) :: rest

/-- Puts a lexeme before others. -/
def attach (piece : Piece) (pieces : List Piece) : List Piece :=
  if piece.1 = .docWhitespace ∧ endsLine piece.2 = false then addBlanks piece.2 pieces
  else piece :: pieces

theorem step_spacing (starAllowed tagAllowed : Bool)
    (reaches : spacing (c :: taken ++ rest) = (c :: taken).length) :
    step (.docComment starAllowed tagAllowed) c (taken ++ rest) =
      ⟨.docWhitespace, taken.length, .docComment (starAllowed || endsLine (c :: taken))
        (tagAllowed || endsLine (c :: taken))⟩ := by
  simp only [cons_append, spacing, length_cons] at reaches
  by_cases newline : c = '\n'
  · rw [if_pos newline] at reaches
    obtain rfl := List.length_eq_zero_iff.mp (show taken.length = 0 by omega)
    subst newline
    simp [step, DocStep.newline.eq_docStep, endsLine]
  · rw [if_neg newline] at reaches
    cases blank : isBlank c with
    | false => simp [blank] at reaches
    | true =>
      simp only [blank, if_true, Nat.add_right_cancel_iff] at reaches
      simp only [step]
      rw [(DocStep.blanks blank rfl).eq_docStep, reaches, take_left]
      rfl

theorem cut_spacing (starAllowed tagAllowed : Bool) {space : List Char} (nonempty : space ≠ [])
    (reaches : spacing (space ++ rest) = space.length) :
    cut (.docComment starAllowed tagAllowed) (space ++ rest) =
      (.docWhitespace, space) :: cut (.docComment (starAllowed || endsLine space)
        (tagAllowed || endsLine space)) rest := by
  obtain ⟨c, taken, rfl⟩ := exists_cons_of_ne_nil nonempty
  exact cut_of_step (step_spacing starAllowed tagAllowed reaches)

theorem endsLine_of_blank (blank : ∀ c ∈ blanks, isBlank c = true) : endsLine blanks = false := by
  by_contra ends
  simp only [endsLine, Bool.not_eq_false, beq_iff_eq] at ends
  have := blank '\n' (mem_of_getLast? ends)
  simp [isBlank] at this

theorem spacing_append (blank : ∀ c ∈ blanks, isBlank c = true) :
    spacing (blanks ++ rest) = blanks.length + spacing rest := by
  induction blanks with
  | nil => simp
  | cons c blanks ih =>
    have notNewline : c ≠ '\n' := ne_of_test (blank c (by simp)) (by decide)
    rw [cons_append, spacing, if_neg notNewline, if_pos (blank c (by simp)),
      ih fun d inside => blank d (by simp [inside]), length_cons]
    omega

theorem cut_lineEnd (starAllowed tagAllowed : Bool) (rest : List Char)
    (blank : ∀ c ∈ blanks, isBlank c = true) :
    cut (.docComment starAllowed tagAllowed) (blanks ++ ['\n'] ++ rest) =
      (.docWhitespace, blanks ++ ['\n']) :: cut (.docComment true true) rest := by
  have reaches : spacing (blanks ++ ['\n'] ++ rest) = (blanks ++ ['\n']).length := by
    rw [List.append_assoc, spacing_append blank]
    simp [spacing]
  rw [cut_spacing starAllowed tagAllowed (by simp) reaches]
  simp [endsLine]

theorem addBlanks_of_ne (blanks : List Char) {piece : Piece} (rest : List Piece)
    (other : piece.1 ≠ .docWhitespace) :
    addBlanks blanks (piece :: rest) = (.docWhitespace, blanks) :: piece :: rest := by
  rcases piece with ⟨kind, text⟩
  cases kind <;> first | rfl | exact absurd rfl other

theorem kind_ne_docWhitespace (starAllowed tagAllowed : Bool)
    (notSpace : c ≠ '\n' ∧ isBlank c = false) :
    (docStep starAllowed tagAllowed c rest).kind ≠ .docWhitespace := by
  have begins := docStep_spec starAllowed tagAllowed c rest
  generalize docStep starAllowed tagAllowed c rest = found at begins
  cases begins with
  | newline => exact absurd rfl notSpace.1
  | blanks blank ends => simp [blank] at notSpace
  | _ => simp

theorem addBlanks_cut (starAllowed tagAllowed : Bool) (blanks : List Char)
    (stops : spacing rest = 0) :
    addBlanks blanks (cut (.docComment starAllowed tagAllowed) rest) =
      (.docWhitespace, blanks) :: cut (.docComment starAllowed tagAllowed) rest := by
  cases rest with
  | nil => rw [cut_nil]; rfl
  | cons c rest =>
    rw [spacing_eq_zero] at stops
    rw [cut_cons]
    refine addBlanks_of_ne blanks _ (kind_ne_docWhitespace starAllowed tagAllowed ?_)
    simpa using stops

/-- Blanks join the whitespace behind them. -/
theorem cut_blanks (starAllowed tagAllowed : Bool) (rest : List Char) (nonempty : blanks ≠ [])
    (blank : ∀ c ∈ blanks, isBlank c = true) :
    cut (.docComment starAllowed tagAllowed) (blanks ++ rest) =
      addBlanks blanks (cut (.docComment starAllowed tagAllowed) rest) := by
  obtain ⟨space, behind, rfl, reaches⟩ :
      ∃ space behind, rest = space ++ behind ∧ spacing rest = space.length :=
    ⟨rest.take (spacing rest), rest.drop (spacing rest),
      (take_append_drop _ rest).symm, (length_take_of_le (spacing_le rest)).symm⟩
  have whole : spacing (blanks ++ space ++ behind) = (blanks ++ space).length := by
    rw [List.append_assoc, spacing_append blank, reaches, length_append]
  rw [← List.append_assoc, cut_spacing starAllowed tagAllowed (by simp [nonempty]) whole]
  by_cases none : space = []
  · subst none
    rw [append_nil, endsLine_of_blank blank, addBlanks_cut starAllowed tagAllowed blanks reaches]
    simp
  · have same : endsLine (blanks ++ space) = endsLine space := by
      rw [endsLine, getLast?_append_of_ne_nil _ none, endsLine]
    rw [same, cut_spacing starAllowed tagAllowed none reaches]
    rfl

theorem cut_close (starAllowed tagAllowed : Bool) (rest : List Char) :
    cut (.docComment starAllowed tagAllowed) (['*', '/'] ++ rest) =
      (.docClose, ['*', '/']) :: cut .php rest := by
  have announced : step (.docComment starAllowed tagAllowed) '*' (['/'] ++ rest) =
      ⟨.docClose, ['/'].length, .php⟩ := DocStep.close.eq_docStep
  exact cut_of_step announced

/-- The text of a doc comment line ends here. -/
def StopsLine (text : List Char) : Prop :=
  text = [] ∨ text.head? = some '\n' ∨ ['*', '/'] <+: text

/-- Nothing but blanks is left of a doc comment line. -/
def BlankRest (rest : List Char) : Prop :=
  ∃ blanks stop, rest = blanks ++ stop ∧ (∀ c ∈ blanks, isBlank c = true) ∧ StopsLine stop

theorem stopsLine_cons : StopsLine (c :: rest) ↔ c = '\n' ∨ c = '*' ∧ rest.head? = some '/' := by
  cases rest <;> simp [StopsLine, eq_comm]

theorem docLine_of_stopsLine (stops : StopsLine text) : docLine text = 0 := by
  rcases stops with rfl | newline | close
  · rfl
  · rcases List.head?_eq_some_iff.mp newline with ⟨rest, rfl⟩
    simp [docLine]
  · cases text with
    | nil => rfl
    | cons c rest => simp [docLine, close]

theorem docLine_cons (goesOn : ¬StopsLine (c :: rest)) :
    docLine (c :: rest) = docLine rest + 1 := by
  simp only [StopsLine, head?_cons, Option.some.injEq, not_or] at goesOn
  simp only [docLine, goesOn, if_false]

theorem stopsLine_drop_docLine (text : List Char) : StopsLine (text.drop (docLine text)) := by
  induction text with
  | nil => exact .inl rfl
  | cons c rest ih =>
    by_cases stops : StopsLine (c :: rest)
    · rwa [docLine_of_stopsLine stops]
    · rwa [docLine_cons stops]

/-- What a line goes over it goes over as long as no slash comes behind it. -/
theorem docLine_append {line other : List Char} (reaches : line.length ≤ docLine (line ++ rest))
    (noSlash : other.head? ≠ some '/') : docLine (line ++ other) = line.length + docLine other := by
  induction line with
  | nil => simp
  | cons c line ih =>
    rw [cons_append] at reaches ⊢
    have goesOn : ¬StopsLine (c :: (line ++ rest)) := by
      intro stops
      simp [docLine_of_stopsLine stops] at reaches
    have still : ¬StopsLine (c :: (line ++ other)) := by
      simp only [stopsLine_cons, not_or, not_and] at goesOn ⊢
      refine ⟨goesOn.1, fun star => ?_⟩
      cases line with
      | nil => exact noSlash
      | cons d line => simpa using goesOn.2 star
    rw [docLine_cons goesOn, length_cons] at reaches
    rw [docLine_cons still, ih (by omega), length_cons]
    omega

theorem docLine_blanks {stop : List Char} (blank : ∀ c ∈ blanks, isBlank c = true)
    (stops : StopsLine stop) : docLine (blanks ++ stop) = blanks.length := by
  induction blanks with
  | nil => exact docLine_of_stopsLine stops
  | cons c blanks ih =>
    have goesOn : ¬StopsLine (c :: (blanks ++ stop)) := by
      rw [stopsLine_cons]
      rintro (newline | ⟨star, -⟩)
      · exact ne_of_test (blank c (by simp)) (by decide) newline
      · exact ne_of_test (blank c (by simp)) (by decide) star
    rw [cons_append, docLine_cons goesOn, ih fun d inside => blank d (by simp [inside]),
      length_cons]

theorem length_dropWhile_append :
    ((text ++ blanks).reverse.dropWhile isBlank).length = text.length ↔
      (∀ c ∈ blanks, isBlank c = true) ∧ text.reverse.head?.any isBlank = false := by
  have whole := congrArg List.length
    (takeWhile_append_dropWhile (p := isBlank) (l := (text ++ blanks).reverse))
  have trimmed : run isBlank (blanks.reverse ++ text.reverse) = blanks.reverse.length ↔
      (∀ c ∈ blanks.reverse, isBlank c = true) ∧ text.reverse.head?.any isBlank = false :=
    run_append_eq
  simp only [run, mem_reverse, length_reverse] at trimmed
  simp only [reverse_append, length_append, length_reverse] at whole ⊢
  rw [← trimmed]
  omega

/-- The text of a line goes on to the last character before the line stops that is not blank. -/
theorem blankRest_of_docText (reaches : docText (text ++ rest) = text.length) :
    text.length ≤ docLine (text ++ rest) ∧ text.reverse.head?.any isBlank = false ∧
      BlankRest rest := by
  have text_le : text.length ≤ docLine (text ++ rest) :=
    reaches ▸ docText_le_docLine (text ++ rest)
  have stops := stopsLine_drop_docLine (text ++ rest)
  rw [drop_append, drop_of_length_le text_le, nil_append] at stops
  rw [docText, take_append, take_of_length_le text_le, length_dropWhile_append] at reaches
  exact ⟨text_le, reaches.2, _, _, (take_append_drop _ rest).symm, reaches.1, stops⟩

/-- The characters with which the rest of a line of which only blanks are left can begin. -/
def mayEndLine (c : Char) : Bool :=
  isBlank c || c == '\n' || c == '*'

theorem isTagChar_of_mayEndLine (ends : mayEndLine c = true) : isTagChar c = false := by
  simp only [mayEndLine, isBlank, Bool.or_eq_true, beq_iff_eq] at ends
  rcases ends with (((rfl | rfl) | rfl) | rfl) | rfl <;> decide

theorem BlankRest.head?_any (blank : BlankRest rest) {test : Char → Bool}
    (fails : ∀ c, mayEndLine c = true → test c = false) : rest.head?.any test = false := by
  rcases blank with ⟨blanks, stop, rfl, blank, stops⟩
  cases blanks with
  | nil =>
    cases stop with
    | nil => rfl
    | cons c rest =>
      rw [stopsLine_cons] at stops
      rcases stops with rfl | ⟨rfl, -⟩
      · simpa using fails '\n' rfl
      · simpa using fails '*' rfl
  | cons c blanks => simpa using fails c (by simp [mayEndLine, blank c (by simp)])

theorem head?_any_beq : text.head?.any (· == c) = false ↔ text.head? ≠ some c := by
  cases text <;> simp

theorem ne_slash_of_mayEndLine (ends : mayEndLine c = true) : (c == '/') = false := by
  simpa using ne_of_test ends (by decide)

theorem BlankRest.head?_ne_slash (blank : BlankRest rest) : rest.head? ≠ some '/' :=
  head?_any_beq.mp (blank.head?_any fun _ => ne_slash_of_mayEndLine)

theorem BlankRest.append (blank : ∀ c ∈ blanks, isBlank c = true) (blankRest : BlankRest rest) :
    BlankRest (blanks ++ rest) := by
  rcases blankRest with ⟨more, stop, rfl, more_blank, stops⟩
  refine ⟨blanks ++ more, stop, (List.append_assoc _ _ _).symm, ?_, stops⟩
  simpa [or_imp, forall_and] using ⟨blank, more_blank⟩

/-- Nothing but blanks is left behind blanks: no line stops at one. -/
theorem BlankRest.of_append (blank : ∀ c ∈ blanks, isBlank c = true)
    (blankRest : BlankRest (blanks ++ rest)) : BlankRest rest := by
  rcases blankRest with ⟨front, stop, split, front_blank, stops⟩
  rcases List.append_eq_append_iff.mp split with ⟨more, rfl, rfl⟩ | ⟨more, rfl, rfl⟩
  · exact ⟨more, stop, rfl, fun c inside => front_blank c (by simp [inside]), stops⟩
  · cases more with
    | nil => exact ⟨[], rest, rfl, by simp, stops⟩
    | cons c more =>
      have isBlank := blank c (by simp)
      rw [cons_append, stopsLine_cons] at stops
      rcases stops with rfl | ⟨rfl, -⟩ <;> simp [Text.isBlank] at isBlank

theorem docText_replace {other : List Char} (reaches : docText (text ++ rest) = text.length)
    (blank : BlankRest other) : docText (text ++ other) = text.length := by
  rcases blankRest_of_docText reaches with ⟨text_le, full, -⟩
  have noSlash := blank.head?_ne_slash
  rcases blank with ⟨blanks, stop, rfl, blank, stops⟩
  have line := docLine_append text_le noSlash
  rw [docLine_blanks blank stops, ← length_append] at line
  rw [docText, line, ← List.append_assoc, take_left]
  exact length_dropWhile_append.mpr ⟨blank, full⟩

theorem docText_pos (notBlank : isBlank c = false) (goesOn : ¬StopsLine (c :: rest)) :
    0 < docText (c :: rest) := by
  rw [docText, docLine_cons goesOn, take_succ_cons, length_pos_iff, ne_eq, dropWhile_eq_nil_iff]
  intro blank
  simpa [notBlank] using blank c (by simp)

theorem HtmlStep.tail_pos (begins : HtmlStep c rest found) (opens : ['<', '?'] <+: c :: rest) :
    0 < found.tail := by
  cases begins with
  | html notOpen => exact absurd opens notOpen
  | _ => simp

namespace DocStep

variable {starAllowed tagAllowed : Bool} {c : Char} {text : List Char} {found : Step}

section

variable (begins : DocStep starAllowed tagAllowed c text found)

include begins

theorem of_docWhitespace
    (kind : found.kind = .docWhitespace) : spacing (c :: text) = found.tail + 1 := by
  cases begins with
  | newline => simp [spacing]
  | blanks blank ends =>
    have notNewline : c ≠ '\n' := ne_of_test blank (by decide)
    simp [spacing, notNewline, blank]
  | _ => simp at kind

theorem of_docClose (kind : found.kind = .docClose) :
    ∃ rest, c :: text = ['*', '/'] ++ rest ∧ found = ⟨.docClose, 1, .php⟩ := by
  cases begins with
  | @close rest => exact ⟨rest, rfl, rfl⟩
  | _ => simp at kind

theorem of_docStar (kind : found.kind = .docStar) : found.tail = 0 ∧ text.head? ≠ some '/' := by
  cases begins with
  | star allowed other => exact ⟨rfl, other⟩
  | _ => simp at kind

theorem of_docTag (kind : found.kind = .docTag) : c = '@' ∧ found.tail = run isTagChar text := by
  cases begins with
  | tag allowed named => exact ⟨rfl, rfl⟩
  | _ => simp at kind

theorem of_docString (kind : found.kind = .docString) : found.mode = .docComment false false := by
  cases begins with
  | text notClose notSpace notStar notTag => rfl
  | _ => simp at kind

end

/-- Where nothing but blanks is left of a line, whitespace or the closer comes next. -/
theorem of_blankRest (begins : DocStep false false c text found) (blank : BlankRest (c :: text)) :
    found.kind = .docClose ∨ found.kind = .docWhitespace := by
  cases begins with
  | close => exact .inl rfl
  | newline => exact .inr rfl
  | blanks blank ends => exact .inr rfl
  | star allowed other => simp at allowed
  | tag allowed named => simp at allowed
  | text notClose notSpace notStar notTag =>
    rcases blank with ⟨blanks, stop, split, blank, stops⟩
    cases blanks with
    | nil =>
      rw [nil_append] at split
      subst split
      rcases stops with empty | newline | close
      · simp at empty
      · simp [notSpace.2] at newline
      · exact absurd close notClose
    | cons d blanks =>
      simp only [cons_append, List.cons.injEq] at split
      simp [split.1, blank d (by simp)] at notSpace

end DocStep

section Announced

variable {mode after : Mode} {c : Char} {taken rest : List Char}

theorem of_step_docWhitespace
    (announced : step mode c (taken ++ rest) = ⟨.docWhitespace, taken.length, after⟩) :
    spacing (c :: taken ++ rest) = (c :: taken).length ∧
      ∃ starAllowed tagAllowed, mode = .docComment starAllowed tagAllowed ∧
        after = .docComment (starAllowed || endsLine (c :: taken))
          (tagAllowed || endsLine (c :: taken)) := by
  obtain ⟨starAllowed, tagAllowed, rfl, begins⟩ := docStep_of_isInner announced rfl
  have reaches : spacing (c :: taken ++ rest) = (c :: taken).length := begins.of_docWhitespace rfl
  rw [step_spacing starAllowed tagAllowed reaches, Step.mk.injEq] at announced
  exact ⟨reaches, starAllowed, tagAllowed, rfl, announced.2.2.symm⟩

theorem of_step_docClose
    (announced : step mode c (taken ++ rest) = ⟨.docClose, taken.length, after⟩) :
    c :: taken = ['*', '/'] ∧ after = .php := by
  obtain ⟨starAllowed, tagAllowed, rfl, begins⟩ := docStep_of_isInner announced rfl
  rcases begins.of_docClose rfl with ⟨text, split, found⟩
  simp only [Step.mk.injEq] at found
  rw [← cons_append] at split
  exact ⟨(append_inj split (by simp [found.2.1])).1, found.2.2⟩

theorem of_step_docTag {tail : Nat} (announced : step mode c rest = ⟨.docTag, tail, after⟩) :
    c = '@' := by
  obtain ⟨starAllowed, tagAllowed, rfl, begins⟩ := docStep_of_isInner announced rfl
  exact (begins.of_docTag rfl).1

theorem of_step_blankRest
    (announced : step (.docComment false false) c rest = ⟨kind, taken.length, after⟩)
    (blank : BlankRest (c :: rest)) : kind = .docClose ∨ kind = .docWhitespace :=
  (docStep_of_step announced).of_blankRest blank

theorem mode_of_endsDocLine {line column : Nat}
    (announced : step mode c (taken ++ rest) = ⟨kind, taken.length, after⟩)
    (ends : endsDocLine ⟨kind, c :: taken, line, column⟩ = true) :
    after = .docComment true true := by
  simp only [endsDocLine, Bool.and_eq_true, beq_iff_eq] at ends
  rcases ends with ⟨rfl, ends⟩
  rcases of_step_docWhitespace announced with ⟨-, starAllowed, tagAllowed, -, rfl⟩
  simp [ends]

/-- The sign that ends PHP code, or the text outside it, lies within one lexeme. -/
theorem isPrefix_of_sign (outside : mode.isDoc = false)
    (announced : step mode c (taken ++ rest) = ⟨kind, taken.length, after⟩)
    (sign : mode.sign <+: c :: taken ++ rest) : mode.sign <+: c :: taken := by
  have length : 0 < taken.length := by
    have tail := congrArg Step.tail announced
    cases mode with
    | html =>
      simp only at tail
      rw [← tail]
      exact (htmlStep_spec c (taken ++ rest)).tail_pos sign
    | php =>
      rcases sign with ⟨behind, split⟩
      simp only [Mode.sign, cons_append, nil_append, List.cons.injEq] at split
      rw [← split.1, ← split.2, step, PhpStep.closeTag.eq_phpStep] at tail
      simp only at tail
      split at tail <;> omega
    | blockComment =>
      rcases sign with ⟨behind, split⟩
      simp only [Mode.sign, cons_append, nil_append, List.cons.injEq] at split
      rw [← split.1, ← split.2] at tail
      simp [step, commentStep, Scan.blockComment] at tail
      omega
    | docComment starAllowed tagAllowed => simp [Mode.isDoc] at outside
  have sign_length : mode.sign.length ≤ (c :: taken).length := by
    cases mode <;> simp [Mode.sign] <;> omega
  exact prefix_of_prefix_length_le sign (prefix_append _ _) sign_length

end Announced

/--
Lexemes, and the pieces that are left of them and added to them by edits that the lexer does not
notice beyond what they do. The flag says whether a line of a doc comment has just ended.
-/
inductive Revision : Bool → List Lexeme → List Piece → Prop where
  | done {lineStart : Bool} : Revision lineStart [] []
  | keep {lineStart : Bool} {lexeme : Lexeme} {rest : List Lexeme} {pieces : List Piece}
      (following : Revision lexeme.endsDocLine rest pieces) :
      Revision lineStart (lexeme :: rest) (lexeme.piece :: pieces)
  | comma {lineStart : Bool} {lexeme : Lexeme} {rest : List Lexeme} {pieces : List Piece}
      (takes : takesComma lexeme.kind = true) (more : rest ≠ [])
      (following : Revision lexeme.endsDocLine rest pieces) :
      Revision lineStart (lexeme :: rest) (lexeme.piece :: (.comma, [',']) :: pieces)
  | dropLine {line : List Lexeme} {last : Lexeme} {rest : List Lexeme} {pieces : List Piece}
      (ends : last.endsDocLine = true) (following : Revision true rest pieces) :
      Revision true (line ++ last :: rest) pieces
  | dropTail {lineStart : Bool} {tag : Lexeme} {text : List Lexeme} {stop : Lexeme}
      {rest : List Lexeme} {pieces : List Piece} (tagged : tag.kind = .docTag)
      (stops : stop.kind = .docClose ∨ stop.endsDocLine = true)
      (following : Revision stop.endsDocLine rest pieces) :
      Revision lineStart (tag :: (text ++ stop :: rest)) (stop.piece :: pieces)

/-- The text of pieces. -/
def texts (pieces : List Piece) : List Char :=
  pieces.flatMap Prod.snd

@[simp]
theorem texts_cons (piece : Piece) (pieces : List Piece) :
    texts (piece :: pieces) = piece.2 ++ texts pieces := rfl

namespace Cuts

variable {mode : Mode} {position : Position} {text : List Char}

theorem suffix {front back : List Lexeme} (cuts : Cuts mode position text (front ++ back)) :
    ∃ mode position text, Cuts mode position text back := by
  induction front generalizing mode position text with
  | nil => exact ⟨mode, position, text, cuts⟩
  | cons lexeme front ih =>
    cases cuts with
    | next announced following => exact ih following

/-- The end of the text of a doc comment line: the closer, or blanks and the newline. -/
theorem piece_of_stops {stop : Lexeme} {rest : List Lexeme}
    (cuts : Cuts mode position text (stop :: rest))
    (stops : stop.kind = .docClose ∨ stop.endsDocLine = true) :
    stop.piece = (.docClose, ['*', '/']) ∨
      ∃ blanks, stop.piece = (.docWhitespace, blanks ++ ['\n']) ∧
        ∀ c ∈ blanks, isBlank c = true := by
  cases cuts with
  | @next _ after _ c taken behind kind _ announced following =>
    simp only [endsDocLine, Bool.and_eq_true, beq_iff_eq] at stops
    rcases stops with rfl | ⟨rfl, ends⟩
    · exact .inl (by simp [piece, (of_step_docClose announced).1])
    · rcases spacing_split (of_step_docWhitespace announced).1 with blank | ⟨blanks, split, blank⟩
      · simp [endsLine_of_blank blank] at ends
      · exact .inr ⟨blanks, by simp [piece, split], blank⟩

theorem nonempty {lexemes : List Lexeme} (cuts : Cuts mode position text lexemes)
    (more : lexemes ≠ []) : text ≠ [] := by
  cases cuts with
  | done => exact absurd rfl more
  | next announced following => simp

end Cuts

namespace Revision

variable {lineStart : Bool} {lexemes : List Lexeme} {pieces : List Piece} {mode : Mode}
  {position : Position} {text : List Char}

theorem sign_prefix (revision : Revision lineStart lexemes pieces)
    (cuts : Cuts mode position text lexemes) (outside : mode.isDoc = false)
    (start : lineStart = true → mode = .docComment true true) (sign : mode.sign <+: text) :
    mode.sign <+: texts pieces := by
  cases revision with
  | done =>
    cases cuts
    exact sign
  | keep following =>
    cases cuts with
    | next announced rest_cuts =>
      exact (isPrefix_of_sign outside announced sign).trans (prefix_append _ _)
  | comma takes more following =>
    cases cuts with
    | next announced rest_cuts =>
      exact (isPrefix_of_sign outside announced sign).trans (prefix_append _ _)
  | dropLine ends following => simp [start rfl, Mode.isDoc] at outside
  | dropTail tagged stops following =>
    cases cuts with
    | next announced rest_cuts =>
      simp only at tagged
      subst tagged
      simp [isDoc_eq_isInner announced, isInner] at outside

/-- What an edit leaves shows no new sign but a comma at its front. -/
theorem nothingNew (revision : Revision lineStart lexemes pieces)
    (cuts : Cuts mode position text lexemes) (outside : mode.isDoc = false)
    (start : lineStart = true → mode = .docComment true true) :
    NothingNew [','] text (texts pieces) := by
  induction revision generalizing mode position text with
  | done =>
    cases cuts
    exact ⟨fun _ _ _ begins => begins, id⟩
  | @keep lineStart lexeme rest pieces following ih =>
    cases cuts with
    | @next _ after _ c taken behind kind _ announced rest_cuts =>
      cases inside : after.isDoc with
      | true =>
        have opener := (eq_docOpen_of_isDoc outside inside announced).2.1
        exact NothingNew.of_long (show 3 ≤ (c :: taken).length by rw [opener]; simp) _ _
      | false =>
        exact (ih rest_cuts inside (mode_of_endsDocLine announced)).append (c :: taken)
  | @comma lineStart lexeme rest pieces takes more following ih =>
    cases cuts with
    | @next _ after _ c taken behind kind _ announced rest_cuts =>
      exact (NothingNew.insert (by simp) (rest_cuts.nonempty more) _).append (c :: taken)
  | dropLine ends following ih => simp [start rfl, Mode.isDoc] at outside
  | dropTail tagged stops following ih =>
    cases cuts with
    | next announced rest_cuts =>
      simp only at tagged
      subst tagged
      simp [isDoc_eq_isInner announced, isInner] at outside

/-- Inside a doc comment the front of the text stays, or a tag at the front gives way to the end of
its line. -/
theorem docFront (revision : Revision false lexemes pieces)
    (cuts : Cuts mode position text lexemes) :
    (texts pieces).head? = text.head? ∨
      text.head? = some '@' ∧
        (texts pieces).head?.any mayEndLine = true := by
  cases revision with
  | done =>
    cases cuts
    exact .inl rfl
  | keep following =>
    cases cuts with
    | next announced rest_cuts => exact .inl (by simp [piece])
  | comma takes more following =>
    cases cuts with
    | next announced rest_cuts => exact .inl (by simp [piece])
  | dropTail tagged stops following =>
    cases cuts with
    | next announced rest_cuts =>
      simp only at tagged
      subst tagged
      obtain rfl := of_step_docTag announced
      refine .inr ⟨rfl, ?_⟩
      rcases rest_cuts.suffix with ⟨_, _, _, stop_cuts⟩
      rcases stop_cuts.piece_of_stops stops with shape | ⟨blanks, shape, blank⟩
      · simp [shape, mayEndLine]
      · cases blanks with
        | nil => simp [shape, mayEndLine]
        | cons c blanks => simp [shape, mayEndLine, blank c (by simp)]

/-- Behind the text of a line nothing but blanks is left of the line, also after the edits. -/
theorem blankRest (revision : Revision lineStart lexemes pieces)
    (cuts : Cuts (.docComment false false) position text lexemes) (lineGoesOn : lineStart = false)
    (blank : BlankRest text) : BlankRest (texts pieces) := by
  induction revision generalizing position text with
  | done =>
    cases cuts
    exact blank
  | @keep lineStart lexeme rest pieces following ih =>
    cases cuts with
    | @next _ after _ c taken behind kind _ announced rest_cuts =>
      rcases of_step_blankRest announced blank with rfl | rfl
      · refine ⟨[], ['*', '/'] ++ texts pieces, ?_, by simp, .inr (.inr (prefix_append _ _))⟩
        simp [piece, (of_step_docClose announced).1]
      · rcases of_step_docWhitespace announced with ⟨reaches, _, _, doc, rfl⟩
        obtain ⟨rfl, rfl⟩ : _ ∧ _ := by simpa using doc
        rcases spacing_split reaches with all_blank | ⟨blanks, split, all_blank⟩
        · have goesOn := endsLine_of_blank all_blank
          simp only [goesOn, Bool.or_self] at rest_cuts
          have lineGoesOn : endsDocLine ⟨.docWhitespace, c :: taken, position.line,
              position.column⟩ = false := by simp [endsDocLine, goesOn]
          exact (ih rest_cuts lineGoesOn (.of_append all_blank blank)).append all_blank
        · refine ⟨blanks, '\n' :: texts pieces, ?_, all_blank, .inr (.inl rfl)⟩
          simp [piece, split]
  | comma takes more following ih =>
    cases cuts with
    | next announced rest_cuts =>
      rcases of_step_blankRest announced blank with rfl | rfl <;>
        simp [takesComma, Kind.isSignificant, Kind.isTrivia, Kind.isDocComment] at takes
  | dropLine ends following ih => simp at lineGoesOn
  | dropTail tagged stops following ih =>
    cases cuts with
    | next announced rest_cuts =>
      rcases of_step_blankRest announced blank with rfl | rfl <;> simp at tagged

end Revision

/-- What may come behind a lexeme inside a doc comment so that it stays as it is. -/
structure DocBehind (kind : Kind) (old new : List Char) : Prop where
  star : kind = .docStar → new.head? ≠ some '/'
  tag : kind = .docTag → new.head?.any isTagChar = false
  text : kind = .docString → BlankRest old → BlankRest new

theorem DocStep.replace {old new : List Char} (begins : DocStep starAllowed tagAllowed c text found)
    (split : text = taken ++ old) (whole : found.tail = taken.length)
    (notSpace : found.kind ≠ .docWhitespace) (behind : DocBehind found.kind old new) :
    docStep starAllowed tagAllowed c (taken ++ new) = found := by
  cases begins with
  | close =>
    obtain ⟨taken, rfl, rfl⟩ := cons_eq_append split (by simp [← whole])
    obtain rfl := List.length_eq_zero_iff.mp (show taken.length = 0 by simpa using whole)
    exact DocStep.close.eq_docStep
  | newline => exact absurd rfl notSpace
  | blanks blank ends => exact absurd rfl notSpace
  | star allowed other =>
    obtain rfl := List.length_eq_zero_iff.mp whole.symm
    exact (DocStep.star allowed (behind.star rfl)).eq_docStep
  | tag allowed named =>
    subst split
    have reaches := run_append_eq.mp whole
    have taken_ne : taken ≠ [] := by
      rintro rfl
      simp [reaches.2] at named
    have still : run isTagChar (taken ++ new) = taken.length :=
      run_append_eq.mpr ⟨reaches.1, behind.tag rfl⟩
    rw [(DocStep.tag allowed (head?_append_any new named taken_ne)).eq_docStep, still, ← whole]
  | text notClose notBlank notStar notTag =>
    subst split
    have goesOn : ¬StopsLine (c :: (taken ++ old)) := by
      rintro (empty | newline | close)
      · simp at empty
      · simp [notBlank.2] at newline
      · exact notClose close
    have reaches : docText (c :: taken ++ old) = (c :: taken).length := by
      have := docText_pos notBlank.1 goesOn
      simp only [cons_append, length_cons] at whole ⊢
      omega
    have blank := behind.text rfl (blankRest_of_docText reaches).2.2
    have still := docText_replace reaches blank
    have begins : DocStep starAllowed tagAllowed c (taken ++ new)
        ⟨.docString, docText (c :: (taken ++ new)) - 1, .docComment false false⟩ := by
      cases taken with
      | nil =>
        refine .text ?_ notBlank notStar fun _ _ => blank.head?_any fun _ =>
          isTagChar_of_mayEndLine
        rintro ⟨rest, close⟩
        simp only [cons_append, nil_append, List.cons.injEq] at close
        exact blank.head?_ne_slash (by simp [← close.2])
      | cons d taken =>
        exact .text (by simpa using notClose) notBlank notStar (by simpa using notTag)
    rw [begins.eq_docStep, ← cons_append, ← cons_append, still, reaches]

theorem attach_of_ne {piece : Piece} (pieces : List Piece) (other : piece.1 ≠ .docWhitespace) :
    attach piece pieces = piece :: pieces := by
  simp [attach, other]

/-- A lexeme inside a doc comment is found again before a text that may come behind it. -/
theorem cut_docComment {old new : List Char}
    (announced : step (.docComment starAllowed tagAllowed) c (taken ++ old) =
      ⟨kind, taken.length, after⟩) (behind : DocBehind kind old new) :
    cut (.docComment starAllowed tagAllowed) (c :: (taken ++ new)) =
      attach (kind, c :: taken) (cut after new) := by
  by_cases space : kind = .docWhitespace
  · subst space
    rcases of_step_docWhitespace announced with ⟨reaches, _, _, doc, rfl⟩
    obtain ⟨rfl, rfl⟩ : _ ∧ _ := by simpa using doc
    rcases spacing_split reaches with blank | ⟨blanks, split, blank⟩
    · have goesOn := endsLine_of_blank blank
      rw [← cons_append, cut_blanks _ _ _ (by simp) blank]
      simp [attach, goesOn]
    · have ends : endsLine (c :: taken) = true := by simp [split, endsLine]
      rw [← cons_append, split, cut_lineEnd _ _ _ blank, ← split]
      simp [attach, ends]
  · have begins := docStep_of_step announced
    rw [attach_of_ne _ space]
    exact cut_of_step (begins.replace rfl rfl space behind)

theorem cut_comma (rest : List Char) :
    cut .php (',' :: rest) = (.comma, [',']) :: cut .php rest := by
  have begins : BeginsOperator ',' rest := by
    constructor <;> simp [isBlank, isNameStart]
  have announced : step .php ',' ([] ++ rest) = ⟨.comma, 0, .php⟩ := by
    simp only [step, nil_append]
    rw [(PhpStep.operator begins).eq_phpStep]
    rfl
  exact cut_of_step announced

namespace Revision

variable {lineStart : Bool} {lexemes : List Lexeme} {pieces : List Piece} {mode after : Mode}
  {position : Position} {c : Char} {taken behind : List Char} {kind : Kind}

theorem step_outside (following : Revision lineStart lexemes pieces)
    (cuts : Cuts after position behind lexemes)
    (start : lineStart = true → after = .docComment true true) (goesOn : lineStart = false)
    (outside : mode.isDoc = false)
    (announced : step mode c (taken ++ behind) = ⟨kind, taken.length, after⟩) :
    step mode c (taken ++ texts pieces) = ⟨kind, taken.length, after⟩ := by
  refine step_replace outside announced
    (fun notDoc => (following.nothingNew cuts notDoc start).mono kind.comma_subset_marks)
    fun sees => ?_
  have sign_eq := (joins_of_step announced).sign_eq sees
  cases inside : after.isDoc with
  | false =>
    refine ⟨fun sign => ?_, fun doc => by simp [inside] at doc⟩
    rw [← sign_eq] at sign ⊢
    exact following.sign_prefix cuts inside start sign
  | true =>
    rcases eq_docOpen_of_isDoc outside inside announced with ⟨-, -, rfl, space⟩
    subst goesOn
    refine ⟨?_, fun _ => (following.docFront cuts).resolve_right ?_⟩
    · rw [← sign_eq]
      rintro ⟨rest, rfl⟩
      simp [Mode.sign, isUnicodeSpace] at space
    · rintro ⟨tag, -⟩
      simp [tag, isUnicodeSpace] at space

/-- Inside a doc comment the edited text may come behind a lexeme. -/
theorem docBehind (following : Revision lineStart lexemes pieces)
    (cuts : Cuts after position behind lexemes) (goesOn : kind ≠ .docWhitespace → lineStart = false)
    (announced : step (.docComment starAllowed tagAllowed) c (taken ++ behind) =
      ⟨kind, taken.length, after⟩) : DocBehind kind behind (texts pieces) := by
  have begins := docStep_of_step announced
  have front (other : kind ≠ .docWhitespace) {test : Char → Bool}
      (fails : ∀ c, mayEndLine c = true → test c = false)
      (old_fails : behind.head?.any test = false) : (texts pieces).head?.any test = false := by
    obtain rfl := goesOn other
    rcases following.docFront cuts with same | ⟨-, ends⟩
    · rwa [same]
    · cases head : (texts pieces).head? with
      | none => rfl
      | some c =>
        rw [head] at ends
        exact fails c ends
  constructor
  · rintro rfl
    rcases begins.of_docStar rfl with ⟨alone, other⟩
    obtain rfl := List.length_eq_zero_iff.mp alone
    exact head?_any_beq.mp
      (front (by simp) (fun _ => ne_slash_of_mayEndLine) (head?_any_beq.mpr other))
  · rintro rfl
    have reaches := (begins.of_docTag rfl).2
    exact front (by simp) (fun _ => isTagChar_of_mayEndLine) (run_append_eq.mp reaches.symm).2
  · rintro rfl blank
    obtain rfl := begins.of_docString rfl
    exact following.blankRest cuts (goesOn (by simp)) blank

end Revision

/-- Lexing an edited text gives the pieces that are left and the commas that were added, with blanks
of doc comments run together. Behind a line that goes the next one begins in its mode. -/
theorem cut_revision {lineStart : Bool} {lexemes : List Lexeme} {pieces : List Piece}
    {position : Position} (revision : Revision lineStart lexemes pieces)
    (cuts : Cuts mode position text lexemes)
    (start : lineStart = true → mode = .docComment true true) :
    cut mode (texts pieces) = pieces.foldr attach [] := by
  induction revision generalizing mode position text with
  | done => exact cut_nil mode
  | @keep lineStart lexeme rest pieces following ih =>
    cases cuts with
    | @next _ after _ c taken behind kind _ announced rest_cuts =>
      have rest_eq := ih rest_cuts (mode_of_endsDocLine announced)
      simp only [texts_cons, foldr_cons, piece, ← rest_eq, cons_append]
      cases inside : mode.isDoc with
      | true =>
        obtain ⟨starAllowed, tagAllowed, rfl⟩ := exists_of_isDoc inside
        refine cut_docComment announced (following.docBehind rest_cuts (fun other => ?_) announced)
        simp [endsDocLine, other]
      | false =>
        have other := ne_docWhitespace ((isDoc_eq_isInner announced).symm.trans inside)
        have goesOn :
            endsDocLine ⟨kind, c :: taken, position.line, position.column⟩ = false := by
          simp [endsDocLine, other]
        rw [attach_of_ne _ other]
        exact cut_of_step (following.step_outside rest_cuts (mode_of_endsDocLine announced)
          goesOn inside announced)
  | @comma lineStart lexeme rest pieces takes more following ih =>
    cases cuts with
    | @next _ after _ c taken behind kind _ announced rest_cuts =>
      have rest_eq := ih rest_cuts (mode_of_endsDocLine announced)
      have notInner := isInner_of_takesComma takes
      have outside : mode.isDoc = false := by rw [isDoc_eq_isInner announced, notInner]
      obtain rfl : after = .php := (joins_of_step announced).eq_php_of_takesComma takes
      have still := step_replace outside announced
        (fun _ => .insert (kind.comma_subset_marks mem_cons_self)
          (rest_cuts.nonempty more) (texts pieces))
        (fun sees => by simp [seesFront_of_takesComma takes] at sees)
      simp only [texts_cons, foldr_cons, piece, cons_append, nil_append]
      rw [cut_of_step still, cut_comma, rest_eq, attach_of_ne _ (ne_docWhitespace notInner),
        attach_of_ne _ (by simp)]
  | @dropLine line last rest pieces ends following ih =>
    rcases cuts.suffix with ⟨_, _, _, last_cuts⟩
    cases last_cuts with
    | next announced rest_cuts =>
      have after := mode_of_endsDocLine announced ends
      rw [start rfl, ← after]
      exact ih rest_cuts fun _ => after
  | @dropTail lineStart tag text stop rest pieces tagged stops following ih =>
    cases cuts with
    | @next _ _ _ c taken behind _ _ announced rest_cuts =>
      simp only at tagged
      subst tagged
      obtain ⟨starAllowed, tagAllowed, rfl⟩ :=
        exists_of_isDoc (isDoc_eq_isInner announced)
      rcases rest_cuts.suffix with ⟨_, _, _, stop_cuts⟩
      have shape := stop_cuts.piece_of_stops stops
      cases stop_cuts with
      | next stop_announced stop_following =>
        have rest_eq := ih stop_following (mode_of_endsDocLine stop_announced)
        simp only [texts_cons, foldr_cons, ← rest_eq]
        rcases shape with close | ⟨blanks, space, blank⟩
        · obtain rfl : _ = Kind.docClose := congrArg Prod.fst close
          obtain rfl := (of_step_docClose stop_announced).2
          rw [close, cut_close, attach_of_ne _ (by simp)]
        · obtain rfl : _ = Kind.docWhitespace := congrArg Prod.fst space
          have lineEnd : endsLine (blanks ++ ['\n']) = true := by simp [endsLine]
          obtain rfl := mode_of_endsDocLine stop_announced (stops.resolve_left (by simp))
          rw [space, cut_lineEnd _ _ _ blank]
          simp [attach, lineEnd]

section Attach

variable {mode : Mode} {position : Position} {text : List Char} {lexeme : Lexeme}
  {lexemes : List Lexeme}

theorem Cuts.ne_docWhitespace_of_stops (cuts : Cuts mode position text (lexeme :: lexemes))
    (stops : spacing text = 0) : lexeme.kind ≠ .docWhitespace := by
  cases cuts with
  | next announced following =>
    rintro rfl
    have reaches := (of_step_docWhitespace announced).1
    rw [cons_append, stops] at reaches
    simp at reaches

/-- A lexeme does not run together with what is put behind it, unless the next lexeme was
whitespace of a doc comment before. -/
theorem Cuts.attach_piece (cuts : Cuts mode position text (lexeme :: lexemes)) {pieces : List Piece}
    (begins : pieces.head?.map Prod.fst = some .docWhitespace →
      lexemes.head?.map Lexeme.kind = some .docWhitespace) :
    attach lexeme.piece pieces = lexeme.piece :: pieces := by
  cases cuts with
  | @next _ after _ c taken behind kind _ announced following =>
    by_cases space : kind = .docWhitespace
    · subst space
      rcases of_step_docWhitespace announced with ⟨reaches, -⟩
      rcases spacing_split reaches with blank | ⟨blanks, split, -⟩
      · have stops : spacing behind = 0 := by
          rw [spacing_append blank] at reaches
          omega
        have alone : attach (piece ⟨.docWhitespace, c :: taken, position.line,
            position.column⟩) pieces = addBlanks (c :: taken) pieces := by
          simp [attach, piece, endsLine_of_blank blank]
        rw [alone]
        cases pieces with
        | nil => rfl
        | cons first more =>
          apply addBlanks_of_ne
          intro joins
          cases lexemes with
          | nil => simp [joins] at begins
          | cons next lexemes =>
            exact following.ne_docWhitespace_of_stops stops (by simpa [joins] using begins)
      · have ends : endsLine (c :: taken) = true := by simp [split, endsLine]
        simp [attach, piece, ends]
    · exact attach_of_ne _ space

end Attach

end Lexeme

end PhpStyle
