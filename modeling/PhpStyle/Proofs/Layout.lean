import PhpStyle.Proofs.Relexing

/-!
# The layout of a lexed file

What the lexemes of a file say about their neighbours, by index: on which line
the next one begins, that a doc comment goes on from its opener to its closer
with lexemes of its own kinds, and that only PHP code stands before a closing
bracket.

Inside a doc comment only whitespace holds a newline, and only at its end. A tag
is the first text of its line, so two tags of a comment never share a line. Both
are what makes lines of a doc comment something that can be taken out.
-/

namespace PhpStyle.Lexeme

open Text List

section Step

variable {mode after : Mode} {c : Char} {taken rest : List Char} {kind : Kind}

variable {tail : Nat} {text : List Char} {found : Step}

section

variable (announced : step mode c rest = ⟨kind, tail, after⟩)

include announced

theorem isContextual_of_step : isContextual kind = false := by
  cases joins_of_step announced with
  | plain plain => revert plain; cases kind <;> decide
  | inner inner goesOn => revert inner; cases kind <;> decide
  | _ => rfl

theorem isDoc_of_step
    (goesOn : kind = .docOpen ∨ isInner kind = true ∧ kind ≠ .docClose) : after.isDoc = true := by
  cases joins_of_step announced with
  | plain plain => revert plain goesOn; cases kind <;> decide
  | docClose => simp at goesOn
  | docOpen => rfl
  | inner inner goesOn => rfl
  | _ => simp [isInner] at goesOn

theorem html_of_step (html : kind = .inlineHtml ∨ kind = .closeTag) : after = .html := by
  cases joins_of_step announced with
  | plain plain => rcases html with rfl | rfl <;> cases plain
  | inner inner goesOn => rcases html with rfl | rfl <;> cases inner
  | html => rfl
  | closeTag => rfl
  | _ => simp at html

end

theorem kind_of_html (announced : step .html c rest = ⟨kind, tail, after⟩) :
    kind = .inlineHtml ∨ kind = .openTag ∨ kind = .openTagWithEcho := by
  cases joins_of_step announced with
  | comment before behind => simp at before
  | _ => simp

theorem newline_not_mem_of_docLine {line : List Char}
    (reaches : line.length ≤ Scan.docLine (line ++ rest)) : '\n' ∉ line := by
  induction line with
  | nil => simp
  | cons c line ih =>
    have goesOn : ¬StopsLine (c :: (line ++ rest)) := by
      intro stops
      simp [docLine_of_stopsLine stops] at reaches
    rw [cons_append, docLine_cons goesOn, length_cons] at reaches
    rw [stopsLine_cons, not_or] at goesOn
    simp only [mem_cons, not_or]
    exact ⟨fun same => goesOn.1 same.symm, ih (by omega)⟩

theorem DocStep.newline_not_mem {starAllowed tagAllowed : Bool}
    (begins : DocStep starAllowed tagAllowed c text found) (split : text = taken ++ rest)
    (whole : found.tail = taken.length) (other : found.kind ≠ .docWhitespace) :
    '\n' ∉ c :: taken := by
  cases begins with
  | close =>
    obtain ⟨taken, rfl, rfl⟩ := cons_eq_append split (by simp [← whole])
    obtain rfl := List.length_eq_zero_iff.mp (show taken.length = 0 by simpa using whole)
    decide
  | newline => simp at other
  | blanks blank ends => simp at other
  | star allowed notClose =>
    obtain rfl := List.length_eq_zero_iff.mp whole.symm
    decide
  | tag allowed named =>
    simp only at whole
    rw [split, Scan.run_append_eq] at whole
    simp only [mem_cons, not_or]
    refine ⟨by decide, fun newline => ?_⟩
    have := whole.1 _ newline
    revert this
    decide
  | text notClose notSpace notStar notTag =>
    simp only at whole
    have goesOn : ¬StopsLine (c :: text) := by
      rintro (none | newline | close)
      · simp at none
      · simp only [head?_cons, Option.some.injEq] at newline
        exact notSpace.2 newline
      · exact notClose close
    have positive := docText_pos notSpace.1 goesOn
    rw [split] at positive whole
    have reaches : Scan.docText (c :: taken ++ rest) = (c :: taken).length := by
      rw [cons_append, length_cons]
      omega
    exact newline_not_mem_of_docLine (blankRest_of_docText reaches).1

/-- Inside a doc comment only whitespace holds a newline, and only at its end. -/
theorem endsDocLine_of_newline {line column : Nat}
    (announced : step mode c (taken ++ rest) = ⟨kind, taken.length, after⟩)
    (inner : isInner kind = true) (newline : '\n' ∈ c :: taken) :
    endsDocLine ⟨kind, c :: taken, line, column⟩ = true := by
  by_cases space : kind = .docWhitespace
  · subst space
    rcases spacing_split (of_step_docWhitespace announced).1 with blank | ⟨blanks, split, -⟩
    · have := blank _ newline
      simp [isBlank] at this
    · simp [endsDocLine, endsLine, split]
  · obtain ⟨starAllowed, tagAllowed, rfl, begins⟩ := docStep_of_isInner announced inner
    exact absurd newline (begins.newline_not_mem rfl rfl space)

/-- After text a line of a doc comment has no tag, and its mode stays the same to its end. -/
theorem DocStep.lineGoesOn (begins : DocStep false false c text found) :
    found.kind ≠ .docTag ∧ (found.kind ≠ .docClose → found.kind ≠ .docWhitespace →
      found.mode = .docComment false false) := by
  cases begins with
  | star allowed other => simp at allowed
  | tag allowed named => simp at allowed
  | _ => simp

theorem DocStep.mode_of_docTag {starAllowed tagAllowed : Bool}
    (begins : DocStep starAllowed tagAllowed c text found) (tagged : found.kind = .docTag) :
    found.mode = .docComment false false := by
  cases begins with
  | tag allowed named => rfl
  | _ => simp at tagged

end Step

theorem after_append (position : Position) (front back : List Char) :
    position.after (front ++ back) = (position.after front).after back :=
  foldl_append

theorem line_after (position : Position) (text : List Char) :
    (position.after text).line = position.line + text.count '\n' := by
  induction text generalizing position with
  | nil => rfl
  | cons c text ih =>
    have step : position.after (c :: text) = (position.next c).after text := rfl
    rw [step, ih, Position.next]
    by_cases newline : c = '\n'
    · simp [newline]
      omega
    · simp [newline]

theorem newline_of_endsDocLine {lexeme : Lexeme} (ends : lexeme.endsDocLine = true) :
    '\n' ∈ lexeme.text := by
  simp only [endsDocLine, endsLine, Bool.and_eq_true, beq_iff_eq] at ends
  exact mem_of_getLast? ends.2

/-- What holds of each lexeme of a file by itself. -/
structure Lexed (lexeme : Lexeme) : Prop where
  isContextual : isContextual lexeme.kind = false
  newline : isInner lexeme.kind = true → '\n' ∈ lexeme.text → lexeme.endsDocLine = true
  opener : lexeme.kind = .docOpen → '\n' ∉ lexeme.text

/-- What a lexeme says about the one behind it. -/
structure Adjacent (first second : Lexeme) : Prop where
  line : second.line = first.line + first.text.count '\n'
  inner : first.kind = .docOpen ∨ isInner first.kind = true ∧ first.kind ≠ .docClose →
    isInner second.kind = true
  html : first.kind = .inlineHtml ∨ first.kind = .closeTag →
    second.kind = .inlineHtml ∨ second.kind = .openTag ∨ second.kind = .openTagWithEcho

namespace Cuts

variable {mode : Mode} {position : Position} {text : List Char} {lexemes : List Lexeme}

variable {lexeme start stop : Lexeme} {rest front : List Lexeme} {first last : Nat}

theorem drop (cuts : Cuts mode position text lexemes) (index : Nat) :
    ∃ mode position text, Cuts mode position text (lexemes.drop index) := by
  rw [← take_append_drop index lexemes] at cuts
  exact cuts.suffix

theorem lexed (cuts : Cuts mode position text lexemes) (inside : lexeme ∈ lexemes) :
    lexeme.Lexed := by
  induction cuts with
  | done => simp at inside
  | @next mode after position c taken rest kind lexemes announced following ih =>
    rcases List.mem_cons.mp inside with rfl | inside
    · refine ⟨isContextual_of_step announced, endsDocLine_of_newline announced, fun opens => ?_⟩
      have outside := (isDoc_eq_isInner announced).trans (congrArg isInner opens)
      have doc := isDoc_of_step announced (.inl opens)
      simp [(eq_docOpen_of_isDoc outside doc announced).2.1]
    · exact ih inside

theorem adjacent {first second : Lexeme}
    (cuts : Cuts mode position text (first :: second :: rest)) : Adjacent first second := by
  cases cuts with
  | @next _ after _ c taken behind kind _ announced following =>
    cases following with
    | @next _ _ _ d more _ other _ other_announced _ =>
      refine ⟨line_after position (c :: taken), fun goesOn => ?_, fun html => ?_⟩
      · exact (isDoc_eq_isInner other_announced).symm.trans (isDoc_of_step announced goesOn)
      · obtain rfl := html_of_step announced html
        exact kind_of_html other_announced

/-- No tag comes on a line of a doc comment after text. -/
theorem exists_endsDocLine {back : List Lexeme} {tag : Lexeme}
    (cuts : Cuts (.docComment false false) position text (front ++ tag :: back))
    (tagged : tag.kind = .docTag)
    (goesOn : ∀ lexeme ∈ front, isInner lexeme.kind = true ∧ lexeme.kind ≠ .docClose) :
    ∃ lexeme ∈ front, lexeme.endsDocLine = true := by
  induction front generalizing position text with
  | nil =>
    cases cuts with
    | @next _ _ _ c taken rest kind _ announced following =>
      exact absurd tagged (docStep_of_step announced).lineGoesOn.1
  | cons lexeme front ih =>
    cases cuts with
    | @next _ after _ c taken rest kind _ announced following =>
      have first := goesOn _ mem_cons_self
      by_cases ends : endsDocLine ⟨kind, c :: taken, position.line, position.column⟩ = true
      · exact ⟨_, mem_cons_self, ends⟩
      have same : after = .docComment false false := by
        by_cases space : kind = .docWhitespace
        · subst space
          rcases of_step_docWhitespace announced with ⟨-, starAllowed, tagAllowed, doc, rfl⟩
          simp only [Mode.docComment.injEq] at doc
          simp only [endsDocLine, beq_self_eq_true, Bool.true_and, Bool.not_eq_true] at ends
          simp [ends, ← doc.1, ← doc.2]
        · exact (docStep_of_step announced).lineGoesOn.2 first.2 space
      subst same
      rcases ih following fun lexeme inside => goesOn lexeme (by simp [inside]) with
        ⟨lexeme, inside, ends⟩
      exact ⟨lexeme, by simp [inside], ends⟩

theorem after_tag {tag : Lexeme} (cuts : Cuts mode position text (tag :: rest))
    (tagged : tag.kind = .docTag) :
    ∃ position text, Cuts (.docComment false false) position text rest := by
  cases cuts with
  | @next _ after _ c taken behind kind _ announced following =>
    obtain ⟨starAllowed, tagAllowed, rfl, begins⟩ :=
      docStep_of_isInner announced (congrArg isInner tagged)
    obtain rfl : after = .docComment false false := begins.mode_of_docTag tagged
    exact ⟨_, _, following⟩

theorem line_of_cons (cuts : Cuts mode position text (lexeme :: lexemes)) :
    lexeme.line = position.line := by
  cases cuts with
  | next announced following => rfl

/-- A lexeme is where the text before it leads. -/
theorem place_append (cuts : Cuts mode position text (front ++ lexeme :: rest)) :
    (⟨lexeme.line, lexeme.column⟩ : Position) =
      position.after (front.flatMap Lexeme.text) := by
  induction front generalizing mode position text with
  | nil =>
    rw [nil_append] at cuts
    cases cuts with
    | next announced following => rfl
  | cons first front ih =>
    rw [cons_append] at cuts
    cases cuts with
    | next announced following => rw [ih following, flatMap_cons, after_append]

/-- A lexeme is on the line that the newlines before it lead to. -/
theorem line_append (cuts : Cuts mode position text (front ++ lexeme :: rest)) :
    lexeme.line = position.line + (front.flatMap Lexeme.text).count '\n' := by
  rw [← line_after]
  exact congrArg Position.line cuts.place_append

section

variable (cuts : Cuts mode position text lexemes)

include cuts

theorem line_at {index : Nat} (found : lexemes[index]? = some lexeme) :
    lexeme.line = position.line + ((lexemes.take index).flatMap Lexeme.text).count '\n' := by
  rcases List.getElem?_eq_some_iff.mp found with ⟨bound, rfl⟩
  rw [← take_append_drop index lexemes, drop_eq_getElem_cons bound] at cuts
  exact cuts.line_append

theorem adjacent_at {index : Nat} {first second : Lexeme} (found : lexemes[index]? = some first)
    (next : lexemes[index + 1]? = some second) : Adjacent first second := by
  rcases cuts.drop index with ⟨mode, position, text, cuts⟩
  rcases List.getElem?_eq_some_iff.mp found with ⟨bound, rfl⟩
  rcases List.getElem?_eq_some_iff.mp next with ⟨next_bound, rfl⟩
  rw [drop_eq_getElem_cons bound, drop_eq_getElem_cons next_bound] at cuts
  exact cuts.adjacent

/-- Lexemes come in the order of their lines. -/
theorem line_le (found : lexemes[first]? = some start) (last_found : lexemes[last]? = some stop)
    (ordered : first ≤ last) : start.line ≤ stop.line := by
  induction last, ordered using Nat.le_induction generalizing stop with
  | base =>
    obtain rfl := Option.some.inj (found.symm.trans last_found)
    exact Nat.le_refl _
  | succ last ordered ih =>
    have bound := (List.getElem?_eq_some_iff.mp last_found).1
    have middle := getElem?_eq_getElem (show last < lexemes.length by omega)
    have := (cuts.adjacent_at middle last_found).line
    have := ih middle
    omega

/-- A lexeme that holds a newline ends its line. -/
theorem line_lt (found : lexemes[first]? = some start) (last_found : lexemes[last]? = some stop)
    (ordered : first < last) (newline : '\n' ∈ start.text) : start.line < stop.line := by
  have bound := (List.getElem?_eq_some_iff.mp last_found).1
  have middle := getElem?_eq_getElem (show first + 1 < lexemes.length by omega)
  have line := (cuts.adjacent_at found middle).line
  have later := cuts.line_le middle last_found ordered
  have := List.count_pos_iff.mpr newline
  omega

/-- Without a newline between them two lexemes are on one line. -/
theorem line_eq (found : lexemes[first]? = some start)
    (last_found : lexemes[last]? = some stop) (ordered : first ≤ last)
    (noNewline : ∀ index lexeme, first ≤ index → index < last → lexemes[index]? = some lexeme →
      '\n' ∉ lexeme.text) : stop.line = start.line := by
  induction last, ordered using Nat.le_induction generalizing stop with
  | base =>
    obtain rfl := Option.some.inj (found.symm.trans last_found)
    rfl
  | succ last ordered ih =>
    have bound := (List.getElem?_eq_some_iff.mp last_found).1
    have middle := getElem?_eq_getElem (show last < lexemes.length by omega)
    have line := (cuts.adjacent_at middle last_found).line
    have none := List.count_eq_zero.mpr (noNewline last _ ordered (by omega) middle)
    have same := ih middle fun index lexeme lower upper => noNewline index lexeme lower (by omega)
    omega

/-- Behind its opener a doc comment has only lexemes of its own until it is closed. -/
theorem isInner_of_docOpen {opener : Lexeme}
    (found : lexemes[first]? = some opener) (opens : opener.kind = .docOpen)
    (last_found : lexemes[last]? = some stop) (ordered : first < last)
    (goesOn : ∀ index lexeme, first < index → index < last → lexemes[index]? = some lexeme →
      lexeme.kind ≠ .docClose) : isInner stop.kind = true := by
  induction last, ordered using Nat.le_induction generalizing stop with
  | base => exact (cuts.adjacent_at found last_found).inner (.inl opens)
  | succ last ordered ih =>
    have bound := (List.getElem?_eq_some_iff.mp last_found).1
    have middle := getElem?_eq_getElem (show last < lexemes.length by omega)
    have inner := ih middle fun index lexeme lower upper => goesOn index lexeme lower (by omega)
    exact (cuts.adjacent_at middle last_found).inner
      (.inr ⟨inner, goesOn last _ ordered (by omega) middle⟩)

/-- Two tags of a doc comment are on different lines. -/
theorem line_lt_of_docTag {tag other : Lexeme} (found : lexemes[first]? = some tag)
    (tagged : tag.kind = .docTag) (last_found : lexemes[last]? = some other)
    (other_tagged : other.kind = .docTag) (ordered : first < last)
    (goesOn : ∀ index lexeme, first < index → index < last → lexemes[index]? = some lexeme →
      isInner lexeme.kind = true ∧ lexeme.kind ≠ .docClose) : tag.line < other.line := by
  obtain ⟨gap, rfl⟩ : ∃ gap, last = first + 1 + gap := ⟨last - (first + 1), by omega⟩
  rcases List.getElem?_eq_some_iff.mp found with ⟨bound, tag_found⟩
  rcases List.getElem?_eq_some_iff.mp last_found with ⟨last_bound, other_found⟩
  have split : lexemes.drop (first + 1) =
      (lexemes.drop (first + 1)).take gap ++ other :: lexemes.drop (first + 1 + gap + 1) := by
    conv => lhs; rw [← take_append_drop gap (lexemes.drop (first + 1)), drop_drop]
    rw [drop_eq_getElem_cons last_bound, other_found]
  have between : ∀ lexeme ∈ (lexemes.drop (first + 1)).take gap,
      ∃ index, index < gap ∧ lexemes[first + 1 + index]? = some lexeme := by
    intro lexeme inside
    rcases List.mem_iff_getElem?.mp inside with ⟨index, at_index⟩
    rw [getElem?_take] at at_index
    split at at_index
    · next lower => exact ⟨index, lower, by simpa using at_index⟩
    · simp at at_index
  rcases cuts.drop first with ⟨mode, position, text, later⟩
  rw [drop_eq_getElem_cons bound, tag_found, split] at later
  rcases later.after_tag tagged with ⟨position, text, inside⟩
  obtain ⟨lexeme, mem, ends⟩ := inside.exists_endsDocLine other_tagged fun lexeme mem => by
    rcases between lexeme mem with ⟨index, lower, at_index⟩
    exact goesOn _ lexeme (by omega) (by omega) at_index
  rcases between lexeme mem with ⟨index, lower, at_index⟩
  have before := cuts.line_le found at_index (by omega)
  have behind := cuts.line_lt at_index last_found (by omega) (newline_of_endsDocLine ends)
  omega

end

end Cuts

end PhpStyle.Lexeme
