import PhpStyle.Proofs.Layout

/-!
# Lexing with a cursor

A lexer that goes over its text with a cursor. A branch marks the place where a lexeme
starts, advances over the characters of the lexeme and emits what lies between the mark
and the cursor; if the cursor has not moved, nothing is emitted. Comments are lexed in
loops of their own. The loop of a block comment sets a new mark behind every newline,
and the loop of a doc comment remembers what may still come on the line, which begins
anew when the cursor is back in the first column.

Through each branch and each loop, the lexemes that were emitted and those of the text
ahead stay the same together. So the cursor finds the lexemes of the source.
-/

namespace PhpStyle

open Text Lexeme List

theorem Position.column_after_pos {position : Position} (positive : 0 < position.column)
    (text : List Char) : 0 < (position.after text).column := by
  induction text generalizing position with
  | nil => exact positive
  | cons c text ih =>
    have next_pos : 0 < (position.next c).column := by
      rw [next]
      split <;> simp
    exact ih next_pos

/-- A lexer at some place of its text. -/
structure Cursor where
  ahead : List Char
  position : Position := {}
  inPhp : Bool := false
  /-- The lexemes that were emitted. -/
  lexemes : List Lexeme := []
  column_pos : 0 < position.column := by decide

namespace Cursor

/-- The place where a lexeme starts. -/
structure Mark where
  ahead : List Char
  position : Position

/-- The place of the cursor. -/
def mark (cursor : Cursor) : Mark :=
  ⟨cursor.ahead, cursor.position⟩

/-- Moves over a character, if there is one. -/
def advance (cursor : Cursor) : Cursor :=
  match cursor.ahead with
  | [] => cursor
  | c :: rest =>
    { cursor with
      ahead := rest
      position := cursor.position.next c
      column_pos := Position.column_after_pos cursor.column_pos [c] }

/-- Moves over a number of characters. -/
def advanceBy (cursor : Cursor) : Nat → Cursor
  | 0 => cursor
  | count + 1 => cursor.advance.advanceBy count

/-- Emits the text between a mark and the cursor, unless it is empty. -/
def emit (cursor : Cursor) (kind : Kind) (start : Mark) : Cursor :=
  let text := start.ahead.take (start.ahead.length - cursor.ahead.length)
  if text.isEmpty then cursor
  else
    let lexeme := ⟨kind, text, start.position.line, start.position.column⟩
    { cursor with lexemes := cursor.lexemes ++ [lexeme] }

/-- Emits the next characters. -/
def take (cursor : Cursor) (kind : Kind) (count : Nat) : Cursor :=
  (cursor.advanceBy count).emit kind cursor.mark

variable {cursor : Cursor}

@[simp]
theorem advanceBy_eq (cursor : Cursor) (count : Nat) : cursor.advanceBy count =
    { cursor with
      ahead := cursor.ahead.drop count
      position := cursor.position.after (cursor.ahead.take count)
      column_pos := Position.column_after_pos cursor.column_pos _ } := by
  induction count generalizing cursor with
  | zero => rfl
  | succ count ih =>
    rw [advanceBy, ih, advance]
    cases cursor with
    | mk ahead position inPhp lexemes => cases ahead <;> simp [Position.after]

theorem advanceBy_advanceBy (cursor : Cursor) (first second : Nat) :
    (cursor.advanceBy first).advanceBy second = cursor.advanceBy (first + second) := by
  simp [take_add, after_append]

@[simp]
theorem ahead_emit (cursor : Cursor) (kind : Kind) (start : Mark) :
    (cursor.emit kind start).ahead = cursor.ahead := by
  simp only [emit]
  split <;> rfl

/-- The lexemes that a text is emitted as. -/
def piece (kind : Kind) (text : List Char) (position : Position) : List Lexeme :=
  if text.isEmpty then [] else [⟨kind, text, position.line, position.column⟩]

theorem emit_eq {start : Mark} {taken : List Char} (ahead : start.ahead = taken ++ cursor.ahead)
    (kind : Kind) : cursor.emit kind start =
      { cursor with lexemes := cursor.lexemes ++ piece kind taken start.position } := by
  have text : start.ahead.take (start.ahead.length - cursor.ahead.length) = taken := by
    rw [ahead, length_append, Nat.add_sub_cancel_right, take_left]
  simp only [emit, text, piece]
  split <;> simp

theorem take_eq (cursor : Cursor) (kind : Kind) (count : Nat) : cursor.take kind count =
    { cursor.advanceBy count with
      lexemes := cursor.lexemes ++ piece kind (cursor.ahead.take count) cursor.position } := by
  have split : cursor.mark.ahead = cursor.ahead.take count ++ (cursor.advanceBy count).ahead := by
    simp [mark]
  rw [take, emit_eq split, advanceBy_eq]
  rfl

theorem length_take_lt {c : Char} {rest : List Char} (ahead : cursor.ahead = c :: rest)
    (kind : Kind) {count : Nat} (positive : 0 < count) :
    (cursor.take kind count).ahead.length < cursor.ahead.length := by
  simp only [take_eq, advanceBy_eq, length_drop, ahead, length_cons]
  omega

theorem spacing_eq_succ {c : Char} (space : (isBlank c || c == '\n') = true) (rest : List Char) :
    Scan.spacing (c :: rest) = (if c = '\n' then 0 else Scan.spacing rest) + 1 := by
  rw [Scan.spacing]
  by_cases newline : c = '\n'
  · rw [if_pos newline, if_pos newline]
  · rw [if_neg newline, if_neg newline, if_pos (by simpa [newline] using space)]

/-- An opening tag. -/
def openTag (cursor : Cursor) : Cursor :=
  if equalsIgnoringCase (cursor.ahead.take 5) ['<', '?', 'p', 'h', 'p'] then
    { cursor.take .openTag 5 with inPhp := true }
  else if ['<', '?', '='] <+: cursor.ahead then
    { cursor.take .openTagWithEcho 3 with inPhp := true }
  else { cursor.take .openTag 2 with inPhp := true }

/-- The text outside PHP up to an opening tag, and the tag. -/
def html (cursor : Cursor) : Cursor :=
  let behind := cursor.take .inlineHtml (Scan.before ['<', '?'] cursor.ahead)
  if behind.ahead.isEmpty then behind else behind.openTag

/-- The rest of a block comment, whose current line starts at the mark. -/
def blockComment (cursor : Cursor) (start : Mark) : Cursor :=
  if ['*', '/'] <+: cursor.ahead then (cursor.advanceBy 2).emit .comment start
  else
    match _ : cursor.ahead with
    | [] => cursor.emit .comment start
    | c :: _ =>
      let moved := cursor.advance
      if c = '\n' then (moved.emit .comment start).blockComment moved.mark
      else moved.blockComment start
termination_by cursor.ahead.length
decreasing_by all_goals simp_all [advance]

/-- The rest of a doc comment. -/
def docComment (cursor : Cursor) (starAllowed tagAllowed : Bool) : Cursor :=
  match _ : cursor.ahead with
  | [] => cursor
  | c :: rest =>
    if ['*', '/'] <+: c :: rest then cursor.take .docClose 2
    else if isBlank c || c == '\n' then
      let behind := cursor.take .docWhitespace (Scan.spacing (c :: rest))
      let isFirst := behind.position.column == 1
      behind.docComment (starAllowed || isFirst) (tagAllowed || isFirst)
    else if c == '*' && starAllowed then (cursor.take .docStar 1).docComment false true
    else if c == '@' && tagAllowed && rest.head?.any isTagChar then
      (cursor.take .docTag (Scan.run isTagChar rest + 1)).docComment false false
    else (cursor.take .docString (max 1 (Scan.docText (c :: rest)))).docComment false false
termination_by cursor.ahead.length
decreasing_by
  · exact length_take_lt ‹_› _ (by rw [spacing_eq_succ ‹_›]; omega)
  · exact length_take_lt ‹_› _ Nat.one_pos
  · exact length_take_lt ‹_› _ (Nat.succ_pos _)
  · exact length_take_lt ‹_› _ (by omega)

/-- A heredoc, or an operator if it has no label. -/
def heredoc (cursor : Cursor) : Cursor :=
  let opening := cursor.advanceBy 3
  let labelled := opening.advanceBy (Scan.heredocIntro opening.ahead)
  let label := labelled.ahead.takeWhile isNameChar
  if label.isEmpty then labelled.emit .operator cursor.mark
  else
    let body := labelled.advanceBy label.length
    (body.advanceBy (Scan.heredocBody label false body.ahead)).emit .heredoc cursor.mark

/-- The longest operator ahead. -/
def operator (cursor : Cursor) : Cursor :=
  match Kind.operators.find? fun entry => entry.1.isPrefixOf cursor.ahead with
  | some (text, kind) => cursor.take kind text.length
  | none => cursor.take .operator 1

/-- The lexemes of PHP code that begin with the characters ahead. -/
def php (cursor : Cursor) (c : Char) (rest : List Char) : Cursor :=
  let next := rest.head?
  if isBlank c || c == '\n' then cursor.take .whitespace (Scan.spacing (c :: rest))
  else if c == '#' && next == some '[' then cursor.take .attributeStart 2
  else if c == '#' || (c == '/' && next == some '/') then
    cursor.take .comment (Scan.lineComment rest + 1)
  else if ['/', '*', '*'] <+: c :: rest ∧ (rest.drop 2).head?.any isUnicodeSpace then
    (cursor.take .docOpen 3).docComment false true
  else if c == '/' && next == some '*' then (cursor.advanceBy 2).blockComment cursor.mark
  else if c == '$' && next.any isNameStart then
    cursor.take .variableName (Scan.run isNameChar rest + 1)
  else if c == '\'' then cursor.take .singleQuoted (Scan.quoted c rest + 1)
  else if c == '"' || c == '\x60' then cursor.take .doubleQuoted (Scan.quoted c rest + 1)
  else if ['<', '<', '<'] <+: c :: rest then cursor.heredoc
  else if c == '?' && next == some '>' then
    let length := if (rest.drop 1).head? = some '\n' then 3 else 2
    { cursor.take .closeTag length with inPhp := false }
  else if c.isDigit || (c == '.' && next.any Char.isDigit) then
    let (length, decimal) := Scan.number (c == '.') rest
    cursor.take (if decimal then .decimal else .integer) (length + 1)
  else if isNameStart c || (c == '\\' && next.any isNameStart) then
    let length := Scan.name rest
    cursor.take (Kind.ofWord (c :: rest.take length)) (length + 1)
  else cursor.operator

/-- The lexemes that were emitted, and those of the text ahead. -/
def whole (mode : Mode) (cursor : Cursor) : List Lexeme :=
  cursor.lexemes ++ scan mode cursor.position cursor.ahead

/-- The mode in which the lexer goes on. -/
def mode (cursor : Cursor) : Mode :=
  if cursor.inPhp then .php else .html

section Whole

variable {cursor : Cursor} {c : Char} {rest : List Char}

/-- Taking the announced lexeme leaves what there is to find as it was. -/
theorem whole_take {mode after : Mode} {kind : Kind} {tail : Nat} (ahead : cursor.ahead = c :: rest)
    (announced : step mode c rest = ⟨kind, tail, after⟩) :
    (cursor.take kind (tail + 1)).whole after = cursor.whole mode := by
  rw [take_eq, whole, whole, ahead, scan, announced]
  simp [ahead, piece]

/-- The lexemes behind a part of a block comment that was begun on the line. -/
def afterComment (position : Position) (text : List Char) : List Lexeme :=
  scan (if (Scan.blockComment text).2 then .php else .blockComment)
    (position.after (text.take (Scan.blockComment text).1)) (text.drop (Scan.blockComment text).1)

theorem scan_blockComment (position : Position) (text : List Char) :
    scan .blockComment position text =
      piece .comment (text.take (Scan.blockComment text).1) position ++
        afterComment position text := by
  cases text with
  | nil => simp [piece, afterComment, Scan.blockComment, scan]
  | cons c rest =>
    obtain ⟨length, length_eq⟩ :=
      Nat.exists_eq_succ_of_ne_zero (Scan.blockComment_pos c rest).ne'
    rw [scan, afterComment, length_eq]
    simp [step, commentStep, length_eq, piece]

/-- The loop of a block comment leaves the lexemes of its lines, and of the text behind it. -/
theorem whole_blockComment {start : Mark} {taken : List Char}
    (ahead : start.ahead = taken ++ cursor.ahead)
    (position : cursor.position = start.position.after taken) :
    (cursor.blockComment start).whole .php = cursor.lexemes ++
      (piece .comment (taken ++ cursor.ahead.take (Scan.blockComment cursor.ahead).1)
        start.position ++ afterComment cursor.position cursor.ahead) := by
  fun_induction blockComment cursor start generalizing taken with
  | case1 cursor start closes =>
    rcases closes with ⟨rest, closes⟩
    rw [← closes] at ahead
    have split : start.ahead = (taken ++ ['*', '/']) ++ (cursor.advanceBy 2).ahead := by
      simp [ahead, ← closes]
    rw [emit_eq split, ← closes]
    simp [whole, afterComment, Scan.blockComment, ← closes]
  | case2 cursor start opened empty =>
    rw [emit_eq ahead, empty]
    simp [whole, afterComment, Scan.blockComment, scan]
  | case3 cursor start opened rest moved found =>
    rename_i ih
    have stepped : moved = cursor.advanceBy 1 := rfl
    have split : start.ahead = (taken ++ ['\n']) ++ moved.ahead := by
      simp [ahead, found, stepped]
    have marked : moved.mark.ahead = [] ++ (moved.emit .comment start).ahead := by simp [mark]
    have here : (moved.emit .comment start).position = moved.position := by rw [emit_eq split]
    rw [ih marked here, nil_append, here, ahead_emit,
      show moved.mark.position = moved.position from rfl, ← scan_blockComment, emit_eq split]
    simp [afterComment, Scan.blockComment, found, stepped]
  | case4 cursor start opened c rest found moved other =>
    rename_i ih
    have stepped : moved = cursor.advanceBy 1 := rfl
    have split : start.ahead = (taken ++ [c]) ++ moved.ahead := by simp [ahead, found, stepped]
    have here : moved.position = start.position.after (taken ++ [c]) := by
      simp [position, found, stepped, after_append]
    rw [ih split here]
    rw [found] at opened
    simp [afterComment, Scan.blockComment, found, stepped, opened, other, ← after_append]

theorem column_after_eq_one {position : Position} (positive : 0 < position.column) (c : Char)
    (text : List Char) : ((position.after (c :: text)).column == 1) =
      ((c :: text).getLast? == some '\n') := by
  obtain ⟨init, last, split⟩ : ∃ init last, c :: text = init ++ [last] :=
    ⟨_, _, (dropLast_append_getLast (cons_ne_nil c text)).symm⟩
  have before := Position.column_after_pos positive init
  rw [split, after_append, getLast?_concat]
  by_cases newline : last = '\n'
  · simp [Position.after, Position.next, newline]
  · simp [Position.after, Position.next, newline] at before ⊢
    omega

/-- The loop of a doc comment leaves what there is to find as it was. -/
theorem whole_docComment (cursor : Cursor) (starAllowed tagAllowed : Bool) :
    (cursor.docComment starAllowed tagAllowed).whole .php =
      cursor.whole (.docComment starAllowed tagAllowed) := by
  fun_induction docComment cursor starAllowed tagAllowed with
  | case1 cursor starAllowed tagAllowed empty => simp [whole, empty, scan]
  | case2 cursor starAllowed tagAllowed c rest found closes =>
    exact whole_take found (by simp [step, docStep, closes])
  | case3 cursor starAllowed tagAllowed c rest found opened space behind isFirst ih =>
    have first : isFirst =
        ((c :: rest.take (if c = '\n' then 0 else Scan.spacing rest)).getLast? == some '\n') := by
      rw [← column_after_eq_one cursor.column_pos]
      simp [isFirst, behind, take_eq, found, spacing_eq_succ space]
    rw [ih]
    simp only [behind, spacing_eq_succ space]
    refine whole_take found ?_
    simp only [step, docStep, if_neg opened, if_pos space, first]
  | case4 cursor starAllowed tagAllowed c rest found opened text star ih =>
    rw [ih]
    exact whole_take found (by simp only [step, docStep, if_neg opened, if_neg text, if_pos star])
  | case5 cursor starAllowed tagAllowed c rest found opened text noStar tag ih =>
    rw [ih]
    exact whole_take found (by simp only [step, docStep, if_neg opened, if_neg text,
      if_neg noStar, if_pos tag])
  | case6 cursor starAllowed tagAllowed c rest found opened text noStar noTag ih =>
    rw [ih, show max 1 (Scan.docText (c :: rest)) = Scan.docText (c :: rest) - 1 + 1 by omega]
    exact whole_take found (by simp only [step, docStep, if_neg opened, if_neg text,
      if_neg noStar, if_neg noTag])

end Whole

/-- The cursor goes no way back and stays inside or outside PHP. -/
structure Stays (cursor next : Cursor) : Prop where
  length_le : next.ahead.length ≤ cursor.ahead.length
  inPhp_eq : next.inPhp = cursor.inPhp

theorem stays_advance (cursor : Cursor) : Stays cursor cursor.advance := by
  have moved : cursor.advance = cursor.advanceBy 1 := rfl
  exact ⟨by simp [moved], by simp [moved]⟩

theorem stays_take (cursor : Cursor) (kind : Kind) (count : Nat) :
    Stays cursor (cursor.take kind count) :=
  ⟨by simp [take_eq], by simp [take_eq]⟩

theorem stays_emit (cursor : Cursor) (kind : Kind) (start : Mark) :
    Stays cursor (cursor.emit kind start) := by
  simp only [emit]
  split <;> exact ⟨Nat.le_refl _, rfl⟩

theorem Stays.trans {first second third : Cursor} (before : Stays first second)
    (after : Stays second third) : Stays first third :=
  ⟨after.length_le.trans before.length_le, after.inPhp_eq.trans before.inPhp_eq⟩

theorem stays_blockComment (cursor : Cursor) (start : Mark) :
    Stays cursor (cursor.blockComment start) := by
  fun_induction blockComment cursor start with
  | case1 cursor start closes => exact .trans ⟨by simp, by simp⟩ (stays_emit _ _ _)
  | case2 cursor start opened empty => exact stays_emit _ _ _
  | case3 cursor start opened rest moved found =>
    rename_i ih
    exact (stays_advance cursor).trans ((stays_emit _ _ _).trans ih)
  | case4 cursor start opened c rest found moved other =>
    rename_i ih
    exact (stays_advance cursor).trans ih

theorem stays_docComment (cursor : Cursor) (starAllowed tagAllowed : Bool) :
    Stays cursor (cursor.docComment starAllowed tagAllowed) := by
  fun_induction docComment cursor starAllowed tagAllowed with
  | case1 => exact ⟨Nat.le_refl _, rfl⟩
  | case2 => exact stays_take _ _ _
  | _ => exact (stays_take _ _ _).trans ‹_›

theorem mode_of_inPhp (inPhp : cursor.inPhp = true) : cursor.mode = .php :=
  if_pos inPhp

theorem mode_of_not_inPhp (outside : ¬cursor.inPhp = true) : cursor.mode = .html :=
  if_neg outside

/-- A branch of the lexer: it makes progress, and no lexeme is lost or invented. -/
structure Reads (cursor next : Cursor) : Prop where
  length_lt : next.ahead.length < cursor.ahead.length
  whole_eq : next.whole next.mode = cursor.whole cursor.mode

theorem Reads.trans {first second third : Cursor} (before : Reads first second)
    (after : Reads second third) : Reads first third :=
  ⟨after.length_lt.trans before.length_lt, after.whole_eq.trans before.whole_eq⟩

section Branches

variable {cursor : Cursor} {c : Char} {rest : List Char} (ahead : cursor.ahead = c :: rest)

include ahead

section

variable (inPhp : cursor.inPhp = true)

include inPhp

/-- A branch that takes what is announced reads on. -/
theorem reads_take {kind : Kind} {count : Nat}
    (announced : step .php c rest = ⟨kind, count - 1, .php⟩) (positive : 0 < count) :
    Reads cursor (cursor.take kind count) where
  length_lt := length_take_lt ahead kind positive
  whole_eq := by
    obtain ⟨tail, rfl⟩ := Nat.exists_eq_succ_of_ne_zero positive.ne'
    rw [mode_of_inPhp ((stays_take _ _ _).inPhp_eq.trans inPhp), mode_of_inPhp inPhp]
    exact whole_take ahead announced

theorem reads_docComment (announced : step .php c rest = ⟨.docOpen, 2, .docComment false true⟩) :
    Reads cursor ((cursor.take .docOpen 3).docComment false true) := by
  have stays := stays_docComment (cursor.take .docOpen 3) false true
  refine ⟨stays.length_le.trans_lt (length_take_lt ahead _ (by omega)), ?_⟩
  rw [mode_of_inPhp (((stays_take _ _ _).trans stays).inPhp_eq.trans inPhp), mode_of_inPhp inPhp]
  exact (whole_docComment _ false true).trans (whole_take ahead announced)

/-- A block comment is read line by line, from the mark of its opener on. -/
theorem reads_blockComment (opens : rest.head? = some '*')
    (announced : step .php c rest = commentStep 2 (rest.drop 1)) :
    Reads cursor ((cursor.advanceBy 2).blockComment cursor.mark) := by
  obtain ⟨text, rfl⟩ := List.head?_eq_some_iff.mp opens
  have stays := stays_blockComment (cursor.advanceBy 2) cursor.mark
  have moves : (cursor.advanceBy 2).ahead.length < cursor.ahead.length := by
    simp only [advanceBy_eq, ahead, length_drop, length_cons]
    omega
  refine ⟨stays.length_le.trans_lt moves, ?_⟩
  rw [mode_of_inPhp (stays.inPhp_eq.trans (by simpa using inPhp)), mode_of_inPhp inPhp]
  have start : cursor.mark.ahead = [c, '*'] ++ (cursor.advanceBy 2).ahead := by
    simp [mark, ahead]
  have moved : (cursor.advanceBy 2).position = cursor.mark.position.after [c, '*'] := by
    simp [mark, ahead]
  have length_eq (length : Nat) : 2 + length - 1 = length + 1 := by omega
  refine (whole_blockComment start moved).trans ?_
  rw [whole, ahead, scan, announced]
  simp [piece, afterComment, commentStep, mark, ahead, length_eq, ← after_append]

/-- A heredoc is read in one go: opening, label and body. -/
theorem reads_heredoc
    (announced : step .php c rest = heredocStep (rest.drop 2)) : Reads cursor cursor.heredoc := by
  have behind (count : Nat) : (cursor.advanceBy (3 + count)).ahead = (rest.drop 2).drop count := by
    simp [ahead, Nat.add_comm]
  simp only [heredoc, advanceBy_advanceBy, Nat.add_assoc, behind, behind 0, drop_zero]
  unfold heredocStep at announced
  dsimp only at announced
  split at announced
  · next unlabelled =>
      rw [if_pos unlabelled]
      have tail_eq (intro : Nat) : 3 + intro - 1 = 2 + intro := by omega
      exact reads_take ahead inPhp (by rw [tail_eq, announced]) (by omega)
  · next labelled =>
      rw [if_neg labelled]
      have tail_eq (intro label body : Nat) :
          3 + (intro + (label + body)) - 1 = 2 + (intro + label) + body := by omega
      exact reads_take ahead inPhp (by rw [tail_eq, announced]) (by omega)

theorem reads_operator
    (announced : step .php c rest = operatorStep c rest) : Reads cursor cursor.operator := by
  unfold operatorStep at announced
  unfold operator
  rw [ahead]
  cases found : Kind.operators.find? fun entry => entry.1.isPrefixOf (c :: rest) with
  | none =>
    rw [found] at announced
    exact reads_take ahead inPhp announced Nat.one_pos
  | some entry =>
    rw [found] at announced
    exact reads_take ahead inPhp announced (List.length_pos_iff.mpr
      (operators_spec _ (mem_of_find?_eq_some found)).1)

end

omit ahead in
theorem reads_ite {condition : Prop} [Decidable condition] {found other : Step}
    {next alternative : Cursor} (holds : condition → step .php c rest = found → Reads cursor next)
    (fails : ¬condition → step .php c rest = other → Reads cursor alternative) :
    step .php c rest = (if condition then found else other) →
      Reads cursor (if condition then next else alternative) := by
  split
  · exact holds ‹_›
  · exact fails ‹_›

theorem reads_closeTag (inPhp : cursor.inPhp = true) {tail : Nat}
    (announced : step .php c rest = ⟨.closeTag, tail, .html⟩) :
    Reads cursor { cursor.take .closeTag (tail + 1) with inPhp := false } where
  length_lt := length_take_lt ahead _ (Nat.succ_pos _)
  whole_eq := by
    rw [mode_of_inPhp inPhp]
    exact whole_take ahead announced

/-- Every branch of PHP code makes the step that the lexer announces. -/
theorem reads_php (inPhp : cursor.inPhp = true) : Reads cursor (cursor.php c rest) := by
  have short {kind : Kind} {tail : Nat} (announced : step .php c rest = ⟨kind, tail, .php⟩) :=
    reads_take ahead inPhp announced (Nat.succ_pos tail)
  refine reads_ite (fun space announced => ?_) (fun _ => reads_ite (fun _ => short) fun _ =>
    reads_ite (fun _ => short) fun _ => reads_ite (fun _ => reads_docComment ahead inPhp) fun _ =>
    reads_ite (fun block => reads_blockComment ahead inPhp ?_) fun _ =>
    reads_ite (fun _ => short) fun _ => reads_ite (fun _ => short) fun _ =>
    reads_ite (fun _ => short) fun _ => reads_ite (fun _ => reads_heredoc ahead inPhp) fun _ =>
    reads_ite (fun _ => ?_) fun _ => reads_ite (fun _ => short) fun _ =>
    reads_ite (fun _ => short) fun _ => reads_operator ahead inPhp) rfl
  · rw [spacing_eq_succ space]
    exact short announced
  · simp only [Bool.and_eq_true, beq_iff_eq] at block
    exact block.2
  · split <;> exact reads_closeTag ahead inPhp

end Branches

section Html

variable {cursor : Cursor}

theorem reads_openTag (opens : ['<', '?'] <+: cursor.ahead) (outside : ¬cursor.inPhp = true) :
    Reads cursor cursor.openTag := by
  obtain ⟨rest, ahead⟩ := opens
  have long : equalsIgnoringCase (cursor.ahead.take 5) ['<', '?', 'p', 'h', 'p'] =
      equalsIgnoringCase (('?' :: rest).take 4) ['?', 'p', 'h', 'p'] := by
    simp [← ahead, equalsIgnoringCase]
  have echo : ['<', '?', '='] <+: cursor.ahead ↔ ['?', '='] <+: '?' :: rest := by simp [← ahead]
  have announced : step .html '<' ('?' :: rest) = htmlStep '<' ('?' :: rest) := rfl
  rw [htmlStep, if_pos (by simp)] at announced
  rw [openTag, long]
  simp only [echo]
  split_ifs at announced ⊢
  all_goals
    refine ⟨length_take_lt ahead.symm _ (by omega), ?_⟩
    rw [mode_of_not_inPhp outside]
    exact whole_take ahead.symm announced

theorem prefix_drop_before {delimiter text : List Char}
    (more : text.drop (Scan.before delimiter text) ≠ []) :
    delimiter <+: text.drop (Scan.before delimiter text) := by
  induction text with
  | nil => simp at more
  | cons c rest ih =>
    rw [Scan.before] at more ⊢
    split at more
    · rw [if_pos ‹_›]
      assumption
    · rw [if_neg ‹_›]
      exact ih more

/-- Text outside of PHP is read up to the next opening tag, and the tag after it. -/
theorem reads_html {c : Char} {rest : List Char} (ahead : cursor.ahead = c :: rest)
    (outside : ¬cursor.inPhp = true) : Reads cursor cursor.html := by
  by_cases opens : ['<', '?'] <+: cursor.ahead
  · have none_before : Scan.before ['<', '?'] cursor.ahead = 0 := by
      rw [ahead] at opens ⊢
      exact if_pos opens
    have same : cursor.take .inlineHtml 0 = cursor := by
      rw [take_eq, piece, take_zero, isEmpty_nil, if_pos rfl, append_nil]
      rfl
    rw [html, none_before, same, if_neg (by simp [ahead])]
    exact reads_openTag opens outside
  rw [ahead] at opens
  have before_eq : Scan.before ['<', '?'] (c :: rest) = Scan.before ['<', '?'] rest + 1 :=
    if_neg opens
  have still_outside := mt
    (stays_take cursor .inlineHtml (Scan.before ['<', '?'] rest + 1)).inPhp_eq.symm.trans outside
  have text : Reads cursor (cursor.take .inlineHtml (Scan.before ['<', '?'] rest + 1)) := by
    refine ⟨length_take_lt ahead _ (Nat.succ_pos _), ?_⟩
    rw [mode_of_not_inPhp still_outside, mode_of_not_inPhp outside]
    exact whole_take ahead (if_neg opens)
  rw [html, ahead, before_eq]
  refine iteInduction (motive := Reads cursor) (fun _ => text) fun more => ?_
  refine text.trans (reads_openTag ?_ still_outside)
  rw [take_eq, advanceBy_eq, ahead, ← before_eq] at more ⊢
  exact prefix_drop_before (by simpa using more)

end Html

/-- Lexes the text ahead, branch by branch. -/
def run (cursor : Cursor) : List Lexeme :=
  match _ : cursor.ahead with
  | [] => cursor.lexemes
  | c :: rest =>
    if _ : cursor.inPhp = true then (cursor.php c rest).run else cursor.html.run
termination_by cursor.ahead.length
decreasing_by
  · exact (reads_php ‹_› ‹_›).length_lt
  · exact (reads_html ‹_› ‹_›).length_lt

/-- A run emits all lexemes that there are to find, since no branch loses any. -/
theorem run_eq_whole (cursor : Cursor) : cursor.run = cursor.whole cursor.mode := by
  fun_induction run cursor with
  | case1 cursor empty => simp [whole, empty, scan]
  | case2 cursor c rest ahead inPhp ih => rw [ih, (reads_php ahead inPhp).whole_eq]
  | case3 cursor c rest ahead outside ih =>
    rw [ih, (reads_html ahead outside).whole_eq]

/-- The cursor finds the lexemes of the source. -/
theorem run_eq_lex (source : List Char) : run { ahead := source } = lex source :=
  run_eq_whole _

end Cursor

end PhpStyle
