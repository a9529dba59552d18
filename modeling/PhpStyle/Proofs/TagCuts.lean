import PhpStyle.Proofs.LineGrammar

/-!
# Cuts through a doc comment

A tag leaves its doc comment in one of two ways. A line goes as a whole, from
behind the newline before it up to its own newline, or the text from the tag to
the end of its line or of the comment goes.

Either cut is harmless at the seam. No closer comes about where the two sides
meet, and the lines of what is left spell the tags of both sides. The reason is
what a newline and a tag do to the reading of a line: behind a newline it begins
afresh, and behind a tag no other tag can begin.
-/

namespace PhpStyle

open Text DocLine List

theorem tagsFrom_append (start : Nat) (first second : List Lexeme) :
    tagsFrom start (first ++ second) =
      tagsFrom start first ++ tagsFrom (start + first.length) second := by
  rw [tagsFrom, zipIdx_append, filter_append, map_append]
  rfl

/-- Another text may come behind one that does not end a doc comment, unless the two of them end
it at their seam. -/
theorem RunsOn.append_of_seam {front other behind : List Char}
    (runs : RunsOn (front ++ other) front.length)
    (seam : front.getLast? = some '*' → behind.head? ≠ some '/') :
    RunsOn (front ++ behind) front.length := by
  induction front with
  | nil => exact zero _
  | cons c front ih =>
    have later : RunsOn (front ++ other) front.length := fun place before =>
      runs (place + 1) (Nat.succ_lt_succ before)
    have first := runs 0 (Nat.succ_pos _)
    rw [drop_zero, cons_append, cons_prefix_cons] at first
    rw [cons_append]
    cases front with
    | nil =>
      refine cons ?_ (zero _)
      rw [cons_prefix_cons, nil_append]
      rintro ⟨rfl, rest, rfl⟩
      exact seam rfl rfl
    | cons d front =>
      rw [getLast?_cons_cons] at seam
      refine cons ?_ (ih later seam)
      simpa [cons_prefix_cons] using first

namespace Lexeme

section Seams

variable {mode : Mode} {position : Position} {text : List Char}

/-- Behind the end of a line another line of the doc comment begins. -/
theorem Cuts.behind_lineEnd {last : Lexeme} {rest : List Lexeme}
    (cuts : Cuts mode position text (last :: rest)) (ends : last.endsDocLine = true) :
    ∃ position, Cuts (.docComment true true) position (rest.flatMap Lexeme.text) rest := by
  cases cuts with
  | next announced following =>
    rw [following.flatMap_text, ← mode_of_endsDocLine announced ends]
    exact ⟨_, following⟩

theorem Cuts.text_of_endsDocLine {last : Lexeme} {lexemes : List Lexeme}
    (cuts : Cuts mode position text lexemes) (member : last ∈ lexemes)
    (ends : last.endsDocLine = true) :
    ∃ blanks, last.text = blanks ++ ['\n'] ∧ ∀ c ∈ blanks, isBlank c = true := by
  rcases append_of_mem member with ⟨front, rest, rfl⟩
  rcases cuts.suffix with ⟨_, _, _, from_last⟩
  rcases from_last.piece_of_stops (.inr ends) with closer | ⟨blanks, shape, blank⟩
  · have kind : last.kind = .docClose := congrArg Prod.fst closer
    simp [endsDocLine, kind] at ends
  · exact ⟨blanks, congrArg Prod.snd shape, blank⟩

end Seams

end Lexeme

/-- A whole line of a doc comment. -/
inductive LineCut : List Lexeme → List Lexeme → Prop where
  | mk {before line : List Lexeme} {previous last : Lexeme} (starts : previous.endsDocLine = true)
      (ends : last.endsDocLine = true) (within : '\n' ∉ line.flatMap Lexeme.text) :
      LineCut (before ++ [previous]) (line ++ [last])

/-- A tag with the text behind it, up to the end of its line or of the comment. -/
inductive TailCut : List Lexeme → List Lexeme → Prop where
  | mk {text behind : List Lexeme} {tag : Lexeme} (tagged : tag.kind = .docTag)
      (within : '\n' ∉ (tag :: text).flatMap Lexeme.text)
      (stops : behind = [] ∨ ∃ stop more, behind = stop :: more ∧ stop.endsDocLine = true) :
      TailCut (tag :: text) behind

namespace Stream

section Spelling

variable {source : List Char} {block : DocBlock} {front before gone behind rest : List Lexeme}
  {opener closer : Lexeme}

/-- How the tags among some lexemes of a file are spelled, the first of which has the given
index. -/
def spellings (lexemes : List Lexeme) (start : Nat) (among : List Lexeme) : List TagSpelling :=
  (tagsFrom start among).map fun tag => ((ofLexemes lexemes).tagAt tag 0).spelling

variable {back : List Lexeme}

theorem spellings_append (lexemes : List Lexeme) (start : Nat) (first second : List Lexeme) :
    spellings lexemes start (first ++ second) =
      spellings lexemes start first ++ spellings lexemes (start + first.length) second := by
  rw [spellings, tagsFrom_append, map_append]
  rfl

/-- The lexemes of a file, split inside a doc comment. -/
theorem split_of_stretch {body : List Lexeme}
    (stretch : DocBlock.Stretch (lex source) block front opener body (closer :: rest))
    (split : body = before ++ back) :
    lex source = (front ++ opener :: before) ++ (back ++ closer :: rest) ∧
      (front ++ opener :: before).length = block.opener + 1 + before.length := by
  subst split
  constructor
  · rw [stretch.split]
    simp
  · rw [length_append, length_cons, stretch.front_length]
    omega

theorem exists_readUpTo_of_stretch {body : List Lexeme}
    (stretch : DocBlock.Stretch (lex source) block front opener body (closer :: rest))
    (closes : closer.kind = .docClose) (split : body = before ++ back) :
    ∃ star tag, Lexeme.ReadUpTo (lex source) false true (block.opener + 1) before back star tag ∧
      ∃ position, Lexeme.Cuts (.docComment star tag) position
        ((back ++ closer :: rest).flatMap Lexeme.text) (back ++ closer :: rest) := by
  subst split
  rcases cuts_of_stretch stretch with ⟨position, cuts⟩
  have place := drop_of_stretch stretch
  have runs := stretch.runs
  rw [List.append_assoc] at cuts place runs
  rcases cuts.exists_readUpTo stretch.inside closes runs place (by simp) with ⟨star, tag, read⟩
  have behind := read.cuts
  rw [← drop_drop, place, drop_left] at behind
  exact ⟨star, tag, read, behind⟩

theorem runs_behind
    (stretch : DocBlock.Stretch (lex source) block front opener (before ++ back) (closer :: rest)) :
    RunsOn ((back ++ closer :: rest).flatMap Lexeme.text) (back.flatMap Lexeme.text).length := by
  have runs := stretch.runs
  have count : ((before ++ back).flatMap Lexeme.text).length =
      (before.flatMap Lexeme.text).length + (back.flatMap Lexeme.text).length := by
    rw [flatMap_append, length_append]
  rw [List.append_assoc, flatMap_append, count] at runs
  exact runs.drop

/-- Behind a place where the flags are known, the lines spell the tags behind it. -/
theorem spellings_of_cuts {starAllowed tagAllowed : Bool} {position : Position}
    (stretch : DocBlock.Stretch (lex source) block front opener (before ++ back) (closer :: rest))
    (closes : closer.kind = .docClose)
    (cuts : Lexeme.Cuts (.docComment starAllowed tagAllowed) position
      ((back ++ closer :: rest).flatMap Lexeme.text) (back ++ closer :: rest))
    (reached : starAllowed = true → tagAllowed = true) :
    spellings (lex source) (block.opener + 1 + before.length) back =
      DocLine.tagsFrom starAllowed tagAllowed (back.flatMap Lexeme.text) := by
  have place := drop_of_stretch stretch
  have inside : ∀ lexeme ∈ back, lexeme.kind.isDocBody = true := by
    intro lexeme member
    exact stretch.inside lexeme (mem_append_right _ member)
  refine cuts.map_spelling_tagsFrom inside closes (runs_behind stretch) ?_ reached
  rw [← drop_drop, place, List.append_assoc, drop_left]

/-- On the line of a tag no other tag begins, and the text behind it cannot open a new one. -/
theorem cuts_behind_tag {position : Position} {star tag : Bool} {first : Lexeme}
    {text : List Lexeme} (cuts : Lexeme.Cuts (.docComment star tag) position
      ((first :: text ++ back ++ closer :: rest).flatMap Lexeme.text)
      (first :: text ++ back ++ closer :: rest)) (tagged : first.kind = .docTag)
    (within : '\n' ∉ text.flatMap Lexeme.text)
    (inside : ∀ lexeme ∈ text ++ back, lexeme.kind.isDocBody = true)
    (closes : closer.kind = .docClose)
    (runs : RunsOn ((text ++ back ++ closer :: rest).flatMap Lexeme.text)
      ((text ++ back).flatMap Lexeme.text).length) :
    tag = true ∧ ∃ position, Lexeme.Cuts (.docComment false false) position
      ((back ++ closer :: rest).flatMap Lexeme.text) (back ++ closer :: rest) := by
  rw [cons_append, cons_append, List.append_assoc] at cuts
  rcases cuts.docTaken with ⟨after, later, -, -, taken, following⟩
  rcases first with ⟨kind, name, line, column⟩
  dsimp only at tagged taken following
  subst tagged
  cases taken with
  | tag allowed nonempty named whole =>
    have later_eq := following.flatMap_text
    rw [List.append_assoc, later_eq] at runs
    have exists_read : ∃ star tag, Lexeme.ReadUpTo (text ++ (back ++ closer :: rest)) false false
        0 text back star tag :=
      following.exists_readUpTo inside closes runs drop_zero (fun h => h)
    rcases exists_read with ⟨star, tag, read⟩
    have tag_eq : tag = false := by
      by_contra allowed
      exact within (read.newline rfl (by simpa using allowed))
    have star_eq : star = false := by
      by_contra allowed
      simpa [tag_eq] using read.reached (by simpa using allowed)
    subst tag_eq star_eq
    have behind := read.cuts
    rw [Nat.zero_add, drop_left] at behind
    exact ⟨allowed, behind⟩

/-- The lines that stay spell the tags that stay. -/
theorem tags_of_tagCut (stretch : DocBlock.Stretch (lex source) block front opener
      (before ++ (gone ++ behind)) (closer :: rest)) (closes : closer.kind = .docClose)
    (cut : LineCut before gone ∨ TailCut gone behind) :
    tags (before.flatMap Lexeme.text ++ behind.flatMap Lexeme.text) =
      spellings (lex source) (block.opener + 1) before ++
        spellings (lex source) (block.opener + 1 + (before ++ gone).length) behind := by
  rw [tags_eq_tagsFrom]
  have stretch_behind := stretch
  rw [← List.append_assoc] at stretch_behind
  rcases cut with @⟨before, line, previous, last, starts, ends, within⟩ |
    @⟨text, _, first, tagged, within, stops⟩
  · have split : before ++ [previous] ++ (line ++ [last] ++ behind) =
        before ++ previous :: (line ++ [last] ++ behind) := by simp
    rcases exists_readUpTo_of_stretch stretch closes split with ⟨star, tag, read, position, cuts⟩
    rcases cuts.text_of_endsDocLine mem_cons_self starts with ⟨blanks, previous_text, blank⟩
    have blank_within := newline_not_mem_of_blank blank
    have same (other : List Char) : firstLine (previous.text ++ other) = blanks := by
      rw [previous_text, List.append_assoc, firstLine_append blank_within]
      exact append_nil blanks
    have nothing : lineTag? star tag blanks = none := by
      simpa using lineTag?_blanks blank []
    have spelled := read.tags (previous.text ++ behind.flatMap Lexeme.text)
      (.inr (by rw [same, flatMap_cons, same]))
    have not_tag : previous.kind ≠ .docTag := by
      intro tagged
      simp [Lexeme.endsDocLine, tagged] at starts
    have previous_spells : spellings (lex source) (block.opener + 1 + before.length) [previous] =
        [] := by
      simp [spellings, not_tag, tagsFrom]
    have at_last : ∃ position, Lexeme.Cuts (.docComment true true) position
        ((behind ++ closer :: rest).flatMap Lexeme.text) (behind ++ closer :: rest) := by
      have order : previous :: (line ++ [last] ++ behind) ++ closer :: rest =
          previous :: line ++ last :: (behind ++ closer :: rest) := by simp
      rw [order] at cuts
      rcases cuts.suffix with ⟨_, _, _, from_last⟩
      exact from_last.behind_lineEnd ends
    rcases at_last with ⟨_, behind_cuts⟩
    have behind_line : DocLine.tagsFrom star tag (previous.text ++ behind.flatMap Lexeme.text) =
        DocLine.tagsFrom true true (behind.flatMap Lexeme.text) := by
      rw [previous_text, List.append_assoc]
      exact (tagsFrom_append_newline star tag blank_within _).trans (by simp [nothing])
    rw [spellings_of_cuts stretch_behind closes behind_cuts fun _ => rfl, spellings_append,
      previous_spells, append_nil, ← behind_line]
    simpa [spellings] using spelled
  · rcases exists_readUpTo_of_stretch stretch closes rfl with ⟨star, tag, read, position, cuts⟩
    rw [flatMap_cons, mem_append, not_or] at within
    have text_inside : ∀ lexeme ∈ text ++ behind, lexeme.kind.isDocBody = true := by
      intro lexeme member
      exact stretch.inside lexeme (mem_append_right _ (mem_cons_of_mem _ member))
    have text_runs : RunsOn ((text ++ behind ++ closer :: rest).flatMap Lexeme.text)
        ((text ++ behind).flatMap Lexeme.text).length := by
      have split : before ++ (first :: text ++ behind) =
          (before ++ [first]) ++ (text ++ behind) := by simp
      exact runs_behind (split ▸ stretch)
    rcases cuts_behind_tag cuts tagged within.2 text_inside closes text_runs with
      ⟨allowed, _, behind_cuts⟩
    have line_ends : lineTag? star tag
        (firstLine (behind.flatMap Lexeme.text)) = none := by
      rcases stops with rfl | ⟨stop, more, rfl, ends⟩
      · exact lineTag?_nil star tag
      · rcases behind_cuts.text_of_endsDocLine mem_cons_self ends with
          ⟨blanks, stop_text, blank⟩
        rw [flatMap_cons, stop_text, List.append_assoc,
          firstLine_append (newline_not_mem_of_blank blank),
          lineTag?_blanks blank]
        exact lineTag?_nil star tag
    have spelled := read.tags (behind.flatMap Lexeme.text) (.inl allowed)
    rw [spelled, tagsFrom_eq star tag, line_ends,
      spellings_of_cuts stretch_behind closes behind_cuts (fun h => h)]
    rfl

end Spelling

/-- The text of the tokens before an index. -/
def textBefore (stream : Stream) (index : Nat) : List Char :=
  (stream.tokens.toList.take index).flatMap fun token => token.text

theorem textBefore_of_split {source : List Char} {first second : List Lexeme}
    (split : lex source = first ++ second) :
    (ofSource source).textBefore first.length = first.flatMap Lexeme.text := by
  rw [textBefore, ofSource, flatMap_text_take, split, take_left]

section Seam

variable {source : List Char} {block : DocBlock} {front before gone behind rest : List Lexeme}
  {opener closer : Lexeme}

/-- No end of the comment comes about where the text before and the text behind meet. -/
theorem runsOn_of_cut (stretch : DocBlock.Stretch (lex source) block front opener
      (before ++ (gone ++ behind)) (closer :: rest)) (ends : closer.text = ['*', '/'])
    (cut : LineCut before gone ∨ TailCut gone behind) :
    RunsOn (before.flatMap Lexeme.text ++ behind.flatMap Lexeme.text ++
        (['*', '/'] ++ rest.flatMap Lexeme.text))
      (before.flatMap Lexeme.text ++ behind.flatMap Lexeme.text).length := by
  have stretch_behind := stretch
  rw [← List.append_assoc] at stretch_behind
  have later := runs_behind stretch_behind
  rw [flatMap_append, flatMap_cons, ends] at later
  have first : RunsOn (before.flatMap Lexeme.text ++
      ((gone ++ behind) ++ closer :: rest).flatMap Lexeme.text)
      (before.flatMap Lexeme.text).length := by
    have runs := stretch.runs
    rw [List.append_assoc, flatMap_append] at runs
    refine runs.mono ?_
    simp
  rw [List.append_assoc, length_append]
  refine (first.append_of_seam fun star slash => ?_).append later
  rcases cut with @⟨before, line, previous, last, starts, -, -⟩ | @⟨text, _, _, -, -, stops⟩
  · have member : previous ∈ lex source := by
      rw [stretch.split]
      simp
    rcases (cuts_lex source).text_of_endsDocLine member starts with ⟨blanks, previous_text, -⟩
    simp [previous_text] at star
  · rcases stops with rfl | ⟨stop, more, rfl, stop_ends⟩
    · simp at slash
    · have member : stop ∈ lex source := by
        rw [stretch.split]
        simp
      rcases (cuts_lex source).text_of_endsDocLine member stop_ends with ⟨blanks, stop_text, blank⟩
      cases blanks with
      | nil => simp [stop_text] at slash
      | cons c blanks =>
        obtain rfl : c = '/' := by simpa [stop_text] using slash
        simpa [isBlank] using blank _ mem_cons_self

/-- The comment is there again, and its tags are those that stay. -/
theorem exists_revised (stretch : DocBlock.Stretch (lex source) block front opener
      (before ++ (gone ++ behind)) (closer :: rest)) (closes : closer.kind = .docClose)
    (cut : LineCut before gone ∨ TailCut gone behind) {result : List Char}
    (closed : ClosedAt result block.opener
      (before.flatMap Lexeme.text ++ behind.flatMap Lexeme.text) (rest.flatMap Lexeme.text)) :
    ∃ revised, (ofSource result).commentAt? block.opener = some revised ∧
      revised.opener = block.opener ∧ revised.tags.map Tag.spelling =
        spellings (lex source) (block.opener + 1) before ++
          spellings (lex source) (block.opener + 1 + (before ++ gone).length) behind := by
  rcases exists_segments_lex result with ⟨blocks, segments⟩
  rcases closed.exists_stretch segments with
    ⟨other, member, opener_eq, _, _, inner, ending, _, other_stretch, other_closes, -, place,
      inner_text⟩
  refine ⟨(ofSource result).commentOf other (block.opener + inner.length + 1), ?_, opener_eq, ?_⟩
  · exact (commentAt?_eq_some_iff segments).mpr ⟨other, member, _, place, .inl opener_eq.symm, rfl⟩
  · rw [map_spelling_commentOf, map_spelling_tags other_stretch rfl other_closes, inner_text]
    exact tags_of_tagCut stretch closes cut

end Seam

theorem line?_of_split {source : List Char} {front rest : List Lexeme} {lexeme : Lexeme}
    (split : lex source = front ++ lexeme :: rest) :
    (ofSource source).line? front.length = some (1 + (front.flatMap Lexeme.text).count '\n') := by
  have cuts := cuts_lex source
  rw [split] at cuts
  rw [ofSource, line?_ofLexemes, split, getElem?_append_right (Nat.le_refl _), Nat.sub_self,
    getElem?_cons_zero, Option.map_some, cuts.line_append]

/-- One line of a text goes, with its newline. -/
structure RemovesLine (text : List Char) (line : Nat) (result : List Char) : Prop where
  positive : 0 < line
  ended : line < (text.splitOn '\n').length
  lines : result.splitOn '\n' = (text.splitOn '\n').eraseIdx (line - 1)

theorem removesLine_of_append {front line rest : List Char} (within : '\n' ∉ line) :
    RemovesLine (front ++ '\n' :: (line ++ '\n' :: rest)) (2 + front.count '\n')
      (front ++ '\n' :: rest) := by
  have lines : (front ++ '\n' :: (line ++ '\n' :: rest)).splitOn '\n' =
      front.splitOn '\n' ++ line :: rest.splitOn '\n' := by
    rw [splitOn_append_newline, splitOn_append_newline, splitOn_of_newline_not_mem within]
    rfl
  have count := length_splitOn_newline front
  refine ⟨by omega, ?_, ?_⟩
  · have more := length_splitOn_newline rest
    rw [lines, length_append, length_cons]
    omega
  · rw [lines, splitOn_append_newline, eraseIdx_append_of_length_le (by omega),
      show 2 + front.count '\n' - 1 - (front.splitOn '\n').length = 0 by omega]
    rfl

/-- The text of a tag goes with what follows it on its line, up to the closer of the comment or to
the blanks before the newline. -/
structure RemovesTail (source : List Char) (comment : Comment) (tag : Tag)
    (removed gap behind result : List Char) : Prop where
  split : source = (ofSource source).textBefore tag.token ++ (removed ++ (gap ++ behind))
  result_eq : result = (ofSource source).textBefore tag.token ++ (gap ++ behind)
  before_closer : (ofSource source).textBefore comment.closer =
    (ofSource source).textBefore tag.token ++ (removed ++ gap)
  at_tag : removed.head? = some '@'
  within : '\n' ∉ removed
  reaches : gap = [] ∨ removed.getLast?.any isBlank = false ∧
    ∃ blanks more, gap = blanks ++ '\n' :: more ∧ ∀ c ∈ blanks, isBlank c = true

section Texts

variable {source : List Char} {block : DocBlock} {front before gone behind rest : List Lexeme}
  {opener closer : Lexeme}

theorem removesLine_of_lineCut (stretch : DocBlock.Stretch (lex source) block front opener
      (before ++ (gone ++ behind)) (closer :: rest)) (cut : LineCut before gone) :
    RemovesLine source (1 + ((front ++ opener :: before).flatMap Lexeme.text).count '\n')
      ((front ++ opener :: (before ++ (behind ++ closer :: rest))).flatMap Lexeme.text) := by
  have whole := (cuts_lex source).flatMap_text
  rw [stretch.split] at whole
  rcases cut with @⟨before, line, previous, last, starts, ends, within⟩
  have shape {lexeme : Lexeme} (ends : lexeme.endsDocLine = true) (member : lexeme ∈ lex source) :=
    (cuts_lex source).text_of_endsDocLine member ends
  rcases shape starts (by rw [stretch.split]; simp) with ⟨blanks, previous_text, blank⟩
  rcases shape ends (by rw [stretch.split]; simp) with ⟨more, last_text, more_blank⟩
  let start := (front ++ opener :: before).flatMap Lexeme.text ++ blanks
  have line_within : '\n' ∉ line.flatMap Lexeme.text ++ more := by
    rw [mem_append, not_or]
    exact ⟨within, newline_not_mem_of_blank more_blank⟩
  let tail := (behind ++ closer :: rest).flatMap Lexeme.text
  have removes : RemovesLine (start ++ '\n' :: (line.flatMap Lexeme.text ++ more ++ '\n' :: tail))
      (2 + start.count '\n') (start ++ '\n' :: tail) := removesLine_of_append line_within
  have text_eq : start ++ '\n' :: (line.flatMap Lexeme.text ++ more ++ '\n' :: tail) = source := by
    rw [← whole]
    simp [start, tail, previous_text, last_text]
  have result_eq : start ++ '\n' :: tail =
      (front ++ opener :: (before ++ [previous] ++ (behind ++ closer :: rest))).flatMap
        Lexeme.text := by
    simp [start, tail, previous_text]
  have count_eq : 2 + start.count '\n' =
      1 + ((front ++ opener :: (before ++ [previous])).flatMap Lexeme.text).count '\n' := by
    simp [start, previous_text]
    omega
  rwa [text_eq, result_eq, count_eq] at removes

theorem isBlank_of_isTagChar {c : Char} (named : isTagChar c = true) : isBlank c = false := by
  simp only [isBlank, Bool.or_eq_false_iff, beq_eq_false_iff_ne]
  exact ⟨⟨ne_of_test named rfl, ne_of_test named rfl⟩, ne_of_test named rfl⟩

theorem getLast?_of_docTaken {star tag : Bool} {kind : Kind} {text later : List Char}
    {after : Lexeme.Mode} (taken : Lexeme.DocTaken star tag kind text later after)
    (inside : kind.isDocBody = true) (within : '\n' ∉ text) (spacing : Scan.spacing later ≠ 0) :
    text ≠ [] ∧ text.getLast?.any isBlank = false := by
  cases taken with
  | close => simp [Kind.isDocBody] at inside
  | blanks nonempty blank stops => exact absurd stops spacing
  | lineEnd blank => simp at within
  | star allowed => exact ⟨by simp, rfl⟩
  | @tag name _ allowed nonempty named whole =>
    refine ⟨by simp, ?_⟩
    rw [getLast?_cons_of_ne_nil nonempty, getLast?_eq_some_getLast nonempty]
    exact isBlank_of_isTagChar (named _ (getLast_mem nonempty))
  | text notBlank notStar notTag within full behind =>
    rw [head?_reverse] at full
    exact ⟨by simp, full⟩

theorem docTaken_of_stretch {lexeme : Lexeme} {back : List Lexeme}
    (stretch : DocBlock.Stretch (lex source) block front opener (before ++ lexeme :: back)
      (closer :: rest)) (closes : closer.kind = .docClose) :
    ∃ star tag after, Lexeme.DocTaken star tag lexeme.kind lexeme.text
      ((back ++ closer :: rest).flatMap Lexeme.text) after := by
  rcases exists_readUpTo_of_stretch stretch closes rfl with ⟨star, tag, -, position, cuts⟩
  rw [cons_append] at cuts
  rcases cuts.docTaken with ⟨after, later, split, -, taken, -⟩
  rw [flatMap_cons, append_cancel_left_eq] at split
  exact ⟨star, tag, after, split ▸ taken⟩

section

variable (stretch : DocBlock.Stretch (lex source) block front opener (before ++ (gone ++ behind))
  (closer :: rest))

include stretch

theorem head?_of_tailCut (closes : closer.kind = .docClose)
    (cut : TailCut gone behind) : (gone.flatMap Lexeme.text).head? = some '@' := by
  rcases cut with @⟨text, _, tag, tagged, -, -⟩
  rcases docTaken_of_stretch stretch closes with ⟨star, allowed, after, taken⟩
  rw [tagged] at taken
  rw [flatMap_cons]
  generalize tag.text = name at taken
  cases taken with
  | tag => rfl

/-- The text that goes with a tag does not reach into the blanks before the newline. -/
theorem getLast?_of_tailCut (closes : closer.kind = .docClose)
    (within : '\n' ∉ gone.flatMap Lexeme.text) {stop : Lexeme} {more : List Lexeme}
    (behind_eq : behind = stop :: more) (ends : stop.endsDocLine = true) :
    (gone.flatMap Lexeme.text).getLast?.any isBlank = false := by
  rcases eq_nil_or_concat' gone with rfl | ⟨init, last, rfl⟩
  · rfl
  · have split : before ++ (init ++ [last] ++ behind) = (before ++ init) ++ last :: behind := by
      simp
    rcases docTaken_of_stretch (split ▸ stretch) closes with ⟨star, allowed, after, taken⟩
    have member : stop ∈ lex source := by
      rw [stretch.split, behind_eq]
      simp
    rcases (cuts_lex source).text_of_endsDocLine member ends with ⟨blanks, stop_text, blank⟩
    have last_within : '\n' ∉ last.text := fun newline => within (by simp [newline])
    have spacing : Scan.spacing ((behind ++ closer :: rest).flatMap Lexeme.text) ≠ 0 := by
      rw [behind_eq, cons_append, flatMap_cons, stop_text, List.append_assoc,
        Lexeme.spacing_append blank]
      simp [Scan.spacing]
    rcases getLast?_of_docTaken taken (stretch.inside last (by simp)) last_within spacing with
      ⟨nonempty, unblank⟩
    rw [flatMap_append, flatMap_singleton, getLast?_append_of_ne_nil _ nonempty]
    exact unblank

theorem removesTail_of_tailCut {comment : Comment} {tag : Tag} (closes : closer.kind = .docClose)
    (cut : TailCut gone behind) (tag_eq : block.opener + 1 + before.length = tag.token)
    (closer_eq : comment.closer = block.opener + (before ++ (gone ++ behind)).length + 1) :
    RemovesTail source comment tag (gone.flatMap Lexeme.text) (behind.flatMap Lexeme.text)
      ((closer :: rest).flatMap Lexeme.text)
      ((front ++ opener :: (before ++ (behind ++ closer :: rest))).flatMap Lexeme.text) := by
  rcases split_of_stretch stretch rfl with ⟨split, count⟩
  have before_tag := textBefore_of_split split
  rw [count, tag_eq] at before_tag
  rcases split_of_stretch stretch (append_nil _).symm with ⟨split_closer, count_closer⟩
  have before_closer := textBefore_of_split split_closer
  rw [count_closer, show block.opener + 1 + (before ++ (gone ++ behind)).length = comment.closer by
    omega] at before_closer
  have whole := (cuts_lex source).flatMap_text
  rw [stretch.split] at whole
  refine ⟨?_, ?_, ?_, ?_, ?_, ?_⟩
  · rw [before_tag, ← whole]
    simp
  · rw [before_tag]
    simp
  · rw [before_tag, before_closer]
    simp
  · exact head?_of_tailCut stretch closes cut
  · rcases cut with ⟨-, within, -⟩
    exact within
  · rcases cut with ⟨-, within, rfl | ⟨stop, more, behind_eq, ends⟩⟩
    · exact .inl rfl
    · have member : stop ∈ lex source := by
        rw [stretch.split, behind_eq]
        simp
      rcases (cuts_lex source).text_of_endsDocLine member ends with ⟨blanks, stop_text, blank⟩
      refine .inr ⟨getLast?_of_tailCut stretch closes within behind_eq ends, blanks,
        more.flatMap Lexeme.text, ?_, blank⟩
      rw [behind_eq, flatMap_cons, stop_text, List.append_assoc]
      rfl

end

end Texts

end Stream

end PhpStyle
