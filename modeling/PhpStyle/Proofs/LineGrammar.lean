import PhpStyle.Proofs.DocLines

/-!
# Doc tags are parsed by lines

The lexer decides with two flags what is a tag, and carries them from lexeme to
lexeme. The content of a tag is found later, in the two tokens behind it. Both
come out as `DocLine.tags` says: each step of the lexer takes from the text what
the lines make nothing of, or just the name of one tag.
-/

namespace PhpStyle

open Text DocLine List

namespace Lexeme

/-- What a step takes from the text of a doc comment, and what it leaves. -/
inductive DocTaken (starAllowed tagAllowed : Bool) :
    Kind → List Char → List Char → Mode → Prop where
  | close {rest : List Char} : DocTaken starAllowed tagAllowed .docClose ['*', '/'] rest .php
  | blanks {taken rest : List Char} (nonempty : taken ≠ [])
      (blank : ∀ c ∈ taken, isBlank c = true) (stops : Scan.spacing rest = 0) :
      DocTaken starAllowed tagAllowed .docWhitespace taken rest (.docComment starAllowed tagAllowed)
  | lineEnd {blanks rest : List Char} (blank : ∀ c ∈ blanks, isBlank c = true) :
      DocTaken starAllowed tagAllowed .docWhitespace (blanks ++ ['\n']) rest (.docComment true true)
  | star {rest : List Char} (allowed : starAllowed = true) :
      DocTaken starAllowed tagAllowed .docStar ['*'] rest (.docComment false true)
  | tag {name rest : List Char} (allowed : tagAllowed = true) (nonempty : name ≠ [])
      (named : ∀ c ∈ name, isTagChar c = true) (whole : rest.head?.any isTagChar = false) :
      DocTaken starAllowed tagAllowed .docTag ('@' :: name) rest (.docComment false false)
  | text {c : Char} {taken rest : List Char} (notBlank : isBlank c = false)
      (notStar : c = '*' → starAllowed = false)
      (notTag : c = '@' → tagAllowed = true → (taken ++ rest).head?.any isTagChar = false)
      (within : '\n' ∉ c :: taken) (full : (c :: taken).reverse.head?.any isBlank = false)
      (behind : BlankRest rest) :
      DocTaken starAllowed tagAllowed .docString (c :: taken) rest (.docComment false false)

theorem DocStep.taken {starAllowed tagAllowed : Bool} {c : Char} {text taken rest : List Char}
    {found : Step} (begins : DocStep starAllowed tagAllowed c text found)
    (split : text = taken ++ rest) (whole : found.tail = taken.length) :
    DocTaken starAllowed tagAllowed found.kind (c :: taken) rest found.mode := by
  have space := begins.of_docWhitespace
  have within := begins.newline_not_mem split whole
  cases begins with
  | close =>
    obtain ⟨taken, rfl, rfl⟩ := cons_eq_append split (by simp [← whole])
    obtain rfl := List.length_eq_zero_iff.mp (show taken.length = 0 by simpa using whole)
    exact .close
  | newline =>
    obtain rfl := List.length_eq_zero_iff.mp whole.symm
    have nothing : ∀ c ∈ ([] : List Char), isBlank c = true := by simp
    exact .lineEnd nothing
  | blanks blank ends =>
    subst split
    have reaches : Scan.spacing (c :: taken ++ rest) = (c :: taken).length := by
      rw [cons_append, space rfl, whole, length_cons]
    simp only at whole
    rw [whole, take_left] at ends
    rcases spacing_split reaches with all_blank | ⟨blanks, line_eq, all_blank⟩
    · obtain rfl := ends.trans (endsLine_of_blank all_blank)
      have stops : Scan.spacing rest = 0 := by
        rw [spacing_append all_blank] at reaches
        omega
      simp only [Bool.or_false]
      exact .blanks (by simp) all_blank stops
    · have lineEnds : Lexeme.endsLine (c :: taken) = true := by simp [line_eq, Lexeme.endsLine]
      obtain rfl := ends.trans lineEnds
      simp only [Bool.or_true, line_eq]
      exact .lineEnd all_blank
  | star allowed other =>
    obtain rfl := List.length_eq_zero_iff.mp whole.symm
    exact .star allowed
  | tag allowed named =>
    subst split
    have reaches := Scan.run_append_eq.mp whole
    refine .tag allowed ?_ reaches.1 reaches.2
    rintro rfl
    simp [reaches.2] at named
  | text notClose notSpace notStar notTag =>
    subst split
    have goesOn : ¬StopsLine (c :: (taken ++ rest)) := by
      simp [StopsLine, notClose, notSpace.2]
    have reaches : Scan.docText (c :: taken ++ rest) = (c :: taken).length := by
      have := docText_pos notSpace.1 goesOn
      simp only [cons_append, length_cons] at whole ⊢
      omega
    rcases blankRest_of_docText reaches with ⟨-, full, behind⟩
    exact .text notSpace.1 notStar notTag (within (by simp)) full behind

/-- What the first of the lexemes of a doc comment takes from the text. -/
theorem Cuts.docTaken {starAllowed tagAllowed : Bool} {position : Position} {text : List Char}
    {lexeme : Lexeme} {lexemes : List Lexeme}
    (cuts : Cuts (.docComment starAllowed tagAllowed) position text (lexeme :: lexemes)) :
    ∃ after rest, text = lexeme.text ++ rest ∧ lexeme.line = position.line ∧
      DocTaken starAllowed tagAllowed lexeme.kind lexeme.text rest after ∧
      Cuts after (position.after lexeme.text) rest lexemes := by
  cases cuts with
  | @next _ after _ c taken rest kind _ announced following =>
    exact ⟨after, rest, rfl, rfl, (docStep_of_step announced).taken rfl rfl, following⟩

/-- The content that the lexemes behind a tag on the given line give it. -/
def contentBehind? (line : Nat) : List Lexeme → Option String
  | space :: string :: _ =>
    if space.kind = .docWhitespace ∧ string.kind = .docString ∧ string.line = line then
      some (String.ofList string.text)
    else none
  | _ => none

end Lexeme

theorem RunsOn.drop {piece rest : List Char} {count : Nat}
    (runs : RunsOn (piece ++ rest) (piece.length + count)) : RunsOn rest count := by
  intro place before
  have clear := runs (piece.length + place) (by omega)
  rwa [drop_length_add_append] at clear

/-- Where only blanks are left of a line, they are what is left of it within the comment. -/
theorem Lexeme.BlankRest.blank_firstLine {front behind : List Char}
    (blank : BlankRest (front ++ behind)) (runs : RunsOn (front ++ behind) front.length) :
    ∀ c ∈ firstLine front, isBlank c = true := by
  rcases blank with ⟨blanks, stop, split, blank, stops⟩
  rcases List.append_eq_append_iff.mp split with ⟨more, rfl, -⟩ | ⟨more, rfl, rfl⟩
  · intro c inside
    exact blank c (mem_append_left _ (mem_of_mem_firstLine inside))
  · cases more with
    | nil =>
      intro c inside
      exact blank c (by simpa using mem_of_mem_firstLine inside)
    | cons c more =>
      rw [cons_append, stopsLine_cons] at stops
      rcases stops with rfl | ⟨rfl, slash⟩
      · rw [firstLine_append (newline_not_mem_of_blank blank), firstLine_newline, append_nil]
        exact blank
      · rcases List.head?_eq_some_iff.mp slash with ⟨tail, tail_eq⟩
        have clear := runs blanks.length (by simp)
        rw [List.append_assoc, drop_left, cons_append, tail_eq] at clear
        exact absurd ⟨tail, rfl⟩ clear

namespace Lexeme

section Body

variable {starAllowed tagAllowed : Bool} {position : Position} {text : List Char}
  {body rest : List Lexeme} {closer : Lexeme}

/-- After text of its line a doc comment ends, or a string goes up to the end of the line. -/
theorem Cuts.string_of_stops
    (cuts : Cuts (.docComment false false) position text (body ++ closer :: rest))
    (inside : ∀ lexeme ∈ body, lexeme.kind.isDocBody = true)
    (runs : RunsOn text (body.flatMap Lexeme.text).length) (stops : Scan.spacing text = 0) :
    body = [] ∨ ∃ string more, body = string :: more ∧ string.kind = .docString ∧
      string.line = position.line ∧ string.text ≠ [] ∧ string.text.head?.any isBlank = false ∧
      string.text.reverse.head?.any isBlank = false ∧
      ∃ behind, firstLine (body.flatMap Lexeme.text) = string.text ++ behind ∧
        ∀ c ∈ behind, isBlank c = true := by
  cases body with
  | nil => exact .inl rfl
  | cons first body =>
    right
    rw [cons_append] at cuts
    rcases cuts.docTaken with ⟨after, behind, rfl, line_eq, taken, following⟩
    rcases first with ⟨kind, piece, line, column⟩
    rw [forall_mem_cons] at inside
    rw [flatMap_cons, length_append] at runs
    rw [Scan.spacing_eq_zero] at stops
    refine ⟨_, body, rfl, ?_⟩
    dsimp only at taken line_eq stops following runs ⊢
    cases taken with
    | close => simp [Kind.isDocBody] at inside
    | blanks nonempty blank stops_there =>
      cases piece with
      | nil => exact absurd rfl nonempty
      | cons c piece => simp [blank c (by simp)] at stops
    | @lineEnd blanks _ blank =>
      cases blanks with
      | nil => simp at stops
      | cons c blanks => simp [blank c (by simp)] at stops
    | star allowed => simp at allowed
    | tag allowed nonempty named whole => simp at allowed
    | @text c taken _ notBlank notStar notTag within full blank =>
      refine ⟨rfl, line_eq, by simp, by simp [notBlank], full,
        firstLine (body.flatMap Lexeme.text), ?_, ?_⟩
      · exact firstLine_append within _
      · rw [← following.flatMap_text, flatMap_append] at blank runs
        exact blank.blank_firstLine runs.drop

/-- The lexemes behind a tag give it the content that the rest of its line spells. -/
theorem Cuts.contentBehind?_eq
    (cuts : Cuts (.docComment false false) position text (body ++ closer :: rest))
    (inside : ∀ lexeme ∈ body, lexeme.kind.isDocBody = true) (closes : closer.kind = .docClose)
    (runs : RunsOn text (body.flatMap Lexeme.text).length) :
    contentBehind? position.line (body ++ closer :: rest) =
      content? (firstLine (body.flatMap Lexeme.text)) := by
  cases body with
  | nil =>
    have nothing : contentBehind? position.line (closer :: rest) = none := by
      cases rest <;> simp [contentBehind?, closes]
    exact nothing
  | cons first body =>
    rw [cons_append] at cuts ⊢
    rcases cuts.docTaken with ⟨after, behind, rfl, -, taken, following⟩
    rcases first with ⟨kind, piece, line, column⟩
    rw [forall_mem_cons] at inside
    rw [flatMap_cons, length_append] at runs
    rw [flatMap_cons]
    dsimp only at taken following runs ⊢
    cases taken with
    | close => simp [Kind.isDocBody] at inside
    | blanks separated blank stops =>
      have within := newline_not_mem_of_blank blank
      rw [firstLine_append within]
      rcases following.string_of_stops inside.2 runs.drop stops with
        rfl | ⟨string, more, rfl, kind, line_eq, nonempty, first, last, behind, line, back⟩
      · have nothing : content? (piece ++ firstLine []) = none :=
          content?_of_blank (by simpa [firstLine] using blank)
        simp [contentBehind?, closes, nothing]
      · have same_line : string.line = position.line := by
          rw [line_eq, line_after, List.count_eq_zero.mpr within, Nat.add_zero]
        rw [line, content?_of_text blank separated back nonempty first last]
        simp [contentBehind?, kind, same_line]
    | @lineEnd blanks _ blank =>
      have within := newline_not_mem_of_blank blank
      have line :
          firstLine (blanks ++ ['\n'] ++ body.flatMap Lexeme.text) = blanks := by
        rw [List.append_assoc, firstLine_append within]
        exact append_nil blanks
      rw [line, content?_of_blank blank]
      cases next : body ++ closer :: rest with
      | nil => rfl
      | cons string more =>
        rw [next] at following
        have line_eq := following.line_of_cons
        rw [line_after] at line_eq
        have later : string.line ≠ position.line := by simp [line_eq]
        simp [contentBehind?, later]
    | star allowed => simp at allowed
    | tag allowed nonempty named whole => simp at allowed
    | @text c taken _ notBlank notStar notTag within full blank =>
      have joined : content?
          (c :: taken ++ firstLine (body.flatMap Lexeme.text)) = none := by
        simp [content?, notBlank]
      rw [firstLine_append within, joined]
      cases next : body ++ closer :: rest <;> simp [contentBehind?]

end Body

end Lexeme

namespace Stream

variable {lexemes : List Lexeme}

variable {index : Nat} {lexeme : Lexeme}

theorem getElem?_of_drop_eq_cons {behind : List Lexeme}
    (place : lexemes.drop index = lexeme :: behind) :
    lexemes[index]? = some lexeme ∧ lexemes.drop (index + 1) = behind := by
  constructor
  · rw [← head?_drop, place]
    rfl
  · rw [← tail_drop, place]
    rfl

theorem exists_get? (found : lexemes[index]? = some lexeme) :
    ∃ token, (ofLexemes lexemes).get? index = some token ∧ token.text = lexeme.text ∧
      token.line = lexeme.line ∧
      ∀ kind : Kind, kind.isDocComment = true → (token.kind = kind ↔ lexeme.kind = kind) := by
  rcases get?_ofLexemes found with ⟨kind, conditions, -, token_found⟩
  refine ⟨_, token_found, rfl, rfl, ?_⟩
  intro other doc
  have same : (ofLexemes lexemes).kind? index = some other ↔
      ∃ lexeme, lexemes[index]? = some lexeme ∧ lexeme.kind = other :=
    kind?_iff_of_isDocComment doc
  simpa [kind?, token_found, found] using same

/-- The tag token and the two tokens behind it say how a tag is spelled. -/
theorem spelling_tagAt {behind : List Lexeme} (place : lexemes.drop index = lexeme :: behind)
    (position : Nat) :
    ((ofLexemes lexemes).tagAt index position).spelling =
      ⟨String.ofList lexeme.text, Lexeme.contentBehind? lexeme.line behind⟩ := by
  rcases getElem?_of_drop_eq_cons place with ⟨found, behind_place⟩
  rcases exists_get? found with ⟨tag, tag_found, text, line, -⟩
  have content : (ofLexemes lexemes).tagContent? index =
      Lexeme.contentBehind? lexeme.line behind := by
    have outside (place : Nat) (none_left : lexemes.drop place = []) :
        (ofLexemes lexemes).get? place = none := by
      apply get?_ofLexemes_eq_none
      rw [← head?_drop, none_left]
      rfl
    cases behind with
    | nil => simp [tagContent?, line?, tag_found, outside _ behind_place, Lexeme.contentBehind?]
    | cons space behind =>
      rcases getElem?_of_drop_eq_cons behind_place with ⟨space_found, string_place⟩
      rcases exists_get? space_found with ⟨space_token, space_get, -, -, space_kind⟩
      cases behind with
      | nil =>
        simp [tagContent?, line?, tag_found, space_get, outside _ string_place,
          Lexeme.contentBehind?]
      | cons string behind =>
        rcases getElem?_of_drop_eq_cons string_place with ⟨string_found, -⟩
        rcases exists_get? string_found with
          ⟨string_token, string_get, string_text, string_line, string_kind⟩
        simp [tagContent?, line?, tag_found, space_get, string_get, Lexeme.contentBehind?,
          space_kind .docWhitespace rfl, string_kind .docString rfl, string_text, string_line,
          line]
  simp [Tag.spelling, tagAt, tag_found, text, content]

end Stream

namespace Lexeme

section Spelling

variable {starAllowed tagAllowed star tag : Bool} {position : Position} {text : List Char}
  {front back rest lexemes : List Lexeme} {closer : Lexeme} {start : Nat}

/-- A doc comment is read up to a place. Its lines spell the tags up to there and what the lines
from there on spell. These may be other ones, unless they go on with a line that has text. -/
structure ReadUpTo (lexemes : List Lexeme) (starAllowed tagAllowed : Bool) (start : Nat)
    (front back : List Lexeme) (star tag : Bool) : Prop where
  cuts : ∃ position, Cuts (.docComment star tag) position
    ((lexemes.drop (start + front.length)).flatMap Lexeme.text)
    (lexemes.drop (start + front.length))
  reached : star = true → tag = true
  newline : tagAllowed = false → tag = true → '\n' ∈ front.flatMap Lexeme.text
  tags : ∀ other, tag = true ∨
      firstLine other = firstLine (back.flatMap Lexeme.text) →
    DocLine.tagsFrom starAllowed tagAllowed (front.flatMap Lexeme.text ++ other) =
      (tagsFrom start front).map (fun tag => ((Stream.ofLexemes lexemes).tagAt tag 0).spelling) ++
        DocLine.tagsFrom star tag other

/-- A line that has text goes on in the same way. -/
theorem ReadUpTo.firstLine_eq (read : ReadUpTo lexemes starAllowed false start front back star tag)
    {other : List Char} (same : tag = true ∨
      firstLine other = firstLine (back.flatMap Lexeme.text)) :
    firstLine (front.flatMap Lexeme.text ++ other) =
      firstLine ((front ++ back).flatMap Lexeme.text) := by
  rw [flatMap_append]
  rcases same with allowed | same
  · have newline := read.newline rfl allowed
    rw [firstLine_append_of_newline_mem newline, firstLine_append_of_newline_mem newline]
  · exact firstLine_append_congr same _

/-- The lexemes of a doc comment are read up to any of them as its lines are. -/
theorem Cuts.exists_readUpTo (cuts : Cuts (.docComment starAllowed tagAllowed) position text
      (front ++ (back ++ closer :: rest)))
    (inside : ∀ lexeme ∈ front ++ back, lexeme.kind.isDocBody = true)
    (closes : closer.kind = .docClose)
    (runs : RunsOn text ((front ++ back).flatMap Lexeme.text).length)
    (place : lexemes.drop start = front ++ (back ++ closer :: rest))
    (reached : starAllowed = true → tagAllowed = true) :
    ∃ star tag, ReadUpTo lexemes starAllowed tagAllowed start front back star tag := by
  induction front generalizing starAllowed tagAllowed position text start with
  | nil =>
    refine ⟨starAllowed, tagAllowed, ⟨position, ?_⟩, reached, ?_, fun other _ => rfl⟩
    · rw [length_nil, Nat.add_zero, place, cuts.flatMap_text]
      exact cuts
    · intro forbidden allowed
      simp [forbidden] at allowed
  | cons first front ih =>
    rw [cons_append] at cuts place inside runs
    rcases cuts.docTaken with ⟨after, behind, rfl, line_eq, taken, following⟩
    have later := (Stream.getElem?_of_drop_eq_cons place).2
    have spelling := Stream.spelling_tagAt place 0
    rw [forall_mem_cons] at inside
    rw [flatMap_cons, length_append] at runs
    have count : start + (first :: front).length = start + 1 + front.length := by
      rw [length_cons]
      omega
    rcases first with ⟨kind, piece, line, column⟩
    dsimp only at taken following runs line_eq spelling
    subst line_eq
    cases taken with
    | close => simp [Kind.isDocBody] at inside
    | blanks nonempty blank stops =>
      rcases ih following inside.2 runs.drop later reached with ⟨star, tag, read⟩
      refine ⟨star, tag, count ▸ read.cuts, read.reached, ?_, ?_⟩
      · intro forbidden allowed
        exact mem_append_right _ (read.newline forbidden allowed)
      · intro other same
        rw [flatMap_cons, tagsFrom_cons, List.append_assoc,
          tagsFrom_append (newline_not_mem_of_blank blank),
          lineTag?_blanks blank, ← tagsFrom_eq]
        exact read.tags other same
    | @lineEnd blanks _ blank =>
      rcases ih following inside.2 runs.drop later (fun _ => rfl) with ⟨star, tag, read⟩
      refine ⟨star, tag, count ▸ read.cuts, read.reached, by simp, ?_⟩
      intro other same
      have nothing : lineTag? starAllowed tagAllowed blanks = none := by
        simpa using lineTag?_blanks blank []
      rw [flatMap_cons, tagsFrom_cons, List.append_assoc, List.append_assoc,
        singleton_append, tagsFrom_append_newline _ _ (newline_not_mem_of_blank blank), nothing]
      exact read.tags other same
    | star allowed =>
      obtain rfl := allowed
      obtain rfl := reached rfl
      rcases ih following inside.2 runs.drop later (fun _ => rfl) with ⟨star, tag, read⟩
      refine ⟨star, tag, count ▸ read.cuts, read.reached, by simp, ?_⟩
      intro other same
      rw [flatMap_cons, tagsFrom_cons, List.append_assoc,
        tagsFrom_append (show '\n' ∉ ['*'] by decide), singleton_append,
        lineTag?_star, ← tagsFrom_eq]
      exact read.tags other same
    | @tag name _ allowed nonempty named whole =>
      have within : '\n' ∉ '@' :: name := by
        intro newline
        rcases List.mem_cons.mp newline with same | newline
        · simp at same
        · simpa [isTagChar] using named _ newline
      have same_line : (position.after ('@' :: name)).line = position.line := by
        rw [line_after, List.count_eq_zero.mpr within, Nat.add_zero]
      rw [← List.append_assoc] at following
      have content := following.contentBehind?_eq inside.2 closes runs.drop
      rw [← following.flatMap_text, flatMap_append] at whole
      rw [List.append_assoc] at following content
      rcases ih following inside.2 runs.drop later id with ⟨star, tag, read⟩
      refine ⟨star, tag, count ▸ read.cuts, read.reached, by simp [allowed], ?_⟩
      intro other same
      rw [flatMap_cons, tagsFrom_cons, List.append_assoc, tagsFrom_append within,
        read.firstLine_eq same, cons_append,
        lineTag?_tag allowed nonempty named (head?_firstLine_any whole),
        ← content, same_line, ← spelling, if_pos rfl, map_append, List.append_assoc]
      exact congrArg _ (read.tags other same)
    | @text c taken _ notBlank notStar notTag within full blank =>
      rcases ih following inside.2 runs.drop later id with ⟨star, tag, read⟩
      refine ⟨star, tag, count ▸ read.cuts, read.reached, ?_, ?_⟩
      · intro forbidden allowed
        exact mem_append_right _ (read.newline rfl allowed)
      · intro other same
        have nothing : lineTag? starAllowed tagAllowed
            (c :: taken ++ firstLine (front.flatMap Lexeme.text ++ other)) = none := by
          refine lineTag?_text notBlank notStar ?_
          intro sign allowed
          have fails := notTag sign allowed
          rw [← following.flatMap_text, ← List.append_assoc front, flatMap_append] at fails
          rw [read.firstLine_eq same]
          cases taken with
          | nil => exact head?_firstLine_any fails
          | cons d taken => simpa using fails
        rw [flatMap_cons, tagsFrom_cons, List.append_assoc, tagsFrom_append within, nothing]
        exact read.tags other same

/-- The tags of a doc comment are spelled by its lines. -/
theorem Cuts.map_spelling_tagsFrom
    (cuts : Cuts (.docComment starAllowed tagAllowed) position text (front ++ closer :: rest))
    (inside : ∀ lexeme ∈ front, lexeme.kind.isDocBody = true) (closes : closer.kind = .docClose)
    (runs : RunsOn text (front.flatMap Lexeme.text).length)
    (place : lexemes.drop start = front ++ closer :: rest)
    (reached : starAllowed = true → tagAllowed = true) :
    (tagsFrom start front).map (fun tag => ((Stream.ofLexemes lexemes).tagAt tag 0).spelling) =
      DocLine.tagsFrom starAllowed tagAllowed (front.flatMap Lexeme.text) := by
  have whole : front ++ [] = front := append_nil front
  have exists_read : ∃ star tag, ReadUpTo lexemes starAllowed tagAllowed start front [] star tag :=
    cuts.exists_readUpTo (by rwa [whole]) closes (by rwa [whole]) place reached
  rcases exists_read with ⟨star, tag, read⟩
  have spelled := read.tags [] (.inr rfl)
  have nothing : DocLine.tagsFrom star tag [] = [] := by simp [tagsFrom_line]
  rw [nothing, append_nil, append_nil] at spelled
  exact spelled.symm

end Spelling

variable {mode : Mode} {position : Position} {text : List Char} {lexemes : List Lexeme}

/-- A doc comment begins on a line that has no star. -/
theorem Cuts.behind_opener {opener : Lexeme}
    (cuts : Cuts mode position text (opener :: lexemes)) (opens : opener.kind = .docOpen) :
    ∃ position, Cuts (.docComment false true) position (lexemes.flatMap Lexeme.text) lexemes := by
  cases cuts with
  | @next _ after _ c taken rest kind _ announced following =>
    have outside := (isDoc_eq_isInner announced).trans (congrArg isInner opens)
    have doc := isDoc_of_step announced (.inl opens)
    obtain rfl : after = .docComment false true :=
      (eq_docOpen_of_isDoc outside doc announced).2.2.1
    rw [following.flatMap_text]
    exact ⟨_, following⟩

end Lexeme

/-- What comes before the first end of a doc comment is determined. -/
theorem RunsOn.eq_of_append {body other behind rest : List Char}
    (same : body ++ (['*', '/'] ++ behind) = other ++ (['*', '/'] ++ rest))
    (runs : RunsOn (body ++ (['*', '/'] ++ behind)) body.length)
    (other_runs : RunsOn (other ++ (['*', '/'] ++ rest)) other.length) :
    body = other ∧ behind = rest := by
  have not_before {body other behind rest : List Char}
      (same : body ++ (['*', '/'] ++ behind) = other ++ (['*', '/'] ++ rest))
      (runs : RunsOn (other ++ (['*', '/'] ++ rest)) other.length) :
      other.length ≤ body.length := by
    by_contra shorter
    have clear := runs body.length (by omega)
    rw [← same, drop_left] at clear
    exact clear (prefix_append _ _)
  have first := not_before same other_runs
  have second := not_before same.symm runs
  rcases append_inj same (by omega) with ⟨rfl, ends⟩
  exact ⟨rfl, append_cancel_left ends⟩

namespace Stream

section Closed

variable {source : List Char} {block : DocBlock} {front body behind : List Lexeme} {opener : Lexeme}
  (stretch : DocBlock.Stretch (lex source) block front opener body behind)

include stretch

theorem drop_of_stretch : (lex source).drop (block.opener + 1) = body ++ behind := by
  rw [stretch.split, ← stretch.front_length, drop_length_add_append]
  rfl

theorem cuts_of_stretch :
    ∃ position, Lexeme.Cuts (.docComment false true) position
      ((body ++ behind).flatMap Lexeme.text) (body ++ behind) := by
  have cuts := cuts_lex source
  rw [stretch.split] at cuts
  rcases cuts.suffix with ⟨_, _, _, from_opener⟩
  exact from_opener.behind_opener stretch.opens

theorem map_spelling_tags {closer : Lexeme} {rest : List Lexeme}
    (behind_eq : behind = closer :: rest) (closes : closer.kind = .docClose) :
    block.tags.map (fun tag => ((ofSource source).tagAt tag 0).spelling) =
      DocLine.tags (body.flatMap Lexeme.text) := by
  subst behind_eq
  rcases cuts_of_stretch stretch with ⟨position, cuts⟩
  rw [stretch.tags_eq, tags_eq_tagsFrom]
  exact cuts.map_spelling_tagsFrom stretch.inside closes stretch.runs (drop_of_stretch stretch)
    (by simp)

end Closed

/-- The doc comment of a closed block. -/
def commentOf (stream : Stream) (block : DocBlock) (closer : Nat) : Comment where
  opener := block.opener
  closer
  tags := block.tags.mapIdx fun position tag => stream.tagAt tag position

theorem map_token_commentOf (stream : Stream) (block : DocBlock) (closer : Nat) :
    (stream.commentOf block closer).tags.map Tag.token = block.tags := by
  apply ext_getElem?
  intro index
  simp [commentOf, tagAt, Function.comp_def]

theorem map_position_commentOf (stream : Stream) (block : DocBlock) (closer : Nat) :
    (stream.commentOf block closer).tags.map Tag.position = List.range block.tags.length := by
  apply ext_getElem?
  intro index
  rcases Nat.lt_or_ge index block.tags.length with inside | outside
  · simp [commentOf, tagAt, inside]
  · simp [commentOf, outside]

theorem map_spelling_commentOf (stream : Stream) (block : DocBlock) (closer : Nat) :
    (stream.commentOf block closer).tags.map Tag.spelling =
      block.tags.map fun tag => (stream.tagAt tag 0).spelling := by
  apply ext_getElem?
  intro index
  simp [commentOf, tagAt, Tag.spelling, Function.comp_def]

/-- The doc comments that a stream answers with are its closed blocks, at both of their ends. -/
theorem commentAt?_eq_some_iff {blocks : List DocBlock} (segments : Segments 0 lexemes blocks)
    {index : Nat} {comment : Comment} :
    (ofLexemes lexemes).commentAt? index = some comment ↔
      ∃ block ∈ blocks, ∃ closer, block.closer = some closer ∧
        (index = block.opener ∨ index = closer) ∧
        comment = (ofLexemes lexemes).commentOf block closer := by
  simp only [commentAt?, Option.bind_eq_bind, Option.bind_eq_some_iff, Option.pure_def,
    Option.some.injEq]
  constructor
  · rintro ⟨token, found, block, has, closer, closes, rfl⟩
    have bounds : block.opener = index ∨ block.closer = some index := by
      rw [docBlock_of_get? segments found] at has
      simpa using find?_some has
    refine ⟨block, mem_of_docBlock segments found has, closer, closes, ?_, rfl⟩
    rcases bounds with opens | ends
    · exact .inl opens.symm
    · exact .inr (Option.some.inj (ends.symm.trans closes))
  · rintro ⟨block, member, closer, closes, bounds, rfl⟩
    rcases exists_stretch segments member with ⟨front, opener, body, behind, stretch⟩
    obtain ⟨lexeme, found⟩ : ∃ lexeme, lexemes[index]? = some lexeme := by
      rcases bounds with rfl | rfl
      · exact ⟨opener, stretch.getElem?_opener⟩
      · rcases stretch.getElem?_closer closes with ⟨-, lexeme, found, -⟩
        exact ⟨lexeme, found⟩
    rcases exists_get? found with ⟨token, token_found, -⟩
    have bound : block.opener = index ∨ block.closer = some index := by
      rcases bounds with rfl | rfl
      · exact .inl rfl
      · exact .inr closes
    exact ⟨token, token_found, block, docBlock_of_bound segments member bound token_found, closer,
      closes, rfl⟩

/-- A closed doc comment of a source, with the text inside it and the text behind it. -/
structure ClosedAt (source : List Char) (opener : Nat) (body behind : List Char) : Prop where
  opens : (ofSource source).kind? opener = some .docOpen
  split : source =
    ((ofSource source).tokens.toList.take opener).flatMap (fun token => token.text) ++
      (['/', '*', '*'] ++ (body ++ (['*', '/'] ++ behind)))
  ends : RunsOn (body ++ (['*', '/'] ++ behind)) body.length

theorem closedAt_of_stretch {source : List Char} {block : DocBlock} {opener closer : Lexeme}
    {front body rest : List Lexeme}
    (stretch : DocBlock.Stretch (lex source) block front opener body (closer :: rest))
    (ends : closer.text = ['*', '/']) :
    ClosedAt source block.opener (body.flatMap Lexeme.text) (rest.flatMap Lexeme.text) where
  opens := (kind?_iff_of_isDocComment rfl).mpr ⟨opener, stretch.getElem?_opener, stretch.opens⟩
  split := by
    have whole := (cuts_lex source).flatMap_text.symm.trans (flatMap_text_eq stretch)
    rwa [flatMap_append, flatMap_cons, ends] at whole
  ends := by
    have runs := stretch.runs
    rwa [flatMap_append, flatMap_cons, ends] at runs

/-- The lexer cuts a closed doc comment where its text says. -/
theorem ClosedAt.exists_stretch {source body behind : List Char} {opener : Nat}
    (closed : ClosedAt source opener body behind) {blocks : List DocBlock}
    (segments : Segments 0 (lex source) blocks) :
    ∃ block ∈ blocks, block.opener = opener ∧ ∃ front first inner closer rest,
      DocBlock.Stretch (lex source) block front first inner (closer :: rest) ∧
        closer.kind = .docClose ∧ closer.text = ['*', '/'] ∧
        block.closer = some (opener + inner.length + 1) ∧ inner.flatMap Lexeme.text = body := by
  rcases Option.map_eq_some_iff.mp closed.opens with ⟨token, found, opens⟩
  rcases block_of_docOpen segments found opens with ⟨block, member, -, rfl⟩
  rcases Stream.exists_stretch segments member with ⟨front, first, inner, lexemes, stretch⟩
  have whole := (cuts_lex source).flatMap_text.symm.trans (flatMap_text_eq stretch)
  have same := append_cancel_left (append_cancel_left (closed.split.symm.trans whole))
  refine ⟨block, member, rfl, front, first, inner, ?_⟩
  rcases stretch.ends with ⟨rfl, -⟩ | ⟨closer, rest, rfl, closes, ends, place⟩
  · have runs := stretch.runs
    rw [append_nil] at runs same
    have clear := runs body.length (by simp [← same])
    rw [← same, drop_left] at clear
    exact absurd (prefix_append _ _) clear
  · have runs := stretch.runs
    rw [flatMap_append, flatMap_cons, ends] at runs same
    exact ⟨closer, rest, stretch, closes, ends, place,
      (RunsOn.eq_of_append same closed.ends runs).1.symm⟩

/-- The tags of a closed doc comment are those that the lines of its body spell, in their order. -/
theorem doc_tags_follow_line_grammar (source : List Char) :
    let stream := ofSource source
    (∀ opener body behind, ClosedAt source opener body behind →
      ∃ comment, stream.commentAt? opener = some comment ∧
        stream.commentAt? comment.closer = some comment ∧ comment.opener = opener ∧
        stream.content? opener comment.closer = some (['/', '*', '*'] ++ (body ++ ['*', '/'])) ∧
        comment.tags.map Tag.spelling = DocLine.tags body ∧
        comment.tags.map Tag.position = List.range comment.tags.length ∧
        (comment.tags.map Tag.token).Pairwise (· < ·) ∧
        ∀ tag ∈ comment.tags, opener < tag.token ∧ tag.token < comment.closer ∧
          stream.kind? tag.token = some .docTag) ∧
      ∀ index comment, stream.commentAt? index = some comment →
        (index = comment.opener ∨ index = comment.closer) ∧
          ∃ body behind, ClosedAt source comment.opener body behind := by
  intro stream
  rcases exists_segments_lex source with ⟨blocks, segments⟩
  constructor
  · intro opener body behind closed
    rcases closed.exists_stretch segments with
      ⟨block, member, rfl, front, first, inner, closer, rest, stretch, closes, ends, place, rfl⟩
    let comment := stream.commentOf block (block.opener + inner.length + 1)
    have tokens_eq : comment.tags.map Tag.token = block.tags := map_token_commentOf _ _ _
    refine ⟨comment, ?_, ?_, rfl, content?_of_closed stretch rfl ends, ?_, ?_, ?_, ?_⟩
    · exact (commentAt?_eq_some_iff segments).mpr ⟨block, member, _, place, .inl rfl, rfl⟩
    · exact (commentAt?_eq_some_iff segments).mpr ⟨block, member, _, place, .inr rfl, rfl⟩
    · rw [map_spelling_commentOf]
      exact map_spelling_tags stretch rfl closes
    · rw [map_position_commentOf, ← tokens_eq, length_map]
    · rw [tokens_eq, stretch.tags_eq]
      exact pairwise_tagsFrom _ _
    · intro tag inside
      have listed : tag.token ∈ block.tags := tokens_eq ▸ mem_map_of_mem inside
      rcases stretch.mem_tags_iff.mp listed with ⟨encloses, tagged⟩
      exact ⟨encloses.1, encloses.2 _ place, (kind?_iff_of_isDocComment rfl).mpr tagged⟩
  · intro index comment found
    rcases (commentAt?_eq_some_iff segments).mp found with
      ⟨block, member, closer, closes, bounds, rfl⟩
    refine ⟨bounds, ?_⟩
    rcases Stream.exists_stretch segments member with ⟨front, first, inner, lexemes, stretch⟩
    rcases stretch.ends with ⟨-, unclosed⟩ | ⟨last, rest, rfl, -, ends, -⟩
    · simp [unclosed] at closes
    · exact ⟨_, _, closedAt_of_stretch stretch ends⟩

/-- A carriage return before a newline, two stars at the front of a line, and a tag at the end. -/
theorem doc_tags_follow_line_grammar_two_stars :
    let body := " @a x \r\n ** @b\n *@c:d\t\n\t* @e".toList
    let source := "<?php /**".toList ++ (body ++ "*/ $x;".toList)
    let stream := ofSource source
    DocLine.tags body = [⟨"@a", some "x"⟩, ⟨"@c:d", none⟩, ⟨"@e", none⟩] ∧
      ∃ comment, stream.commentAt? 2 = some comment ∧
        comment.tags.map Tag.spelling = DocLine.tags body := by
  intro body source stream
  have closed : ClosedAt source 2 body " $x;".toList := by
    refine ⟨by decide +kernel, by decide +kernel, ?_⟩
    unfold RunsOn
    decide +kernel
  rcases (doc_tags_follow_line_grammar _).1 2 body _ closed with
    ⟨comment, found, -, -, -, spelled, -⟩
  exact ⟨by decide +kernel, comment, found, spelled⟩

end Stream

end PhpStyle
