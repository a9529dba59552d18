import PhpStyle.Proofs.Effects
import PhpStyle.Proofs.TagCuts

/-!
# Deleting a tag

The edits that delete a tag from its doc comment make one changeset, which takes
effect. They cut the comment in one of two ways, depending on whether the line of
the tag lies between the lines of the opener and the closer. What is left is read
again: up to the comment the lexemes are the same ones, and the comment has the
tags that stay.
-/

namespace PhpStyle

open Text List

namespace Repair

variable {lexemes : List Lexeme} {repair : Repair}

/-- What a deletion leaves of a file. -/
theorem piecesFrom_of_deletes_iff {before gone behind : List Lexeme}
    (deletes_iff : ∀ index, repair.deletes index = true ↔
      before.length ≤ index ∧ index < before.length + gone.length)
    (no_comma : ∀ last, repair ≠ .comma last) :
    piecesFrom [repair] (before ++ (gone ++ behind)) 0 =
      (before ++ behind).map Lexeme.piece := by
  have other (index : Nat) : .comma index ≠ repair := (no_comma index).symm
  have kept (part : List Lexeme) (start : Nat)
      (away : ∀ index, start ≤ index → index < start + part.length → repair.deletes index = false) :
      ((part.zipIdx start).flatMap fun place => remains [repair] place.1 place.2) =
        part.map Lexeme.piece := by
    induction part generalizing start with
    | nil => rfl
    | cons lexeme part ih =>
      have stays : remains [repair] lexeme start = [lexeme.piece] := by
        simp [remains, away start (Nat.le_refl _) (by simp), other]
      rw [zipIdx_cons, flatMap_cons, stays, ih]
      · rfl
      · intro index lower upper
        exact away index (by omega) (by rw [length_cons]; omega)
  have taken : ((gone.zipIdx before.length).flatMap fun place =>
      remains [repair] place.1 place.2) = [] := by
    rw [flatMap_eq_nil_iff]
    rintro ⟨lexeme, index⟩ inside
    rcases List.mk_mem_zipIdx_iff_le_and_getElem?_sub.mp inside with ⟨lower, found⟩
    have bound := (List.getElem?_eq_some_iff.mp found).1
    have deleted := (deletes_iff index).mpr ⟨lower, by omega⟩
    simp [remains, deleted]
  rw [piecesFrom, drop_zero, zipIdx_append, zipIdx_append, flatMap_append,
    flatMap_append, Nat.zero_add, taken, kept, kept, nil_append, map_append]
  all_goals
    intro index lower upper
    rw [← Bool.not_eq_true, deletes_iff]
    omega

end Repair

namespace Lexeme

section Seams

variable {mode : Mode} {position : Position} {text : List Char}

/-- Blanks that the lexer has cut do not run together with what follows them. -/
theorem Cuts.foldr_attach {front rest : List Lexeme} {next : Lexeme}
    (cuts : Cuts mode position text (front ++ next :: rest)) (other : next.kind ≠ .docWhitespace)
    (pieces : List Piece) :
    (front.map piece).foldr attach (next.piece :: pieces) =
      front.map piece ++ next.piece :: pieces := by
  induction front generalizing mode position text with
  | nil => rfl
  | cons lexeme front ih =>
    rw [cons_append] at cuts
    have whole : Cuts mode position text ([lexeme] ++ (front ++ next :: rest)) := cuts
    rcases whole.suffix with ⟨_, _, _, following⟩
    rw [map_cons, foldr_cons, ih following, cons_append]
    apply cuts.attach_piece
    cases front with
    | nil => exact fun joins => absurd (Option.some.inj joins) other
    | cons lexeme front => exact fun joins => joins

end Seams

end Lexeme

namespace Stream

section Splitting

variable {source : List Char} {block : DocBlock} {front body rest : List Lexeme}
  {opener closer : Lexeme} {comment : Comment} {tag : Tag}

theorem exists_append_cons {items : List Lexeme} {index : Nat} {lexeme : Lexeme}
    (found : items[index]? = some lexeme) :
    ∃ before behind, items = before ++ lexeme :: behind ∧ before.length = index := by
  rcases List.getElem?_eq_some_iff.mp found with ⟨bound, rfl⟩
  refine ⟨items.take index, items.drop (index + 1), ?_, length_take_of_le (by omega)⟩
  rw [← drop_eq_getElem_cons bound, take_append_drop]

theorem getElem?_closer_of_stretch
    (stretch : DocBlock.Stretch (lex source) block front opener body (closer :: rest)) :
    (lex source)[block.opener + body.length + 1]? = some closer := by
  rw [stretch.getElem?_of_lt (by omega), getElem?_append_right (by omega),
    show block.opener + body.length + 1 - (block.opener + 1) - body.length = 0 by omega]
  rfl

theorem getElem?_of_part {before part more : List Lexeme}
    (stretch : DocBlock.Stretch (lex source) block front opener (before ++ (part ++ more))
      (closer :: rest)) {offset : Nat} (bound : offset < part.length) :
    (lex source)[block.opener + 1 + before.length + offset]? = part[offset]? := by
  rw [stretch.getElem?_of_lt (by omega), List.append_assoc, List.append_assoc,
    show block.opener + 1 + before.length + offset - (block.opener + 1) = before.length + offset
      by omega, getElem?_append_right (by omega), Nat.add_sub_cancel_left,
    getElem?_append_left bound]

/-- Before the last token on a line no newline comes. -/
theorem newline_not_mem_of_onTagLine {before part more : List Lexeme}
    (stretch : DocBlock.Stretch (lex source) block front opener (before ++ (part ++ more))
      (closer :: rest)) (on_line : ∀ index, block.opener + 1 + before.length ≤ index →
      index ≤ block.opener + 1 + before.length + part.length →
        OnTagLine (lex source) comment tag.token index) : '\n' ∉ part.flatMap Lexeme.text := by
  intro inside
  rcases List.mem_flatMap.mp inside with ⟨lexeme, member, newline⟩
  rcases getElem?_of_mem member with ⟨offset, offset_found⟩
  have bound := (List.getElem?_eq_some_iff.mp offset_found).1
  let index := block.opener + 1 + before.length + offset
  have found : (lex source)[index]? = some lexeme :=
    (getElem?_of_part stretch bound).trans offset_found
  have here := (on_line index (by omega) (by omega)).line
  have next := (on_line (index + 1) (by omega) (by omega)).line
  rw [← here, found, Option.map_some, Option.map_eq_some_iff] at next
  rcases next with ⟨second, second_found, same⟩
  have line := ((cuts_lex source).adjacent_at found second_found).line
  have counted := List.count_pos_iff.mpr newline
  omega

theorem exists_lineCut
    (stretch : DocBlock.Stretch (lex source) block front opener body (closer :: rest))
    (closes : closer.kind = .docClose) (opener_eq : comment.opener = block.opener)
    (closer_eq : comment.closer = block.opener + body.length + 1) {previous last : Nat}
    (fits : (Repair.line previous last).Fits (lex source))
    (on_line : ∀ index, (Repair.line previous last).covers index →
      OnTagLine (lex source) comment tag.token index) :
    ∃ before gone behind, body = before ++ (gone ++ behind) ∧ LineCut before gone ∧
      block.opener + before.length = previous ∧ previous + gone.length = last := by
  cases fits with
  | @line _ _ before lexeme ordered previous_found starts last_found ends =>
    have lower := (on_line (previous + 1) ⟨by omega, by omega⟩).opener_lt
    have upper := (on_line last ⟨by omega, by omega⟩).le_closer
    have after_opener : block.opener < previous := by
      apply Nat.lt_of_le_of_ne (by omega)
      rintro rfl
      obtain rfl := Option.some.inj (stretch.getElem?_opener.symm.trans previous_found)
      simp [Lexeme.endsDocLine, stretch.opens] at starts
    have before_closer : last < block.opener + body.length + 1 := by
      apply Nat.lt_of_le_of_ne (by omega)
      rintro rfl
      obtain rfl := Option.some.inj ((getElem?_closer_of_stretch stretch).symm.trans last_found)
      simp [Lexeme.endsDocLine, closes] at ends
    rw [stretch.getElem?_of_lt after_opener, getElem?_append_left (by omega)] at previous_found
    rw [stretch.getElem?_of_lt (by omega), getElem?_append_left (by omega)] at last_found
    rcases exists_append_cons previous_found with ⟨start, behind, rfl, start_length⟩
    rw [getElem?_append_right (by omega), show last - (block.opener + 1) - start.length =
      last - previous - 1 + 1 by omega, getElem?_cons_succ] at last_found
    rcases exists_append_cons last_found with ⟨line, more, rfl, line_length⟩
    have count : (start ++ [before]).length = previous - block.opener := by
      simp
      omega
    refine ⟨start ++ [before], line ++ [lexeme], more, by simp, .mk starts ends ?_, by omega, ?_⟩
    · have split : start ++ before :: (line ++ lexeme :: more) =
          (start ++ [before]) ++ (line ++ lexeme :: more) := by simp
      exact newline_not_mem_of_onTagLine (split ▸ stretch) fun index lower upper =>
        on_line index ⟨by omega, by omega⟩
    · simp
      omega

theorem exists_tailCut
    (stretch : DocBlock.Stretch (lex source) block front opener body (closer :: rest))
    (opener_eq : comment.opener = block.opener)
    (closer_eq : comment.closer = block.opener + body.length + 1) {stop : Nat}
    (fits : (Repair.tail tag.token stop).Fits (lex source))
    (on_line : ∀ index, (Repair.tail tag.token stop).covers index →
      OnTagLine (lex source) comment tag.token index) :
    ∃ before gone behind, body = before ++ (gone ++ behind) ∧ TailCut gone behind ∧
      block.opener + 1 + before.length = tag.token ∧ tag.token + gone.length = stop := by
  cases fits with
  | @tail _ _ lexeme ending ordered tag_found tagged stop_found stops =>
    have lower := (on_line tag.token ⟨by omega, by omega⟩).opener_lt
    have upper := (on_line stop ⟨by omega, by omega⟩).le_closer
    rw [stretch.getElem?_of_lt (by omega), getElem?_append_left (by omega)] at tag_found
    rcases exists_append_cons tag_found with ⟨before, following, rfl, before_length⟩
    let count := stop - tag.token - 1
    have whole : following.take count ++ following.drop count = following :=
      take_append_drop _ _
    have size : (before ++ lexeme :: following).length =
        before.length + following.length + 1 := by
      simp
      omega
    have count_eq : (following.take count).length = count :=
      length_take_of_le (by omega)
    refine ⟨before, lexeme :: following.take count, following.drop count, ?_, .mk tagged ?_ ?_,
      by omega, ?_⟩
    · rw [cons_append, whole]
    · have split : before ++ lexeme :: following =
          before ++ (lexeme :: following.take count ++ following.drop count) := by
        rw [cons_append, whole]
      exact newline_not_mem_of_onTagLine (split ▸ stretch) fun index lower upper =>
        on_line index ⟨by omega, by rw [length_cons] at upper; omega⟩
    · cases left : following.drop count with
      | nil => exact .inl rfl
      | cons next more =>
        have next_found : following[count]? = some next := by
          rw [← head?_drop, left]
          rfl
        have bound := (List.getElem?_eq_some_iff.mp next_found).1
        rw [stretch.getElem?_of_lt (by omega), getElem?_append_left (by omega),
          show stop - (block.opener + 1) = before.length + (count + 1) by omega,
          getElem?_append_right (by omega), Nat.add_sub_cancel_left,
          getElem?_cons_succ, next_found] at stop_found
        obtain rfl := Option.some.inj stop_found
        have member : next ∈ following := mem_of_getElem? next_found
        have inner := stretch.inside next (by simp [member])
        refine .inr ⟨next, more, rfl, stops.resolve_left fun closes => ?_⟩
        simp [closes, Kind.isDocBody] at inner
    · rw [length_cons]
      omega

end Splitting

section Reading

variable {source : List Char} {block : DocBlock} {front before gone behind rest : List Lexeme}
  {opener closer : Lexeme}

/-- What is left of a source without some lexemes of a doc comment. -/
structure Leaves (source : List Char) (edits : List Edit) (left : List Lexeme) : Prop where
  contents : (Fixer.applyAll (.ofStream (ofSource source) true) [edits]).contents =
    left.flatMap Lexeme.text
  lexemes : (lex (left.flatMap Lexeme.text)).map Lexeme.piece =
    (left.map Lexeme.piece).foldr Lexeme.attach []

theorem leaves_of_isPlan {repair : Repair} (split : lex source = before ++ (gone ++ behind))
    (isPlan : Repair.IsPlan (lex source) [repair])
    (deletes_iff : ∀ index, repair.deletes index = true ↔
      before.length ≤ index ∧ index < before.length + gone.length)
    (no_comma : ∀ last, repair ≠ .comma last) : Leaves source repair.edits (before ++ behind) := by
  have pieces : Repair.piecesFrom [repair] (lex source) 0 =
      (before ++ behind).map Lexeme.piece := by
    rw [split]
    exact Repair.piecesFrom_of_deletes_iff deletes_iff no_comma
  have contents := Standard.contents_applyAll isPlan
  have lexemes := Standard.map_piece_lex_contents isPlan
  have texts : Lexeme.texts ((before ++ behind).map Lexeme.piece) =
      (before ++ behind).flatMap Lexeme.text := by
    rw [Lexeme.texts, flatMap_map]
    rfl
  rw [contents, pieces, texts] at lexemes
  rw [pieces, texts] at contents
  exact ⟨contents, lexemes⟩

/-- A doc comment without some lexemes inside it is found again in the same place. -/
theorem closedAt_of_cut (stretch : DocBlock.Stretch (lex source) block front opener
      (before ++ (gone ++ behind)) (closer :: rest)) (ends : closer.text = ['*', '/'])
    (cut : LineCut before gone ∨ TailCut gone behind) {edits : List Edit} {left : List Lexeme}
    (left_eq : left = front ++ opener :: (before ++ (behind ++ closer :: rest)))
    (leaves : Leaves source edits left) :
    (ofSource (left.flatMap Lexeme.text)).textBefore block.opener = front.flatMap Lexeme.text ∧
      ClosedAt (left.flatMap Lexeme.text) block.opener
        (before.flatMap Lexeme.text ++ behind.flatMap Lexeme.text) (rest.flatMap Lexeme.text) := by
  have cuts := cuts_lex source
  rw [stretch.split] at cuts
  have other : opener.kind ≠ .docWhitespace := by simp [stretch.opens]
  have begins : ∃ pieces, (lex (left.flatMap Lexeme.text)).map Lexeme.piece =
      front.map Lexeme.piece ++ opener.piece :: pieces := by
    rw [leaves.lexemes, left_eq, map_append, foldr_append, map_cons,
      foldr_cons, Lexeme.attach_of_ne _ other, cuts.foldr_attach other]
    exact ⟨_, rfl⟩
  rcases begins with ⟨pieces, begins⟩
  have front_length : (front.map Lexeme.piece).length = block.opener := by
    rw [length_map, stretch.front_length]
  have front_same : (ofSource (left.flatMap Lexeme.text)).textBefore block.opener =
      front.flatMap Lexeme.text := by
    have pieces_eq : ((lex (left.flatMap Lexeme.text)).take block.opener).map Lexeme.piece =
        front.map Lexeme.piece := by
      rw [map_take, begins, ← front_length, take_left]
    have texts := congrArg (List.flatMap Prod.snd) pieces_eq
    rw [flatMap_map, flatMap_map] at texts
    rw [textBefore, ofSource, flatMap_text_take]
    exact texts
  refine ⟨front_same, ?_, ?_, runsOn_of_cut stretch ends cut⟩
  · have opener_at := congrArg (fun pieces => pieces[block.opener]?) begins
    simp only [getElem?_map, getElem?_append_right (Nat.le_of_eq front_length),
      front_length, Nat.sub_self, getElem?_cons_zero, Option.map_eq_some_iff] at opener_at
    rcases opener_at with ⟨lexeme, found, same⟩
    exact (kind?_iff_of_isDocComment rfl).mpr
      ⟨lexeme, found, (congrArg Prod.fst same).trans stretch.opens⟩
  · rw [textBefore] at front_same
    rw [front_same, left_eq]
    simp [stretch.mark, ends]

end Reading

section Deletion

variable {source : List Char} {block : DocBlock} {front body rest : List Lexeme}
  {opener closer : Lexeme} {comment : Comment} {tag : Tag}

/-- The deletion of a tag as a cut through the doc comment of the tag. -/
structure CutsTag (source : List Char) (block : DocBlock) (comment : Comment) (tag : Tag)
    (repair : Repair) (before gone behind : List Lexeme) : Prop where
  edits_eq : (ofSource source).tagDeletion comment tag = repair.edits
  fits : repair.Fits (lex source)
  on_line : ∀ index, repair.covers index → OnTagLine (lex source) comment tag.token index
  no_comma : ∀ last, repair ≠ .comma last
  deletes_iff : ∀ index, repair.deletes index = true ↔
    block.opener + 1 + before.length ≤ index ∧
      index < block.opener + 1 + before.length + gone.length
  cut : LineCut before gone ∨ TailCut gone behind ∧ block.opener + 1 + before.length = tag.token ∧
    ∃ line first last, LineRun (ofSource source) tag.token line first last ∧
      ¬(comment.opener < first ∧ last < comment.closer)

theorem exists_cutsTag
    (stretch : DocBlock.Stretch (lex source) block front opener body (closer :: rest))
    (closes : closer.kind = .docClose) (holds : Holds (lex source) comment)
    (opener_eq : comment.opener = block.opener)
    (closer_eq : comment.closer = block.opener + body.length + 1) (inside : tag ∈ comment.tags) :
    ∃ repair before gone behind, body = before ++ (gone ++ behind) ∧
      CutsTag source block comment tag repair before gone behind := by
  rcases tagDeletion_cases (cuts_lex source) holds inside with
    ⟨repair, edits_eq, fits, on_line, ⟨previous, last, rfl⟩ |
      ⟨stop, line, first, last, rfl, run, shared⟩⟩
  · rcases exists_lineCut stretch closes opener_eq closer_eq fits on_line with
      ⟨before, gone, behind, split, cut, start, count⟩
    refine ⟨_, before, gone, behind, split, edits_eq, fits, on_line, by simp, ?_, .inl cut⟩
    intro index
    simp only [Repair.deletes, Bool.and_eq_true, decide_eq_true_eq]
    omega
  · rcases exists_tailCut stretch opener_eq closer_eq fits on_line with
      ⟨before, gone, behind, split, cut, start, count⟩
    refine ⟨_, before, gone, behind, split, edits_eq, fits, on_line, by simp, ?_,
      .inr ⟨cut, start, line, first, last, run, shared⟩⟩
    intro index
    simp only [Repair.deletes, Bool.and_eq_true, decide_eq_true_eq]
    omega

variable {repair : Repair} {before gone behind : List Lexeme}
  (cutsTag : CutsTag source block comment tag repair before gone behind)

include cutsTag

theorem CutsTag.leaves (holds : Holds (lex source) comment)
    (stretch : DocBlock.Stretch (lex source) block front opener (before ++ (gone ++ behind))
      (closer :: rest)) :
    Leaves source ((ofSource source).tagDeletion comment tag)
      (front ++ opener :: (before ++ (behind ++ closer :: rest))) := by
  have isPlan : Repair.IsPlan (lex source) [repair] := by
    refine ⟨pairwise_singleton _ _, by simpa using cutsTag.fits, ?_, ?_⟩
    · intro other planned place deleted
      obtain rfl := List.mem_singleton.mp planned
      exact Standard.not_significantAt_of_onTagLine (cuts_lex source) holds
        (cutsTag.on_line place (Repair.covers_of_deletes deleted))
    · intro last planned
      exact absurd (List.mem_singleton.mp planned).symm (cutsTag.no_comma last)
  rcases split_of_stretch stretch rfl with ⟨split, count⟩
  rw [List.append_assoc gone] at split
  have leaves := leaves_of_isPlan split isPlan
    (by simpa only [count] using cutsTag.deletes_iff) cutsTag.no_comma
  rwa [cutsTag.edits_eq, ← cons_append, ← List.append_assoc]

/-- The tag that goes is the only one in the part that goes. -/
theorem CutsTag.tagsFrom_gone (holds : Holds (lex source) comment) (inside : tag ∈ comment.tags)
    (stretch : DocBlock.Stretch (lex source) block front opener (before ++ (gone ++ behind))
      (closer :: rest)) : tagsFrom (block.opener + 1 + before.length) gone = [tag.token] := by
  have cuts := cuts_lex source
  let start := block.opener + 1 + before.length
  have deleted := Standard.deletes_token cuts holds inside cutsTag.fits cutsTag.on_line
  have bounds := (cutsTag.deletes_iff tag.token).mp deleted
  have listed : tag.token ∈ tagsFrom start gone := by
    rcases holds.tag_at inside with ⟨-, -, lexeme, found, tagged⟩
    refine mem_tagsFrom_iff.mpr ⟨bounds.1, lexeme, ?_, tagged⟩
    rw [← getElem?_of_part stretch (by omega), Nat.add_sub_cancel' bounds.1, found]
  have only : ∀ other ∈ tagsFrom start gone, other = tag.token := by
    intro other member
    rcases mem_tagsFrom_iff.mp member with ⟨lower, lexeme, found, tagged⟩
    have bound := (List.getElem?_eq_some_iff.mp found).1
    rw [← getElem?_of_part stretch bound, Nat.add_sub_cancel' lower] at found
    have here := (cutsTag.deletes_iff other).mpr ⟨lower, by omega⟩
    exact eq_token_of_onTagLine cuts holds inside
      (cutsTag.on_line other (Repair.covers_of_deletes here)) found tagged
  have once : (tagsFrom start gone).Nodup := (pairwise_tagsFrom start gone).imp Nat.ne_of_lt
  have same := eq_replicate_of_mem only
  have length : (tagsFrom start gone).length = 1 := by
    rw [same] at once
    exact Nat.le_antisymm (List.nodup_replicate.mp once) (length_pos_of_mem listed)
  rw [length] at same
  exact same

theorem CutsTag.line? (holds : Holds (lex source) comment) (inside : tag ∈ comment.tags)
    (stretch : DocBlock.Stretch (lex source) block front opener (before ++ (gone ++ behind))
      (closer :: rest)) :
    (ofSource source).line? tag.token =
      some (1 + ((front ++ opener :: before).flatMap Lexeme.text).count '\n') := by
  have deleted := Standard.deletes_token (cuts_lex source) holds inside cutsTag.fits cutsTag.on_line
  have bounds := (cutsTag.deletes_iff tag.token).mp deleted
  have first_deleted := (cutsTag.deletes_iff (block.opener + 1 + before.length)).mpr (by omega)
  have same := (cutsTag.on_line _ (Repair.covers_of_deletes first_deleted)).line
  cases gone with
  | nil =>
    rw [length_nil] at bounds
    omega
  | cons first gone =>
    rcases split_of_stretch stretch rfl with ⟨split, count⟩
    rw [ofSource, line?_ofLexemes, ← same, ← line?_ofLexemes, ← count]
    exact line?_of_split split

end Deletion

section Result

variable {source : List Char} {block : DocBlock} {front before gone behind rest : List Lexeme}
  {opener closer : Lexeme}

theorem getElem?_position {stream : Stream} {tag : Tag} {last : Nat}
    (inside : tag ∈ (stream.commentOf block last).tags) :
    block.tags[tag.position]? = some tag.token ∧
      (stream.commentOf block last).tags[tag.position]? = some tag := by
  rcases List.mem_mapIdx.mp inside with ⟨place, bound, rfl⟩
  have found := getElem?_eq_getElem bound
  constructor
  · exact found
  · exact List.getElem?_mapIdx.trans (congrArg _ found)

/-- The tags of a comment with one of them singled out. -/
theorem spelling_of_commentOf {tag : Tag} {last : Nat}
    (stretch : DocBlock.Stretch (lex source) block front opener (before ++ (gone ++ behind))
      (closer :: rest)) (inside : tag ∈ ((ofSource source).commentOf block last).tags)
    (only : tagsFrom (block.opener + 1 + before.length) gone = [tag.token]) :
    let comment := (ofSource source).commentOf block last
    comment.tags[tag.position]? = some tag ∧
      (comment.tags.map Tag.spelling).eraseIdx tag.position =
        spellings (lex source) (block.opener + 1) before ++
          spellings (lex source) (block.opener + 1 + (before ++ gone).length) behind := by
  intro comment
  have tags_eq : block.tags = tagsFrom (block.opener + 1) before ++ (tag.token ::
      tagsFrom (block.opener + 1 + (before ++ gone).length) behind) := by
    rw [stretch.tags_eq, tagsFrom_append, tagsFrom_append, only, length_append, Nat.add_assoc _
      before.length]
    rfl
  have spelled : comment.tags.map Tag.spelling =
      block.tags.map fun tag => ((ofSource source).tagAt tag 0).spelling :=
    map_spelling_commentOf _ _ _
  rcases getElem?_position inside with ⟨found, at_position⟩
  have position_eq : tag.position = (tagsFrom (block.opener + 1) before).length := by
    have once : block.tags.Nodup := by
      rw [stretch.tags_eq]
      exact (pairwise_tagsFrom _ _).imp Nat.ne_of_lt
    apply (getElem?_inj (List.getElem?_eq_some_iff.mp found).1 once).mp
    rw [found, tags_eq]
    simp
  refine ⟨at_position, ?_⟩
  rw [spelled, tags_eq, position_eq, map_append, eraseIdx_append_of_length_le (by simp)]
  simp [spellings, ofSource]

end Result

/-- The line of a tag that is cut out with its line lies between the lines of the opener and the
closer. -/
theorem CutsTag.exists_lines {source : List Char} {block : DocBlock} {comment : Comment} {tag : Tag}
    {repair : Repair} {front before gone behind rest : List Lexeme} {opener closer : Lexeme}
    (cutsTag : CutsTag source block comment tag repair before gone behind)
    (holds : Holds (lex source) comment) (inside : tag ∈ comment.tags)
    (stretch : DocBlock.Stretch (lex source) block front opener (before ++ (gone ++ behind))
      (closer :: rest)) (opener_eq : comment.opener = block.opener)
    (closer_eq : comment.closer = block.opener + (before ++ (gone ++ behind)).length + 1) :
    ∃ first line last, (ofSource source).line? comment.opener = some first ∧
      (ofSource source).line? tag.token = some line ∧
      (ofSource source).line? comment.closer = some last ∧
      line = 1 + ((front ++ opener :: before).flatMap Lexeme.text).count '\n' ∧
      (LineCut before gone ∧ first < line ∧ line < last ∨
        TailCut gone behind ∧ block.opener + 1 + before.length = tag.token ∧
          ¬(first < line ∧ line < last)) := by
  have opener_line := line?_of_split stretch.split
  rw [stretch.front_length, ← opener_eq] at opener_line
  rcases split_of_stretch stretch (append_nil _).symm with ⟨split, count⟩
  have closer_line := line?_of_split split
  rw [count, show block.opener + 1 + (before ++ (gone ++ behind)).length = comment.closer by omega]
    at closer_line
  have tag_line := cutsTag.line? holds inside stretch
  refine ⟨_, _, _, opener_line, tag_line, closer_line, rfl, ?_⟩
  rcases cutsTag.cut with cut | ⟨cut, start, line, first, last, run, shared⟩
  · refine .inl ⟨cut, ?_⟩
    rcases cut with @⟨before, line, previous, last, starts, ends, within⟩
    have counted {lexeme : Lexeme} (ends : lexeme.endsDocLine = true)
        (member : lexeme ∈ lex source) : 0 < lexeme.text.count '\n' := by
      rcases (cuts_lex source).text_of_endsDocLine member ends with ⟨blanks, text_eq, -⟩
      rw [text_eq, count_append]
      exact Nat.succ_pos _
    have previous_counted := counted starts (by rw [stretch.split]; simp)
    have last_counted := counted ends (by rw [stretch.split]; simp)
    simp only [flatMap_append, flatMap_cons, flatMap_nil, count_append]
    omega
  · refine .inr ⟨cut, start, ?_⟩
    rintro ⟨lower, upper⟩
    have at_tag := run.on_line tag.token run.first_le run.le_last
    have line_eq := Option.some.inj (tag_line.symm.trans at_tag)
    rcases holds.tag_at inside with ⟨after_opener, before_closer, -⟩
    have first_le := run.first_le
    have le_last := run.le_last
    rcases Nat.lt_or_ge comment.opener first with begins | begins
    · have reaches : comment.closer ≤ last := Nat.le_of_not_lt fun within => shared ⟨begins, within⟩
      have at_closer := run.on_line comment.closer (by omega) reaches
      have := Option.some.inj (closer_line.symm.trans at_closer)
      omega
    · have at_opener := run.on_line comment.opener begins (by omega)
      have := Option.some.inj (opener_line.symm.trans at_opener)
      omega

/-- Deleting a tag from its doc comment is one changeset that takes effect. A line between those of
the opener and the closer goes as a whole; on one of their lines the text of the tag goes. The
comment is read again in its place, with the other tags. -/
theorem tag_deletion_is_exact (source : List Char) {index : Nat} {comment : Comment} {tag : Tag}
    (found : (ofSource source).commentAt? index = some comment) (inside : tag ∈ comment.tags) :
    let stream := ofSource source
    let edits := stream.tagDeletion comment tag
    let fixer := ((Fixer.ofStream stream true).apply edits).2
    let result := fixer.contents
    (((Fixer.ofStream stream true).apply edits).1 = .ok edits.length ∧ edits ≠ [] ∧
        fixer.fixCount = 1 ∧ fixer.rejectedCount = 0 ∧ fixer.isOpen = false) ∧
      (∃ first line last, stream.line? comment.opener = some first ∧
        stream.line? tag.token = some line ∧ stream.line? comment.closer = some last ∧
        if first < line ∧ line < last then RemovesLine source line result
        else ∃ removed gap behind, RemovesTail source comment tag removed gap behind result) ∧
      ∃ revised, (ofSource result).commentAt? comment.opener = some revised ∧
        revised.opener = comment.opener ∧
        (ofSource result).textBefore comment.opener = stream.textBefore comment.opener ∧
        comment.tags[tag.position]? = some tag ∧
        revised.tags.map Tag.spelling = (comment.tags.map Tag.spelling).eraseIdx tag.position := by
  intro stream edits fixer result
  rcases exists_segments_lex source with ⟨blocks, segments⟩
  rcases (commentAt?_eq_some_iff segments).mp found with ⟨block, member, closer, place, -, rfl⟩
  rcases Stream.exists_stretch segments member with ⟨front, opener, body, later, stretch⟩
  rcases stretch.ends with ⟨-, unclosed⟩ | ⟨ending, rest, rfl, closes, ends, closer_place⟩
  · simp [unclosed] at place
  obtain rfl := Option.some.inj (place.symm.trans closer_place)
  let comment := stream.commentOf block (block.opener + body.length + 1)
  have holds : Holds (lex source) comment := by
    have at_closer : stream.commentAt? (block.opener + body.length + 1) = some comment :=
      (commentAt?_eq_some_iff segments).mpr ⟨block, member, _, place, .inr rfl, rfl⟩
    refine (holds_of_commentAt? at_closer ?_).2
    exact (kind?_iff_of_isDocComment rfl).mpr ⟨ending, getElem?_closer_of_stretch stretch, closes⟩
  rcases exists_cutsTag stretch closes holds rfl rfl inside with
    ⟨repair, before, gone, behind, rfl, cutsTag⟩
  let left := front ++ opener :: (before ++ (behind ++ ending :: rest))
  have leaves := cutsTag.leaves holds stretch
  have result_eq : result = left.flatMap Lexeme.text := leaves.contents
  have takes : Fixer.Takes (.ofStream stream true) edits := by
    have := cutsTag.fits.takes
    rwa [← cutsTag.edits_eq] at this
  have fixer_eq := takes.apply_eq rfl rfl
  have either : LineCut before gone ∨ TailCut gone behind := cutsTag.cut.imp_right And.left
  rcases closedAt_of_cut stretch ends either rfl leaves with ⟨front_same, closed⟩
  rw [← result_eq] at front_same closed
  refine ⟨⟨takes.fst_apply rfl rfl, takes.nonempty, ?_, ?_, ?_⟩, ?_, ?_⟩
  · exact congrArg Fixer.fixCount fixer_eq
  · exact congrArg Fixer.rejectedCount fixer_eq
  · exact congrArg Fixer.isOpen fixer_eq
  · rcases cutsTag.exists_lines holds inside stretch rfl rfl with
      ⟨first, line, last, opener_line, tag_line, closer_line, rfl, shape⟩
    refine ⟨first, _, last, opener_line, tag_line, closer_line, ?_⟩
    rcases shape with ⟨cut, within⟩ | ⟨cut, start, shared⟩
    · rw [if_pos within, result_eq]
      exact removesLine_of_lineCut stretch cut
    · rw [if_neg shared, result_eq]
      exact ⟨_, _, _, removesTail_of_tailCut stretch closes cut start rfl⟩
  · have only := cutsTag.tagsFrom_gone holds inside stretch
    rcases spelling_of_commentOf stretch inside only with ⟨at_position, erased⟩
    rcases exists_revised stretch closes either closed with
      ⟨revised, revised_found, revised_opener, spelled⟩
    have before_same := textBefore_of_split stretch.split
    rw [stretch.front_length] at before_same
    exact ⟨revised, revised_found, revised_opener, front_same.trans before_same.symm, at_position,
      spelled.trans erased.symm⟩

/-- The second of three tags has a line of its own, the first one shares a line with the opener. -/
theorem tag_deletion_is_exact_three_tags :
    let source := "<?php /** @a u\n * @b x \n\t* @c y z\t\r\n*/".toList
    let stream := ofSource source
    let first : Tag := ⟨4, "@a", some "u", 0⟩
    let second : Tag := ⟨11, "@b", some "x", 1⟩
    let comment : Comment := ⟨2, 22, [first, second, ⟨18, "@c", some "y z", 2⟩]⟩
    let without (tag : Tag) : List Char :=
      ((Fixer.ofStream stream true).apply (stream.tagDeletion comment tag)).2.contents
    stream.commentAt? 22 = some comment ∧
      without second = "<?php /** @a u\n\t* @c y z\t\r\n*/".toList ∧
      RemovesLine source 2 (without second) ∧
      (∃ revised, (ofSource (without second)).commentAt? 2 = some revised ∧
        revised.tags.map Tag.spelling = [⟨"@a", some "u"⟩, ⟨"@c", some "y z"⟩]) ∧
      without first = "<?php /** \n * @b x \n\t* @c y z\t\r\n*/".toList ∧
      ∃ removed gap behind,
        RemovesTail source comment first removed gap behind (without first) := by
  intro source stream first second comment without
  have found : stream.commentAt? 22 = some comment := by decide +kernel
  rcases tag_deletion_is_exact source found (show second ∈ comment.tags by simp [comment]) with
    ⟨-, ⟨_, line, _, opener_line, tag_line, closer_line, shape⟩, revised, again, -, -, -, spelled⟩
  rcases tag_deletion_is_exact source found (show first ∈ comment.tags by simp [comment]) with
    ⟨-, ⟨_, _, _, other_opener, other_tag, other_closer, other_shape⟩, -⟩
  refine ⟨found, by decide +kernel, ?_, ⟨revised, again, spelled⟩, by decide +kernel, ?_⟩
  · obtain rfl := Option.some.inj (opener_line.symm.trans (show _ = some 1 by decide +kernel))
    obtain rfl := Option.some.inj (tag_line.symm.trans (show _ = some 2 by decide +kernel))
    obtain rfl := Option.some.inj (closer_line.symm.trans (show _ = some 4 by decide +kernel))
    exact shape
  · obtain rfl := Option.some.inj (other_opener.symm.trans (show _ = some 1 by decide +kernel))
    obtain rfl := Option.some.inj (other_tag.symm.trans (show _ = some 1 by decide +kernel))
    exact other_shape

end Stream

end PhpStyle
