import PhpStyle.Proofs.Skeletons
import PhpStyle.Proofs.TextReading

/-!
# Doc comments after a pass

A pass of repairs leaves the doc comments of a file where they are. Each one is found
again at the place of its skeleton, and its text is what the repairs leave of the old
one: all of it if no repair touches the comment, and all but the cut if one tag goes.

Cutting a tag never makes a comment inherit its text: no mark of inheritance can cross
the end of a line, and behind what is cut there is a blank, the end of a line or the end
of the comment.
-/

namespace PhpStyle

open List

namespace Lexeme

theorem texts_attach (piece : Piece) (pieces : List Piece) :
    texts (attach piece pieces) = piece.2 ++ texts pieces := by
  rw [attach]
  split
  · rw [addBlanks.eq_def]
    split
    · rw [texts_cons, texts_cons, List.append_assoc]
    · rw [texts_cons]
  · rw [texts_cons]

theorem texts_foldr_attach (pieces : List Piece) : texts (pieces.foldr attach []) = texts pieces := by
  induction pieces with
  | nil => rfl
  | cons piece pieces ih => rw [foldr_cons, texts_attach, ih, texts_cons]

/-- Blanks are not joined across a token that is none. -/
theorem attach_append {next : Piece} (other : next.1 ≠ .docWhitespace) (piece : Piece)
    (pieces rest : List Piece) :
    attach piece (pieces ++ next :: rest) = attach piece pieces ++ next :: rest := by
  rw [attach, attach]
  split
  · cases pieces with
    | nil =>
      rcases next with ⟨kind, text⟩
      cases kind <;> first | rfl | exact absurd rfl other
    | cons first pieces =>
      rcases first with ⟨kind, text⟩
      cases kind <;> rfl
  · rfl

theorem foldr_attach_append {next : Piece} (other : next.1 ≠ .docWhitespace)
    (pieces rest : List Piece) :
    (pieces ++ next :: rest).foldr attach [] =
      pieces.foldr attach [] ++ next :: rest.foldr attach [] := by
  induction pieces with
  | nil =>
    rw [nil_append, foldr_cons, attach, if_neg fun blank => other blank.1]
    rfl
  | cons piece pieces ih =>
    rw [cons_append, foldr_cons, ih, attach_append other, foldr_cons]

end Lexeme

namespace Repair

/-- What a plan leaves of a part of a file that begins at an index. -/
def remainder (plan : List Repair) (part : List Lexeme) (start : Nat) : List Piece :=
  (part.zipIdx start).flatMap fun place => remains plan place.1 place.2

theorem remainder_append (plan : List Repair) (first second : List Lexeme) (start : Nat) :
    remainder plan (first ++ second) start =
      remainder plan first start ++ remainder plan second (start + first.length) := by
  rw [remainder, zipIdx_append, flatMap_append, remainder, remainder, Nat.add_comm]

theorem remainder_cons (plan : List Repair) (lexeme : Lexeme) (part : List Lexeme) (start : Nat) :
    remainder plan (lexeme :: part) start =
      remains plan lexeme start ++ remainder plan part (start + 1) := by
  rw [remainder, zipIdx_cons, flatMap_cons, remainder]

/-- Where a plan leaves every lexeme, the whole part is left. -/
theorem remainder_eq_map {plan : List Repair} {part : List Lexeme} {start : Nat}
    (kept : ∀ offset lexeme, part[offset]? = some lexeme →
      remains plan lexeme (start + offset) = [lexeme.piece]) :
    remainder plan part start = part.map Lexeme.piece := by
  induction part generalizing start with
  | nil => rfl
  | cons lexeme part ih =>
    have first : remains plan lexeme start = [lexeme.piece] := kept 0 lexeme rfl
    rw [remainder_cons, first, ih]
    · rfl
    · intro offset other found
      rw [show start + 1 + offset = start + (offset + 1) by omega]
      exact kept (offset + 1) other found

theorem remainder_eq_nil {plan : List Repair} {part : List Lexeme} {start : Nat}
    (gone : ∀ place, start ≤ place → place < start + part.length →
      ∃ repair ∈ plan, repair.deletes place = true) : remainder plan part start = [] := by
  rw [remainder, flatMap_eq_nil_iff]
  rintro ⟨lexeme, place⟩ member
  rcases List.mk_mem_zipIdx_iff_le_and_getElem?_sub.mp member with ⟨lower, found⟩
  have upper := (List.getElem?_eq_some_iff.mp found).1
  rw [remains, if_pos]
  exact List.any_eq_true.mpr (gone place lower (by omega))

end Repair

namespace Standard.FunctionComment

theorem holdsWord_eq_true_iff (word text : List Char) :
    holdsWord word text = true ↔ word <:+: text := by
  induction text with
  | nil => rw [holdsWord, List.isEmpty_iff, infix_nil]
  | cons c rest ih =>
    rw [holdsWord, Bool.or_eq_true, isPrefixOf_iff_prefix, ih, infix_cons_iff]

/-- Characters that no mark of inheritance has. -/
def isSeam (c : Char) : Bool :=
  Text.isBlank c || c == '\n' || c == '*'

/-- The mark of inheritance is on one side of a seam. -/
theorem inherits_of_seam {front back whole : List Char} {c : Char} (seam : isSeam c = true)
    (before : front <+: whole) (behind : back <:+ whole)
    (marked : inherits (front ++ c :: back) = true) : inherits whole = true := by
  have other : c.toLower ∉ inheritMarker := by
    simp only [isSeam, Text.isBlank, Bool.or_eq_true, beq_iff_eq] at seam
    rcases seam with (((rfl | rfl) | rfl) | rfl) | rfl <;> decide
  rw [inherits, holdsWord_eq_true_iff, map_append, map_cons] at marked
  rw [inherits, holdsWord_eq_true_iff]
  rcases (infix_append_cons_iff other).mp marked with found | found
  · exact found.trans (before.map Char.toLower).isInfix
  · exact found.trans (behind.map Char.toLower).isInfix

end Standard.FunctionComment

namespace Stream

open Repair

/-- Where a doc comment is closed is decided by the first token that is not inside of it. -/
theorem eq_of_stretch {lexemes front body behind before inner rest : List Lexeme} {block : DocBlock}
    {opener first last : Lexeme} (stretch : DocBlock.Stretch lexemes block front opener body behind)
    (split : lexemes = before ++ first :: (inner ++ last :: rest))
    (before_length : before.length = block.opener)
    (inside : ∀ lexeme ∈ inner, lexeme.kind.isDocBody = true)
    (outside : last.kind.isDocBody = false) :
    front = before ∧ opener = first ∧ body = inner ∧ behind = last :: rest := by
  have same := stretch.split.symm.trans split
  rcases append_inj same (stretch.front_length.trans before_length.symm) with
    ⟨front_eq, later⟩
  rcases List.cons.inj later with ⟨opener_eq, later⟩
  have inner_eq : (inner ++ last :: rest).takeWhile (fun lexeme => lexeme.kind.isDocBody) =
      inner := by
    rw [takeWhile_append_of_pos inside, takeWhile_cons_of_neg (by simp [outside]), append_nil]
  have body_eq : (body ++ behind).takeWhile (fun lexeme => lexeme.kind.isDocBody) = body := by
    rw [takeWhile_append_of_pos stretch.inside]
    rcases stretch.ends with ⟨rfl, -⟩ | ⟨closer, more, rfl, closes, -⟩
    · exact append_nil body
    · rw [takeWhile_cons_of_neg (by simp [closes, Kind.isDocBody]), append_nil]
  rw [later, inner_eq] at body_eq
  subst body_eq
  exact ⟨front_eq, opener_eq, rfl, append_cancel_left later⟩

theorem length_skeleton_of_stretch {lexemes front body behind : List Lexeme} {block : DocBlock}
    {opener : Lexeme} (stretch : DocBlock.Stretch lexemes block front opener body behind) :
    (skeleton (front ++ opener :: body)).length = (skeleton front).length + 1 := by
  have body_gone : body.filter (fun lexeme => lexeme.kind.isFrame) = [] := by
    rw [filter_eq_nil_iff]
    intro lexeme member
    rw [Kind.isFrame, stretch.inside lexeme member]
    decide
  rw [skeleton, filter_append, filter_cons, stretch.opens, body_gone, length_append]
  rfl

namespace Revises

variable {source result : List Char} {plan : List Repair} (revises : Revises source result plan)

include revises

variable {front rest behind body : List Lexeme} {block : DocBlock} {opener : Lexeme}

theorem filter_remainder (split : lex source = front ++ rest) :
    (remainder plan front 0).filter (fun piece => piece.1.isFrame) =
      putCommas (.comma, [',']) (frameMarks plan front.zipIdx)
        ((skeleton front).map Lexeme.piece) := by
  have listed : ∀ place ∈ front.zipIdx, (lex source)[place.2]? = some place.1 := by
    intro place inside
    have found := List.mem_zipIdx_iff_getElem?.mp inside
    rw [split, getElem?_append_left (List.getElem?_eq_some_iff.mp found).1, found]
  rw [remainder, revises.filter_flatMap_remains listed, ← map_fst_filter_zipIdx front 0, map_map]
  rfl

/-- What the plan leaves of the tokens before a token of the skeleton ends at its new place. -/
theorem length_eq_revisedPlace {revised : List Lexeme} {lexeme : Lexeme}
    (split : lex source = front ++ rest) (revised_split : lex result = revised ++ lexeme :: behind)
    (frame : lexeme.kind.isFrame = true)
    (pieces : revised.map Lexeme.piece = (remainder plan front 0).foldr Lexeme.attach []) :
    revised.length = revisedPlace source result plan (skeleton front).length := by
  have skeleton_eq := congrArg List.length (revises.filter_remainder split)
  rw [← filter_foldr_attach Kind.isFrame rfl, ← pieces, ← Stream.map_piece_skeleton,
    length_map, length_putCommas _ (by rw [length_map, length_frameMarks]),
    length_map] at skeleton_eq
  have marks_eq : (frameMarks plan (lex source).zipIdx).take (skeleton front).length =
      (frameMarks plan front.zipIdx).take (skeleton front).length := by
    rw [split, zipIdx_append, frameMarks, filter_append, map_append]
    exact take_append_of_le_length (length_frameMarks plan front 0).ge
  rw [← framePlace_of_append revised_split frame, revisedPlace, skeleton_eq, shifted, shifted,
    marks_eq]

theorem remains_of_isDocComment {place : Nat} {lexeme : Lexeme}
    (found : (lex source)[place]? = some lexeme) (frame : lexeme.kind.isFrame = true)
    (trivia : lexeme.kind.isSignificant = false) : remains plan lexeme place = [lexeme.piece] := by
  rw [revises.remains_of_isFrame found frame, if_neg (revises.comma_not_mem found trivia)]

theorem filter_remainder_of_body
    (stretch : DocBlock.Stretch (lex source) block front opener body behind) :
    (remainder plan body (block.opener + 1)).filter (fun piece => piece.1.isFrame) = [] := by
  rw [remainder, filter_flatMap, flatMap_eq_nil_iff]
  rintro ⟨lexeme, place⟩ member
  rcases List.mk_mem_zipIdx_iff_le_and_getElem?_sub.mp member with ⟨lower, found⟩
  have encloses := stretch.getElem?_body_iff.mpr ⟨lower, found⟩
  apply revises.filter_remains_of_docBody encloses.2
  rw [Kind.isFrame, stretch.inside lexeme (mem_of_getElem? found)]
  rfl

theorem remainder_to_closer
    (stretch : DocBlock.Stretch (lex source) block front opener body behind) :
    remainder plan (front ++ opener :: body) 0 =
      remainder plan front 0 ++ opener.piece :: remainder plan body (block.opener + 1) := by
  have opener_remains : remains plan opener block.opener = [opener.piece] := by
    apply revises.remains_of_isDocComment stretch.getElem?_opener
    · rw [stretch.opens]
      rfl
    · rw [stretch.opens]
      rfl
  rw [remainder_append, Nat.zero_add, stretch.front_length, remainder_cons, opener_remains]
  rfl

theorem closer_eq_revisedPlace {closer : Lexeme}
    (stretch : DocBlock.Stretch (lex source) block front opener body (closer :: rest))
    {before inner : List Lexeme} {first last : Lexeme}
    (split : lex result = before ++ first :: (inner ++ last :: behind))
    (last_kind : last.kind = .docClose)
    (before_pieces : before.map Lexeme.piece = (remainder plan front 0).foldr Lexeme.attach [])
    (first_piece : first.piece = opener.piece) (inner_pieces : inner.map Lexeme.piece =
      (remainder plan body (block.opener + 1)).foldr Lexeme.attach []) :
    before.length + inner.length + 1 =
      revisedPlace source result plan ((skeleton front).length + 1) := by
  have old_split : lex source = (front ++ opener :: body) ++ closer :: rest := by
    rw [List.append_assoc]
    exact stretch.split
  have new_split : lex result = (before ++ first :: inner) ++ last :: behind := by
    rw [List.append_assoc]
    exact split
  have opener_other : opener.piece.1 ≠ .docWhitespace := by
    rw [show opener.piece.1 = .docOpen from stretch.opens]
    decide
  have place := revises.length_eq_revisedPlace old_split new_split (by rw [last_kind]; rfl) (by
    rw [revises.remainder_to_closer stretch, Lexeme.foldr_attach_append opener_other,
      map_append, map_cons, before_pieces, first_piece, inner_pieces])
  rw [length_skeleton_of_stretch stretch, length_append] at place
  exact place

section Comment

variable {block : DocBlock} {front body rest : List Lexeme} {opener closer : Lexeme}
  (stretch : DocBlock.Stretch (lex source) block front opener body (closer :: rest))
  (closes : closer.kind = .docClose)

include stretch closes

/-- A text that the plan leaves is the old one around a doc comment, part by part. -/
theorem exists_split :
    ∃ before first inner last behind, lex result = before ++ first :: (inner ++ last :: behind) ∧
      before.map Lexeme.piece = (remainder plan front 0).foldr Lexeme.attach [] ∧
      first.piece = opener.piece ∧
      inner.map Lexeme.piece =
        (remainder plan body (block.opener + 1)).foldr Lexeme.attach [] ∧
      last.piece = closer.piece := by
  have closer_remains : remains plan closer (block.opener + body.length + 1) = [closer.piece] := by
    apply revises.remains_of_isDocComment (getElem?_closer_of_stretch stretch)
    · rw [closes]
      rfl
    · rw [closes]
      rfl
  have split : lex source = (front ++ opener :: body) ++ closer :: rest := by
    rw [List.append_assoc]
    exact stretch.split
  have length_eq : 0 + (front ++ opener :: body).length = block.opener + body.length + 1 := by
    rw [length_append, length_cons, stretch.front_length]
    omega
  have remainder_eq : piecesFrom plan (lex source) 0 =
      (remainder plan front 0 ++ opener.piece :: remainder plan body (block.opener + 1)) ++
        closer.piece :: remainder plan rest (block.opener + body.length + 1 + 1) := by
    rw [piecesFrom, drop_zero, ← remainder, split, remainder_append, length_eq, remainder_cons,
      closer_remains, revises.remainder_to_closer stretch]
    rfl
  have opener_other : opener.piece.1 ≠ .docWhitespace := by
    rw [show opener.piece.1 = .docOpen from stretch.opens]
    decide
  have closer_other : closer.piece.1 ≠ .docWhitespace := by
    rw [show closer.piece.1 = .docClose from closes]
    decide
  have pieces := revises.pieces
  rw [remainder_eq, Lexeme.foldr_attach_append closer_other,
    Lexeme.foldr_attach_append opener_other, List.append_assoc] at pieces
  rcases List.map_eq_append_iff.mp pieces with ⟨before, later, split, before_pieces, later_pieces⟩
  rcases List.map_eq_cons_iff.mp later_pieces with ⟨first, later, rfl, first_piece, later_pieces⟩
  rcases List.map_eq_append_iff.mp later_pieces with
    ⟨inner, later, rfl, inner_pieces, later_pieces⟩
  rcases List.map_eq_cons_iff.mp later_pieces with ⟨last, behind, rfl, last_piece, -⟩
  exact ⟨before, first, inner, last, behind, split, before_pieces, first_piece, inner_pieces,
    last_piece⟩

/-- A doc comment is found again at the place of its skeleton, with the text that the plan leaves. -/
theorem exists_stretch {blocks : List DocBlock} (segments : Segments 0 (lex result) blocks) :
    ∃ revised ∈ blocks, ∃ before first inner last behind,
      DocBlock.Stretch (lex result) revised before first inner (last :: behind) ∧
        last.kind = .docClose ∧
        revised.closer = some (revisedPlace source result plan ((skeleton front).length + 1)) ∧
        inner.flatMap Lexeme.text = Lexeme.texts (remainder plan body (block.opener + 1)) := by
  rcases revises.exists_split stretch closes with
    ⟨before, first, inner, last, behind, split, before_pieces, first_piece, inner_pieces,
      last_piece⟩
  have first_kind : first.kind = .docOpen := (congrArg Prod.fst first_piece).trans stretch.opens
  have last_kind : last.kind = .docClose := (congrArg Prod.fst last_piece).trans closes
  have inner_inside : ∀ lexeme ∈ inner, lexeme.kind.isDocBody = true := by
    have none_framed := revises.filter_remainder_of_body stretch
    rw [← filter_foldr_attach Kind.isFrame rfl, ← inner_pieces] at none_framed
    intro lexeme member
    have unframed := List.filter_eq_nil_iff.mp none_framed _ (mem_map_of_mem member)
    simpa only [Kind.isFrame, Lexeme.piece, Bool.not_eq_true, Bool.not_eq_false'] using unframed
  have opener_found : (lex result)[before.length]? = some first := by
    rw [split, getElem?_append_right le_rfl, Nat.sub_self]
    rfl
  rcases exists_get? opener_found with ⟨token, token_found, -, -, kind_iff⟩
  rcases block_of_docOpen segments token_found ((kind_iff .docOpen rfl).mpr first_kind) with
    ⟨revised, member, -, opener_eq⟩
  rcases Stream.exists_stretch segments member with ⟨_, _, _, _, found⟩
  rcases eq_of_stretch found split opener_eq.symm inner_inside (by rw [last_kind]; rfl) with
    ⟨rfl, rfl, rfl, rfl⟩
  refine ⟨revised, member, _, _, _, _, _, found, last_kind, ?_, ?_⟩
  · have closer_place := revises.closer_eq_revisedPlace stretch split last_kind before_pieces
      first_piece inner_pieces
    rcases found.ends with ⟨nothing, -⟩ | ⟨_, _, -, -, -, closer_eq⟩
    · cases nothing
    · rw [closer_eq, ← closer_place, opener_eq]
  · rw [← Lexeme.texts_map_piece, inner_pieces, Lexeme.texts_foldr_attach]

end Comment

/-- The text of a doc comment from which the plan deletes one part, which may be empty. -/
theorem texts_remainder {before gone : List Lexeme}
    (stretch : DocBlock.Stretch (lex source) block front opener (before ++ (gone ++ behind)) rest)
    (deleted_iff : ∀ place, block.Encloses place →
      ((∃ repair ∈ plan, repair.deletes place = true) ↔ block.opener + 1 + before.length ≤ place ∧
        place < block.opener + 1 + before.length + gone.length)) :
    Lexeme.texts (remainder plan (before ++ (gone ++ behind)) (block.opener + 1)) =
      before.flatMap Lexeme.text ++ behind.flatMap Lexeme.text := by
  have at_offset {offset : Nat} {lexeme : Lexeme}
      (found : (before ++ (gone ++ behind))[offset]? = some lexeme) :
      block.Encloses (block.opener + 1 + offset) ∧
        (lex source)[block.opener + 1 + offset]? = some lexeme := by
    apply stretch.getElem?_body_iff.mpr
    refine ⟨by omega, ?_⟩
    rw [show block.opener + 1 + offset - (block.opener + 1) = offset by omega, found]
  have kept {offset : Nat} {lexeme : Lexeme}
      (found : (before ++ (gone ++ behind))[offset]? = some lexeme)
      (outside : ¬(before.length ≤ offset ∧ offset < before.length + gone.length)) :
      remains plan lexeme (block.opener + 1 + offset) = [lexeme.piece] := by
    rcases at_offset found with ⟨encloses, source_found⟩
    have body := stretch.inside lexeme (mem_of_getElem? found)
    have no_comma := revises.comma_not_mem source_found (Kind.isSignificant_of_isDocBody body)
    rw [remains, if_neg no_comma, if_neg]
    rw [any_eq_true, deleted_iff _ encloses]
    omega
  have before_eq : remainder plan before (block.opener + 1) = before.map Lexeme.piece := by
    apply remainder_eq_map
    intro offset lexeme found
    have bound := (List.getElem?_eq_some_iff.mp found).1
    apply kept _ (by omega)
    rw [getElem?_append_left bound, found]
  have gone_eq : remainder plan gone (block.opener + 1 + before.length) = [] := by
    apply remainder_eq_nil
    intro place lower upper
    have inside : place - (block.opener + 1) < (before ++ (gone ++ behind)).length := by
      simp only [length_append]
      omega
    have encloses := (at_offset (getElem?_eq_getElem inside)).1
    rw [show block.opener + 1 + (place - (block.opener + 1)) = place by omega] at encloses
    exact (deleted_iff place encloses).mpr ⟨lower, upper⟩
  have behind_eq : remainder plan behind (block.opener + 1 + before.length + gone.length) =
      behind.map Lexeme.piece := by
    apply remainder_eq_map
    intro offset lexeme found
    rw [show block.opener + 1 + before.length + gone.length + offset =
      block.opener + 1 + (before.length + (gone.length + offset)) by omega]
    apply kept _ (by omega)
    rw [getElem?_append_right (by omega), getElem?_append_right (by omega),
      show before.length + (gone.length + offset) - before.length - gone.length = offset by omega,
      found]
  rw [remainder_append, before_eq, remainder_append, gone_eq, behind_eq, nil_append,
    ← map_append, Lexeme.texts_map_piece, flatMap_append]

theorem texts_remainder_of_untouched
    (stretch : DocBlock.Stretch (lex source) block front opener body rest)
    (untouched : ∀ place, block.Encloses place → ∀ repair ∈ plan, repair.deletes place = false) :
    Lexeme.texts (remainder plan body (block.opener + 1)) = body.flatMap Lexeme.text := by
  have split : body = body ++ ([] ++ []) := by rw [append_nil, append_nil]
  rw [split] at stretch
  have text_eq := revises.texts_remainder stretch (by
    intro place encloses
    constructor
    · rintro ⟨repair, planned, deleted⟩
      rw [untouched place encloses repair planned] at deleted
      cases deleted
    · rintro ⟨lower, upper⟩
      rw [length_nil] at upper
      omega)
  rwa [← split, flatMap_nil, append_nil] at text_eq

end Revises

section Inheritance

open Standard.FunctionComment

variable {source : List Char} {block : DocBlock} {front before gone behind rest : List Lexeme}
  {opener closer : Lexeme}

/-- Whether a doc comment inherits its text is decided by the text. -/
theorem inheritsAt_eq {blocks : List DocBlock} (segments : Segments 0 (lex source) blocks)
    (member : block ∈ blocks) {body : List Lexeme}
    (stretch : DocBlock.Stretch (lex source) block front opener body (closer :: rest))
    {index : Nat} (closes : block.closer = some index) :
    inheritsAt (ofSource source) index =
      inherits (['/', '*', '*'] ++ (body.flatMap Lexeme.text ++ ['*', '/'])) := by
  rcases stretch.ends with ⟨nothing, -⟩ | ⟨last, more, split, -, ends, closer_eq⟩
  · cases nothing
  · rcases List.cons.inj split with ⟨rfl, rfl⟩
    obtain rfl := Option.some.inj (closer_eq.symm.trans closes)
    rcases exists_get? (getElem?_closer_of_stretch stretch) with ⟨token, found, -⟩
    have docBlock := docBlock_of_bound segments member (.inr closes) found
    rw [inheritsAt, ofSource, found, Option.bind_some, docBlock, Option.any_some,
      content?_of_closed stretch rfl ends, Option.any_some]

/-- Where a tag has been cut, a line ends, or what follows is a blank, the end of a line or the end
of the comment. -/
theorem exists_seam (member : ∀ lexeme ∈ before ++ (gone ++ behind), lexeme ∈ lex source)
    (cut : LineCut before gone ∨ TailCut gone behind) :
    ∃ left c right, isSeam c = true ∧
      before.flatMap Lexeme.text ++ (behind.flatMap Lexeme.text ++ ['*', '/']) =
        left ++ c :: right ∧
      left <+: before.flatMap Lexeme.text ∧
      right <:+ behind.flatMap Lexeme.text ++ ['*', '/'] := by
  rcases cut with ⟨starts, -, -⟩ | ⟨-, -, stops⟩
  · rename_i before line previous last
    rcases (cuts_lex source).text_of_endsDocLine (member previous (by simp)) starts with
      ⟨blanks, text_eq, -⟩
    refine ⟨before.flatMap Lexeme.text ++ blanks, '\n', behind.flatMap Lexeme.text ++ ['*', '/'],
      rfl, ?_, ⟨['\n'], ?_⟩, suffix_rfl⟩
    · simp [text_eq]
    · simp [text_eq]
  · rcases stops with rfl | ⟨stop, more, rfl, ends⟩
    · exact ⟨before.flatMap Lexeme.text, '*', ['/'], rfl, rfl, prefix_rfl, ['*'], rfl⟩
    · rcases (cuts_lex source).text_of_endsDocLine (member stop (by simp)) ends with
        ⟨blanks, text_eq, blank⟩
      cases blanks with
      | nil =>
        refine ⟨before.flatMap Lexeme.text, '\n', more.flatMap Lexeme.text ++ ['*', '/'], rfl, ?_,
          prefix_rfl, ['\n'], ?_⟩
        · simp [text_eq]
        · simp [text_eq]
      | cons c blanks =>
        refine ⟨before.flatMap Lexeme.text, c,
          blanks ++ ['\n'] ++ more.flatMap Lexeme.text ++ ['*', '/'], ?_, ?_,
          prefix_rfl, [c], ?_⟩
        · rw [isSeam, blank c mem_cons_self]
          rfl
        · simp [text_eq]
        · simp [text_eq]

/-- A comment from which a tag is cut does not begin to inherit. -/
theorem inherits_of_cut
    (stretch : DocBlock.Stretch (lex source) block front opener (before ++ (gone ++ behind))
      (closer :: rest)) (cut : LineCut before gone ∨ TailCut gone behind)
    (marked : inherits (['/', '*', '*'] ++
      (before.flatMap Lexeme.text ++ behind.flatMap Lexeme.text ++ ['*', '/'])) = true) :
    inherits (['/', '*', '*'] ++
      ((before ++ (gone ++ behind)).flatMap Lexeme.text ++ ['*', '/'])) = true := by
  have member : ∀ lexeme ∈ before ++ (gone ++ behind), lexeme ∈ lex source := by
    intro lexeme inside
    rw [stretch.split]
    exact mem_append_right front (mem_cons_of_mem opener (mem_append_left (closer :: rest) inside))
  rcases exists_seam member cut with
    ⟨left, c, right, seam, split, ⟨more, before_eq⟩, ⟨less, behind_eq⟩⟩
  rw [List.append_assoc, split, ← List.append_assoc] at marked
  apply inherits_of_seam seam _ _ marked
  · refine ⟨more ++ (gone.flatMap Lexeme.text ++ (behind.flatMap Lexeme.text ++ ['*', '/'])), ?_⟩
    simp only [flatMap_append, ← before_eq, List.append_assoc]
  · refine ⟨['/', '*', '*'] ++
      (before.flatMap Lexeme.text ++ (gone.flatMap Lexeme.text ++ less)), ?_⟩
    simp only [flatMap_append, behind_eq, List.append_assoc]

end Inheritance

section Comments

open Standard.FunctionComment

variable {source result : List Char} {plan : List Repair} {block : DocBlock}
  {front body rest : List Lexeme} {opener closer : Lexeme}

variable {index : Nat}

/-- The doc comment that closes at an index, with its place among the lexemes. -/
theorem exists_stretch_of_docClose (closes : (ofSource source).kind? index = some .docClose) :
    ∃ blocks, Segments 0 (lex source) blocks ∧ ∃ block ∈ blocks, block.closer = some index ∧
      ∃ front opener body closer rest, closer.kind = .docClose ∧
        DocBlock.Stretch (lex source) block front opener body (closer :: rest) := by
  rcases exists_segments_lex source with ⟨blocks, segments⟩
  rcases Option.map_eq_some_iff.mp closes with ⟨token, found, kind_eq⟩
  rcases block_of_docClose segments found kind_eq with ⟨block, member, -, closer_eq, -⟩
  rcases Stream.exists_stretch segments member with ⟨front, opener, body, behind, stretch⟩
  rcases stretch.ends with ⟨-, unclosed⟩ | ⟨closer, rest, rfl, closer_kind, -⟩
  · rw [unclosed] at closer_eq
    cases closer_eq
  · exact ⟨blocks, segments, block, member, closer_eq, front, opener, body, closer, rest,
      closer_kind, stretch⟩

theorem commentAt?_of_stretch {blocks : List DocBlock} (segments : Segments 0 (lex source) blocks)
    (member : block ∈ blocks) (closer_eq : block.closer = some index)
    (stretch : DocBlock.Stretch (lex source) block front opener body (closer :: rest))
    (closes : closer.kind = .docClose) :
    (ofSource source).commentAt? index = some ((ofSource source).commentOf block index) ∧
      ((ofSource source).commentOf block index).tags.map Tag.spelling =
        DocLine.tags (body.flatMap Lexeme.text) := by
  constructor
  · exact (commentAt?_eq_some_iff segments).mpr ⟨block, member, index, closer_eq, .inr rfl, rfl⟩
  · rw [map_spelling_commentOf, map_spelling_tags stretch rfl closes]

theorem eq_of_closer_eq_framePlace
    (stretch : DocBlock.Stretch (lex source) block front opener body (closer :: rest))
    (closes : closer.kind = .docClose)
    (closer_eq : block.closer = some (framePlace (lex source) index)) :
    index = (skeleton front).length + 1 := by
  have split : lex source = (front ++ opener :: body) ++ closer :: rest := by
    rw [List.append_assoc]
    exact stretch.split
  have place := framePlace_of_append split (by rw [closes]; rfl)
  rw [length_skeleton_of_stretch stretch, length_append, stretch.front_length] at place
  rcases stretch.ends with ⟨nothing, -⟩ | ⟨_, _, -, -, -, last_eq⟩
  · cases nothing
  · rw [closer_eq, Option.some.injEq] at last_eq
    exact (embeds_skeleton source).mono.injective (last_eq.trans place.symm)

/-- A doc comment after a pass: it closes at the place of its closer, and its tags and whether it
inherits are read from the text that the plan leaves. -/
theorem Revises.exists_comment (revises : Revises source result plan)
    (stretch : DocBlock.Stretch (lex source) block front opener body (closer :: rest))
    (closes : closer.kind = .docClose)
    (closer_eq : block.closer = some (framePlace (lex source) index)) :
    let text := Lexeme.texts (remainder plan body (block.opener + 1))
    let place := revisedPlace source result plan index
    (∃ comment, (ofSource result).commentAt? place = some comment ∧ comment.closer = place ∧
        comment.tags.map Tag.spelling = DocLine.tags text) ∧
      inheritsAt (ofSource result) place = inherits (['/', '*', '*'] ++ (text ++ ['*', '/'])) := by
  intro text place
  rcases exists_segments_lex result with ⟨blocks, segments⟩
  rcases revises.exists_stretch stretch closes segments with
    ⟨revised, member, before, first, inner, last, behind, found, last_kind, revised_closer, text_eq⟩
  rw [← eq_of_closer_eq_framePlace stretch closes closer_eq] at revised_closer
  rcases commentAt?_of_stretch segments member revised_closer found last_kind with
    ⟨at_place, spelled⟩
  rw [text_eq] at spelled
  refine ⟨⟨_, at_place, rfl, spelled⟩, ?_⟩
  rw [inheritsAt_eq segments member found revised_closer, text_eq]

end Comments

end Stream

end PhpStyle
