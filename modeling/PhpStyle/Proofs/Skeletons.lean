import PhpStyle.Proofs.EmbeddedFunctions
import PhpStyle.Proofs.Effects
import PhpStyle.Proofs.MissingCommas
import PhpStyle.Proofs.TagDeletion

/-!
# Skeletons

The skeleton of a file is what remains of its tokens without the insides of doc comments.
It is embedded in the file. It is also embedded in what a pass of repairs makes of the
file: repairs delete parts of doc comments only, and the commas that they add stand
before the ends of arrays.
-/

namespace PhpStyle

open List

/-- Kinds of tokens that are not inside of a doc comment. -/
def Kind.isFrame (kind : Kind) : Bool :=
  !kind.isDocBody

theorem Kind.isFrame_of_isSignificant {kind : Kind} (kept : kind.isSignificant = true) :
    kind.isFrame = true := by
  revert kept
  cases kind <;> decide

namespace Stream

/-- The tokens of a file that are not inside of a doc comment. -/
def skeleton (lexemes : List Lexeme) : List Lexeme :=
  lexemes.filter fun lexeme => lexeme.kind.isFrame

/-- Where the tokens of the skeleton stand in the file. -/
def framePlace (lexemes : List Lexeme) : Nat → Nat :=
  keptPlace (lexemes.map fun lexeme => lexeme.kind.isFrame)

section Skeleton

variable {lexemes : List Lexeme}

variable {index : Nat}

theorem getElem?_framePlace (lexemes : List Lexeme) (index : Nat) :
    lexemes[framePlace lexemes index]? = (skeleton lexemes)[index]? :=
  getElem?_keptPlace (fun lexeme : Lexeme => lexeme.kind.isFrame) lexemes index

theorem isFrame_settled {lexeme : Lexeme} {kind : Kind} (found : lexemes[index]? = some lexeme)
    (settled : (settledKinds lexemes)[index]? = some kind) :
    kind.isFrame = lexeme.kind.isFrame := by
  rw [← kind?_ofLexemes] at settled
  have same := isSignificant_of_kind? settled found
  cases kept : lexeme.kind.isSignificant with
  | true => rw [Kind.isFrame_of_isSignificant (same.trans kept), Kind.isFrame_of_isSignificant kept]
  | false =>
    rw [kind?_of_isTrivia found kept] at settled
    rw [Option.some.inj settled]

theorem map_isFrame_settledKinds (lexemes : List Lexeme) :
    (settledKinds lexemes).map Kind.isFrame = lexemes.map fun lexeme => lexeme.kind.isFrame := by
  apply ext_getElem?
  intro index
  rw [getElem?_map, getElem?_map]
  cases found : lexemes[index]? with
  | none =>
    rw [getElem?_eq_none, Option.map_none, Option.map_none]
    rw [length_settledKinds]
    exact List.getElem?_eq_none_iff.mp found
  | some lexeme =>
    rcases kind?_of_getElem? found with ⟨kind, settled⟩
    rw [kind?_ofLexemes] at settled
    rw [settled, Option.map_some, Option.map_some, isFrame_settled found settled]

theorem map_piece_skeleton (lexemes : List Lexeme) :
    (skeleton lexemes).map Lexeme.piece =
      (lexemes.map Lexeme.piece).filter fun piece => piece.1.isFrame := by
  rw [filter_map, skeleton]
  rfl

theorem settledKinds_skeleton (lexemes : List Lexeme) :
    settledKinds (skeleton lexemes) = (settledKinds lexemes).filter Kind.isFrame := by
  have kinds_eq (lexemes : List Lexeme) :
      settledKinds lexemes = (Kind.read (lexemes.map Lexeme.piece)).map Prod.fst := by
    rw [Kind.read_eq, map_fst_zip, map_map]
    · rfl
    · simp only [Kind.length_settleBrackets, Kind.length_settleWords, length_map, le_refl]
  rw [kinds_eq, kinds_eq, filter_map, map_piece_skeleton]
  exact congrArg (List.map Prod.fst)
    (Kind.filter_read (fun _ kept => Kind.isFrame_of_isSignificant kept) _).symm

theorem settledKinds_framePlace (lexemes : List Lexeme) (index : Nat) :
    (settledKinds lexemes)[framePlace lexemes index]? =
      (settledKinds (skeleton lexemes))[index]? := by
  rw [settledKinds_skeleton, framePlace, ← map_isFrame_settledKinds, getElem?_keptPlace]

/-- A token of the skeleton stands behind as many of them as its index there. -/
theorem framePlace_of_append {front rest : List Lexeme} {lexeme : Lexeme}
    (split : lexemes = front ++ lexeme :: rest) (frame : lexeme.kind.isFrame = true) :
    framePlace lexemes (skeleton front).length = front.length := by
  rw [split]
  exact keptPlace_length_filter (fun lexeme : Lexeme => lexeme.kind.isFrame) frame

theorem exists_framePlace {kind : Kind} (settled : (settledKinds lexemes)[index]? = some kind)
    (frame : kind.isFrame = true) : ∃ origin, index = framePlace lexemes origin := by
  have inside : index < lexemes.length := by
    rw [← length_settledKinds]
    exact (List.getElem?_eq_some_iff.mp settled).1
  have found := getElem?_eq_getElem inside
  rw [isFrame_settled found settled] at frame
  exact exists_keptPlace (fun lexeme : Lexeme => lexeme.kind.isFrame) found frame

/-- A doc comment ends before anything else follows. -/
theorem isPadding_of_isDocBody {source : List Char} {kind : Kind}
    (settled : (settledKinds (lex source))[index]? = some kind) (inside : kind.isDocBody = true) :
    IsPadding (settledKinds (lex source)) index := by
  apply IsPadding.docBody settled inside
  intro later other lower found outside
  rcases exists_segments_lex source with ⟨blocks, segments⟩
  rw [← kind?_ofLexemes] at settled found
  rcases exists_block segments settled (Kind.isDocComment_of_isDocBody inside) with
    ⟨block, member, touches, -⟩
  rcases exists_stretch segments member with ⟨front, opener, body, behind, stretch⟩
  have encloses_not : ¬block.Encloses later := by
    intro encloses
    rw [isDocBody_of_encloses stretch encloses found] at outside
    cases outside
  cases closes : block.closer with
  | none =>
    refine absurd ⟨touches.1.trans_lt lower, ?_⟩ encloses_not
    intro closer closer_eq
    rw [closes] at closer_eq
    cases closer_eq
  | some closer =>
    have closer_kind := (stretch.getElem?_closer closes).2
    rw [← kind?_iff_of_isDocComment rfl] at closer_kind
    refine ⟨closer, (touches.2 closer closes).lt_of_ne ?_, ?_, ?_⟩
    · rintro rfl
      rw [Option.some.inj (settled.symm.trans closer_kind)] at inside
      cases inside
    · by_contra before
      refine encloses_not ⟨touches.1.trans_lt lower, ?_⟩
      intro other_closer closer_eq
      rw [closes] at closer_eq
      rw [← Option.some.inj closer_eq]
      exact Nat.lt_of_not_le before
    · rw [← kind?_ofLexemes, closer_kind]

theorem neighbours_framePlace {left right : Nat}
    (neighbours : Neighbours (settledKinds (skeleton lexemes)) left right) :
    Neighbours (settledKinds lexemes) (framePlace lexemes left) (framePlace lexemes right) := by
  have mono : StrictMono (framePlace lexemes) := strictMono_keptPlace _
  have same (index : Nat) : SignificantAt (settledKinds lexemes) (framePlace lexemes index) ↔
      SignificantAt (settledKinds (skeleton lexemes)) index := by
    rw [SignificantAt, settledKinds_framePlace, SignificantAt]
  refine ⟨mono neighbours.lt, (same left).mpr neighbours.left_significant,
    (same right).mpr neighbours.right_significant, ?_⟩
  rintro between lower upper ⟨kind, found, kept⟩
  rcases exists_framePlace found (Kind.isFrame_of_isSignificant kept) with ⟨origin, rfl⟩
  apply neighbours.between origin (mono.lt_iff_lt.mp lower) (mono.lt_iff_lt.mp upper)
  exact (same origin).mp ⟨kind, found, kept⟩

/-- The skeleton of a file is embedded in the file. -/
theorem embeds_skeleton (source : List Char) :
    Embeds (skeleton (lex source)) (lex source) (framePlace (lex source)) where
  mono := strictMono_keptPlace _
  piece index := by rw [getElem?_framePlace]
  kind := settledKinds_framePlace (lex source)
  padding index kind settled := by
    cases inside : kind.isDocBody with
    | true => exact .inr (isPadding_of_isDocBody settled inside)
    | false => exact .inl (exists_framePlace settled (by rw [Kind.isFrame, inside]; rfl))

end Skeleton

section Pass

open Repair

/-- Behind which of the kept tokens a plan puts a comma. -/
def frameMarks (plan : List Repair) (places : List (Lexeme × Nat)) : List Bool :=
  (places.filter fun place => place.1.kind.isFrame).map fun place => decide (.comma place.2 ∈ plan)

theorem frameMarks_cons (plan : List Repair) (place : Lexeme × Nat) (places : List (Lexeme × Nat)) :
    frameMarks plan (place :: places) =
      if place.1.kind.isFrame then decide (.comma place.2 ∈ plan) :: frameMarks plan places
      else frameMarks plan places := by
  rw [frameMarks, filter_cons]
  split <;> rfl

theorem map_fst_filter_zipIdx (lexemes : List Lexeme) (start : Nat) :
    ((lexemes.zipIdx start).filter fun place => place.1.kind.isFrame).map Prod.fst =
      skeleton lexemes := by
  calc ((lexemes.zipIdx start).filter fun place => place.1.kind.isFrame).map Prod.fst
      _ = ((lexemes.zipIdx start).map Prod.fst).filter fun lexeme => lexeme.kind.isFrame := by
          rw [filter_map]
          rfl
      _ = skeleton lexemes := by rw [zipIdx_map_fst, skeleton]

theorem length_frameMarks (plan : List Repair) (lexemes : List Lexeme) (start : Nat) :
    (frameMarks plan (lexemes.zipIdx start)).length = (skeleton lexemes).length := by
  rw [frameMarks, length_map, ← map_fst_filter_zipIdx lexemes start, length_map]

/-- A mark stands for a planned comma. -/
theorem comma_mem_of_frameMarks {plan : List Repair} {lexemes : List Lexeme} {index : Nat}
    (marked : (frameMarks plan lexemes.zipIdx)[index]? = some true) :
    .comma (framePlace lexemes index) ∈ plan := by
  have flags : (lexemes.zipIdx.map fun place : Lexeme × Nat => place.1.kind.isFrame) =
      lexemes.map fun lexeme => lexeme.kind.isFrame := by
    conv_rhs => rw [← zipIdx_map_fst 0 lexemes, map_map]
    rfl
  rw [frameMarks, getElem?_map, ← getElem?_keptPlace, flags, Option.map_eq_some_iff] at marked
  rcases marked with ⟨place, found, planned⟩
  rw [getElem?_zipIdx, Option.map_eq_some_iff] at found
  rcases found with ⟨lexeme, -, rfl⟩
  rw [decide_eq_true_eq, Nat.zero_add] at planned
  exact planned

/-- A text that is read as what a plan of repairs leaves of another one, where the plan deletes
insides of doc comments only. -/
structure Revises (source result : List Char) (plan : List Repair) : Prop where
  isPlan : IsPlan (lex source) plan
  inside : ∀ repair ∈ plan, ∀ place lexeme, repair.deletes place = true →
    (lex source)[place]? = some lexeme → lexeme.kind.isFrame = false
  pieces : (lex result).map Lexeme.piece = (piecesFrom plan (lex source) 0).foldr Lexeme.attach []

/-- Where the tokens of the skeleton stand in a text that a plan leaves. -/
def revisedPlace (source result : List Char) (plan : List Repair) (index : Nat) : Nat :=
  framePlace (lex result) (shifted (frameMarks plan (lex source).zipIdx) index)

namespace Revises

variable {source result : List Char} {plan : List Repair}
  (revises : Revises source result plan)

include revises

variable {place : Nat} {lexeme : Lexeme}

section

variable (found : (lex source)[place]? = some lexeme)

include found

theorem remains_of_isFrame (frame : lexeme.kind.isFrame = true) :
    remains plan lexeme place =
      lexeme.piece :: if .comma place ∈ plan then [(.comma, [','])] else [] := by
  rw [remains, if_neg]
  rw [any_eq_true]
  rintro ⟨repair, planned, deleted⟩
  rw [revises.inside repair planned place lexeme deleted found] at frame
  cases frame

theorem comma_not_mem (trivia : lexeme.kind.isSignificant = false) : .comma place ∉ plan := by
  intro planned
  have significant := (significantAt_iff found).mp (revises.isPlan.significantAt planned)
  rw [trivia] at significant
  cases significant

theorem filter_remains_of_docBody (body : lexeme.kind.isFrame = false) :
    (remains plan lexeme place).filter (fun piece => piece.1.isFrame) = [] := by
  have trivia : lexeme.kind.isSignificant = false := by
    rw [Kind.isFrame, Bool.not_eq_false'] at body
    exact Kind.isSignificant_of_isDocBody body
  rw [remains, if_neg (revises.comma_not_mem found trivia)]
  split
  · rfl
  · rw [filter_cons, show lexeme.piece.1.isFrame = false from body]
    rfl

end

/-- What a plan leaves of some tokens: those of the skeleton, with commas put behind some. -/
theorem filter_flatMap_remains {places : List (Lexeme × Nat)}
    (listed : ∀ place ∈ places, (lex source)[place.2]? = some place.1) :
    (places.flatMap fun place => remains plan place.1 place.2).filter
        (fun piece => piece.1.isFrame) =
      putCommas (.comma, [',']) (frameMarks plan places)
        ((places.filter fun place => place.1.kind.isFrame).map fun place => place.1.piece) := by
  induction places with
  | nil => rfl
  | cons place places ih =>
    have found := listed place mem_cons_self
    have later := ih fun other inside => listed other (mem_cons_of_mem place inside)
    rw [flatMap_cons, filter_append, later, frameMarks_cons, filter_cons]
    cases frame : place.1.kind.isFrame with
    | false =>
      rw [revises.filter_remains_of_docBody found frame]
      rfl
    | true =>
      rw [revises.remains_of_isFrame found frame, filter_cons,
        show place.1.piece.1.isFrame = true from frame]
      by_cases planned : .comma place.2 ∈ plan
      · rw [if_pos planned, decide_eq_true planned]
        rfl
      · rw [if_neg planned, decide_eq_false planned]
        rfl

theorem map_piece_skeleton : (skeleton (lex result)).map Lexeme.piece =
    putCommas (.comma, [',']) (frameMarks plan (lex source).zipIdx)
      ((skeleton (lex source)).map Lexeme.piece) := by
  have listed : ∀ place ∈ (lex source).zipIdx, (lex source)[place.2]? = some place.1 := by
    intro place inside
    exact List.mem_zipIdx_iff_getElem?.mp inside
  rw [Stream.map_piece_skeleton, revises.pieces, filter_foldr_attach Kind.isFrame rfl, piecesFrom,
    drop_zero, revises.filter_flatMap_remains listed, ← map_fst_filter_zipIdx (lex source) 0,
    map_map]
  rfl

/-- A comma is put only before the end of an array. -/
theorem exists_neighbours_of_marked {index : Nat}
    (marked : (frameMarks plan (lex source).zipIdx)[index]? = some true) :
    ∃ closer, Neighbours (settledKinds (skeleton (lex source))) index closer ∧
      EndsArray (lex source) (framePlace (lex source) closer) := by
  rcases revises.isPlan.array _ (comma_mem_of_frameMarks marked) with
    ⟨closer, ends, neighbours, -⟩
  rcases neighbours.right_significant with ⟨kind, found, kept⟩
  rcases exists_framePlace found (Kind.isFrame_of_isSignificant kept) with ⟨origin, rfl⟩
  exact ⟨origin, (embeds_skeleton source).neighbours_of_place neighbours, ends⟩

theorem awaits : Kind.AwaitsCloser false (frameMarks plan (lex source).zipIdx)
    ((skeleton (lex source)).map Lexeme.kind) := by
  apply Kind.awaitsCloser_of_neighbours
  intro index marked
  rcases revises.exists_neighbours_of_marked marked with ⟨closer, neighbours, ends⟩
  refine ⟨closer, neighbours.congr fun _ => significantAt_settledKinds_iff, ?_⟩
  rcases significantAt_settledKinds_iff.mp neighbours.right_significant with ⟨kind, found, -⟩
  rw [getElem?_map, Option.map_eq_some_iff] at found
  rcases found with ⟨lexeme, found, rfl⟩
  rw [getElem?_map, found, Option.map_some, Option.some.injEq, Option.some.injEq]
  rw [← getElem?_framePlace] at found
  exact ends.lexed (Standard.isContextual_of_mem (cuts_lex source)) found

theorem settledKinds_skeleton : settledKinds (skeleton (lex result)) =
    putCommas .comma (frameMarks plan (lex source).zipIdx)
      (settledKinds (skeleton (lex source))) := by
  have settled (lexemes : List Lexeme) : settledKinds lexemes =
      Kind.settleBrackets none [] (Kind.settleWords none (lexemes.map Lexeme.kind)) := rfl
  have kinds_eq : (skeleton (lex result)).map Lexeme.kind =
      putCommas .comma (frameMarks plan (lex source).zipIdx)
        ((skeleton (lex source)).map Lexeme.kind) := by
    have same := congrArg (List.map Prod.fst) revises.map_piece_skeleton
    rw [map_putCommas, map_map, map_map] at same
    exact same
  rw [settled, settled, kinds_eq]
  exact (congrArg (Kind.settleBrackets none []) (Kind.settleWords_putCommas revises.awaits none)).trans
    (Kind.settleBrackets_putCommas (Kind.awaitsCloser_settleWords revises.awaits none) none [])

theorem isPadding_comma {last : Nat}
    (marked : (frameMarks plan (lex source).zipIdx)[last]? = some true) :
    IsPadding (settledKinds (lex result))
      (framePlace (lex result) (shifted (frameMarks plan (lex source).zipIdx) last + 1)) := by
  rcases revises.exists_neighbours_of_marked marked with ⟨closer, neighbours, ends⟩
  have only : ∀ other, (frameMarks plan (lex source).zipIdx)[other]? = some true →
      SignificantAt (settledKinds (skeleton (lex source))) other := by
    intro other other_marked
    rcases revises.exists_neighbours_of_marked other_marked with ⟨_, others, -⟩
    exact others.left_significant
  rcases neighbours.behind_comma marked only with ⟨comma, behind⟩
  rw [← revises.settledKinds_skeleton] at comma behind
  apply IsPadding.comma _ (neighbours_framePlace behind)
  · rcases neighbours.right_significant with ⟨kind, found, -⟩
    rw [settledKinds_framePlace, revises.settledKinds_skeleton, getElem?_shifted, found,
      Option.some.injEq, Option.some.injEq]
    rw [← settledKinds_framePlace] at found
    exact ends.kind_eq found
  · rw [settledKinds_framePlace, comma]

/-- The skeleton of a file is embedded in what the plan leaves. -/
theorem embeds : Embeds (skeleton (lex source)) (lex result) (revisedPlace source result plan) where
  mono first second ordered :=
    (embeds_skeleton result).mono (strictMono_shifted _ ordered)
  piece index := by
    rw [revisedPlace, getElem?_framePlace, ← getElem?_map, revises.map_piece_skeleton, getElem?_shifted,
      getElem?_map]
  kind index := by
    rw [revisedPlace, settledKinds_framePlace, revises.settledKinds_skeleton, getElem?_shifted]
  padding index kind found := by
    cases inside : kind.isDocBody with
    | true => exact .inr (isPadding_of_isDocBody found inside)
    | false =>
      rcases exists_framePlace found (by rw [Kind.isFrame, inside]; rfl) with ⟨origin, rfl⟩
      rw [settledKinds_framePlace, revises.settledKinds_skeleton] at found
      rcases exists_shifted_of_lt_length Kind.comma (List.getElem?_eq_some_iff.mp found).1 with
        ⟨image, rfl⟩ | ⟨last, rfl, marked⟩
      · exact .inl ⟨image, rfl⟩
      · exact .inr (revises.isPadding_comma marked)

end Revises

end Pass

end Stream

end PhpStyle
