import PhpStyle.Proofs.Effects
import PhpStyle.Proofs.PutCommas

/-!
# Missing commas

An array literal that spans lines lacks a comma if there is none behind its last
item. The last items of different literals are different tokens, so one comma can
be put behind each of them in one go.

The text with the commas is read as it was, token for token, and all tokens stay on
their lines. So every array literal that is read in it was there before, and it
has its comma.
-/

namespace PhpStyle

open List

namespace Stream

variable {lexemes : List Lexeme} {owner last : Nat} {span : Span}

/-- An array literal that spans lines has a last item without a comma behind it. -/
structure LacksComma (lexemes : List Lexeme) (owner : Nat) (span : Span) (last : Nat) : Prop where
  array : IsArray lexemes owner span
  spans : (ofLexemes lexemes).line? span.opener ≠ (ofLexemes lexemes).line? span.closer
  inside : span.opener < last
  neighbours : Neighbours (settledKinds lexemes) last span.closer
  missing : (settledKinds lexemes)[last]? ≠ some .comma

theorem LacksComma.lastToken?_eq (lacks : LacksComma lexemes owner span last) :
    Standard.ArrayComma.lastToken? (ofLexemes lexemes) owner = some last := by
  rcases lacks.array.exists_scopeOf? with ⟨scope, found, -, rfl⟩
  have after_opener := lacks.inside
  have before_closer := lacks.neighbours.lt
  simp only [Standard.ArrayComma.lastToken?, found, Option.bind_eq_bind, Option.bind_some]
  rw [if_neg (by rw [not_or]; exact ⟨lacks.spans, by omega⟩)]
  apply findPrevious_eq_some_iff.mpr
  refine ⟨by omega, by omega, hasKind_isSignificant_iff.mpr lacks.neighbours.left_significant, ?_⟩
  intro index lower upper
  rw [← Bool.not_eq_true, hasKind_isSignificant_iff]
  exact lacks.neighbours.between index lower (by omega)

theorem lacksComma_of_lastToken? {kind : Kind}
    (lexed : ∀ lexeme ∈ lexemes, Lexeme.isContextual lexeme.kind = false)
    (opens : (ofLexemes lexemes).kind? owner = some kind)
    (literal : kind = .arrayKw ∨ kind = .openShortArray)
    (found : Standard.ArrayComma.lastToken? (ofLexemes lexemes) owner = some last)
    (missing : (ofLexemes lexemes).kind? last ≠ some .comma) :
    ∃ span, LacksComma lexemes owner span last := by
  rcases neighbours_of_lastToken? lexed opens literal found with ⟨span, array, neighbours⟩
  rcases array.exists_scopeOf? with ⟨scope, scope_found, -, rfl⟩
  simp only [Standard.ArrayComma.lastToken?, scope_found, Option.bind_eq_bind,
    Option.bind_some] at found
  rw [kind?_ofLexemes] at missing
  split at found
  · simp at found
  · next apart =>
      rw [not_or] at apart
      have inside := (findPrevious_eq_some_iff.mp found).1
      exact ⟨scope.toSpan, array, apart.1, inside, neighbours, missing⟩

/-- The token behind which the array literal at an index needs a comma. -/
def anchor? (stream : Stream) (index : Nat) : Option Nat :=
  (Standard.ArrayComma.lastToken? stream index).filter fun last => stream.kind? last != some .comma

theorem anchor?_eq_some_iff {kind : Kind}
    (lexed : ∀ lexeme ∈ lexemes, Lexeme.isContextual lexeme.kind = false)
    (opens : (ofLexemes lexemes).kind? owner = some kind)
    (literal : kind = .arrayKw ∨ kind = .openShortArray) :
    anchor? (ofLexemes lexemes) owner = some last ↔ ∃ span, LacksComma lexemes owner span last := by
  rw [anchor?, Option.filter_eq_some_iff, bne_iff_ne]
  constructor
  · rintro ⟨found, missing⟩
    exact lacksComma_of_lastToken? lexed opens literal found missing
  · rintro ⟨span, lacks⟩
    exact ⟨lacks.lastToken?_eq, kind?_ofLexemes lexemes last ▸ lacks.missing⟩

/-- The tokens of a file behind which an array literal needs a comma. -/
def anchors (stream : Stream) : List Nat :=
  stream.tokens.toList.zipIdx.flatMap fun place =>
    if Standard.ArrayComma.rule.listens.contains place.1.kind then (anchor? stream place.2).toList
    else []

theorem mem_toList_iff {place : Token × Nat}
    (lexed : ∀ lexeme ∈ lexemes, Lexeme.isContextual lexeme.kind = false)
    (listed : place ∈ (ofLexemes lexemes).tokens.toList.zipIdx) :
    (last ∈ if Standard.ArrayComma.rule.listens.contains place.1.kind then
        (anchor? (ofLexemes lexemes) place.2).toList else []) ↔
      ∃ span, LacksComma lexemes place.2 span last := by
  have found : (ofLexemes lexemes).get? place.2 = some place.1 := by
    rw [get?, ← Array.getElem?_toList]
    exact List.mk_mem_zipIdx_iff_getElem?.mp listed
  have at_place : (ofLexemes lexemes).kind? place.2 = some place.1.kind := by
    rw [kind?, found, Option.map_some]
  split
  · next hears =>
      have literal : place.1.kind = .arrayKw ∨ place.1.kind = .openShortArray := by
        simpa [Standard.ArrayComma.rule, Rule.ofFindings] using hears
      rw [Option.mem_toList, anchor?_eq_some_iff lexed at_place literal]
  · next deaf =>
      refine iff_of_false not_mem_nil ?_
      rintro ⟨span, lacks⟩
      rw [kind?_ofLexemes] at at_place
      apply deaf
      rcases lacks.array.closer.2 with ⟨keyword, -⟩ | ⟨bracket, -⟩
      · rw [Option.some.inj (at_place.symm.trans keyword)]
        rfl
      · rw [Option.some.inj (at_place.symm.trans bracket)]
        rfl

theorem mem_anchors_iff (lexed : ∀ lexeme ∈ lexemes, Lexeme.isContextual lexeme.kind = false) :
    last ∈ (ofLexemes lexemes).anchors ↔ ∃ owner span, LacksComma lexemes owner span last := by
  rw [anchors, mem_flatMap]
  constructor
  · rintro ⟨place, listed, found⟩
    exact ⟨place.2, (mem_toList_iff lexed listed).mp found⟩
  · rintro ⟨owner, span, lacks⟩
    obtain ⟨token, found⟩ : ∃ token, (ofLexemes lexemes).tokens.toList[owner]? = some token := by
      have at_owner : ∃ kind, (ofLexemes lexemes).kind? owner = some kind := by
        rw [kind?_ofLexemes]
        rcases lacks.array.closer.2 with ⟨keyword, -⟩ | ⟨bracket, -⟩
        · exact ⟨_, keyword⟩
        · exact ⟨_, bracket⟩
      rcases at_owner with ⟨kind, at_owner⟩
      rcases Option.map_eq_some_iff.mp at_owner with ⟨token, found, -⟩
      exact ⟨token, Array.getElem?_toList.trans found⟩
    have listed := List.mk_mem_zipIdx_iff_getElem?.mpr found
    exact ⟨(token, owner), listed, (mem_toList_iff lexed listed).mpr ⟨span, lacks⟩⟩

theorem LacksComma.lt_length (lacks : LacksComma lexemes owner span last) :
    last < lexemes.length := by
  rcases lacks.neighbours.left_significant with ⟨kind, found, -⟩
  rw [← length_settledKinds]
  exact (List.getElem?_eq_some_iff.mp found).1

theorem lt_size_of_mem_anchors (lexed : ∀ lexeme ∈ lexemes, Lexeme.isContextual lexeme.kind = false)
    (inside : last ∈ (ofLexemes lexemes).anchors) : last < (ofLexemes lexemes).size := by
  rcases (mem_anchors_iff lexed).mp inside with ⟨owner, span, lacks⟩
  rw [size_ofLexemes]
  exact lacks.lt_length

/-- No token is the last one of two array literals. -/
theorem nodup_anchors (lexed : ∀ lexeme ∈ lexemes, Lexeme.isContextual lexeme.kind = false) :
    (ofLexemes lexemes).anchors.Nodup := by
  rw [anchors, nodup_flatMap]
  constructor
  · intro place listed
    split
    · cases anchor? (ofLexemes lexemes) place.2 <;> simp
    · exact nodup_nil
  · have ordered := pairwise_snd_zipIdx (ofLexemes lexemes).tokens.toList 0
    refine ordered.imp_of_mem fun {first second} first_listed second_listed earlier => ?_
    intro last in_first in_second
    rcases (mem_toList_iff lexed first_listed).mp in_first with ⟨span, lacks⟩
    rcases (mem_toList_iff lexed second_listed).mp in_second with ⟨other_span, others⟩
    have same := lacks.array.owner_eq others.array (lacks.neighbours.right_eq others.neighbours)
    omega

end Stream

namespace Repair

/-- Which tokens of a file get a comma. -/
def marksOf (lasts : List Nat) (count : Nat) : List Bool :=
  (List.range count).map fun index => decide (index ∈ lasts)

theorem mem_of_marksOf {lasts : List Nat} {count index : Nat}
    (marked : (marksOf lasts count)[index]? = some true) : index ∈ lasts := by
  rw [marksOf, getElem?_map, Option.map_eq_some_iff] at marked
  rcases marked with ⟨place, found, inside⟩
  have here := (List.getElem?_eq_some_iff.mp found).2
  rw [getElem_range] at here
  exact here ▸ of_decide_eq_true inside

theorem marksOf_of_mem {lasts : List Nat} {count index : Nat} (bound : index < count)
    (inside : index ∈ lasts) : (marksOf lasts count)[index]? = some true := by
  rw [marksOf, getElem?_map, getElem?_range bound, Option.map_some, decide_eq_true inside]

theorem remains_commas (lasts : List Nat) (lexeme : Lexeme) (index : Nat) :
    remains (lasts.map .comma) lexeme index =
      lexeme.piece :: if index ∈ lasts then [(.comma, [','])] else [] := by
  have kept : ((lasts.map Repair.comma).any fun repair => repair.deletes index) = false := by
    rw [any_map, any_eq_false]
    exact fun _ _ => Bool.false_ne_true
  rw [remains, kept, if_neg Bool.false_ne_true]
  simp

/-- Commas behind tokens leave everything else in its place. -/
theorem piecesFrom_commas (lasts : List Nat) (lexemes : List Lexeme) :
    piecesFrom (lasts.map .comma) lexemes 0 =
      putCommas (.comma, [',']) (marksOf lasts lexemes.length) (lexemes.map Lexeme.piece) := by
  have part (part : List Lexeme) (start : Nat) :
      ((part.zipIdx start).flatMap fun place => remains (lasts.map .comma) place.1 place.2) =
        putCommas (.comma, [',']) ((List.range' start part.length).map fun index =>
          decide (index ∈ lasts)) (part.map Lexeme.piece) := by
    induction part generalizing start with
    | nil => rfl
    | cons lexeme part ih =>
      rw [zipIdx_cons, flatMap_cons, ih, remains_commas, length_cons,
        range'_succ, map_cons, map_cons, putCommas_cons]
      by_cases here : start ∈ lasts <;> simp [here]
  rw [piecesFrom, drop_zero, part, marksOf, range_eq_range']

end Repair

namespace Lexeme

theorem texts_map_piece (lexemes : List Lexeme) :
    texts (lexemes.map piece) = lexemes.flatMap text := by
  rw [texts, flatMap_map]
  rfl

theorem Cuts.foldr_attach_putCommas {mode : Mode} {position : Position} {text : List Char}
    {lexemes : List Lexeme} (cuts : Cuts mode position text lexemes) (marks : List Bool) :
    (putCommas (.comma, [',']) marks (lexemes.map piece)).foldr attach [] =
      putCommas (.comma, [',']) marks (lexemes.map piece) := by
  induction lexemes generalizing mode position text marks with
  | nil => cases marks <;> rfl
  | cons lexeme lexemes ih =>
    have whole : Cuts mode position text ([lexeme] ++ lexemes) := cuts
    rcases whole.suffix with ⟨_, _, _, following⟩
    have later := ih following marks.tail
    rw [map_cons, putCommas_cons, foldr_cons, foldr_append, later]
    cases marks.headD false with
    | false =>
      apply cuts.attach_piece
      intro joins
      cases lexemes with
      | nil => cases marks.tail <;> simp [putCommas] at joins
      | cons next lexemes =>
        rw [map_cons, putCommas_cons] at joins
        exact joins
    | true => exact cuts.attach_piece (by rintro ⟨⟩)

end Lexeme

theorem count_newline_putCommas (marks : List Bool) (pieces : List Piece) :
    (Lexeme.texts (putCommas (.comma, [',']) marks pieces)).count '\n' =
      (Lexeme.texts pieces).count '\n' := by
  induction pieces generalizing marks with
  | nil => cases marks <;> rfl
  | cons piece pieces ih =>
    rw [putCommas_cons, Lexeme.texts_cons, Lexeme.texts_cons, count_append,
      count_append, ← ih marks.tail]
    cases marks.headD false <;> simp

theorem Neighbours.congr {kinds others : List Kind} {left right : Nat}
    (neighbours : Neighbours kinds left right)
    (same : ∀ index, SignificantAt kinds index ↔ SignificantAt others index) :
    Neighbours others left right where
  lt := neighbours.lt
  left_significant := (same left).mp neighbours.left_significant
  right_significant := (same right).mp neighbours.right_significant
  between index lower upper := mt (same index).mpr (neighbours.between index lower upper)

theorem Stream.significantAt_settledKinds_iff {lexemes : List Lexeme} {index : Nat} :
    SignificantAt (settledKinds lexemes) index ↔
      SignificantAt (lexemes.map Lexeme.kind) index := by
  cases found : lexemes[index]? with
  | none =>
    have outside : lexemes.length ≤ index := List.getElem?_eq_none_iff.mp found
    have settled : (settledKinds lexemes)[index]? = none :=
      getElem?_eq_none (by rwa [length_settledKinds])
    simp [SignificantAt, found, settled]
  | some lexeme =>
    rw [significantAt_iff found]
    simp [SignificantAt, found]

section Neighbours

variable {kinds : List Kind} {marks : List Bool} {left right : Nat}

theorem significantAt_putCommas {index : Nat} :
    SignificantAt (putCommas .comma marks kinds) (shifted marks index) ↔
      SignificantAt kinds index := by
  rw [SignificantAt, SignificantAt, getElem?_shifted]

theorem Neighbours.of_putCommas (neighbours :
    Neighbours (putCommas .comma marks kinds) (shifted marks left) (shifted marks right)) :
    Neighbours kinds left right where
  lt := (strictMono_shifted marks).lt_iff_lt.mp neighbours.lt
  left_significant := significantAt_putCommas.mp neighbours.left_significant
  right_significant := significantAt_putCommas.mp neighbours.right_significant
  between := by
    intro index lower upper significant
    apply neighbours.between _ (strictMono_shifted marks lower) (strictMono_shifted marks upper)
    exact significantAt_putCommas.mpr significant

/-- Where a comma was put, it is the next significant token. -/
theorem Neighbours.not_marked (neighbours :
    Neighbours (putCommas .comma marks kinds) (shifted marks left) (shifted marks right)) :
    marks[left]? ≠ some true := by
  intro marked
  rcases neighbours.of_putCommas.left_significant with ⟨kind, found, -⟩
  have inside := (List.getElem?_eq_some_iff.mp found).1
  have comma := getElem?_shifted_add_one Kind.comma marked inside
  have next := shifted_add_one marks left
  have not_later := (strictMono_shifted marks).monotone neighbours.of_putCommas.lt
  rw [marked] at next
  apply neighbours.between (shifted marks left + 1) (Nat.lt_succ_self _)
  · simp at next not_later
    omega
  · exact ⟨.comma, comma, rfl⟩

/-- A comma that was put behind a token has the token's neighbour as its own. -/
theorem Neighbours.behind_comma (neighbours : Neighbours kinds left right)
    (marked : marks[left]? = some true)
    (only : ∀ index, marks[index]? = some true → SignificantAt kinds index) :
    (putCommas .comma marks kinds)[shifted marks left + 1]? = some .comma ∧
      Neighbours (putCommas .comma marks kinds) (shifted marks left + 1) (shifted marks right) := by
  have mono := strictMono_shifted marks
  rcases neighbours.left_significant with ⟨kind, found, -⟩
  have comma := getElem?_shifted_add_one Kind.comma marked (List.getElem?_eq_some_iff.mp found).1
  refine ⟨comma, ?_, ⟨.comma, comma, rfl⟩,
    significantAt_putCommas.mpr neighbours.right_significant, ?_⟩
  · have next := shifted_add_one marks left
    have upper : shifted marks (left + 1) ≤ shifted marks right := mono.monotone neighbours.lt
    rw [marked, Option.getD_some, Bool.toNat_true] at next
    omega
  · rintro between lower upper ⟨other, other_found, kept⟩
    rcases exists_shifted_of_lt_length Kind.comma (List.getElem?_eq_some_iff.mp other_found).1 with
      ⟨image, rfl⟩ | ⟨later, rfl, later_marked⟩
    · apply neighbours.between image (mono.lt_iff_lt.mp (by omega)) (mono.lt_iff_lt.mp upper)
      exact significantAt_putCommas.mp ⟨other, other_found, kept⟩
    · apply neighbours.between later (mono.lt_iff_lt.mp (by omega)) (mono.lt_iff_lt.mp (by omega))
      exact only later later_marked

end Neighbours

namespace Stream

/-- A source that is read again with commas behind some of its tokens. -/
structure CommasPut (source result : List Char) (marks : List Bool) : Prop where
  pieces : (lex result).map Lexeme.piece =
    putCommas (.comma, [',']) marks ((lex source).map Lexeme.piece)
  awaits : Kind.AwaitsCloser false marks ((lex source).map Lexeme.kind)

namespace CommasPut

variable {source result : List Char} {marks : List Bool} (put : CommasPut source result marks)

include put

theorem map_kind : (lex result).map Lexeme.kind =
    putCommas .comma marks ((lex source).map Lexeme.kind) := by
  have kinds := congrArg (List.map Prod.fst) put.pieces
  rw [map_putCommas, map_map, map_map] at kinds
  exact kinds

theorem words_eq :
    settledWords (lex result) = putCommas .comma marks (settledWords (lex source)) := by
  rw [settledWords, put.map_kind]
  exact Kind.settleWords_putCommas put.awaits none

theorem kinds_eq :
    settledKinds (lex result) = putCommas .comma marks (settledKinds (lex source)) := by
  have settled (lexemes : List Lexeme) :
      settledKinds lexemes = Kind.settleBrackets none [] (settledWords lexemes) := rfl
  rw [settled, settled, put.words_eq]
  exact Kind.settleBrackets_putCommas (Kind.awaitsCloser_settleWords put.awaits none) none []

theorem parentheses_eq :
    parentheses (lex result) = (parentheses (lex source)).map (.move (shifted marks)) := by
  rw [parentheses, put.kinds_eq, map_putCommas]
  exact (spread_putCommas _ marks _).pairs_eq

theorem squares_eq : squares (lex result) = (squares (lex source)).map (.move (shifted marks)) := by
  rw [squares, put.words_eq, map_putCommas]
  exact (spread_putCommas _ marks _).pairs_eq

theorem getElem?_shifted (index : Nat) :
    (lex result)[shifted marks index]?.map Lexeme.piece =
      (lex source)[index]?.map Lexeme.piece := by
  rw [← getElem?_map, put.pieces, PhpStyle.getElem?_shifted, getElem?_map]

/-- Commas move no token to another line. -/
theorem line?_shifted (index : Nat) :
    (ofSource result).line? (shifted marks index) = (ofSource source).line? index := by
  have same := put.getElem?_shifted index
  have before : ((lex result).take (shifted marks index)).map Lexeme.piece =
      putCommas (.comma, [',']) marks (((lex source).take index).map Lexeme.piece) := by
    rw [map_take, put.pieces, take_shifted, map_take]
  rw [ofSource, ofSource, line?_ofLexemes, line?_ofLexemes]
  cases moved : (lex result)[shifted marks index]? with
  | none =>
    rw [moved, Option.map_none, eq_comm, Option.map_eq_none_iff] at same
    rw [same]
  | some second =>
    rw [moved, Option.map_some, eq_comm, Option.map_eq_some_iff] at same
    rcases same with ⟨first, found, -⟩
    rw [found, Option.map_some, Option.map_some, (cuts_lex result).line_at moved,
      (cuts_lex source).line_at found, ← Lexeme.texts_map_piece, before,
      count_newline_putCommas, Lexeme.texts_map_piece]

/-- Every array literal that is read again was there before. -/
theorem exists_isArray {owner : Nat} {span : Span} (array : IsArray (lex result) owner span) :
    ∃ old old_span, IsArray (lex source) old old_span ∧ span = old_span.move (shifted marks) := by
  cases array with
  | keyword array paired =>
    rw [put.parentheses_eq, mem_map] at paired
    rcases paired with ⟨old_span, paired, rfl⟩
    rcases array with ⟨keyword, opens, neighbours⟩
    rw [put.kinds_eq] at keyword opens neighbours
    rcases of_getElem?_putCommas keyword with ⟨old, rfl, at_old⟩ | comma
    · rw [Span.move, PhpStyle.getElem?_shifted] at opens
      exact ⟨old, old_span, .keyword ⟨at_old, opens, neighbours.of_putCommas⟩ paired, rfl⟩
    · cases comma
  | short opens same paired =>
    rw [put.squares_eq, mem_map] at paired
    rcases paired with ⟨old_span, paired, rfl⟩
    rw [put.kinds_eq] at opens
    rcases of_getElem?_putCommas opens with ⟨old, rfl, at_old⟩ | comma
    · exact ⟨old, old_span, .short at_old ((strictMono_shifted marks).injective same) paired, rfl⟩
    · cases comma

/-- A comma that is still missing is missing behind an item that got none. -/
theorem exists_lacksComma {owner last : Nat} {span : Span}
    (lacks : LacksComma (lex result) owner span last) :
    ∃ old old_span old_last, LacksComma (lex source) old old_span old_last ∧
      marks[old_last]? ≠ some true := by
  rcases put.exists_isArray lacks.array with ⟨old, old_span, array, rfl⟩
  rcases lacks with ⟨-, spans, inside, neighbours, missing⟩
  have lines := put.line?_shifted
  rw [ofSource, ofSource] at lines
  rw [Span.move, lines, lines] at spans
  rw [put.kinds_eq] at neighbours missing
  rcases neighbours.left_significant with ⟨kind, found, -⟩
  rcases of_getElem?_putCommas found with ⟨old_last, rfl, -⟩ | rfl
  · rw [PhpStyle.getElem?_shifted] at missing
    have inside := (strictMono_shifted marks).lt_iff_lt.mp inside
    exact ⟨old, old_span, old_last, ⟨array, spans, inside, neighbours.of_putCommas, missing⟩,
      neighbours.not_marked⟩
  · exact absurd found missing

end CommasPut

/-- The text of a stream with a comma behind each of the given tokens. -/
def textWithCommas (stream : Stream) (lasts : List Nat) : List Char :=
  (stream.tokens.toList.map fun token => token.text).zipIdx.flatMap fun place =>
    if place.2 ∈ lasts then place.1 ++ [','] else place.1

theorem textWithCommas_nil (source : List Char) : (ofSource source).textWithCommas [] = source := by
  have texts_eq (texts : List (List Char)) :
      (texts.zipIdx.flatMap fun place => if place.2 ∈ [] then place.1 ++ [','] else place.1) =
        texts.flatten := by
    simp [flatMap_def, zipIdx_map_fst]
  rw [textWithCommas, texts_eq, ofSource, text_ofLexemes, ← flatMap_def,
    (cuts_lex source).flatMap_text]

theorem textWithCommas_perm {stream : Stream} {lasts others : List Nat}
    (perm : lasts.Perm others) : stream.textWithCommas lasts = stream.textWithCommas others := by
  simp only [textWithCommas, perm.mem_iff]

section Anchors

variable (source : List Char)

theorem isPlan_anchors : Repair.IsPlan (lex source) ((ofSource source).anchors.map .comma) := by
  have cuts := cuts_lex source
  have lexed := Standard.isContextual_of_mem cuts
  apply Standard.isPlan_of_origins cuts
  · apply List.pairwise_map.mpr
    refine (nodup_anchors lexed).imp fun different place first second => ?_
    exact different (first.symm.trans second)
  · intro repair planned
    rcases List.mem_map.mp planned with ⟨last, inside, rfl⟩
    rcases (mem_anchors_iff lexed).mp inside with ⟨owner, span, lacks⟩
    have missing := lacks.missing
    rw [← kind?_ofLexemes] at missing
    exact ⟨owner, .comma lacks.array lacks.neighbours missing
      (fits_comma cuts lacks.array lacks.neighbours)⟩

theorem contents_anchors :
    ((Fixer.ofStream (ofSource source) true).applyAll
      (((ofSource source).anchors.map Repair.comma).map Repair.edits)).contents =
        (ofSource source).textWithCommas (ofSource source).anchors := by
  rw [Standard.contents_applyAll (isPlan_anchors source), textWithCommas, ofSource, text_ofLexemes,
    Repair.piecesFrom, drop_zero, Lexeme.texts, flatMap_assoc, zipIdx_map,
    flatMap_map]
  congr 1
  funext place
  rw [Repair.remains_commas]
  split <;> simp_all [Lexeme.piece]

/-- The source with a comma wherever one is missing. -/
def withCommas : List Char :=
  (ofSource source).textWithCommas (ofSource source).anchors

theorem commasPut_withCommas :
    CommasPut source (withCommas source)
      (Repair.marksOf (ofSource source).anchors (lex source).length) where
  pieces := by
    rw [withCommas, ← contents_anchors, Standard.map_piece_lex_contents (isPlan_anchors source),
      Repair.piecesFrom_commas, (cuts_lex source).foldr_attach_putCommas]
  awaits := by
    have lexed := Standard.isContextual_of_mem (cuts_lex source)
    apply Kind.awaitsCloser_of_neighbours
    intro index marked
    rcases (mem_anchors_iff lexed).mp (Repair.mem_of_marksOf marked) with ⟨owner, span, lacks⟩
    refine ⟨span.closer, lacks.neighbours.congr fun _ => significantAt_settledKinds_iff, ?_⟩
    have ends : EndsArray (lex source) span.closer := ⟨owner, span, lacks.array, rfl⟩
    obtain ⟨lexeme, found⟩ : ∃ lexeme, (lex source)[span.closer]? = some lexeme := by
      rcases significantAt_settledKinds_iff.mp lacks.neighbours.right_significant with
        ⟨kind, found, -⟩
      rw [getElem?_map, Option.map_eq_some_iff] at found
      exact ⟨_, found.choose_spec.1⟩
    rw [getElem?_map, found, Option.map_some, Option.some.injEq, Option.some.injEq]
    exact ends.lexed lexed found

/-- No comma is missing any more. -/
theorem anchors_withCommas : (ofSource (withCommas source)).anchors = [] := by
  apply List.eq_nil_iff_forall_not_mem.mpr
  intro last inside
  have recut := Standard.isContextual_of_mem (cuts_lex (withCommas source))
  have lexed := Standard.isContextual_of_mem (cuts_lex source)
  rcases (mem_anchors_iff recut).mp inside with ⟨owner, span, lacks⟩
  rcases (commasPut_withCommas source).exists_lacksComma lacks with
    ⟨old, old_span, old_last, old_lacks, unmarked⟩
  apply unmarked
  apply Repair.marksOf_of_mem old_lacks.lt_length
  exact (mem_anchors_iff lexed).mpr ⟨old, old_span, old_lacks⟩

end Anchors

end Stream

end PhpStyle
