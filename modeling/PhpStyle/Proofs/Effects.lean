import Mathlib.Algebra.BigOperators.Group.List.Basic
import Mathlib.Algebra.Ring.Int.Defs
import Mathlib.Data.List.Nodup
import PhpStyle.Proofs.Preservation

/-!
# What a single repair does

A repair of a built-in rule either takes one tag out of a doc comment or puts one
comma behind the last item of an array literal. This is said of the text that the
repair leaves when it is read again: a deletion brings forth no new tag and
changes no code, and a comma touches no tag.

The repairs of one pass are counted with a single number, the doc tags of a file
less the tokens of its code. Each repair of a plan lowers it by one, whichever of
the two it does.
-/

namespace PhpStyle

open List

/-- The doc tags among some items. -/
def docTags {α : Type} (items : List (Kind × α)) : List (Kind × α) :=
  items.filter fun item => item.1 == .docTag

/-- How a token of a kind counts towards the surplus of a file. -/
def Kind.surplus (kind : Kind) : Int :=
  if kind = .docTag then 1 else if kind.isSignificant then -1 else 0

/-- The number of doc tags less the number of significant tokens. -/
def surplus {α : Type} (items : List (Kind × α)) : Int :=
  (items.map fun item => item.1.surplus).sum

variable {α : Type}

theorem surplus_cons (item : Kind × α) (items : List (Kind × α)) :
    surplus (item :: items) = item.1.surplus + surplus items := by
  rw [surplus, map_cons, sum_cons, surplus]

theorem surplus_flatMap {β : Type} (places : List β) (items : β → List (Kind × α)) :
    surplus (places.flatMap items) = (places.map fun place => surplus (items place)).sum := by
  induction places with
  | nil => rfl
  | cons place places ih =>
    rw [flatMap_cons, surplus, map_append, sum_append, map_cons, sum_cons, ← ih]
    rfl

theorem surplus_eq (items : List (Kind × α)) :
    surplus items = (docTags items).length - (significant items).length := by
  induction items with
  | nil => rfl
  | cons item items ih =>
    have tag_trivia : Kind.docTag.isSignificant = false := rfl
    rw [surplus_cons, ih, significant_cons, docTags, docTags, Kind.surplus, filter_cons]
    by_cases tagged : item.1 = .docTag
    · simp only [tagged, tag_trivia, beq_self_eq_true, if_true, Bool.false_eq_true, if_false,
        length_cons]
      omega
    · by_cases counts : item.1.isSignificant = true
      · simp only [tagged, counts, beq_iff_eq, if_true, if_false, length_cons]
        omega
      · simp [tagged, counts]

theorem surplus_foldr_attach (pieces : List Piece) :
    surplus (pieces.foldr Lexeme.attach []) = surplus pieces := by
  have tags_eq := filter_foldr_attach (· == .docTag) rfl pieces
  have code_eq := filter_foldr_attach Kind.isSignificant rfl pieces
  rw [surplus_eq, surplus_eq, docTags, docTags, significant, significant, tags_eq, code_eq]

theorem Kind.withCommas_of_unmarked (comma : α) {items : List (Kind × Bool × α)}
    (unmarked : ∀ item ∈ items, item.2.1 = false) : withCommas comma items = items.map unmark := by
  induction items with
  | nil => rfl
  | cons item items ih =>
    rcases item with ⟨kind, mark, content⟩
    obtain rfl : mark = false := unmarked _ mem_cons_self
    rw [withCommas, ih fun other inside => unmarked other (mem_cons_of_mem _ inside)]
    rfl

namespace Stream

theorem codeWithCommas_none (stream : Stream) :
    (stream.codeWithCommas fun _ => false) = stream.code := by
  rw [codeWithCommas, Kind.withCommas_of_unmarked, map_unmark_significant_marked]
  intro item inside
  have marked_inside := (List.mem_filter.mp inside).1
  rw [marked, mem_mapIdx] at marked_inside
  rcases marked_inside with ⟨index, bound, rfl⟩
  rfl

/-- The doc tags of a stream. -/
def tags (stream : Stream) : List Piece :=
  docTags (stream.tokens.toList.map fun token => (token.kind, token.text))

theorem tags_ofLexemes (lexemes : List Lexeme) :
    (ofLexemes lexemes).tags = docTags (lexemes.map Lexeme.piece) := by
  let isTag (piece : Piece) : Bool := piece.1 == .docTag
  have guarded : ((ofLexemes lexemes).tokens.toList.map fun token =>
      Option.guard isTag (token.kind, token.text)) =
        lexemes.map fun lexeme => Option.guard isTag lexeme.piece := by
    apply ext_getElem?
    intro index
    rw [getElem?_map, getElem?_map, Array.getElem?_toList]
    cases found : lexemes[index]? with
    | none =>
      have outside : (ofLexemes lexemes).tokens[index]? = none := get?_ofLexemes_eq_none found
      rw [outside]
      rfl
    | some lexeme =>
      rcases get?_ofLexemes found with ⟨kind, conditions, kind_found, token_found⟩
      have token_at : (ofLexemes lexemes).tokens[index]? = some _ := token_found
      have tagged_iff : kind = .docTag ↔ lexeme.kind = .docTag := by
        have settled : (settledKinds lexemes)[index]? = some .docTag ↔
            (lexemes.map Lexeme.kind)[index]? = some .docTag := getElem?_settledKinds_iff rfl
        rw [kind_found, getElem?_map, found] at settled
        simpa using settled
      rw [token_at]
      by_cases tagged : lexeme.kind = .docTag
      · simp [Structure.token, Lexeme.piece, Option.guard, isTag, tagged, tagged_iff.mpr tagged]
      · simp [Structure.token, Lexeme.piece, Option.guard, isTag, tagged, mt tagged_iff.mp tagged]
  have unguard (pieces : List Piece) :
      docTags pieces = (pieces.map (Option.guard isTag)).filterMap id := by
    rw [filterMap_map, Function.id_comp, filterMap_eq_filter]
    rfl
  rw [tags, unguard, unguard, map_map, map_map]
  exact congrArg (List.filterMap id) guarded

theorem surplus_ofLexemes (lexemes : List Lexeme) :
    surplus (lexemes.map Lexeme.piece) =
      (ofLexemes lexemes).tags.length - (ofLexemes lexemes).code.length := by
  have code_length : (ofLexemes lexemes).code.length =
      (significant (lexemes.map Lexeme.piece)).length := by
    rw [code_ofLexemes, Kind.significant_read, Kind.read_eq]
    simp [Kind.length_settleBrackets, Kind.length_settleWords]
  rw [surplus_eq, tags_ofLexemes, code_length]

/-- The stream of the text that a changeset leaves of a source, when it is made alone. -/
def afterChangeset (source : List Char) (changeset : List Edit) : Stream :=
  ofSource ((Fixer.ofStream (ofSource source) true).apply changeset).2.contents

/-- One doc tag goes, and nothing else of the tags and the code. -/
structure RemovesTag (before after : Stream) : Prop where
  code_eq : after.code = before.code
  tags : ∃ front tag back, before.tags = front ++ tag :: back ∧ after.tags = front ++ back

/-- One array literal gets a comma before its closer, where it had none. -/
structure AddsComma (before after : Stream) : Prop where
  tags_eq : after.tags = before.tags
  comma : ∃ owner closer, before.ClosesArray owner closer ∧
    lastBefore (before.tokens.toList.map fun token => token.kind) closer ≠ some .comma ∧
    after.code = before.codeWithCommas (· == closer)

end Stream

namespace Repair

variable {lexemes : List Lexeme} {plan : List Repair} {repair : Repair} {token : Nat}

/-- What a repair does to a file, and the token at which it does it: one doc tag goes, among trivia,
or a comma is put behind a token. -/
inductive Effect (lexemes : List Lexeme) : Repair → Nat → Prop where
  | removes {repair : Repair} {token : Nat} {lexeme : Lexeme}
      (found : lexemes[token]? = some lexeme) (tagged : lexeme.kind = .docTag)
      (only : ∀ place lexeme, lexemes[place]? = some lexeme → lexeme.kind = .docTag →
        (repair.deletes place = true ↔ place = token))
      (no_comma : ∀ last, repair ≠ .comma last) : Effect lexemes repair token
  | adds {last : Nat} {lexeme : Lexeme} (found : lexemes[last]? = some lexeme) :
      Effect lexemes (.comma last) last

variable {lexeme : Lexeme}

theorem Effect.exists_lexeme (effect : Effect lexemes repair token) :
    ∃ lexeme, lexemes[token]? = some lexeme := by
  cases effect with
  | removes found tagged only no_comma => exact ⟨_, found⟩
  | adds found => exact ⟨_, found⟩

/-- One more repair lowers the surplus at its own token and nowhere else. -/
theorem Effect.surplus_remains (effect : Effect lexemes repair token)
    (isPlan : IsPlan lexemes (repair :: plan)) {place : Nat}
    (found : lexemes[place]? = some lexeme) :
    surplus (remains (repair :: plan) lexeme place) =
      surplus (remains plan lexeme place) + if place = token then -1 else 0 := by
  have apart := List.pairwise_cons.mp isPlan.apart
  have alone (covered : repair.covers place) : remains plan lexeme place = [lexeme.piece] :=
    remains_of_not_covered (fun other planned also => apart.1 other planned place covered also)
      lexeme
  cases effect with
  | removes token_found tagged only no_comma =>
    cases deleted : repair.deletes place with
    | true =>
      have trivia : lexeme.kind.isSignificant = false := by
        rw [← Bool.not_eq_true, ← Stream.significantAt_iff found]
        exact isPlan.trivia repair mem_cons_self place deleted
      have gone : remains (repair :: plan) lexeme place = [] := by
        simp [remains, deleted]
      rw [gone, alone (covers_of_deletes deleted), surplus_cons]
      by_cases tagged : lexeme.kind = .docTag
      · have here := (only place lexeme found tagged).mp deleted
        simp [surplus, Kind.surplus, Lexeme.piece, tagged, here]
      · have elsewhere : place ≠ token := by
          rintro rfl
          obtain rfl := Option.some.inj (found.symm.trans token_found)
          contradiction
        simp [surplus, Kind.surplus, Lexeme.piece, tagged, trivia, elsewhere]
    | false =>
      have elsewhere : place ≠ token := by
        rintro rfl
        obtain rfl := Option.some.inj (found.symm.trans token_found)
        have := (only place _ found tagged).mpr rfl
        simp [deleted] at this
      have same : remains (repair :: plan) lexeme place = remains plan lexeme place := by
        have other : .comma place ≠ repair := (no_comma place).symm
        simp [remains, deleted, other]
      rw [same, if_neg elsewhere, Int.add_zero]
  | adds token_found =>
    by_cases here : place = token
    · subst here
      have left_over : remains (.comma place :: plan) lexeme place =
          [lexeme.piece, (.comma, [','])] := by
        rw [remains_of_covers isPlan.apart mem_cons_self rfl]
        simp [deletes]
      have comma_surplus : Kind.comma.surplus = -1 := rfl
      rw [left_over, alone rfl]
      simp [surplus, comma_surplus]
    · have same : remains (.comma token :: plan) lexeme place = remains plan lexeme place := by
        simp [remains, deletes, here]
      rw [same, if_neg here, Int.add_zero]

theorem IsPlan.tail (isPlan : IsPlan lexemes (repair :: plan)) : IsPlan lexemes plan where
  apart := (List.pairwise_cons.mp isPlan.apart).2
  fits other planned := isPlan.fits other (mem_cons_of_mem _ planned)
  trivia other planned := isPlan.trivia other (mem_cons_of_mem _ planned)
  array last planned := isPlan.array last (mem_cons_of_mem _ planned)

theorem piecesFrom_nil (lexemes : List Lexeme) :
    piecesFrom [] lexemes 0 = lexemes.map Lexeme.piece := by
  have kept : piecesFrom [] lexemes 0 = (lexemes.zipIdx.map Prod.fst).map Lexeme.piece := by
    rw [map_map, map_eq_flatMap]
    rfl
  rw [kept, zipIdx_map_fst]

/-- A sum over the places of a file that counts one of them. -/
theorem sum_place (found : ∃ lexeme, lexemes[token]? = some lexeme) (value : Int) :
    (lexemes.zipIdx.map fun place => if place.2 = token then value else 0).sum = value := by
  rcases found with ⟨lexeme, found⟩
  have bound := (List.getElem?_eq_some_iff.mp found).1
  have once : (List.range' 0 lexemes.length).count token = 1 :=
    count_eq_one_of_mem nodup_range' (List.mem_range'_1.mpr (by omega))
  have counted := sum_map_ite_eq (List.range' 0 lexemes.length) (fun _ => value) (fun _ => 0) token
  rw [once] at counted
  rw [← zipIdx_map_snd 0 lexemes, map_map] at counted
  simpa [Function.comp_def] using counted

/-- Each repair of a plan lowers the surplus by one. -/
theorem IsPlan.surplus_piecesFrom (isPlan : IsPlan lexemes plan)
    (effects : ∀ repair ∈ plan, ∃ token, Effect lexemes repair token) :
    surplus (piecesFrom plan lexemes 0) + plan.length = surplus (lexemes.map Lexeme.piece) := by
  induction plan with
  | nil =>
    rw [piecesFrom_nil]
    exact Int.add_zero _
  | cons repair plan ih =>
    have rest := ih isPlan.tail fun other planned =>
      effects other (mem_cons_of_mem _ planned)
    rcases effects repair mem_cons_self with ⟨token, effect⟩
    have step : surplus (piecesFrom (repair :: plan) lexemes 0) =
        surplus (piecesFrom plan lexemes 0) + -1 := by
      rw [piecesFrom, piecesFrom, surplus_flatMap, surplus_flatMap, drop_zero,
        ← sum_place effect.exists_lexeme (-1), ← sum_map_add]
      congr 1
      apply map_congr_left
      rintro ⟨lexeme, place⟩ inside
      rw [mk_mem_zipIdx_iff_getElem?] at inside
      exact effect.surplus_remains isPlan inside
    rw [step, length_cons]
    omega

theorem docTags_flatMap {β : Type} {places : List β} {items : β → List (Kind × α)}
    {item : β → Kind × α} (same : ∀ place ∈ places, docTags (items place) = docTags [item place]) :
    docTags (places.flatMap items) = docTags (places.map item) := by
  induction places with
  | nil => rfl
  | cons place places ih =>
    have first := same place mem_cons_self
    have rest := ih fun other inside => same other (mem_cons_of_mem _ inside)
    simp only [docTags, flatMap_cons, map_cons, filter_append] at first rest ⊢
    rw [first, rest, ← filter_append, singleton_append]

theorem Effect.docTags_remains (effect : Effect lexemes repair token) {place : Nat}
    (found : lexemes[place]? = some lexeme)
    (elsewhere : repair.deletes place = true → place ≠ token) :
    docTags (remains [repair] lexeme place) = docTags [lexeme.piece] := by
  have comma_other : (Kind.comma == Kind.docTag) = false := rfl
  cases effect with
  | removes token_found tagged only no_comma =>
    have other : .comma place ≠ repair := (no_comma place).symm
    cases deleted : repair.deletes place with
    | true =>
      have untagged : lexeme.kind ≠ .docTag := fun tagged =>
        elsewhere deleted ((only place lexeme found tagged).mp deleted)
      simp [remains, deleted, docTags, Lexeme.piece, untagged]
    | false => simp [remains, deleted, other]
  | adds token_found =>
    by_cases here : place = token
    · simp [remains, deletes, here, docTags, filter_cons, comma_other]
    · simp [remains, deletes, here]

theorem Effect.docTags_part (effect : Effect lexemes repair token) (part : List Lexeme)
    (start : Nat) (inside : ∀ place ∈ part.zipIdx start, place ∈ lexemes.zipIdx)
    (elsewhere : ∀ place ∈ part.zipIdx start, repair.deletes place.2 = true → place.2 ≠ token) :
    docTags ((part.zipIdx start).flatMap fun place => remains [repair] place.1 place.2) =
      docTags (part.map Lexeme.piece) := by
  calc docTags ((part.zipIdx start).flatMap fun place => remains [repair] place.1 place.2)
    _ = docTags ((part.zipIdx start).map (Lexeme.piece ∘ Prod.fst)) := by
      apply docTags_flatMap
      rintro ⟨lexeme, place⟩ mem
      have found := inside _ mem
      rw [mk_mem_zipIdx_iff_getElem?] at found
      exact effect.docTags_remains found (elsewhere _ mem)
    _ = docTags (part.map Lexeme.piece) := by
      rw [← map_map, zipIdx_map_fst]

theorem Effect.docTags_of_adds {last : Nat} (effect : Effect lexemes (.comma last) token) :
    docTags (piecesFrom [.comma last] lexemes 0) = docTags (lexemes.map Lexeme.piece) := by
  rw [piecesFrom, drop_zero]
  apply effect.docTags_part lexemes 0
  · intro place inside
    exact inside
  · intro place inside deleted
    simp [deletes] at deleted

/-- The tag that is deleted is missing from the tags, and no other one is. -/
theorem Effect.docTags_of_removes (effect : Effect lexemes repair token)
    (found : lexemes[token]? = some lexeme) (tagged : lexeme.kind = .docTag)
    (deleted : repair.deletes token = true) :
    ∃ front back, docTags (lexemes.map Lexeme.piece) = front ++ lexeme.piece :: back ∧
      docTags (piecesFrom [repair] lexemes 0) = front ++ back := by
  obtain ⟨front, back, rfl, rfl⟩ :
      ∃ front back, lexemes = front ++ lexeme :: back ∧ front.length = token := by
    rcases List.getElem?_eq_some_iff.mp found with ⟨bound, rfl⟩
    refine ⟨lexemes.take token, lexemes.drop (token + 1), ?_, ?_⟩
    · rw [← drop_eq_getElem_cons bound, take_append_drop]
    · exact length_take_of_le (Nat.le_of_lt bound)
  have places : (front ++ lexeme :: back).zipIdx =
      front.zipIdx ++ (lexeme, front.length) :: back.zipIdx (front.length + 1) := by
    rw [zipIdx_append, zipIdx_cons, Nat.zero_add]
  refine ⟨docTags (front.map Lexeme.piece), docTags (back.map Lexeme.piece), ?_, ?_⟩
  · simp [docTags, Lexeme.piece, tagged]
  · have gone : remains [repair] lexeme front.length = [] := by
      simp [remains, deleted]
    have before := effect.docTags_part front 0
      (fun place inside => places ▸ mem_append_left _ inside)
      (fun place inside _ => by
        have := snd_lt_of_mem_zipIdx inside
        omega)
    have behind := effect.docTags_part back (front.length + 1)
      (fun place inside => places ▸ mem_append_right _ (mem_cons_of_mem _ inside))
      (fun place inside _ => by
        have := le_snd_of_mem_zipIdx inside
        omega)
    rw [piecesFrom, drop_zero, places, flatMap_append, flatMap_cons, gone,
      nil_append, docTags, filter_append]
    exact congrArg₂ List.append before behind

end Repair

namespace Stream

/-- The only tag on the line of a tag is the tag itself. -/
theorem eq_token_of_onTagLine {lexemes : List Lexeme} {mode : Lexeme.Mode} {position : Position}
    {text : List Char} (cuts : Lexeme.Cuts mode position text lexemes) {comment : Comment}
    {tag : Tag} (holds : Holds lexemes comment) (inside : tag ∈ comment.tags) {place : Nat}
    {lexeme : Lexeme} (on : OnTagLine lexemes comment tag.token place)
    (found : lexemes[place]? = some lexeme) (tagged : lexeme.kind = .docTag) :
    place = tag.token := by
  rcases holds.tag_at inside with ⟨lower, upper, other, other_found, other_tagged⟩
  have line : lexeme.line = other.line := by
    simpa [found, other_found] using on.line
  have before : place < comment.closer := by
    apply Nat.lt_of_le_of_ne on.le_closer
    rintro rfl
    have closes := holds.closes
    simp [found, tagged] at closes
  apply Nat.le_antisymm
  · exact holds.le_of_line_eq cuts other_found other_tagged found tagged lower before line.symm
  · exact holds.le_of_line_eq cuts found tagged other_found other_tagged on.opener_lt upper line

end Stream

namespace Standard

section Cuts

variable {lexemes : List Lexeme} {mode : Lexeme.Mode} {position : Position} {text : List Char}
  (cuts : Lexeme.Cuts mode position text lexemes)

include cuts

/-- A repair on the line of a tag deletes the tag, which is between the newlines around the line. -/
theorem deletes_token {comment : Comment} {tag : Tag} {repair : Repair}
    (holds : Stream.Holds lexemes comment) (inside : tag ∈ comment.tags)
    (fits : repair.Fits lexemes)
    (on_line : ∀ place, repair.covers place → Stream.OnTagLine lexemes comment tag.token place) :
    repair.deletes tag.token = true := by
  rcases holds.tag_at inside with ⟨lower, upper, lexeme, found, tagged⟩
  cases fits with
  | comma last_found takes more =>
    exact absurd (.comma last_found takes more) (not_fits_comma cuts holds (on_line _ rfl))
  | @line previous last before behind ordered previous_found starts last_found ends =>
    have bound := (List.getElem?_eq_some_iff.mp last_found).1
    have first_found := getElem?_eq_getElem (show previous + 1 < lexemes.length by omega)
    have after_previous : previous < tag.token := by
      by_contra early
      have first_line := (on_line (previous + 1) ⟨by omega, by omega⟩).line
      have up_to := cuts.line_le found previous_found (by omega)
      have beyond := cuts.line_lt previous_found first_found (Nat.lt_succ_self previous)
        (Lexeme.newline_of_endsDocLine starts)
      rw [found, first_found, Option.map_some, Option.map_some, Option.some.injEq] at first_line
      omega
    have up_to_last : tag.token ≤ last := by
      by_contra late
      have last_line := (on_line last ⟨ordered, Nat.le_refl last⟩).line
      have beyond := cuts.line_lt last_found found (by omega) (Lexeme.newline_of_endsDocLine ends)
      rw [found, last_found, Option.map_some, Option.map_some, Option.some.injEq] at last_line
      omega
    simp [Repair.deletes, after_previous, up_to_last]
  | @tail first stop other behind ordered first_found first_tagged stop_found stops =>
    have same := Stream.eq_token_of_onTagLine cuts holds inside
      (on_line first ⟨Nat.le_refl first, Nat.le_of_lt ordered⟩) first_found first_tagged
    simp [Repair.deletes, ← same, ordered]

theorem Origin.exists_effect {index : Nat} {repair : Repair}
    (origin : Origin lexemes index repair) : ∃ token, Repair.Effect lexemes repair token := by
  cases origin with
  | @tag kind skipped comment tag _ declares documented separates search holds inside fits
      on_line =>
      rcases holds.tag_at inside with ⟨lower, upper, lexeme, found, tagged⟩
      refine ⟨tag.token, .removes found tagged ?_ ?_⟩
      · intro place other other_found other_tagged
        constructor
        · intro deleted
          exact Stream.eq_token_of_onTagLine cuts holds inside
            (on_line place (Repair.covers_of_deletes deleted)) other_found other_tagged
        · rintro rfl
          exact deletes_token cuts holds inside fits on_line
      · rintro last rfl
        exact not_fits_comma cuts holds (on_line last rfl) fits
  | comma array neighbours missing fits =>
    rcases fits with ⟨found, -, -⟩
    exact ⟨_, .adds found⟩

end Cuts

variable {source : List Char} {plan : List Repair}

theorem map_piece_lex_contents (isPlan : Repair.IsPlan (lex source) plan) :
    (lex ((Fixer.ofStream (Stream.ofSource source) true).applyAll
      (plan.map Repair.edits)).contents).map Lexeme.piece =
        (Repair.piecesFrom plan (lex source) 0).foldr Lexeme.attach [] := by
  rw [contents_applyAll isPlan, ← isPlan.cut_texts (cuts_lex source)]
  exact Lexeme.map_piece_scan _ _ _

theorem tags_contents (isPlan : Repair.IsPlan (lex source) plan) :
    (Stream.ofSource ((Fixer.ofStream (Stream.ofSource source) true).applyAll
      (plan.map Repair.edits)).contents).tags =
        docTags (Repair.piecesFrom plan (lex source) 0) := by
  rw [Stream.ofSource, Stream.tags_ofLexemes, map_piece_lex_contents isPlan]
  exact filter_foldr_attach (· == .docTag) rfl _

/-- The repairs of a plan are as many as the doc tags that have gone and the tokens that have come.
-/
theorem surplus_contents (isPlan : Repair.IsPlan (lex source) plan)
    (effects : ∀ repair ∈ plan, ∃ token, Repair.Effect (lex source) repair token) :
    let before := Stream.ofSource source
    let after := Stream.ofSource ((Fixer.ofStream (Stream.ofSource source) true).applyAll
      (plan.map Repair.edits)).contents
    plan.length + after.tags.length + before.code.length =
      before.tags.length + after.code.length := by
  intro before after
  have before_eq : surplus ((lex source).map Lexeme.piece) =
      before.tags.length - before.code.length := Stream.surplus_ofLexemes (lex source)
  have after_eq : surplus (Repair.piecesFrom plan (lex source) 0) =
      after.tags.length - after.code.length := by
    rw [← surplus_foldr_attach, ← map_piece_lex_contents isPlan]
    exact Stream.surplus_ofLexemes _
  have lowered := isPlan.surplus_piecesFrom effects
  omega

/-- A repair that is made alone takes out one tag or puts in one comma. -/
theorem changes_of_effect {repair : Repair} {token : Nat}
    (isPlan : Repair.IsPlan (lex source) [repair])
    (effect : Repair.Effect (lex source) repair token) :
    (Stream.ofSource source).RemovesTag (Stream.afterChangeset source repair.edits) ∨
      (Stream.ofSource source).AddsComma (Stream.afterChangeset source repair.edits) := by
  have tags_before : (Stream.ofSource source).tags = docTags ((lex source).map Lexeme.piece) :=
    Stream.tags_ofLexemes (lex source)
  have tags_after := tags_contents isPlan
  cases effect with
  | @removes _ _ lexeme found tagged only no_comma =>
    left
    have deleted := (only token lexeme found tagged).mpr rfl
    rcases (Repair.Effect.removes found tagged only no_comma).docTags_of_removes found tagged
      deleted with ⟨front, back, before_eq, after_eq⟩
    refine ⟨?_, front, lexeme.piece, back, tags_before.trans before_eq, tags_after.trans after_eq⟩
    rw [← (Stream.ofSource source).codeWithCommas_none]
    apply code_contents isPlan
    intro index
    simp only [Bool.false_eq_true, false_iff]
    rintro ⟨last, planned, -⟩
    exact no_comma last (List.mem_singleton.mp planned).symm
  | @adds _ lexeme found =>
    right
    rcases isPlan.array token mem_cons_self with ⟨closer, ends, neighbours, missing⟩
    rcases ends.exists_closesArray with ⟨owner, closes⟩
    have tags_eq := (Repair.Effect.adds found).docTags_of_adds
    refine ⟨tags_after.trans (tags_eq.trans tags_before.symm), owner, closer, closes, ?_, ?_⟩
    · rw [Stream.ofSource, Stream.kinds_ofLexemes, neighbours.lastBefore_eq]
      exact missing
    · apply code_contents isPlan
      intro index
      rw [beq_iff_eq]
      constructor
      · rintro rfl
        exact ⟨token, mem_cons_self, neighbours⟩
      · rintro ⟨last, planned, others⟩
        obtain rfl : last = token := by simpa using planned
        exact others.right_eq neighbours

end Standard

end PhpStyle
