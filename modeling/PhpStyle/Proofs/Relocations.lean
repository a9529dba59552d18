import PhpStyle.Proofs.Embeddings

/-!
# Tokens at new places

Tokens that are put among others move those behind them to new places. This file says what has
to be shown of such an insertion (`Relocates`), and that it is enough: each token that was there
before has its brackets, its doc comment and the scopes around it as before, all at their new
places, and what has been put there points at nothing.
-/

namespace PhpStyle

open List

variable {place : Nat → Nat}

theorem Spread.map {α β : Type} {idle : α → Prop} {unused : β → Prop} {core whole : List α}
    (spread : Spread idle core whole place) (view : α → β)
    (implies : ∀ item, idle item → unused (view item)) :
    Spread unused (core.map view) (whole.map view) place where
  mono := spread.mono
  at_place index := by rw [getElem?_map, getElem?_map, spread.at_place]
  idle index item found := by
    rw [getElem?_map, Option.map_eq_some_iff] at found
    rcases found with ⟨entry, found, rfl⟩
    exact (spread.idle index entry found).imp_right (implies entry)

section Pairs

variable {place : Nat → Nat} {index : Nat} (outside : ∀ origin, index ≠ place origin)

include outside

/-- Moved pairs have no end where nothing has been moved to. -/
theorem pairAt_move_eq_none (spans : List Span) :
    pairAt (spans.map (Span.move place)) index = none := by
  rw [pairAt, find?_eq_none]
  intro span listed
  rcases List.mem_map.mp listed with ⟨origin, -, rfl⟩
  simp [Span.bounds, Span.move, (outside _).symm]

theorem Ownership.openerOf_move_eq_none (owners : List Ownership) :
    openerOf (owners.map (move place)) index = none := by
  rw [openerOf, Option.map_eq_none_iff, find?_eq_none]
  intro ownership listed
  rcases List.mem_map.mp listed with ⟨origin, -, rfl⟩
  simp [move, (outside _).symm]

end Pairs

theorem Ownership.openerOf_move (mono : StrictMono place) (owners : List Ownership)
    (keyword : Nat) :
    openerOf (owners.map (move place)) (place keyword) = (openerOf owners keyword).map place := by
  have same : ((fun ownership : Ownership => ownership.owner == place keyword &&
        ownerOf (owners.map (move place)) ownership.opener == some (place keyword)) ∘ move place) =
      fun ownership => ownership.owner == keyword &&
        ownerOf owners ownership.opener == some keyword := by
    funext ownership
    have owner_eq : ownerOf (owners.map (move place)) (move place ownership).opener =
        (ownerOf owners ownership.opener).map place := ownerOf_move mono owners ownership.opener
    rw [Function.comp_apply, owner_eq, ← Option.map_some,
      (Option.map_injective mono.injective).beq_eq]
    exact congrArg (· && _) mono.injective.beq_eq
  rw [openerOf, find?_map, same, openerOf, Option.map_map, Option.map_map]
  rfl

/-- A place where a bracket is unclosed, seen from both sequences. -/
theorem Spread.unclosed_iff {core whole : List Side}
    (spread : Spread (· = .neither) core whole place) {opener index : Nat} :
    Unclosed whole (place opener) (place index + 1) ↔ Unclosed core opener (index + 1) := by
  rw [Unclosed, spread.at_place, spread.pairs_eq, Unclosed]
  apply and_congr_right
  intro _
  constructor
  · intro unclosed span paired same
    have later := unclosed (span.move place) (mem_map_of_mem paired) (congrArg place same)
    exact spread.mono.lt_iff_lt.mp later
  · intro unclosed span paired same
    rcases List.mem_map.mp paired with ⟨origin, origin_paired, rfl⟩
    exact spread.mono (unclosed origin origin_paired (spread.mono.injective same))

namespace Places

theorem curlySide_of_isInert {kind : Kind} (inert : isInert kind = true) :
    kind.curlySide = .neither := by
  revert inert
  cases kind <;> decide

theorem skip_move (place : Nat → Nat) (kind : Kind) (places : Places) :
    skip kind (places.map fun entry => (entry.1, place entry.2)) =
      (skip kind places).map fun entry => (entry.1, place entry.2) := by
  cases places with
  | nil => rfl
  | cons entry places =>
    rw [map_cons, skip, skip]
    split <;> rfl

/-- Behind what it skips, the list of a keyword opens as the one of `array` does. -/
theorem listOpener_eq (kind : Kind) (following : Places) :
    listOpener kind following = listOpener .arrayKw
      (if kind = .functionKw then
        (if kind = .arrayKw then following else following.skip .ampersand).skip .name
      else if kind = .arrayKw then following else following.skip .ampersand) :=
  rfl

theorem listOpener_move (place : Nat → Nat) (kind : Kind) (following : Places) :
    listOpener kind (following.map fun entry => (entry.1, place entry.2)) =
      (listOpener kind following).map place := by
  have first (places : Places) :
      listOpener .arrayKw (places.map fun entry => (entry.1, place entry.2)) =
        (listOpener .arrayKw places).map place := by
    rcases places with _ | ⟨⟨other, index⟩, places⟩
    · rfl
    · cases other <;> rfl
  rw [listOpener_eq, listOpener_eq kind following, ← first]
  apply congrArg (listOpener .arrayKw)
  split <;> split <;> simp only [skip_move]

/-- Lists are moved with their tokens. -/
theorem lists_move (place : Nat → Nat) (places : Places) :
    lists (places.map fun entry => (entry.1, place entry.2)) =
      (lists places).map (Ownership.move place) := by
  induction places with
  | nil => rfl
  | cons entry places ih =>
    have following : (places.map fun entry => (entry.1, place entry.2)).filter
          (fun entry => entry.1.isSignificant) =
        (places.filter fun entry => entry.1.isSignificant).map
          fun entry => (entry.1, place entry.2) := filter_map
    rw [map_cons, lists, lists, following, listOpener_move, ih]
    split
    · cases listOpener entry.1 (places.filter fun entry => entry.1.isSignificant) <;> rfl
    · rfl

end Places

namespace DocBlock

/-- A doc comment with all of its tokens moved. -/
def move (place : Nat → Nat) (block : DocBlock) : DocBlock :=
  ⟨place block.opener, block.closer.map place, block.tags.map place⟩

/-- Blocks are moved with their tokens. -/
theorem collect_move (place : Nat → Nat) (places : Places) (stillOpen : Option (Nat × List Nat)) :
    collect (stillOpen.map fun start => (place start.1, start.2.map place))
        (places.map fun entry => (entry.1, place entry.2)) =
      (collect stillOpen places).map (move place) := by
  induction places generalizing stillOpen with
  | nil => cases stillOpen <;> rfl
  | cons entry places ih =>
    rcases entry with ⟨kind, index⟩
    cases stillOpen with
    | none =>
      by_cases opens : kind = .docOpen
      · simpa [collect, opens] using ih (some (index, []))
      · simpa [collect, opens] using ih none
    | some start =>
      by_cases tag : kind = .docTag
      · simpa [collect, tag] using ih (some (start.1, start.2 ++ [index]))
      by_cases closes : kind = .docClose
      · simpa [collect, closes, move] using ih none
      by_cases trivia : kind.isTrivia = true
      · simpa [collect, tag, closes, trivia] using ih (some start)
      · simpa [collect, tag, closes, trivia, move] using ih none

theorem at?_move (mono : StrictMono place) (blocks : List DocBlock) (index : Nat) :
    at? (blocks.map (move place)) (place index) = (at? blocks index).map (move place) := by
  rw [at?, find?_map, at?]
  congr 2
  funext block
  rw [Function.comp_apply, move, ← Option.map_some, (Option.map_injective mono.injective).beq_eq,
    mono.injective.beq_eq]

theorem at?_move_eq_none {index : Nat} (outside : ∀ origin, index ≠ place origin)
    (blocks : List DocBlock) : at? (blocks.map (move place)) index = none := by
  rw [at?, find?_eq_none]
  intro block listed
  rcases List.mem_map.mp listed with ⟨origin, -, rfl⟩
  simp [move, (outside _).symm]

end DocBlock

/-- A token whose pointers are moved. -/
def Token.move (place : Nat → Nat) (token : Token) : Token :=
  { token with
    braces := token.braces.map (Span.move place)
    parentheses := token.parentheses.map (Span.move place)
    brackets := token.brackets.map (Span.move place)
    docBlock := token.docBlock.map (DocBlock.move place)
    conditions := token.conditions.map (Condition.move place) }

theorem Token.tags_move (place : Nat → Nat) (token : Token) :
    (token.move place).tags = token.tags.map place := by
  rw [tags, tags]
  by_cases opens : token.kind = .docOpen
  · rw [if_pos opens, if_pos (show (token.move place).kind = .docOpen from opens)]
    show ((token.docBlock.map (DocBlock.move place)).map DocBlock.tags).getD [] = _
    cases token.docBlock <;> rfl
  · rw [if_neg opens, if_neg (show (token.move place).kind ≠ .docOpen from opens)]
    rfl

namespace Stream

/-- Tokens stand among others at new places, and nothing that the others do not own has changed:
neither how they are read, nor their brackets, nor the lists of keywords, nor the doc comments. -/
structure Relocates (core whole : List Lexeme) (place : Nat → Nat) : Prop where
  kinds : Spread (Places.isInert · = true) (settledKinds core) (settledKinds whole) place
  sides : ∀ family : Family, Spread (· = .neither) (family.sides core) (family.sides whole) place
  lists : Places.lists (settledKinds whole).zipIdx =
    (Places.lists (settledKinds core).zipIdx).map (Ownership.move place)
  blocks : blocks whole = (blocks core).map (DocBlock.move place)

namespace Relocates

variable {core whole : List Lexeme} {place : Nat → Nat} (relocates : Relocates core whole place)

include relocates

variable {index : Nat}

theorem strictMono : StrictMono place :=
  relocates.kinds.mono

theorem kind?_place (index : Nat) :
    (ofLexemes whole).kind? (place index) = (ofLexemes core).kind? index := by
  rw [kind?_ofLexemes, kind?_ofLexemes, relocates.kinds.at_place]

theorem bracePairs_eq : bracePairs whole = (bracePairs core).map (Span.move place) := by
  rw [bracePairs_eq_pairs, bracePairs_eq_pairs, (relocates.sides .braces).pairs_eq]

theorem squares_eq : squares whole = (squares core).map (Span.move place) := by
  rw [squares_eq_pairs, squares_eq_pairs, (relocates.sides .squares).pairs_eq]

theorem parentheses_eq : parentheses whole = (parentheses core).map (Span.move place) := by
  rw [parentheses_eq_pairs, parentheses_eq_pairs, (relocates.sides .parentheses).pairs_eq]

theorem bodies_eq : (structureOf (whole.map Lexeme.kind)).bodies =
    (structureOf (core.map Lexeme.kind)).bodies.map (Ownership.move place) :=
  Places.reaches_of_spread relocates.kinds

theorem openedScope?_place (brace : Nat) :
    openedScope? whole (place brace) = (openedScope? core brace).map (Condition.move place) := by
  apply openedScope?_move relocates.kind?_place
  rw [braceOwner?, relocates.bodies_eq, Ownership.ownerOf_move relocates.strictMono, braceOwner?]

/-- The braces around a token are those that were around it before. -/
theorem enclosingBraces_place (index : Nat) :
    (ofLexemes whole).enclosingBraces (place index) =
      ((ofLexemes core).enclosingBraces index).map place := by
  have spread : Spread (· = .neither) ((settledKinds core).map Kind.curlySide)
      ((settledKinds whole).map Kind.curlySide) place :=
    relocates.kinds.map Kind.curlySide fun _ => Places.curlySide_of_isInert
  apply List.Pairwise.eq_of_mem_iff (r := (· < ·))
  · exact sorted_enclosingBraces _ _
  · apply List.pairwise_map.mpr
    exact (sorted_enclosingBraces _ _).imp fun lt => relocates.strictMono lt
  · intro brace
    rw [mem_enclosingBraces_iff, mem_map]
    constructor
    · rintro ⟨before, unclosed⟩
      rcases spread.idle brace _ unclosed.1 with ⟨origin, rfl⟩ | neither
      · refine ⟨origin, mem_enclosingBraces_iff.mpr ⟨?_, spread.unclosed_iff.mp unclosed⟩, rfl⟩
        exact relocates.strictMono.lt_iff_lt.mp before
      · cases neither
    · rintro ⟨origin, listed, rfl⟩
      rcases mem_enclosingBraces_iff.mp listed with ⟨before, unclosed⟩
      exact ⟨relocates.strictMono before, spread.unclosed_iff.mpr unclosed⟩

section Moved

variable {index : Nat} {token moved : Token}
  (found : (ofLexemes core).get? index = some token)
  (moved_found : (ofLexemes whole).get? (place index) = some moved)

include found moved_found

theorem conditions_eq : moved.conditions = token.conditions.map (Condition.move place) := by
  rw [conditions_eq_filterMap moved_found, conditions_eq_filterMap found,
    relocates.enclosingBraces_place, filterMap_map, map_filterMap]
  apply filterMap_congr
  intro brace _
  exact relocates.openedScope?_place brace

theorem token_braces_eq : moved.braces = token.braces.map (Span.move place) := by
  rw [braces_of_get? moved_found, braces_of_get? found, relocates.bodies_eq,
    relocates.bracePairs_eq, Ownership.openerOf_move relocates.strictMono, Option.getD_map,
    pairAt_move relocates.strictMono]

theorem token_parentheses_eq : moved.parentheses = token.parentheses.map (Span.move place) := by
  rw [parentheses_of_get? moved_found, parentheses_of_get? found, relocates.lists,
    relocates.parentheses_eq, Ownership.openerOf_move relocates.strictMono, Option.getD_map,
    pairAt_move relocates.strictMono]

theorem token_brackets_eq : moved.brackets = token.brackets.map (Span.move place) := by
  rw [brackets_of_get? moved_found, brackets_of_get? found, relocates.squares_eq,
    pairAt_move relocates.strictMono]

theorem docBlock_eq : moved.docBlock = token.docBlock.map (DocBlock.move place) := by
  rw [docBlock_eq_at? moved_found, docBlock_eq_at? found, relocates.blocks,
    DocBlock.at?_move relocates.strictMono]

theorem eq_move : { moved with toLexeme := token.toLexeme } = token.move place := by
  have braces := relocates.token_braces_eq found moved_found
  have parentheses := relocates.token_parentheses_eq found moved_found
  have brackets := relocates.token_brackets_eq found moved_found
  have docBlock := relocates.docBlock_eq found moved_found
  have conditions := relocates.conditions_eq found moved_found
  cases moved
  simp only [Token.move, Token.mk.injEq, true_and]
  exact ⟨braces, parentheses, brackets, docBlock, conditions⟩

end Moved

/-- A token is read as before at its new place, and all that it knows has moved with it. -/
theorem exists_moved {token : Token} (found : (ofLexemes core).get? index = some token) :
    ∃ moved, (ofLexemes whole).get? (place index) = some moved ∧ moved.kind = token.kind ∧
      { moved with toLexeme := token.toLexeme } = token.move place := by
  have kind_eq := relocates.kind?_place index
  rw [kind?, kind?, found, Option.map_some, Option.map_eq_some_iff] at kind_eq
  rcases kind_eq with ⟨moved, moved_found, kind_eq⟩
  exact ⟨moved, moved_found, kind_eq, relocates.eq_move found moved_found⟩

theorem get?_place_eq_none (outside : (ofLexemes core).get? index = none) :
    (ofLexemes whole).get? (place index) = none := by
  have kind_eq := relocates.kind?_place index
  rw [kind?, kind?, outside, Option.map_none, Option.map_eq_none_iff] at kind_eq
  exact kind_eq

/-- A token at a place to which none has moved points at nothing. -/
theorem unlinked {token : Token} (outside : ∀ origin, index ≠ place origin)
    (found : (ofLexemes whole).get? index = some token) :
    token.braces = none ∧ token.parentheses = none ∧ token.brackets = none ∧
      token.docBlock = none := by
  refine ⟨?_, ?_, ?_, ?_⟩
  · rw [braces_of_get? found, relocates.bodies_eq, Ownership.openerOf_move_eq_none outside,
      relocates.bracePairs_eq, Option.getD_none, pairAt_move_eq_none outside]
  · rw [parentheses_of_get? found, relocates.lists, Ownership.openerOf_move_eq_none outside,
      relocates.parentheses_eq, Option.getD_none, pairAt_move_eq_none outside]
  · rw [brackets_of_get? found, relocates.squares_eq, pairAt_move_eq_none outside]
  · rw [docBlock_eq_at? found, relocates.blocks, DocBlock.at?_move_eq_none outside]

end Relocates

end Stream

end PhpStyle
