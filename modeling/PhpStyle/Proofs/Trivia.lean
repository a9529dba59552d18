import PhpStyle.Proofs.Relocations

/-!
# Whitespace and comments between tokens

Whitespace and plain comments may be put anywhere in a sequence of tokens, between any
two of them and even inside of a doc comment. No other token is annotated in another way
for that: it is read as before, and its brackets, its doc comment and the scopes around it
are the same tokens at their new places. What has been put there points at nothing.

Every pass over the tokens is treated alike. The tokens that were there before stand among
blank ones, the pass takes no notice of a blank token, and it does with the places of the
others what it did before.
-/

namespace PhpStyle

open List

/-- The kinds of tokens that may be put anywhere. -/
def Kind.isBlank (kind : Kind) : Bool :=
  kind == .whitespace || kind == .comment

theorem Kind.eq_of_isBlank {kind : Kind} (blank : kind.isBlank = true) :
    kind = .whitespace ∨ kind = .comment := by
  revert blank
  cases kind <;> decide

theorem Kind.isSignificant_of_isBlank {kind : Kind} (blank : kind.isBlank = true) :
    kind.isSignificant = false := by
  rcases eq_of_isBlank blank with rfl | rfl <;> rfl

section Readings

variable {α : Type}

/-- Whether an item with a kind is significant, and what it holds besides. -/
def weight (item : Kind × α) : Bool × α :=
  (item.1.isSignificant, item.2)

theorem map_weight_readWords (before : Option Kind) (items : List (Kind × α)) :
    (Kind.readWords before items).map weight = items.map weight := by
  induction items generalizing before with
  | nil => rfl
  | cons item items ih =>
    have reading := Kind.wordReading_settleWord before item.1 (items.map Prod.fst)
    rw [Kind.readWords_cons, map_cons, map_cons, ih]
    exact congrArg (· :: _) (Prod.ext reading.isSignificant rfl)

theorem map_weight_readBrackets (before : Option Kind) (stillOpen : List Kind)
    (items : List (Kind × α)) :
    (Kind.readBrackets before stillOpen items).map weight = items.map weight := by
  induction items generalizing before stillOpen with
  | nil => rfl
  | cons item items ih =>
    have reading := Kind.bracketReading_settleBracket before stillOpen item.1
    rw [Kind.readBrackets_cons, map_cons, map_cons, ih]
    exact congrArg (· :: _) (Prod.ext reading.isSignificant rfl)

theorem map_weight_read (items : List (Kind × α)) :
    (Kind.read items).map weight = items.map weight := by
  rw [Kind.read, map_weight_readBrackets, map_weight_readWords]

end Readings

namespace Places

theorem isInert_of_isBlank {kind : Kind} (blank : kind.isBlank = true) : isInert kind = true := by
  rcases Kind.eq_of_isBlank blank with rfl | rfl <;> rfl

theorem filter_of_padded {core whole : Places}
    (padded : Padded (Kind.isBlank · = true) core whole) :
    (whole.filter fun place => place.1.isSignificant) =
      core.filter fun place => place.1.isSignificant := by
  induction padded with
  | nil => rfl
  | idle blank padded ih =>
    rw [filter_cons_of_neg, ih]
    rw [Kind.isSignificant_of_isBlank blank]
    exact Bool.false_ne_true
  | entry padded ih => rw [filter_cons, filter_cons, ih]

theorem lists_of_padded {core whole : Places}
    (padded : Padded (Kind.isBlank · = true) core whole) : lists whole = lists core := by
  induction padded with
  | nil => rfl
  | idle blank padded ih =>
    rw [← ih]
    rcases Kind.eq_of_isBlank blank with rfl | rfl <;> rfl
  | entry padded ih => rw [lists, lists, filter_of_padded padded, ih]

theorem lists_of_spread {core whole : List Kind} {place : Nat → Nat}
    (spread : Spread (Kind.isBlank · = true) core whole place) :
    lists whole.zipIdx = (lists core.zipIdx).map (Ownership.move place) :=
  (lists_of_padded spread.padded).trans (lists_move place core.zipIdx)

end Places

namespace DocBlock

theorem collect_cons_of_isBlank {kind : Kind} (blank : kind.isBlank = true)
    (stillOpen : Option (Nat × List Nat)) (index : Nat) (rest : Places) :
    collect stillOpen ((kind, index) :: rest) = collect stillOpen rest := by
  rcases Kind.eq_of_isBlank blank with rfl | rfl <;> cases stillOpen <;> rfl

/-- Blank tokens do not change the blocks. -/
theorem collect_of_padded {core whole : Places} (padded : Padded (Kind.isBlank · = true) core whole)
    (stillOpen : Option (Nat × List Nat)) : collect stillOpen whole = collect stillOpen core := by
  induction padded generalizing stillOpen with
  | nil => rfl
  | idle blank padded ih => rw [collect_cons_of_isBlank blank, ih]
  | entry padded ih =>
    cases stillOpen with
    | none => rw [collect, collect, ih]
    | some start => simp only [collect, ih]

theorem collect_of_spread {core whole : List Kind} {place : Nat → Nat}
    (spread : Spread (Kind.isBlank · = true) core whole place) :
    collect none whole.zipIdx = (collect none core.zipIdx).map (move place) :=
  (collect_of_padded spread.padded none).trans (collect_move place core.zipIdx none)

end DocBlock

/-- Lexemes among which some have been put: each of those is blank. -/
structure Insertion where
  items : List (Lexeme × Bool)
  blank : ∀ item ∈ items, item.2 = true → item.1.kind.isBlank = true

namespace Insertion

variable (insertion : Insertion)

/-- The lexemes without those that have been put there. -/
def core : List Lexeme :=
  (insertion.items.filter fun item => !item.2).map Prod.fst

/-- All lexemes. -/
def whole : List Lexeme :=
  insertion.items.map Prod.fst

/-- Where the lexemes that were there before stand now. -/
def place : Nat → Nat :=
  keptPlace (insertion.items.map fun item => !item.2)

theorem strictMono_place : StrictMono insertion.place :=
  strictMono_keptPlace _

theorem exists_item {index : Nat} {lexeme : Lexeme}
    (found : insertion.whole[index]? = some lexeme) :
    ∃ inserted, insertion.items[index]? = some (lexeme, inserted) := by
  rw [whole, getElem?_map, Option.map_eq_some_iff] at found
  rcases found with ⟨⟨lexeme, inserted⟩, found, rfl⟩
  exact ⟨inserted, found⟩

/-- The places are those of the lexemes that were there before. -/
theorem inserted_eq_false_iff {index : Nat} {lexeme : Lexeme} {inserted : Bool}
    (found : insertion.items[index]? = some (lexeme, inserted)) :
    inserted = false ↔ ∃ origin, index = insertion.place origin := by
  constructor
  · intro kept
    exact exists_keptPlace (fun item : Lexeme × Bool => !item.2) found (by rw [kept]; rfl)
  · rintro ⟨origin, rfl⟩
    rw [place, getElem?_keptPlace (fun item : Lexeme × Bool => !item.2)] at found
    simpa using (List.mem_filter.mp (mem_of_getElem? found)).2

theorem spread_lexemes : Spread (fun lexeme => lexeme.kind.isBlank = true) insertion.core
    insertion.whole insertion.place where
  mono := insertion.strictMono_place
  at_place index := by
    rw [whole, getElem?_map, place,
      getElem?_keptPlace (fun item : Lexeme × Bool => !item.2), core, getElem?_map]
  idle index lexeme found := by
    rcases insertion.exists_item found with ⟨inserted, found⟩
    cases inserted with
    | false => exact .inl ((insertion.inserted_eq_false_iff found).mp rfl)
    | true => exact .inr (insertion.blank _ (mem_of_getElem? found) rfl)

/-- The kinds of all lexemes, marked in the same way. -/
def kinds : List (Kind × Bool) :=
  insertion.items.map fun item => (item.1.kind, item.2)

/-- Which of the marked kinds were there before. A significant one always was. -/
def keeps (item : Kind × Bool) : Bool :=
  item.1.isSignificant || !item.2

theorem keeps_eq {item : Lexeme × Bool} (listed : item ∈ insertion.items) :
    keeps (item.1.kind, item.2) = !item.2 := by
  cases inserted : item.2 with
  | false => exact Bool.or_true _
  | true =>
    have blank := insertion.blank item listed inserted
    rw [keeps, Kind.isSignificant_of_isBlank blank]
    rfl

theorem map_keeps_read :
    (Kind.read insertion.kinds).map keeps = insertion.items.map fun item => !item.2 := by
  have by_weight (items : List (Kind × Bool)) :
      items.map keeps = (items.map weight).map fun entry => entry.1 || !entry.2 := by
    rw [map_map]
    rfl
  rw [by_weight, map_weight_read, ← by_weight, kinds, map_map]
  apply map_congr_left
  intro item listed
  exact insertion.keeps_eq listed

theorem settledKinds_eq (lexemes : List Lexeme) (marks : List (Kind × Bool))
    (marked : marks.map Prod.fst = lexemes.map Lexeme.kind) :
    Stream.settledKinds lexemes = (Kind.read marks).map Prod.fst := by
  rw [Kind.read_eq, map_fst_zip, marked]
  · rfl
  · rw [Kind.length_settleBrackets, Kind.length_settleWords, length_map, length_map]

theorem settledKinds_core : Stream.settledKinds insertion.core =
    ((Kind.read insertion.kinds).filter keeps).map Prod.fst := by
  rw [Kind.filter_read fun item significant => by rw [keeps, significant, Bool.true_or]]
  apply settledKinds_eq
  rw [kinds, filter_map, map_map, core, map_map]
  have kept : insertion.items.filter (keeps ∘ fun item => (item.1.kind, item.2)) =
      insertion.items.filter fun item => !item.2 := by
    apply filter_congr
    intro item listed
    exact insertion.keeps_eq listed
  rw [kept]
  rfl

theorem settledKinds_whole :
    Stream.settledKinds insertion.whole = (Kind.read insertion.kinds).map Prod.fst := by
  apply settledKinds_eq
  rw [kinds, map_map, whole, map_map]
  rfl

/-- All other tokens are read as before, and what has been put there is blank. -/
theorem spread_kinds : Spread (Kind.isBlank · = true) (Stream.settledKinds insertion.core)
    (Stream.settledKinds insertion.whole) insertion.place where
  mono := insertion.strictMono_place
  at_place index := by
    rw [settledKinds_whole, getElem?_map, place, ← map_keeps_read, getElem?_keptPlace,
      settledKinds_core, getElem?_map]
  idle index kind settled := by
    have inside := (List.getElem?_eq_some_iff.mp settled).1
    rw [Stream.length_settledKinds] at inside
    have found := getElem?_eq_getElem inside
    apply (insertion.spread_lexemes.idle index _ found).imp_right
    intro blank
    have trivia := Stream.kind?_of_isTrivia found (Kind.isSignificant_of_isBlank blank)
    rw [Stream.kind?_ofLexemes, settled] at trivia
    rw [Option.some.inj trivia]
    exact blank

theorem spread_sides (family : Family) : Spread (· = .neither) (family.sides insertion.core)
    (family.sides insertion.whole) insertion.place := by
  apply insertion.spread_lexemes.map
  intro lexeme blank
  rcases Kind.eq_of_isBlank blank with kind_eq | kind_eq <;> rw [kind_eq] <;> cases family <;> rfl

section Structure

open PhpStyle.Stream

theorem relocates : Relocates insertion.core insertion.whole insertion.place where
  kinds := insertion.spread_kinds.imp fun _ => Places.isInert_of_isBlank
  sides := insertion.spread_sides
  lists := Places.lists_of_spread insertion.spread_kinds
  blocks := DocBlock.collect_of_spread insertion.spread_kinds

variable {index : Nat} {token : Token}

/-- A token that was there before has moved, and all that it knows has moved with it. -/
theorem get?_place (index : Nat) : (ofLexemes insertion.whole).get? (insertion.place index) =
    ((ofLexemes insertion.core).get? index).map (Token.move insertion.place) := by
  cases found : (ofLexemes insertion.core).get? index with
  | none => exact insertion.relocates.get?_place_eq_none found
  | some token =>
    rcases insertion.relocates.exists_moved found with ⟨moved, moved_found, kind_eq, moved_eq⟩
    have lexeme_eq : moved.toLexeme = token.toLexeme := by
      rcases of_get? found with ⟨lexeme, kind, conditions, at_index, rfl⟩
      rcases of_get? moved_found with ⟨other, other_kind, other_conditions, at_place, rfl⟩
      rw [insertion.spread_lexemes.at_place, at_index] at at_place
      obtain rfl := Option.some.inj at_place
      obtain rfl : other_kind = kind := kind_eq
      rfl
    rw [moved_found, Option.map_some, ← moved_eq, ← lexeme_eq]

/-- The token is one that has been put there: it keeps its kind and points at nothing. -/
theorem unlinked_of_inserted {lexeme : Lexeme}
    (inserted : insertion.items[index]? = some (lexeme, true))
    (found : (ofLexemes insertion.whole).get? index = some token) :
    token.kind = lexeme.kind ∧ token.braces = none ∧ token.parentheses = none ∧
      token.brackets = none ∧ token.docBlock = none ∧ token.tags = [] := by
  have outside (origin : Nat) : index ≠ insertion.place origin := by
    intro same
    cases (insertion.inserted_eq_false_iff inserted).mpr ⟨origin, same⟩
  have blank := insertion.blank _ (mem_of_getElem? inserted) rfl
  have at_index : insertion.whole[index]? = some lexeme := by
    rw [whole, getElem?_map, inserted, Option.map_some]
  have kind_eq : token.kind = lexeme.kind := by
    have same := kind?_of_isTrivia at_index (Kind.isSignificant_of_isBlank blank)
    rw [kind?, found] at same
    exact Option.some.inj same
  rcases insertion.relocates.unlinked outside found with ⟨braces, parentheses, brackets, docBlock⟩
  refine ⟨kind_eq, braces, parentheses, brackets, docBlock, ?_⟩
  rw [Token.tags, if_neg]
  rw [kind_eq]
  rcases Kind.eq_of_isBlank blank with same | same <;> rw [same] <;> decide

end Structure

end Insertion

/-- Annotation ignores trivia. Whitespace and plain comments that are put anywhere among lexemes
leave every other token with its kind, its brackets, its doc comment with the tags and the
conditions that it had, up to the new places of the tokens; and they get no pointers
and no tags themselves. -/
theorem annotation_ignores_trivia (insertion : Insertion) :
    let core := Stream.ofLexemes insertion.core
    let whole := Stream.ofLexemes insertion.whole
    let place := insertion.place
    StrictMono place ∧
    (∀ index lexeme inserted, insertion.items[index]? = some (lexeme, inserted) →
      (inserted = false ↔ ∃ origin, index = place origin)) ∧
    (∀ index, whole.get? (place index) = (core.get? index).map (Token.move place)) ∧
    (∀ token : Token, (token.move place).toLexeme = token.toLexeme ∧
      (token.move place).tags = token.tags.map place) ∧
    ∀ index lexeme token, insertion.items[index]? = some (lexeme, true) →
      whole.get? index = some token →
        token.kind = lexeme.kind ∧ token.braces = none ∧ token.parentheses = none ∧
          token.brackets = none ∧ token.docBlock = none ∧ token.tags = [] := by
  refine ⟨insertion.strictMono_place, ?_, insertion.get?_place, ?_, ?_⟩
  · intro index lexeme inserted found
    exact insertion.inserted_eq_false_iff found
  · intro token
    exact ⟨rfl, token.tags_move insertion.place⟩
  · intro index lexeme token inserted found
    exact insertion.unlinked_of_inserted inserted found

/-- A comment behind each token, also inside of the doc comment, between `new` and `class` and
before each list. -/
theorem annotation_ignores_trivia_behind_each :
    let lexemes := lex "<?php /** @a */ new class \x7bfunction f()\x7b\x7d\x7d".toList
    let comment : Lexeme := ⟨.comment, "/**/".toList, 1, 1⟩
    let insertion : Insertion :=
      ⟨lexemes.flatMap fun lexeme => [(lexeme, false), (comment, true)], by decide +kernel⟩
    let whole := Stream.ofLexemes insertion.whole
    insertion.core = lexemes ∧
    (∃ token, whole.get? 26 = some token ∧ token.kind = .functionKw ∧
      token.parentheses = some ⟨32, 34⟩ ∧ token.braces = some ⟨36, 38⟩ ∧
      token.conditions = [⟨20, .anonClassBody⟩]) ∧
    (∃ token, whole.get? 4 = some token ∧ token.docBlock = some ⟨4, some 12, [8]⟩) ∧
    ∃ token, whole.get? 9 = some token ∧ token.kind = .comment ∧ token.docBlock = none := by
  intro lexemes comment insertion whole
  rcases annotation_ignores_trivia insertion with ⟨-, -, moved, -, unlinked⟩
  let core := Stream.ofLexemes insertion.core
  have at_place (origin image : Nat) (image_eq : insertion.place origin = image)
      (inside : (core.get? origin).isSome = true) :
      whole.get? image = some (((core.get? origin).get inside).move insertion.place) := by
    rw [← image_eq, ← Option.map_some, Option.some_get]
    exact moved origin
  refine ⟨by decide +kernel, ⟨_, at_place 13 26 (by decide +kernel) (by decide +kernel), ?_⟩,
    ⟨_, at_place 2 4 (by decide +kernel) (by decide +kernel), ?_⟩, ?_⟩
  · decide +kernel
  · decide +kernel
  · obtain ⟨token, found⟩ : ∃ token, whole.get? 9 = some token :=
      Option.isSome_iff_exists.mp (by decide +kernel)
    rcases unlinked 9 comment token (by decide +kernel) found with ⟨kind, -, -, -, block, -⟩
    exact ⟨token, found, kind, block⟩

end PhpStyle
