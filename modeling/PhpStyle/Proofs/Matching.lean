import PhpStyle.Proofs.Enclosure

/-!
# Brackets are matched exactly

The scan for pairs keeps a stack of openers. This file says what it finds without
the stack: an opener and a closer belong together exactly if the opener comes
first and what stands between them is balanced. Nothing is asked of the sequence,
which may have closers that nothing opens and openers that nothing closes.

The scan is right for two reasons. It comes out of balanced sides with the stack
with which it went in, so an opener is still the innermost one when its closer
comes. And at every place the sides between an opener of the stack and the next
one, and behind the innermost one, are balanced, so nothing else is ever paired.

A stream has three families of brackets, which are told apart by the kinds that the
lexer gives. Settling the kinds changes words and square brackets, but no side.
-/

namespace PhpStyle

open List

/-- Sides among which every opener has its closer and every closer its opener. -/
inductive Balanced : List Side → Prop where
  | nil : Balanced []
  | neither {rest : List Side} (behind : Balanced rest) : Balanced (.neither :: rest)
  | pair {inner rest : List Side} (inside : Balanced inner) (behind : Balanced rest) :
      Balanced (.opens :: (inner ++ .closes :: rest))

theorem Balanced.append {first second : List Side} (first_balanced : Balanced first)
    (second_balanced : Balanced second) : Balanced (first ++ second) := by
  induction first_balanced with
  | nil => exact second_balanced
  | neither _ ih => exact .neither ih
  | pair inside _ _ ih =>
    rw [cons_append, List.append_assoc, cons_append]
    exact .pair inside ih

/-- An opener and a closer with balanced sides between them. -/
structure Matches (sides : List Side) (span : Span) : Prop where
  opens : sides[span.opener]? = some .opens
  closes : sides[span.closer]? = some .closes
  ordered : span.opener < span.closer
  balanced : Balanced (sides.extract (span.opener + 1) span.closer)

section Scan

variable {all : List Side} {index place : Nat} {openers : List Nat} {side : Side}

theorem extract_append_extract {first middle last : Nat} (lower : first ≤ middle)
    (upper : middle ≤ last) :
    all.extract first middle ++ all.extract middle last = all.extract first last := by
  simp only [extract_eq_take_drop]
  rw [show last - first = (middle - first) + (last - middle) by omega, take_add,
    drop_drop, show first + (middle - first) = middle by omega]

theorem extract_eq_cons (found : all[index]? = some side) {last : Nat} (lt : index < last) :
    all.extract index last = side :: all.extract (index + 1) last := by
  rcases List.getElem?_eq_some_iff.mp found with ⟨bound, rfl⟩
  simp only [extract_eq_take_drop]
  rw [drop_eq_getElem_cons bound, show last - index = last - (index + 1) + 1 by omega,
    take_succ_cons]

/-- Openers, innermost first, with balanced sides between each of them and the next one and from
the innermost one up to a place. -/
inductive Layered (all : List Side) : Nat → List Nat → Prop where
  | nil {index : Nat} : Layered all index []
  | cons {index opener : Nat} {outer : List Nat} (opens : all[opener]? = some .opens)
      (lt : opener < index) (balanced : Balanced (all.extract (opener + 1) index))
      (around : Layered all opener outer) : Layered all index (opener :: outer)

theorem Layered.extend (layered : Layered all place openers) (later : place ≤ index)
    (balanced : Balanced (all.extract place index)) : Layered all index openers := by
  cases layered with
  | nil => exact .nil
  | @cons _ opener outer opens lt before around =>
    apply Layered.cons opens (by omega) _ around
    rw [← extract_append_extract lt later]
    exact before.append balanced

/-- The pair that closes becomes a part of what the next opener has around it. -/
theorem Layered.step (layered : Layered all index openers) (found : all[index]? = some side) :
    Layered all (index + 1) (openersAfter index openers side) := by
  have here : all.extract index (index + 1) = [side] := by
    rw [extract_eq_cons found (Nat.lt_succ_self index)]
    simp [extract_eq_take_drop]
  cases side with
  | opens =>
    apply Layered.cons found (Nat.lt_succ_self index) _ layered
    simpa [extract_eq_take_drop] using Balanced.nil
  | neither =>
    apply layered.extend (Nat.le_succ index)
    rw [here]
    exact .neither .nil
  | closes =>
    cases layered with
    | nil => exact .nil
    | @cons _ opener outer opens lt balanced around =>
      apply around.extend (by omega)
      rw [extract_eq_cons opens (by omega),
        ← extract_append_extract (show opener + 1 ≤ index by omega) (Nat.le_succ index), here]
      exact .pair balanced .nil

/-- The openers with which the scan goes on at a place. -/
theorem exists_stillOpen (bound : index ≤ all.length) :
    ∃ openers, StillOpen all index openers ∧ Layered all index openers := by
  induction index with
  | zero => exact ⟨[], .start all, .nil⟩
  | succ index ih =>
    rcases ih (by omega) with ⟨openers, stillOpen, layered⟩
    have found := getElem?_eq_getElem (show index < all.length by omega)
    exact ⟨_, stillOpen.step found, layered.step found⟩

/-- Over balanced sides the scan comes back to its openers. -/
theorem StillOpen.over {word rest : List Side} (stillOpen : StillOpen all index openers)
    (balanced : Balanced word) (suffix : all.drop index = word ++ rest) :
    StillOpen all (index + word.length) openers := by
  induction balanced generalizing index openers rest with
  | nil => exact stillOpen
  | @neither behind _ ih =>
    rcases getElem?_of_drop suffix with ⟨found, later⟩
    have after := ih (stillOpen.step found) later
    rwa [length_cons, show index + (behind.length + 1) = index + 1 + behind.length by omega]
  | @pair inner behind _ _ inner_ih behind_ih =>
    rw [cons_append, List.append_assoc] at suffix
    rcases getElem?_of_drop suffix with ⟨opens, later⟩
    have inside := inner_ih (stillOpen.step opens) later
    have at_closer : all.drop (index + 1 + inner.length) = .closes :: (behind ++ rest) := by
      rw [← drop_drop, later, drop_left, cons_append]
    rcases getElem?_of_drop at_closer with ⟨closes, last⟩
    have after := behind_ih (inside.step closes) last
    rwa [length_cons, length_append, length_cons,
      show index + (inner.length + (behind.length + 1) + 1) =
        index + 1 + inner.length + 1 + behind.length by omega]

theorem matches_of_mem_pairs {span : Span} (mem : span ∈ pairs all) : Matches all span := by
  rcases pair_of_mem mem with ⟨ordered, opens, closes⟩
  have bound := (List.getElem?_eq_some_iff.mp closes).1
  rcases exists_stillOpen (show span.closer ≤ all.length by omega) with
    ⟨openers, stillOpen, layered⟩
  have innermost := (stillOpen.mem_pairs_iff closes rfl).mp mem
  cases layered with
  | nil => simp at innermost
  | cons _ _ balanced _ =>
    obtain rfl := Option.some.inj innermost
    exact ⟨opens, closes, ordered, balanced⟩

theorem mem_pairs_of_matches {span : Span} (paired : Matches all span) : span ∈ pairs all := by
  have ordered := paired.ordered
  have bound := (List.getElem?_eq_some_iff.mp paired.closes).1
  rcases exists_stillOpen (show span.opener ≤ all.length by omega) with ⟨openers, stillOpen, -⟩
  have suffix : all.drop (span.opener + 1) =
      all.extract (span.opener + 1) span.closer ++ all.drop span.closer := by
    have split := take_append_drop (span.closer - (span.opener + 1)) (all.drop (span.opener + 1))
    rw [drop_drop, show span.opener + 1 + (span.closer - (span.opener + 1)) = span.closer by
      omega] at split
    rw [extract_eq_take_drop, split]
  have at_closer := (stillOpen.step paired.opens).over paired.balanced suffix
  have length : (all.extract (span.opener + 1) span.closer).length =
      span.closer - (span.opener + 1) := by
    simp only [extract_eq_take_drop, length_take, length_drop]
    omega
  rw [length, show span.opener + 1 + (span.closer - (span.opener + 1)) = span.closer by omega]
    at at_closer
  exact (at_closer.mem_pairs_iff paired.closes rfl).mpr rfl

/-- The scan pairs exactly what matches. -/
theorem mem_pairs_iff_matches {span : Span} : span ∈ pairs all ↔ Matches all span :=
  ⟨matches_of_mem_pairs, mem_pairs_of_matches⟩

end Scan

/-- A family of brackets. -/
inductive Family where
  | parentheses
  | squares
  | braces
deriving DecidableEq, Repr

namespace Family

/-- What a token of a kind does in the family. -/
def side : Family → Kind → Side
  | parentheses => Kind.parenthesisSide
  | squares => Kind.squareSide
  | braces => Kind.curlySide

/-- The brackets of the family that a token points at. -/
def pair? : Family → Token → Option Span
  | parentheses => Token.parentheses
  | squares => Token.brackets
  | braces => Token.braces

/-- The keywords that own brackets of the family. -/
def owners (lexemes : List Lexeme) : Family → List Ownership
  | parentheses => (Stream.structureOf (lexemes.map Lexeme.kind)).lists
  | squares => []
  | braces => (Stream.structureOf (lexemes.map Lexeme.kind)).bodies

/-- What the lexemes of a file do in the family. -/
def sides (family : Family) (lexemes : List Lexeme) : List Side :=
  lexemes.map fun lexeme => family.side lexeme.kind

theorem side_of_wordReading (family : Family) {kind word : Kind}
    (reading : Kind.WordReading kind word) : family.side word = family.side kind := by
  cases reading with
  | same => rfl
  | name keyword =>
    have neither : family.side kind = .neither := by
      revert keyword
      cases family <;> cases kind <;> simp [Kind.isKeyword, side, Kind.parenthesisSide,
        Kind.squareSide, Kind.curlySide]
    rw [neither]
    cases family <;> rfl
  | anonClass => cases family <;> rfl
  | closure => cases family <;> rfl

theorem side_of_bracketReading {family : Family} (round : family ≠ .squares) {word kind : Kind}
    (reading : Kind.BracketReading word kind) : family.side kind = family.side word := by
  cases family with
  | squares => exact absurd rfl round
  | parentheses => cases reading <;> rfl
  | braces => cases reading <;> rfl

end Family

namespace Stream

variable {lexemes : List Lexeme} {family : Family} {index : Nat} {token : Token} {span : Span}

/-- The brackets of a family that the token at an index points at. -/
def bracketsAt? (stream : Stream) (family : Family) (index : Nat) : Option Span :=
  (stream.get? index).bind family.pair?

/-- The tokens at both ends of a span point at it. -/
def PointsAtEachOther (stream : Stream) (family : Family) (span : Span) : Prop :=
  stream.bracketsAt? family span.opener = some span ∧
    stream.bracketsAt? family span.closer = some span

variable {owner opener : Nat}

theorem map_side_settledWords (family : Family) (lexemes : List Lexeme) :
    (settledWords lexemes).map family.side = family.sides lexemes := by
  apply ext_getElem?
  intro index
  rw [Family.sides, getElem?_map, getElem?_map]
  cases found : (settledWords lexemes)[index]? with
  | none =>
    have outside : lexemes[index]? = none := by
      simpa [settledWords, Kind.length_settleWords] using found
    rw [outside]
    rfl
  | some word =>
    rcases Kind.getElem?_settleWords found with ⟨kind, kind_found, reading⟩
    rw [getElem?_map, Option.map_eq_some_iff] at kind_found
    rcases kind_found with ⟨lexeme, lexeme_found, rfl⟩
    rw [lexeme_found, Option.map_some, Option.map_some, family.side_of_wordReading reading]

theorem map_side_settledKinds (round : family ≠ .squares) (lexemes : List Lexeme) :
    (settledKinds lexemes).map family.side = family.sides lexemes := by
  rw [← map_side_settledWords]
  apply ext_getElem?
  intro index
  rw [getElem?_map, getElem?_map]
  cases found : (settledKinds lexemes)[index]? with
  | none =>
    have outside : (settledWords lexemes)[index]? = none := by
      simpa [settledWords, Kind.length_settleWords, length_settledKinds] using found
    rw [outside]
  | some kind =>
    rcases Kind.getElem?_settleBrackets found with ⟨word, word_found, reading⟩
    have word_found : (settledWords lexemes)[index]? = some word := word_found
    rw [word_found, Option.map_some, Option.map_some, Family.side_of_bracketReading round reading]

/-- A token points at the brackets that it is one of or that it owns. -/
theorem bracketsAt?_eq (found : (ofLexemes lexemes).get? index = some token) :
    (ofLexemes lexemes).bracketsAt? family index = pairAt (pairs (family.sides lexemes))
      ((Ownership.openerOf (family.owners lexemes) index).getD index) := by
  rw [bracketsAt?, found, Option.bind_some]
  cases family with
  | parentheses =>
    rw [← map_side_settledKinds (by simp)]
    exact parentheses_of_get? found
  | squares =>
    rw [← map_side_settledWords]
    exact brackets_of_get? found
  | braces =>
    rw [← map_side_settledKinds (by simp)]
    exact braces_of_get? found

section

variable (mem : ⟨owner, opener⟩ ∈ family.owners lexemes)

include mem

theorem side_of_mem_owners : (family.sides lexemes)[owner]? = some .neither := by
  cases family with
  | parentheses =>
    rcases (Places.mem_lists_iff (drop_zero (l := settledKinds lexemes))).mp mem with
      ⟨-, kind, found, listed, -⟩
    rw [← map_side_settledKinds (by simp), getElem?_map, found, Option.map_some]
    rcases listed with rfl | rfl | rfl | rfl <;> rfl
  | squares => exact absurd mem not_mem_nil
  | braces =>
    rcases (Places.mem_reaches_iff (drop_zero (l := settledKinds lexemes))).mp mem with
      ⟨-, kind, found, owns, -⟩
    rw [← map_side_settledKinds (by simp), getElem?_map, found, Option.map_some]
    cases kind <;> first | rfl | simp [Kind.ownsBraces] at owns

theorem opener_eq_of_mem_owners {other : Nat}
    (also : ⟨owner, other⟩ ∈ family.owners lexemes) : opener = other := by
  cases family with
  | parentheses =>
    rcases (Places.mem_lists_iff drop_zero).mp mem with ⟨-, kind, found, -, opens⟩
    rcases (Places.mem_lists_iff drop_zero).mp also with ⟨-, kind', found', -, opens'⟩
    obtain rfl := Option.some.inj (found.symm.trans found')
    exact Option.some.inj (opens.symm.trans opens')
  | squares => exact absurd mem not_mem_nil
  | braces =>
    have reached := ((Places.mem_reaches_iff drop_zero).mp mem).2
    exact reached.brace_eq ((Places.mem_reaches_iff drop_zero).mp also).2

end

theorem openerOf_eq_some_iff :
    Ownership.openerOf (family.owners lexemes) owner = some opener ↔
      ⟨owner, opener⟩ ∈ family.owners lexemes ∧
        Ownership.ownerOf (family.owners lexemes) opener = some owner := by
  constructor
  · intro found
    exact ⟨Ownership.mem_of_openerOf found, Ownership.ownerOf_of_openerOf found⟩
  · rintro ⟨mem, owned⟩
    cases found : Ownership.openerOf (family.owners lexemes) owner with
    | none =>
      rw [Ownership.openerOf, Option.map_eq_none_iff, find?_eq_none] at found
      exact absurd owned (by simpa using found _ mem)
    | some other => rw [opener_eq_of_mem_owners (Ownership.mem_of_openerOf found) mem]

theorem bracketsAt?_of_side {side : Side} (found : (family.sides lexemes)[index]? = some side)
    (bracket : side ≠ .neither) :
    (ofLexemes lexemes).bracketsAt? family index = pairAt (pairs (family.sides lexemes)) index := by
  have owns_nothing : Ownership.openerOf (family.owners lexemes) index = none := by
    cases owned : Ownership.openerOf (family.owners lexemes) index with
    | none => rfl
    | some opener =>
      have neither := side_of_mem_owners (Ownership.mem_of_openerOf owned)
      exact absurd (Option.some.inj (found.symm.trans neither)) bracket
  obtain ⟨lexeme, lexeme_found, -⟩ : ∃ lexeme, lexemes[index]? = some lexeme ∧
      family.side lexeme.kind = side := by
    rwa [Family.sides, getElem?_map, Option.map_eq_some_iff] at found
  rcases get?_ofLexemes lexeme_found with ⟨kind, conditions, -, token_found⟩
  rw [bracketsAt?_eq token_found, owns_nothing, Option.getD_none]

/-- Tokens point at pairs only. -/
theorem mem_pairs_of_bracketsAt?
    (points : (ofLexemes lexemes).bracketsAt? family index = some span) :
    span ∈ pairs (family.sides lexemes) := by
  rcases Option.bind_eq_some_iff.mp points with ⟨token, found, -⟩
  rw [bracketsAt?_eq found] at points
  exact mem_of_find?_eq_some points

theorem pointsAtEachOther_iff :
    (ofLexemes lexemes).PointsAtEachOther family span ↔ Matches (family.sides lexemes) span := by
  rw [← mem_pairs_iff_matches]
  constructor
  · intro points
    exact mem_pairs_of_bracketsAt? points.1
  · intro mem
    rcases pair_of_mem mem with ⟨-, opens, closes⟩
    rw [PointsAtEachOther, bracketsAt?_of_side opens (by simp),
      bracketsAt?_of_side closes (by simp)]
    exact ⟨pairAt_opener mem, pairAt_closer mem⟩

/-- A bracket without a pointer is one that nothing matches. -/
theorem bracketsAt?_eq_none_iff {side : Side} (found : (family.sides lexemes)[index]? = some side)
    (bracket : side ≠ .neither) :
    (ofLexemes lexemes).bracketsAt? family index = none ↔
      ∀ span, Matches (family.sides lexemes) span → span.opener ≠ index ∧ span.closer ≠ index := by
  rw [bracketsAt?_of_side found bracket, pairAt, find?_eq_none]
  simp only [mem_pairs_iff_matches, Span.bounds, Bool.or_eq_true, beq_iff_eq, not_or]

/-- The readings of an opener with the readings of its closer. -/
def squareReadings : List (Kind × Kind) :=
  [(.openShortArray, .closeShortArray), (.attributeStart, .attributeEnd),
    (.openSquare, .closeSquare)]

theorem squareReadings_of_matches (paired : Matches (Family.squares.sides lexemes) span) :
    ∃ readings ∈ squareReadings, (ofLexemes lexemes).kind? span.opener = some readings.1 ∧
      (ofLexemes lexemes).kind? span.closer = some readings.2 := by
  have mem : span ∈ squares lexemes := by
    rw [squares, show Kind.squareSide = Family.squares.side from rfl, map_side_settledWords]
    exact mem_pairs_of_matches paired
  have settled := settled_squares mem
  have opens : ((settledWords lexemes).map Kind.squareSide)[span.opener]? = some .opens :=
    (pair_of_mem mem).2.1
  rw [getElem?_map, Option.map_eq_some_iff] at opens
  rcases opens with ⟨word, word_found, opens⟩
  obtain ⟨kind, kind_found⟩ : ∃ kind, (ofLexemes lexemes).kind? span.opener = some kind := by
    rcases Kind.getElem?_settleWords word_found with ⟨lexed, lexed_found, -⟩
    rw [getElem?_map, Option.map_eq_some_iff] at lexed_found
    rcases lexed_found with ⟨lexeme, lexeme_found, -⟩
    exact kind?_of_getElem? lexeme_found
  rcases reading_of_kind? kind_found with ⟨-, other, -, other_found, -, reading⟩
  obtain rfl := Option.some.inj (word_found.symm.trans other_found)
  rw [kind_found, Option.map_some] at settled
  refine ⟨(kind, Kind.settleCloser kind), ?_, kind_found, settled⟩
  cases reading with
  | same =>
    cases word <;> simp [Kind.squareSide] at opens <;> simp [squareReadings, Kind.settleCloser]
  | opener => simp [squareReadings, Kind.settleCloser]
  | closer => simp [Kind.squareSide] at opens
  | attributeEnd => simp [Kind.squareSide] at opens

/-- In each family of brackets an opener and a closer point at each other exactly if the opener
comes first and the brackets between them are balanced. Other brackets point at nothing, so pairs
are nested or apart, and a square bracket that closes is read as the one that it closes. -/
theorem brackets_match_exactly (lexemes : List Lexeme) :
    let stream := ofLexemes lexemes
    (∀ (family : Family) (opener closer : Nat),
      (family.sides lexemes)[opener]? = some .opens →
      (family.sides lexemes)[closer]? = some .closes →
      (stream.PointsAtEachOther family ⟨opener, closer⟩ ↔ opener < closer ∧
        Balanced ((family.sides lexemes).extract (opener + 1) closer))) ∧
    (∀ (family : Family) (index : Nat) (side : Side),
      (family.sides lexemes)[index]? = some side → side ≠ .neither →
      (stream.bracketsAt? family index = none ↔ ∀ span, Matches (family.sides lexemes) span →
        span.opener ≠ index ∧ span.closer ≠ index)) ∧
    (∀ (family : Family) (first second : Span), stream.PointsAtEachOther family first →
      stream.PointsAtEachOther family second → first = second ∨
        first.closer < second.opener ∨ second.closer < first.opener ∨
        first.opener < second.opener ∧ second.closer < first.closer ∨
        second.opener < first.opener ∧ first.closer < second.closer) ∧
    (∀ span, stream.PointsAtEachOther .squares span → ∃ readings ∈ squareReadings,
      stream.kind? span.opener = some readings.1 ∧ stream.kind? span.closer = some readings.2) := by
  intro stream
  refine ⟨?_, ?_, ?_, ?_⟩
  · intro family opener closer opens closes
    rw [pointsAtEachOther_iff]
    constructor
    · intro paired
      exact ⟨paired.ordered, paired.balanced⟩
    · rintro ⟨ordered, balanced⟩
      exact ⟨opens, closes, ordered, balanced⟩
  · intro family index side found bracket
    exact bracketsAt?_eq_none_iff found bracket
  · intro family first second first_points second_points
    have first_mem := mem_pairs_of_bracketsAt? first_points.1
    have second_mem := mem_pairs_of_bracketsAt? second_points.1
    rcases nested_of_mem first_mem second_mem with same | ⟨earlier, nested⟩ | ⟨later, nested⟩
    · exact .inl same
    · omega
    · omega
  · intro span points
    exact squareReadings_of_matches (pointsAtEachOther_iff.mp points)

theorem brackets_match_exactly_unbalanced :
    let lexemes := lex "<?php ] $a[#[B](])".toList
    let stream := ofLexemes lexemes
    Balanced ((Family.squares.sides lexemes).extract 6 10) ∧
      Balanced ((Family.parentheses.sides lexemes).extract 10 11) ∧
      (∀ span, Matches (Family.squares.sides lexemes) span → span.opener ≠ 2 ∧ span.closer ≠ 2) ∧
      (∃ readings ∈ squareReadings, stream.kind? 6 = some readings.1 ∧
        stream.kind? 8 = some readings.2) := by
  intro lexemes stream
  rcases brackets_match_exactly lexemes with ⟨pairs_iff, alone_iff, -, readings⟩
  have offset : stream.PointsAtEachOther .squares ⟨5, 10⟩ :=
    ⟨by decide +kernel, by decide +kernel⟩
  have group : stream.PointsAtEachOther .squares ⟨6, 8⟩ :=
    ⟨by decide +kernel, by decide +kernel⟩
  have crossing : stream.PointsAtEachOther .parentheses ⟨9, 11⟩ :=
    ⟨by decide +kernel, by decide +kernel⟩
  have stray : stream.bracketsAt? .squares 2 = none := by decide +kernel
  refine ⟨?_, ?_, ?_, readings ⟨6, 8⟩ group⟩
  · exact ((pairs_iff .squares 5 10 (by decide +kernel) (by decide +kernel)).mp offset).2
  · exact ((pairs_iff .parentheses 9 11 (by decide +kernel) (by decide +kernel)).mp crossing).2
  · exact (alone_iff .squares 2 .closes (by decide +kernel) (by simp)).mp stray

end Stream

end PhpStyle
