import Mathlib.Order.Basic
import PhpStyle.Proofs.Layout
import PhpStyle.Proofs.Pairing
import PhpStyle.Proofs.Readings
import PhpStyle.Stream.Declaration

/-!
# Searches in a stream

The bounded searches over the indices of a stream, each with the statement that
says what it finds. On top of them stands the search for the comment on a
declaration, which passes over attributes: what it passes over holds no other
declaration, so that a doc comment belongs to one declaration at most.
-/

namespace PhpStyle.Stream

open List

variable {stream : Stream} {wanted : Kind → Bool} {index start : Nat}

theorem firstIndex_eq_find? (test : Nat → Bool) (start count : Nat) :
    firstIndex test start count = (range' start count).find? test := by
  induction count generalizing start with
  | zero => rfl
  | succ count ih =>
    rw [firstIndex, ih, range'_succ, find?_cons]
    cases test start <;> rfl

theorem lastIndex_eq_find? (test : Nat → Bool) (start count : Nat) :
    lastIndex test start count = (range' start count).reverse.find? test := by
  induction count with
  | zero => rfl
  | succ count ih =>
    rw [lastIndex, ih, range'_1_concat, reverse_concat, find?_cons]
    cases test (start + count) <;> rfl

theorem firstIndex_eq_some_iff (test : Nat → Bool) (start count found : Nat) :
    firstIndex test start count = some found ↔
      start ≤ found ∧ found < start + count ∧ test found = true ∧
        ∀ index, start ≤ index → index < found → test index = false := by
  rw [firstIndex_eq_find?, find?_range'_eq_some, mem_range'_1]
  simp only [Bool.not_eq_true', and_assoc, and_left_comm]

theorem firstIndex_eq_none_iff (test : Nat → Bool) (start count : Nat) :
    firstIndex test start count = none ↔
      ∀ index, start ≤ index → index < start + count → test index = false := by
  simp [firstIndex_eq_find?]

theorem lastIndex_eq_some_iff (test : Nat → Bool) (start count found : Nat) :
    lastIndex test start count = some found ↔
      start ≤ found ∧ found < start + count ∧ test found = true ∧
        ∀ index, found < index → index < start + count → test index = false := by
  induction count with
  | zero => simp [lastIndex]; omega
  | succ count ih =>
    by_cases passes : test (start + count) = true
    · simp only [lastIndex, passes, if_true, Option.some.injEq]
      constructor
      · rintro rfl
        exact ⟨by omega, by omega, passes, fun index lower upper => by omega⟩
      · rintro ⟨-, upper, -, behind⟩
        by_contra other
        simp [behind (start + count) (by omega) (by omega)] at passes
    · rw [lastIndex, if_neg passes, ih]
      constructor
      · rintro ⟨lower, upper, found_passes, behind⟩
        refine ⟨lower, by omega, found_passes, fun index index_lower index_upper => ?_⟩
        by_cases last : index = start + count
        · simpa [last] using passes
        · exact behind index index_lower (by omega)
      · rintro ⟨lower, upper, found_passes, behind⟩
        have other : found ≠ start + count := by
          rintro rfl
          exact passes found_passes
        exact ⟨lower, by omega, found_passes,
          fun index index_lower _ => behind index index_lower (by omega)⟩

theorem lastIndex_eq_none_iff (test : Nat → Bool) (start count : Nat) :
    lastIndex test start count = none ↔
      ∀ index, start ≤ index → index < start + count → test index = false := by
  simp [lastIndex_eq_find?]

theorem hasKind_iff :
    stream.hasKind wanted index = true ↔
      ∃ kind, stream.kind? index = some kind ∧ wanted kind = true := by
  rw [hasKind, Option.any_eq_true]

theorem lt_size_of_kind? {kind : Kind} (found : stream.kind? index = some kind) :
    index < stream.size := by
  simp only [kind?, get?, Option.map_eq_some_iff] at found
  rcases found with ⟨token, found, -⟩
  exact (Array.getElem?_eq_some_iff.mp found).1

theorem hasKind_of_size_le (bound : stream.size ≤ index) : stream.hasKind wanted index = false := by
  by_contra inside
  rcases hasKind_iff.mp (by simpa using inside) with ⟨kind, kind_found, -⟩
  have := lt_size_of_kind? kind_found
  omega

theorem findNext_eq_some_iff {last found : Nat} :
    stream.findNext wanted start (some last) = some found ↔
      start ≤ found ∧ found ≤ last ∧ stream.hasKind wanted found = true ∧
        ∀ index, start ≤ index → index < found → stream.hasKind wanted index = false := by
  rw [findNext, firstIndex_eq_some_iff, Option.map_some, Option.getD_some,
    show (last + 1).min stream.size = min (last + 1) stream.size from rfl]
  constructor
  · rintro ⟨lower, upper, wanted_found, before⟩
    exact ⟨lower, by omega, wanted_found, before⟩
  · rintro ⟨lower, upper, wanted_found, before⟩
    have inside : found < stream.size := by
      rcases hasKind_iff.mp wanted_found with ⟨kind, kind_found, -⟩
      exact lt_size_of_kind? kind_found
    exact ⟨lower, by omega, wanted_found, before⟩

theorem exists_findNext {last : Nat} (lower : start ≤ index) (upper : index ≤ last)
    (wanted_there : stream.hasKind wanted index = true) :
    ∃ found, stream.findNext wanted start (some last) = some found := by
  have inside : index < stream.size := by
    rcases hasKind_iff.mp wanted_there with ⟨kind, kind_found, -⟩
    exact lt_size_of_kind? kind_found
  rw [← Option.isSome_iff_exists, Option.isSome_iff_ne_none]
  intro none_found
  rw [findNext, firstIndex_eq_none_iff, Option.map_some, Option.getD_some,
    show (last + 1).min stream.size = min (last + 1) stream.size from rfl] at none_found
  have := none_found index lower (by omega)
  simp [wanted_there] at this

theorem findPrevious_eq_some_iff {first found : Nat} :
    stream.findPrevious wanted start first = some found ↔
      first ≤ found ∧ found ≤ start ∧ stream.hasKind wanted found = true ∧
        ∀ index, found < index → index ≤ start → stream.hasKind wanted index = false := by
  rw [findPrevious, lastIndex_eq_some_iff,
    show (start + 1).min stream.size = min (start + 1) stream.size from rfl]
  constructor
  · rintro ⟨lower, upper, wanted_found, behind⟩
    refine ⟨lower, by omega, wanted_found, fun index index_lower index_upper => ?_⟩
    by_cases inside : index < stream.size
    · exact behind index index_lower (by omega)
    · exact hasKind_of_size_le (by omega)
  · rintro ⟨lower, upper, wanted_found, behind⟩
    have inside : found < stream.size := by
      rcases hasKind_iff.mp wanted_found with ⟨kind, kind_found, -⟩
      exact lt_size_of_kind? kind_found
    exact ⟨lower, by omega, wanted_found,
      fun index index_lower _ => behind index index_lower (by omega)⟩

/-- The run of tokens around a token that are on its line. -/
structure LineRun (stream : Stream) (anchor line first last : Nat) : Prop where
  first_le : first ≤ anchor
  le_last : anchor ≤ last
  on_line : ∀ index, first ≤ index → index ≤ last → stream.line? index = some line
  before : first = 0 ∨ stream.line? (first - 1) ≠ some line
  behind : stream.line? (last + 1) ≠ some line

/-- The run of a line begins behind the last token elsewhere before the anchor, and ends before the
first one behind it. -/
theorem lineSpan?_eq_some {anchor line : Nat} (found : stream.line? anchor = some line) :
    ∃ first last, stream.lineSpan? anchor = some (first, last) ∧
      LineRun stream anchor line first last := by
  have inside : anchor < stream.size := by
    simp only [line?, get?, Option.map_eq_some_iff] at found
    rcases found with ⟨token, found, -⟩
    exact (Array.getElem?_eq_some_iff.mp found).1
  have outside : stream.line? stream.size ≠ some line := by simp [line?, get?, size]
  let elsewhere := fun index => stream.line? index != some line
  have here {index : Nat} (same : elsewhere index = false) : stream.line? index = some line := by
    simpa [elsewhere] using same
  obtain ⟨first, first_eq, first_le, first_on, before⟩ :
      ∃ first, (lastIndex elsewhere 0 anchor).elim 0 (· + 1) = first ∧ first ≤ anchor ∧
        (∀ index, first ≤ index → index < anchor → stream.line? index = some line) ∧
        (first = 0 ∨ stream.line? (first - 1) ≠ some line) := by
    cases last : lastIndex elsewhere 0 anchor with
    | none =>
      have all := (lastIndex_eq_none_iff _ _ _).mp last
      exact ⟨0, rfl, by omega, fun index lower upper => here (all index lower (by omega)), .inl rfl⟩
    | some other =>
      rcases (lastIndex_eq_some_iff _ _ _ _).mp last with ⟨-, upper, other_elsewhere, all⟩
      refine ⟨other + 1, rfl, by omega, fun index lower upper => ?_, .inr ?_⟩
      · exact here (all index lower (by omega))
      · simpa [elsewhere] using other_elsewhere
  obtain ⟨stop, stop_eq, stop_gt, stop_on, behind⟩ :
      ∃ stop,
        (firstIndex elsewhere (anchor + 1) (stream.size - (anchor + 1))).getD stream.size = stop ∧
        anchor < stop ∧ (∀ index, anchor < index → index < stop → stream.line? index = some line) ∧
        stream.line? stop ≠ some line := by
    cases next : firstIndex elsewhere (anchor + 1) (stream.size - (anchor + 1)) with
    | none =>
      have all := (firstIndex_eq_none_iff _ _ _).mp next
      exact ⟨stream.size, rfl, inside, fun index lower upper => here (all index lower (by omega)),
        outside⟩
    | some other =>
      rcases (firstIndex_eq_some_iff _ _ _ _).mp next with ⟨lower, -, other_elsewhere, all⟩
      refine ⟨other, rfl, lower, fun index lower upper => here (all index lower upper), ?_⟩
      simpa [elsewhere] using other_elsewhere
  refine ⟨first, stop - 1, ?_, first_le, by omega, fun index lower upper => ?_, before, ?_⟩
  · simp only [lineSpan?, found, ← first_eq, ← stop_eq, elsewhere]
    rfl
  · rcases Nat.lt_trichotomy index anchor with earlier | rfl | later
    · exact first_on index lower earlier
    · exact found
    · exact stop_on index later (by omega)
  · rwa [show stop - 1 + 1 = stop by omega]

section Tokens

variable {lexemes : List Lexeme} {index : Nat}

/-- The words of a file as their neighbours settle them, before the brackets are read. -/
def settledWords (lexemes : List Lexeme) : List Kind :=
  Kind.settleWords none (lexemes.map Lexeme.kind)

/-- The pairs of square brackets of a file. -/
def squares (lexemes : List Lexeme) : List Span :=
  pairs ((settledWords lexemes).map Kind.squareSide)

variable {lexeme : Lexeme}

/-- The token at an index has the part of the structure that belongs to the index. -/
theorem of_get? {token : Token} (found : (ofLexemes lexemes).get? index = some token) :
    ∃ lexeme kind conditions, lexemes[index]? = some lexeme ∧
      token = (structureOf (lexemes.map Lexeme.kind)).token lexeme kind conditions index := by
  cases at_index : lexemes[index]? with
  | none => simp [get?_ofLexemes_eq_none at_index] at found
  | some lexeme =>
    rcases get?_ofLexemes at_index with ⟨kind, conditions, -, token_found⟩
    exact ⟨lexeme, kind, conditions, rfl, Option.some.inj (found.symm.trans token_found)⟩

theorem brackets_of_get? {token : Token} (found : (ofLexemes lexemes).get? index = some token) :
    token.brackets = pairAt (squares lexemes) index := by
  rcases of_get? found with ⟨lexeme, kind, conditions, -, rfl⟩
  rfl

/-- The two steps from the kind of a lexeme to the kind of its token. -/
theorem reading_of_kind? {kind : Kind} (found : (ofLexemes lexemes).kind? index = some kind) :
    ∃ lexeme word, lexemes[index]? = some lexeme ∧ (settledWords lexemes)[index]? = some word ∧
      Kind.WordReading lexeme.kind word ∧ Kind.BracketReading word kind := by
  rw [kind?_ofLexemes] at found
  rcases Kind.getElem?_settleBrackets found with ⟨word, word_found, bracket⟩
  rcases Kind.getElem?_settleWords word_found with ⟨lexed, lexed_found, reading⟩
  simp only [getElem?_map, Option.map_eq_some_iff] at lexed_found
  rcases lexed_found with ⟨lexeme, lexeme_found, rfl⟩
  exact ⟨lexeme, word, lexeme_found, word_found, reading, bracket⟩

theorem kind?_of_getElem? (found : lexemes[index]? = some lexeme) :
    ∃ kind, (ofLexemes lexemes).kind? index = some kind := by
  rcases get?_ofLexemes found with ⟨kind, conditions, kind_found, -⟩
  exact ⟨kind, by rw [kind?_ofLexemes, kind_found]⟩

theorem not_mem_settledWords {kind : Kind}
    (lexed : ∀ lexeme ∈ lexemes, Lexeme.isContextual lexeme.kind = false)
    (bracket : kind = .openShortArray ∨ kind = .closeShortArray ∨ kind = .attributeEnd) :
    kind ∉ settledWords lexemes := by
  intro word
  rcases getElem?_of_mem word with ⟨index, word_found⟩
  rcases Kind.getElem?_settleWords word_found with ⟨lexed_kind, found, reading⟩
  simp only [getElem?_map, Option.map_eq_some_iff] at found
  rcases found with ⟨lexeme, found, rfl⟩
  have contextual := lexed lexeme (mem_of_getElem? found)
  generalize lexeme.kind = lexed_kind at reading contextual
  cases reading with
  | same => rcases bracket with rfl | rfl | rfl <;> simp [Lexeme.isContextual] at contextual
  | _ => simp at bracket

theorem isSignificant_of_kind? {kind : Kind} (found : (ofLexemes lexemes).kind? index = some kind)
    (at_index : lexemes[index]? = some lexeme) :
    kind.isSignificant = lexeme.kind.isSignificant := by
  rcases reading_of_kind? found with ⟨other, word, other_found, -, reading, bracket⟩
  obtain rfl := Option.some.inj (other_found.symm.trans at_index)
  rw [bracket.isSignificant, reading.isSignificant]

theorem kind?_of_isPlain (found : lexemes[index]? = some lexeme)
    (plain : lexeme.kind.isPlain = true) : (ofLexemes lexemes).kind? index = some lexeme.kind := by
  rcases kind?_of_getElem? found with ⟨kind, kind_found⟩
  rcases reading_of_kind? kind_found with ⟨other, word, other_found, -, reading, bracket⟩
  obtain rfl := Option.some.inj (other_found.symm.trans found)
  have word_eq := reading.eq_of_isPlain plain
  rw [kind_found, bracket.eq_of_isPlain (by rw [word_eq, plain]), word_eq]

theorem kind?_of_isTrivia (found : lexemes[index]? = some lexeme)
    (trivia : lexeme.kind.isSignificant = false) :
    (ofLexemes lexemes).kind? index = some lexeme.kind :=
  kind?_of_isPlain found (Kind.isPlain_of_isTrivia trivia)

end Tokens

section Attributes

variable {lexemes : List Lexeme} {skipped : Kind → Bool} {bound found : Nat}

/-- The brackets of an attribute. -/
structure IsAttribute (lexemes : List Lexeme) (span : Span) : Prop where
  paired : span ∈ squares lexemes
  opener : (ofLexemes lexemes).kind? span.opener = some .attributeStart
  closer : (ofLexemes lexemes).kind? span.closer = some .attributeEnd

theorem settled_squares {span : Span} (paired : span ∈ squares lexemes) :
    (ofLexemes lexemes).kind? span.closer =
      ((ofLexemes lexemes).kind? span.opener).map Kind.settleCloser := by
  rw [kind?_ofLexemes, kind?_ofLexemes]
  exact Kind.settled_closer rfl rfl (show span ∈ pairsFrom 0 [] _ from paired)

/-- The token that ends an attribute knows its brackets. -/
theorem isAttribute_of_attributeEnd {token : Token} {span : Span}
    (at_index : (ofLexemes lexemes).get? index = some token) (ends : token.kind = .attributeEnd)
    (brackets : token.brackets = some span) : span.closer = index ∧ IsAttribute lexemes span := by
  have kind : (ofLexemes lexemes).kind? index = some .attributeEnd := by
    simp [kind?, at_index, ends]
  rcases reading_of_kind? kind with ⟨lexeme, word, -, word_found, -, bracket⟩
  rw [brackets_of_get? at_index] at brackets
  obtain rfl : word = .closeSquare := by
    cases bracket with
    | attributeEnd => rfl
    | same =>
      rw [squares, pairAt_eq_none (by simp [word_found, Kind.squareSide])] at brackets
      simp at brackets
  rcases pairAt_of_closes (by simp [word_found, Kind.squareSide]) brackets with ⟨paired, rfl⟩
  refine ⟨rfl, paired, ?_, kind⟩
  have settled := settled_squares paired
  rw [kind, eq_comm, Option.map_eq_some_iff] at settled
  rcases settled with ⟨opener, opener_found, settled⟩
  obtain rfl : opener = .attributeStart := by
    cases opener <;> first | rfl | simp [Kind.settleCloser] at settled
  exact opener_found

/-- What the search for the end of a comment passes over: tokens to be skipped and attributes. -/
structure PassesOver (lexemes : List Lexeme) (skipped : Kind → Bool) (bound found : Nat) :
    Prop where
  lt : found < bound
  between : ∀ index, found < index → index < bound → index < lexemes.length →
    (ofLexemes lexemes).hasKind skipped index = true ∨
      ∃ span, IsAttribute lexemes span ∧ found < span.opener ∧ span.opener ≤ index ∧
        index ≤ span.closer ∧ span.closer < bound

section

variable (search : (ofLexemes lexemes).lastUnskipped? skipped bound = some found)

include search

/-- One step of the search: it ends at a token, or goes on before an attribute. -/
theorem lastUnskipped?_cases :
    ∃ last, last < bound ∧
      (∀ index, last < index → index < bound →
        (ofLexemes lexemes).hasKind (!skipped ·) index = false) ∧
      (last = found ∨ ∃ span, IsAttribute lexemes span ∧ span.closer = last ∧
        (ofLexemes lexemes).lastUnskipped? skipped span.opener = some found) := by
  rw [lastUnskipped?] at search
  split at search
  · simp at search
  · next positive =>
      simp only [Option.bind_eq_bind, Option.bind_eq_some_iff] at search
      rcases search with ⟨last, previous, token, at_last, search⟩
      rcases findPrevious_eq_some_iff.mp previous with ⟨-, upper, -, behind⟩
      refine ⟨last, by omega, fun index lower upper => behind index lower (by omega), ?_⟩
      split at search
      · next ends =>
          rw [Option.bind_eq_some_iff] at search
          rcases search with ⟨span, brackets, search⟩
          split at search
          · rcases isAttribute_of_attributeEnd at_last ends brackets with ⟨closer, group⟩
            exact .inr ⟨span, group, closer, search⟩
          · simp at search
      · exact .inl (Option.some.inj search)

/-- The search passes only over what is skipped and over whole attributes. -/
theorem passesOver_of_lastUnskipped? : PassesOver lexemes skipped bound found := by
  induction bound using Nat.strong_induction_on with
  | _ bound ih =>
    rcases lastUnskipped?_cases search with ⟨last, upper, behind, ends⟩
    have skips (index : Nat) (lower : last < index) (index_lt : index < bound)
        (inside : index < lexemes.length) : (ofLexemes lexemes).hasKind skipped index = true := by
      rcases kind?_of_getElem? (getElem?_eq_getElem inside) with ⟨kind, kind_found⟩
      simpa [hasKind, kind_found] using behind index lower index_lt
    rcases ends with rfl | ⟨span, group, rfl, search⟩
    · exact ⟨upper, fun index lower index_lt inside => .inl (skips index lower index_lt inside)⟩
    · have ordered := (pair_of_mem group.paired).1
      have before := ih span.opener (by omega) search
      have lt := before.lt
      refine ⟨by omega, fun index lower index_lt index_inside => ?_⟩
      rcases Nat.lt_or_ge index span.opener with earlier | inside
      · refine (before.between index lower earlier index_inside).imp id ?_
        rintro ⟨other, other_group, found_lt, opener_le, le_closer, closer_lt⟩
        exact ⟨other, other_group, found_lt, opener_le, le_closer, by omega⟩
      rcases Nat.lt_or_ge span.closer index with later | inside_too
      · exact .inl (skips index later index_lt index_inside)
      · exact .inr ⟨span, group, lt, inside, inside_too, upper⟩

/-- A search that starts inside an attribute does not leave it. -/
theorem opener_le_of_lastUnskipped?
    (attributes : skipped .attributeStart = false) {span : Span} (group : IsAttribute lexemes span)
    (lower : span.opener < bound) (upper : bound ≤ span.closer) : span.opener ≤ found := by
  induction bound using Nat.strong_induction_on with
  | _ bound ih =>
    rcases lastUnskipped?_cases search with ⟨last, last_lt, behind, ends⟩
    have reached : span.opener ≤ last := by
      by_contra before
      have := behind span.opener (by omega) lower
      simp [hasKind, group.opener, attributes] at this
    rcases ends with rfl | ⟨inner, inner_group, rfl, search⟩
    · exact reached
    · have different : span.opener ≠ inner.closer := by
        intro same
        have := group.opener.symm.trans (same ▸ inner_group.closer)
        simp at this
      have inside := opener_lt_of_closer_inside group.paired inner_group.paired
        (by omega) (by omega)
      have ordered := (pair_of_mem inner_group.paired).1
      exact ih inner.opener (by omega) search inside (by omega)

end

/-- Kinds of declarations that a doc comment may stand on. -/
def isDocumented : Kind → Bool
  | .classKw | .interfaceKw | .traitKw | .functionKw => true
  | _ => false

/-- Kinds that may stand between a declaration and its comment: neither a declaration nor the
start of an attribute is among them. -/
structure Separates (skipped : Kind → Bool) : Prop where
  declaration : ∀ kind, isDocumented kind = true → skipped kind = false
  group : skipped .attributeStart = false

theorem le_of_commentEnd?_eq {other_skipped : Kind → Bool} (separates : Separates skipped)
    (other_separates : Separates other_skipped) {first second : Nat} {kind : Kind}
    (first_kind : (ofLexemes lexemes).kind? first = some kind)
    (documented : isDocumented kind = true)
    (first_search : (ofLexemes lexemes).commentEnd? first skipped = some found)
    (second_search : (ofLexemes lexemes).commentEnd? second other_skipped = some found) :
    second ≤ first := by
  by_contra later
  have first_lt := (passesOver_of_lastUnskipped? first_search).lt
  have inside : first < lexemes.length := by
    have := lt_size_of_kind? first_kind
    rwa [size_ofLexemes] at this
  have passes := passesOver_of_lastUnskipped? second_search
  rcases passes.between first first_lt (by omega) inside with
    skips | ⟨span, group, found_lt, opener_le, le_closer, -⟩
  · simp [hasKind, first_kind, other_separates.declaration kind documented] at skips
  · have not_opener : first ≠ span.opener := by
      rintro rfl
      obtain rfl := Option.some.inj (first_kind.symm.trans group.opener)
      simp [isDocumented] at documented
    have := opener_le_of_lastUnskipped? first_search separates.group group (by omega) le_closer
    omega

/-- Two declarations never share a comment. -/
theorem eq_of_commentEnd?_eq {other_skipped : Kind → Bool} (separates : Separates skipped)
    (other_separates : Separates other_skipped) {first second : Nat} {kind other_kind : Kind}
    (first_kind : (ofLexemes lexemes).kind? first = some kind)
    (documented : isDocumented kind = true)
    (second_kind : (ofLexemes lexemes).kind? second = some other_kind)
    (other_documented : isDocumented other_kind = true)
    (first_search : (ofLexemes lexemes).commentEnd? first skipped = some found)
    (second_search : (ofLexemes lexemes).commentEnd? second other_skipped = some found) :
    first = second :=
  Nat.le_antisymm
    (le_of_commentEnd?_eq other_separates separates second_kind other_documented second_search
      first_search)
    (le_of_commentEnd?_eq separates other_separates first_kind documented first_search
      second_search)

end Attributes

end PhpStyle.Stream
