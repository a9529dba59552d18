import PhpStyle.Proofs.DocBlocks
import PhpStyle.Standard.ArrayComma

/-!
# Array literals

An array literal is a pair of short brackets, or the pair of parentheses right
behind the keyword `array`. No other keyword can own such parentheses, so what the
tokens know of their brackets and lists is enough to tell which tokens open and
close array literals.

The last token of an array literal is the significant token before its closer.
Different literals have different last tokens, and PHP code follows each of them.
-/

namespace PhpStyle

open List

section Neighbours

variable {kinds : List Kind} {left right index : Nat}

/-- A significant token is at the place. -/
def SignificantAt (kinds : List Kind) (index : Nat) : Prop :=
  ∃ kind, kinds[index]? = some kind ∧ kind.isSignificant = true

/-- Two significant tokens with only trivia between them. -/
structure Neighbours (kinds : List Kind) (left right : Nat) : Prop where
  lt : left < right
  left_significant : SignificantAt kinds left
  right_significant : SignificantAt kinds right
  between : ∀ index, left < index → index < right → ¬SignificantAt kinds index

variable {kind : Kind}

theorem Neighbours.left_eq {other : Nat} (neighbours : Neighbours kinds left right)
    (others : Neighbours kinds other right) : left = other := by
  rcases Nat.lt_trichotomy left other with earlier | same | later
  · exact absurd others.left_significant (neighbours.between other earlier others.lt)
  · exact same
  · exact absurd neighbours.left_significant (others.between left later neighbours.lt)

theorem Neighbours.right_eq {other : Nat} (neighbours : Neighbours kinds left right)
    (others : Neighbours kinds left other) : right = other := by
  rcases Nat.lt_trichotomy right other with earlier | same | later
  · exact absurd neighbours.right_significant (others.between right neighbours.lt earlier)
  · exact same
  · exact absurd others.right_significant (neighbours.between other others.lt later)

/-- The significant tokens from a place on. -/
def significantFrom (kinds : List Kind) (index : Nat) : Places :=
  ((kinds.drop index).zipIdx index).filter fun place => place.1.isSignificant

theorem significantFrom_of_getElem? (found : kinds[index]? = some kind) :
    significantFrom kinds index =
      if kind.isSignificant then (kind, index) :: significantFrom kinds (index + 1)
      else significantFrom kinds (index + 1) := by
  rcases List.getElem?_eq_some_iff.mp found with ⟨bound, rfl⟩
  rw [significantFrom, drop_eq_getElem_cons bound, zipIdx_cons, filter_cons]
  rfl

theorem significantFrom_of_length_le (outside : kinds.length ≤ index) :
    significantFrom kinds index = [] := by
  simp [significantFrom, drop_of_length_le outside]

/-- The first significant token from a place on has only trivia before it. -/
theorem of_significantFrom_eq_cons {place : Nat} {more : Places}
    (from_index : significantFrom kinds index = (kind, place) :: more) :
    index ≤ place ∧ kinds[place]? = some kind ∧ kind.isSignificant = true ∧
      (∀ other, index ≤ other → other < place → ¬SignificantAt kinds other) ∧
      more = significantFrom kinds (place + 1) := by
  generalize left : kinds.length - index = count
  induction count generalizing index with
  | zero => simp [significantFrom_of_length_le (show kinds.length ≤ index by omega)] at from_index
  | succ count ih =>
    have found := getElem?_eq_getElem (show index < kinds.length by omega)
    rw [significantFrom_of_getElem? found] at from_index
    split at from_index
    · next significant =>
        simp only [List.cons.injEq, Prod.mk.injEq] at from_index
        rcases from_index with ⟨⟨rfl, rfl⟩, rfl⟩
        exact ⟨Nat.le_refl _, found, significant, fun other lower upper => by omega, rfl⟩
    · next trivia =>
        rcases ih from_index (by omega) with ⟨lower, kind_found, significant, between, rfl⟩
        refine ⟨by omega, kind_found, significant, fun other other_lower other_upper => ?_, rfl⟩
        rcases Nat.eq_or_lt_of_le other_lower with rfl | later
        · rintro ⟨other_kind, other_found, other_significant⟩
          obtain rfl := Option.some.inj (found.symm.trans other_found)
          exact trivia other_significant
        · exact between other later other_upper

theorem neighbours_of_significantFrom {place : Nat} {more : Places}
    (significant : SignificantAt kinds left)
    (behind : significantFrom kinds (left + 1) = (kind, place) :: more) :
    Neighbours kinds left place ∧ kinds[place]? = some kind ∧
      more = significantFrom kinds (place + 1) := by
  rcases of_significantFrom_eq_cons behind with ⟨lower, found, kind_significant, between, more_eq⟩
  exact ⟨⟨lower, significant, ⟨kind, found, kind_significant⟩, between⟩, found, more_eq⟩

theorem Neighbours.significantFrom_eq (neighbours : Neighbours kinds left right)
    (found : kinds[right]? = some kind) :
    ∃ more, significantFrom kinds (left + 1) = (kind, right) :: more := by
  rcases neighbours.right_significant with ⟨other, other_found, significant⟩
  obtain rfl := Option.some.inj (found.symm.trans other_found)
  cases behind : significantFrom kinds (left + 1) with
  | nil =>
    have inside : (kind, right) ∈ significantFrom kinds (left + 1) := by
      have lt := neighbours.lt
      rw [significantFrom, mem_filter, mk_mem_zipIdx_iff_le_and_getElem?_sub,
        getElem?_drop, show left + 1 + (right - (left + 1)) = right by omega]
      exact ⟨⟨lt, found⟩, significant⟩
    simp [behind] at inside
  | cons first more =>
    rcases first with ⟨first_kind, place⟩
    rcases neighbours_of_significantFrom neighbours.left_significant behind with
      ⟨others, kind_found, -⟩
    obtain rfl := neighbours.right_eq others
    obtain rfl := Option.some.inj (found.symm.trans kind_found)
    exact ⟨more, rfl⟩

end Neighbours

theorem Ownership.mem_of_openerOf {owners : List Ownership} {keyword place : Nat}
    (found : openerOf owners keyword = some place) : ⟨keyword, place⟩ ∈ owners := by
  rcases Option.map_eq_some_iff.mp found with ⟨⟨other, brackets⟩, own, same⟩
  have owns := find?_some own
  simp only [Bool.and_eq_true, beq_iff_eq] at owns same
  obtain rfl := owns.1
  obtain rfl := same
  exact mem_of_find?_eq_some own

namespace Places

variable {kinds : List Kind} {index owner opener : Nat} {kind : Kind}

/-- Keywords that a parenthesised list may follow. -/
def hasList (kind : Kind) : Prop :=
  kind = .arrayKw ∨ kind = .functionKw ∨ kind = .closure ∨ kind = .fnKw

theorem isSignificant_of_hasList (listed : hasList kind) : kind.isSignificant = true := by
  rcases listed with rfl | rfl | rfl | rfl <;> rfl

theorem mem_lists_cons {rest : Places} :
    ⟨owner, opener⟩ ∈ lists ((kind, index) :: rest) ↔
      owner = index ∧ hasList kind ∧
          listOpener kind (rest.filter fun place => place.1.isSignificant) = some opener ∨
        ⟨owner, opener⟩ ∈ lists rest := by
  rw [lists]
  split
  · next listed =>
      have listed : hasList kind := listed
      cases listOpener kind (rest.filter fun place => place.1.isSignificant) with
      | none => simp
      | some found => simp [listed, eq_comm]
  · next unlisted =>
      have unlisted : ¬hasList kind := unlisted
      simp [unlisted]

/-- The lists that a scan finds are those that the keywords behind its start have. -/
theorem mem_lists_iff {rest : List Kind} (suffix : kinds.drop index = rest) :
    ⟨owner, opener⟩ ∈ lists (rest.zipIdx index) ↔
      index ≤ owner ∧ ∃ kind, kinds[owner]? = some kind ∧ hasList kind ∧
        listOpener kind (significantFrom kinds (owner + 1)) = some opener := by
  induction rest generalizing index with
  | nil =>
    simp only [zipIdx_nil, lists, not_mem_nil, false_iff, not_and, not_exists]
    rintro lower kind found -
    have := (List.getElem?_eq_some_iff.mp found).1
    have := List.drop_eq_nil_iff.mp suffix
    omega
  | cons first rest ih =>
    rcases getElem?_of_drop suffix with ⟨at_index, later⟩
    have behind : ((rest.zipIdx (index + 1)).filter fun place => place.1.isSignificant) =
        significantFrom kinds (index + 1) := by rw [significantFrom, later]
    rw [zipIdx_cons, mem_lists_cons, ih later, behind]
    constructor
    · rintro (⟨rfl, listed, opens⟩ | ⟨lower, owned⟩)
      · exact ⟨Nat.le_refl _, first, at_index, listed, opens⟩
      · exact ⟨by omega, owned⟩
    · rintro ⟨lower, kind, found, listed, opens⟩
      rcases Nat.eq_or_lt_of_le lower with rfl | later
      · obtain rfl := Option.some.inj (at_index.symm.trans found)
        exact .inl ⟨rfl, listed, opens⟩
      · exact .inr ⟨later, kind, found, listed, opens⟩

theorem listOpener_arrayKw {following : Places} :
    listOpener .arrayKw following = some opener ↔
      ∃ more, following = (.openParenthesis, opener) :: more := by
  simp only [listOpener, if_true, reduceCtorEq, if_false]
  constructor
  · intro opens
    split at opens
    · next index more => exact ⟨more, by rw [Option.some.inj opens]⟩
    · simp at opens
  · rintro ⟨more, rfl⟩
    rfl

/-- A token that is skipped is the next significant one. -/
theorem skip_significantFrom (skipped : Kind) (significant : SignificantAt kinds index) :
    ∃ next, SignificantAt kinds next ∧ (next = index ∨ kinds[next]? = some skipped) ∧
      skip skipped (significantFrom kinds (index + 1)) = significantFrom kinds (next + 1) := by
  cases behind : significantFrom kinds (index + 1) with
  | nil => exact ⟨index, significant, .inl rfl, by simp [skip, behind]⟩
  | cons first more =>
    rcases first with ⟨found, next⟩
    rcases neighbours_of_significantFrom significant behind with ⟨neighbours, at_next, more_eq⟩
    by_cases same : found = skipped
    · exact ⟨next, neighbours.right_significant, .inr (same ▸ at_next),
        by simp [skip, same, more_eq]⟩
    · exact ⟨index, significant, .inl rfl, by simp [skip, same, behind]⟩

/-- What stands before the list of a keyword: only `array` has its list right behind it. -/
theorem neighbours_of_listOpener (found : kinds[owner]? = some kind) (listed : hasList kind)
    (opens : listOpener kind (significantFrom kinds (owner + 1)) = some opener) :
    kinds[opener]? = some .openParenthesis ∧ ∃ before, Neighbours kinds before opener ∧
      (kind = .arrayKw ∧ before = owner ∨ kind ≠ .arrayKw ∧ kinds[before]? ≠ some .arrayKw) := by
  have owns : SignificantAt kinds owner := ⟨kind, found, isSignificant_of_hasList listed⟩
  obtain ⟨before, significant, apart, following⟩ : ∃ before, SignificantAt kinds before ∧
      (kind = .arrayKw ∧ before = owner ∨ kind ≠ .arrayKw ∧ kinds[before]? ≠ some .arrayKw) ∧
      listOpener kind (significantFrom kinds (owner + 1)) =
        listOpener .arrayKw (significantFrom kinds (before + 1)) := by
    by_cases array : kind = .arrayKw
    · exact ⟨owner, owns, .inl ⟨array, rfl⟩, by rw [array]⟩
    · rcases skip_significantFrom .ampersand owns with ⟨next, next_significant, next_kind, skips⟩
      have next_apart : kinds[next]? ≠ some .arrayKw := by
        rcases next_kind with rfl | reference
        · simpa [found] using array
        · simp [reference]
      by_cases named : kind = .functionKw
      · rcases skip_significantFrom .name next_significant with
          ⟨last, last_significant, last_kind, skips_too⟩
        refine ⟨last, last_significant, .inr ⟨array, ?_⟩, ?_⟩
        · rcases last_kind with rfl | name
          · exact next_apart
          · simp [name]
        · simp [listOpener, named, skips, skips_too]
      · exact ⟨next, next_significant, .inr ⟨array, next_apart⟩,
          by simp [listOpener, array, named, skips]⟩
  rw [following, listOpener_arrayKw] at opens
  rcases opens with ⟨more, opens⟩
  rcases neighbours_of_significantFrom significant opens with ⟨neighbours, at_opener, -⟩
  exact ⟨at_opener, before, neighbours, apart⟩

/-- The list that belongs to `array`. -/
structure OpensArray (kinds : List Kind) (owner opener : Nat) : Prop where
  keyword : kinds[owner]? = some .arrayKw
  opens : kinds[opener]? = some .openParenthesis
  neighbours : Neighbours kinds owner opener

theorem neighbours_of_mem_lists (mem : ⟨owner, opener⟩ ∈ lists (kinds.zipIdx 0)) :
    kinds[opener]? = some .openParenthesis ∧ ∃ before, Neighbours kinds before opener ∧
      (kinds[owner]? = some .arrayKw ∧ before = owner ∨
        kinds[owner]? ≠ some .arrayKw ∧ kinds[before]? ≠ some .arrayKw) := by
  rcases (mem_lists_iff (drop_zero (l := kinds))).mp mem with ⟨-, kind, found, listed, opens⟩
  rcases neighbours_of_listOpener found listed opens with ⟨at_opener, before, neighbours, apart⟩
  refine ⟨at_opener, before, neighbours, ?_⟩
  simpa [found] using apart

theorem opensArray_of_mem_lists (keyword : kinds[owner]? = some .arrayKw)
    (mem : ⟨owner, opener⟩ ∈ lists (kinds.zipIdx 0)) : OpensArray kinds owner opener := by
  rcases neighbours_of_mem_lists mem with ⟨opens, before, neighbours, ⟨-, rfl⟩ | ⟨other, -⟩⟩
  · exact ⟨keyword, opens, neighbours⟩
  · exact absurd keyword other

/-- A list right behind `array` belongs to no other keyword. -/
theorem OpensArray.eq_of_mem_lists {other : Nat} (array : OpensArray kinds owner opener)
    (mem : ⟨other, opener⟩ ∈ lists (kinds.zipIdx 0)) : other = owner := by
  rcases neighbours_of_mem_lists mem with ⟨-, before, neighbours, apart⟩
  obtain rfl := neighbours.left_eq array.neighbours
  rcases apart with ⟨-, same⟩ | ⟨-, not_array⟩
  · exact same.symm
  · exact absurd array.keyword not_array

theorem OpensArray.mem_lists (array : OpensArray kinds owner opener) :
    ⟨owner, opener⟩ ∈ lists (kinds.zipIdx 0) := by
  refine (mem_lists_iff (drop_zero (l := kinds))).mpr
    ⟨Nat.zero_le _, .arrayKw, array.keyword, .inl rfl, ?_⟩
  exact listOpener_arrayKw.mpr (array.neighbours.significantFrom_eq array.opens)

/-- The keyword `array` owns exactly the list right behind it. -/
theorem openerOf_lists_iff (keyword : kinds[owner]? = some .arrayKw) :
    Ownership.openerOf (lists (kinds.zipIdx 0)) owner = some opener ↔
      OpensArray kinds owner opener := by
  constructor
  · exact fun found => opensArray_of_mem_lists keyword (Ownership.mem_of_openerOf found)
  · intro array
    have owner_found : Ownership.ownerOf (lists (kinds.zipIdx 0)) opener = some owner := by
      cases found : (lists (kinds.zipIdx 0)).find? fun ownership => ownership.opener == opener with
      | none => simpa using List.find?_eq_none.mp found _ array.mem_lists
      | some ownership =>
        rcases ownership with ⟨other, place⟩
        obtain rfl : place = opener := by simpa using find?_some found
        simp [Ownership.ownerOf, found, array.eq_of_mem_lists (mem_of_find?_eq_some found)]
    cases found : Ownership.openerOf (lists (kinds.zipIdx 0)) owner with
    | none =>
      rw [Ownership.openerOf, Option.map_eq_none_iff, find?_eq_none] at found
      simpa [owner_found] using found _ array.mem_lists
    | some place =>
      have own := opensArray_of_mem_lists keyword (Ownership.mem_of_openerOf found)
      rw [own.neighbours.right_eq array.neighbours]

end Places

namespace Stream

variable {lexemes : List Lexeme} {owner index : Nat} {span : Span}

/-- The pairs of parentheses of a file. -/
def parentheses (lexemes : List Lexeme) : List Span :=
  pairs ((settledKinds lexemes).map Kind.parenthesisSide)

/-- The brackets of the array literal that a token opens. -/
inductive IsArray (lexemes : List Lexeme) (owner : Nat) (span : Span) : Prop where
  | keyword (array : Places.OpensArray (settledKinds lexemes) owner span.opener)
      (paired : span ∈ parentheses lexemes) : IsArray lexemes owner span
  | short (opens : (settledKinds lexemes)[owner]? = some .openShortArray)
      (same : span.opener = owner) (paired : span ∈ squares lexemes) : IsArray lexemes owner span

theorem parentheses_of_get? {token : Token} (found : (ofLexemes lexemes).get? index = some token) :
    token.parentheses = pairAt (parentheses lexemes)
      ((Ownership.openerOf (Places.lists ((settledKinds lexemes).zipIdx 0)) index).getD index) := by
  rcases of_get? found with ⟨lexeme, kind, conditions, -, rfl⟩
  rfl

theorem word_of_openShortArray (lexed : ∀ lexeme ∈ lexemes, Lexeme.isContextual lexeme.kind = false)
    (opens : (settledKinds lexemes)[index]? = some .openShortArray) :
    (settledWords lexemes)[index]? = some .openSquare := by
  rw [← kind?_ofLexemes] at opens
  rcases reading_of_kind? opens with ⟨lexeme, word, -, word_found, -, bracket⟩
  cases bracket with
  | opener => exact word_found
  | same => exact absurd (mem_of_getElem? word_found) (not_mem_settledWords lexed (by simp))

/-- The parentheses that the keyword `array` knows are those of its literal. -/
theorem opensArray_of_parentheses {token : Token} {span : Span}
    (found : (ofLexemes lexemes).get? owner = some token) (keyword : token.kind = .arrayKw)
    (paired : token.parentheses = some span) :
    Places.OpensArray (settledKinds lexemes) owner span.opener ∧ span ∈ parentheses lexemes := by
  have settled : (settledKinds lexemes)[owner]? = some .arrayKw := by
    rw [← kind?_ofLexemes, kind?, found, Option.map_some, keyword]
  rw [parentheses_of_get? found] at paired
  cases opener : Ownership.openerOf (Places.lists ((settledKinds lexemes).zipIdx 0)) owner with
  | none =>
    have side : ((settledKinds lexemes).map Kind.parenthesisSide)[owner]? = some .neither := by
      simp [settled, Kind.parenthesisSide]
    simp [opener, parentheses, pairAt_eq_none side] at paired
  | some place =>
    have array := (Places.openerOf_lists_iff settled).mp opener
    have side : ((settledKinds lexemes).map Kind.parenthesisSide)[place]? = some .opens := by
      simp [array.opens, Kind.parenthesisSide]
    rw [opener, Option.getD_some] at paired
    rcases pairAt_of_opens side paired with ⟨inside, rfl⟩
    exact ⟨array, inside⟩

theorem isArray_of_scopeOf? {scope : Scope}
    (lexed : ∀ lexeme ∈ lexemes, Lexeme.isContextual lexeme.kind = false)
    (found : (ofLexemes lexemes).scopeOf? owner = some scope) (array : scope.kind = .arrayLiteral) :
    IsArray lexemes owner scope.toSpan := by
  simp only [scopeOf?, Option.bind_eq_bind, Option.bind_eq_some_iff, Option.pure_def,
    Option.some.injEq] at found
  rcases found with ⟨token, at_owner, kind, kind_eq, span, span_eq, rfl⟩
  obtain rfl : kind = .arrayLiteral := array
  have settled : (settledKinds lexemes)[owner]? = some token.kind := by
    rw [← kind?_ofLexemes, kind?, at_owner, Option.map_some]
  have opens : token.kind = .arrayKw ∨ token.kind = .openShortArray := by
    revert kind_eq
    cases token.kind <;> simp [ScopeKind.ofOwner?]
  rcases opens with keyword | short
  · simp only [Token.scopeSpan?, keyword] at span_eq
    rcases opensArray_of_parentheses at_owner keyword span_eq with ⟨opens, paired⟩
    exact .keyword opens paired
  · rw [short] at settled
    simp only [Token.scopeSpan?, short, brackets_of_get? at_owner] at span_eq
    have side : ((settledWords lexemes).map Kind.squareSide)[owner]? = some .opens := by
      simp [word_of_openShortArray lexed settled, Kind.squareSide]
    rcases pairAt_of_opens side span_eq with ⟨paired, opener_eq⟩
    exact .short settled opener_eq paired

theorem IsArray.exists_scopeOf? (array : IsArray lexemes owner span) :
    ∃ scope, (ofLexemes lexemes).scopeOf? owner = some scope ∧ scope.kind = .arrayLiteral ∧
      scope.toSpan = span := by
  have at_owner {kind : Kind} (settled : (settledKinds lexemes)[owner]? = some kind) :
      ∃ token, (ofLexemes lexemes).get? owner = some token ∧ token.kind = kind := by
    rw [← kind?_ofLexemes, kind?, Option.map_eq_some_iff] at settled
    exact settled
  cases array with
  | keyword array paired =>
    rcases at_owner array.keyword with ⟨token, found, kind⟩
    have span_eq : token.parentheses = some span := by
      rw [parentheses_of_get? found, (Places.openerOf_lists_iff array.keyword).mpr array,
        Option.getD_some, parentheses, pairAt_opener paired]
    exact ⟨{ span with kind := .arrayLiteral, owner }, by
      simp [scopeOf?, found, kind, ScopeKind.ofOwner?, Token.scopeSpan?, span_eq], rfl, rfl⟩
  | short opens same paired =>
    rcases at_owner opens with ⟨token, found, kind⟩
    have span_eq : token.brackets = some span := by
      rw [brackets_of_get? found, ← same, squares, pairAt_opener paired]
    exact ⟨{ span with kind := .arrayLiteral, owner }, by
      simp [scopeOf?, found, kind, ScopeKind.ofOwner?, Token.scopeSpan?, span_eq], rfl, rfl⟩

theorem kind_of_parenthesisSide {kinds : List Kind} {place : Nat}
    (side : (kinds.map Kind.parenthesisSide)[place]? = some .closes) :
    kinds[place]? = some .closeParenthesis := by
  simp only [getElem?_map, Option.map_eq_some_iff] at side
  rcases side with ⟨kind, found, side⟩
  rw [found]
  revert side
  cases kind <;> simp [Kind.parenthesisSide]

/-- An array literal is closed by its own kind of bracket. -/
theorem IsArray.closer (array : IsArray lexemes owner span) : span.opener < span.closer ∧
    ((settledKinds lexemes)[owner]? = some .arrayKw ∧
        (settledKinds lexemes)[span.closer]? = some .closeParenthesis ∨
      (settledKinds lexemes)[owner]? = some .openShortArray ∧
        (settledKinds lexemes)[span.closer]? = some .closeShortArray) := by
  cases array with
  | keyword array paired =>
    have pair := pair_of_mem paired
    exact ⟨pair.1, .inl ⟨array.keyword, kind_of_parenthesisSide pair.2.2⟩⟩
  | short opens same paired =>
    have settled := settled_squares paired
    rw [same, kind?_ofLexemes, kind?_ofLexemes, opens] at settled
    exact ⟨(pair_of_mem paired).1, .inr ⟨opens, settled⟩⟩

/-- A token closes one array literal at most. -/
theorem IsArray.owner_eq {other : Nat} {other_span : Span} (array : IsArray lexemes owner span)
    (other_array : IsArray lexemes other other_span) (same : span.closer = other_span.closer) :
    owner = other := by
  have kinds := array.closer.2
  have other_kinds := other_array.closer.2
  rw [same] at kinds
  cases array with
  | keyword array paired =>
    cases other_array with
    | keyword other_array other_paired =>
      obtain rfl := eq_of_closer_eq paired other_paired same
      exact array.neighbours.left_eq other_array.neighbours
    | short opens other_same other_paired => simp_all [array.keyword]
  | short opens owner_same paired =>
    cases other_array with
    | keyword other_array other_paired => simp_all [other_array.keyword]
    | short other_opens other_same other_paired =>
      obtain rfl := eq_of_closer_eq paired other_paired same
      exact owner_same.symm.trans other_same

theorem IsArray.closer_significant (array : IsArray lexemes owner span) :
    SignificantAt (settledKinds lexemes) span.closer := by
  rcases array.closer.2 with ⟨-, closes⟩ | ⟨-, closes⟩
  · exact ⟨_, closes, rfl⟩
  · exact ⟨_, closes, rfl⟩

theorem significantAt_iff {lexeme : Lexeme} (found : lexemes[index]? = some lexeme) :
    SignificantAt (settledKinds lexemes) index ↔ lexeme.kind.isSignificant = true := by
  rcases kind?_of_getElem? found with ⟨kind, kind_found⟩
  rw [← isSignificant_of_kind? kind_found found]
  rw [kind?_ofLexemes] at kind_found
  simp [SignificantAt, kind_found]

theorem hasKind_isSignificant_iff :
    (ofLexemes lexemes).hasKind Kind.isSignificant index = true ↔
      SignificantAt (settledKinds lexemes) index := by
  rw [hasKind_iff, kind?_ofLexemes, SignificantAt]

theorem ofOwner?_of_scopeOf? {stream : Stream} {scope : Scope} {kind : Kind}
    (found : stream.scopeOf? owner = some scope) (opens : stream.kind? owner = some kind) :
    ScopeKind.ofOwner? kind = some scope.kind := by
  simp only [scopeOf?, Option.bind_eq_bind, Option.bind_eq_some_iff, Option.pure_def,
    Option.some.injEq] at found
  rcases found with ⟨token, at_owner, scope_kind, kind_eq, span, -, rfl⟩
  simp only [kind?, at_owner, Option.map_some, Option.some.injEq] at opens
  rw [← opens, kind_eq]

/-- The last token of an array literal is the significant token before its closer. -/
theorem neighbours_of_lastToken? {last : Nat}
    (lexed : ∀ lexeme ∈ lexemes, Lexeme.isContextual lexeme.kind = false) {kind : Kind}
    (opens : (ofLexemes lexemes).kind? owner = some kind)
    (literal : kind = .arrayKw ∨ kind = .openShortArray)
    (found : Standard.ArrayComma.lastToken? (ofLexemes lexemes) owner = some last) :
    ∃ span, IsArray lexemes owner span ∧
      Neighbours (settledKinds lexemes) last span.closer := by
  simp only [Standard.ArrayComma.lastToken?, Option.bind_eq_bind, Option.bind_eq_some_iff] at found
  rcases found with ⟨scope, scope_found, found⟩
  have scope_kind := ofOwner?_of_scopeOf? scope_found opens
  have array : scope.kind = .arrayLiteral := by
    rcases literal with rfl | rfl <;> exact (Option.some.inj scope_kind).symm
  have brackets := isArray_of_scopeOf? lexed scope_found array
  refine ⟨scope.toSpan, brackets, ?_⟩
  split at found
  · simp at found
  · next apart =>
      rcases findPrevious_eq_some_iff.mp found with ⟨lower, upper, significant, behind⟩
      have ordered := brackets.closer.1
      refine ⟨by omega, hasKind_isSignificant_iff.mp significant, brackets.closer_significant, ?_⟩
      intro index index_lower index_upper at_index
      have := behind index index_lower (by omega)
      rw [hasKind_isSignificant_iff.mpr at_index] at this
      exact absurd this (by simp)

/-- A comma may be put behind the last token of an array literal, which is no text outside PHP. -/
theorem fits_comma {mode : Lexeme.Mode} {position : Position} {text : List Char} {last : Nat}
    (cuts : Lexeme.Cuts mode position text lexemes) (array : IsArray lexemes owner span)
    (neighbours : Neighbours (settledKinds lexemes) last span.closer) :
    (Repair.comma last).Fits lexemes := by
  have inside : span.closer < lexemes.length := by
    rcases array.closer_significant with ⟨kind, found, -⟩
    rw [← length_settledKinds]
    exact (List.getElem?_eq_some_iff.mp found).1
  have lt := neighbours.lt
  have last_found := getElem?_eq_getElem (show last < lexemes.length by omega)
  have next_found := getElem?_eq_getElem (show last + 1 < lexemes.length by omega)
  have significant := (significantAt_iff last_found).mp neighbours.left_significant
  refine .comma last_found ?_ (by omega)
  by_contra outside
  have html : (lexemes[last]).kind = .inlineHtml ∨ (lexemes[last]).kind = .closeTag := by
    by_contra php
    rw [not_or] at php
    simp [Lexeme.takesComma, significant, php] at outside
  have next := (cuts.adjacent_at last_found next_found).html html
  have next_kind : (settledKinds lexemes)[last + 1]? = some (lexemes[last + 1]).kind := by
    rw [← kind?_ofLexemes]
    refine kind?_of_isPlain next_found ?_
    rcases next with next | next | next <;> rw [next] <;> rfl
  rcases Nat.eq_or_lt_of_le (show last + 1 ≤ span.closer by omega) with same | earlier
  · rcases array.closer.2 with ⟨-, closes⟩ | ⟨-, closes⟩ <;>
      rcases next with next | next | next <;> simp [← same, next_kind, next] at closes
  · refine neighbours.between (last + 1) (by omega) earlier ⟨_, next_kind, ?_⟩
    rcases next with next | next | next <;> rw [next] <;> rfl

end Stream

end PhpStyle
