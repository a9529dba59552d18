import PhpStyle.Proofs.Embeddings
import PhpStyle.Proofs.Preservation

/-!
# Functions of an embedded file

What the rule on function comments asks about a function is answered alike in a file and
in a larger one in which it is embedded: which functions there are, whether they return a
value, how they are named, whether they are public, where the search for a comment ends.

The searches go back from a function or from the start of an attribute. Padding never
stops them: the end of the doc comment or of the array that it belongs to stops them
first.
-/

namespace PhpStyle

namespace Stream

/-- The last token of a wanted kind before a bound. -/
def findBefore (stream : Stream) (wanted : Kind → Bool) (bound : Nat) : Option Nat :=
  if bound = 0 then none else stream.findPrevious wanted (bound - 1)

variable {stream : Stream} {wanted : Kind → Bool} {bound index : Nat} {lexemes : List Lexeme}

theorem findBefore_eq_some_iff {found : Nat} :
    stream.findBefore wanted bound = some found ↔
      found < bound ∧ stream.hasKind wanted found = true ∧
        ∀ index, found < index → index < bound → stream.hasKind wanted index = false := by
  rw [findBefore]
  split
  · constructor
    · intro search
      cases search
    · rintro ⟨lt, -⟩
      omega
  · rw [findPrevious_eq_some_iff]
    constructor
    · rintro ⟨-, upper, wanted_there, behind⟩
      refine ⟨by omega, wanted_there, ?_⟩
      intro index lower index_upper
      exact behind index lower (by omega)
    · rintro ⟨upper, wanted_there, behind⟩
      refine ⟨Nat.zero_le found, by omega, wanted_there, ?_⟩
      intro index lower index_upper
      exact behind index lower (by omega)

/-- Where the run of unwanted tokens before a bound begins. -/
def runStart (stream : Stream) (wanted : Kind → Bool) (bound : Nat) : Nat :=
  (stream.findBefore wanted bound).elim 0 (· + 1)

theorem runStart_le (stream : Stream) (wanted : Kind → Bool) (bound : Nat) :
    stream.runStart wanted bound ≤ bound := by
  rw [runStart]
  cases search : stream.findBefore wanted bound with
  | none => exact Nat.zero_le bound
  | some found => exact (findBefore_eq_some_iff.mp search).1

theorem hasKind_eq_false_of_runStart_le (lower : stream.runStart wanted bound ≤ index)
    (upper : index < bound) : stream.hasKind wanted index = false := by
  rw [runStart] at lower
  cases search : stream.findBefore wanted bound with
  | some found =>
    rw [search] at lower
    exact (findBefore_eq_some_iff.mp search).2.2 index lower upper
  | none =>
    rw [findBefore, if_neg (by omega), findPrevious, lastIndex_eq_none_iff] at search
    by_cases inside : index < stream.size
    · have covered : index < (bound - 1 + 1).min stream.size :=
        Nat.lt_min.mpr ⟨by omega, inside⟩
      exact search index (Nat.zero_le index) (by omega)
    · exact hasKind_of_size_le (Nat.le_of_not_lt inside)

/-- Kinds from which a search for a comment goes back. -/
def goesBack (kind : Kind) : Bool :=
  kind == .functionKw || kind == .attributeStart

/-- If a search stops at padding, it stops at the end of a doc comment and of an array too. -/
def PassesPadding (wanted : Kind → Bool) : Prop :=
  ∀ kind, Places.isIdle kind = true → wanted kind = true →
    wanted .docClose = true ∧ wanted .closeParenthesis = true ∧ wanted .closeShortArray = true

/-- Behind padding and before the next function or attribute, something ends. -/
theorem IsPadding.exists_end {kinds : List Kind} {kind : Kind} (padding : IsPadding kinds index)
    (before : index < bound) (found : kinds[bound]? = some kind) (back : goesBack kind = true) :
    ∃ stop, index < stop ∧ stop < bound ∧ (kinds[stop]? = some .docClose ∨
      kinds[stop]? = some .closeParenthesis ∨ kinds[stop]? = some .closeShortArray) := by
  have differs {other : Kind} (other_back : goesBack other = false) :
      kinds[bound]? ≠ some other := by
    rw [found]
    rintro ⟨rfl⟩
    rw [back] at other_back
    cases other_back
  cases padding with
  | docBody _ inside closed =>
    have outside : kind.isDocBody = false := by
      revert back
      cases kind <;> decide
    rcases closed bound kind before found outside with ⟨closer, lower, upper, closes⟩
    refine ⟨closer, lower, upper.lt_of_ne ?_, .inl closes⟩
    rintro rfl
    exact differs rfl closes
  | @comma closer _ neighbours ends =>
    have significant : SignificantAt kinds bound := by
      refine ⟨kind, found, ?_⟩
      revert back
      cases kind <;> decide
    have upper : closer ≤ bound := by
      by_contra later
      exact neighbours.between bound before (Nat.lt_of_not_le later) significant
    refine ⟨closer, neighbours.lt, upper.lt_of_ne ?_, .inr ends⟩
    rintro rfl
    rcases ends with ends | ends
    · exact differs rfl ends
    · exact differs rfl ends

theorem findNext_none_eq_some_iff {start found : Nat} :
    stream.findNext wanted start = some found ↔
      start ≤ found ∧ stream.hasKind wanted found = true ∧
        ∀ index, start ≤ index → index < found → stream.hasKind wanted index = false := by
  rw [findNext, firstIndex_eq_some_iff]
  simp only [Option.map_none, Option.getD_none, Nat.min_self]
  constructor
  · rintro ⟨lower, -, wanted_there, before⟩
    exact ⟨lower, wanted_there, before⟩
  · rintro ⟨lower, wanted_there, before⟩
    have inside : found < stream.size := by
      by_contra outside
      rw [hasKind_of_size_le (Nat.le_of_not_lt outside)] at wanted_there
      cases wanted_there
    exact ⟨lower, by omega, wanted_there, before⟩

theorem nextSignificant_none_eq_some_iff {next : Nat}
    (significant : SignificantAt (settledKinds lexemes) index) :
    (ofLexemes lexemes).nextSignificant (index + 1) = some next ↔
      Neighbours (settledKinds lexemes) index next := by
  have insignificant (other : Nat) :
      (ofLexemes lexemes).hasKind Kind.isSignificant other = false ↔
        ¬SignificantAt (settledKinds lexemes) other := by
    rw [← hasKind_isSignificant_iff, Bool.not_eq_true]
  rw [nextSignificant, findNext_none_eq_some_iff, hasKind_isSignificant_iff]
  simp only [insignificant]
  constructor
  · rintro ⟨lower, next_significant, between⟩
    exact ⟨lower, significant, next_significant, between⟩
  · rintro ⟨lower, -, next_significant, between⟩
    exact ⟨lower, next_significant, between⟩

/-- The name that a keyword declares is the significant token behind it, or behind `&`. -/
def Names (kinds : List Kind) (index named : Nat) : Prop :=
  kinds[named]? = some .name ∧ (Neighbours kinds index named ∨
    ∃ reference, kinds[reference]? = some .ampersand ∧ Neighbours kinds index reference ∧
      Neighbours kinds reference named)

theorem names_iff_declared? {named : Nat}
    (significant : SignificantAt (settledKinds lexemes) index) :
    Names (settledKinds lexemes) index named ↔
      (ofLexemes lexemes).declared? index = some named ∧
        (ofLexemes lexemes).kind? named = some .name := by
  simp only [declared?, Option.bind_eq_bind, Option.bind_eq_some_iff, kind?_ofLexemes,
    nextSignificant_none_eq_some_iff significant]
  constructor
  · rintro ⟨is_name, neighbours | ⟨reference, is_reference, neighbours, behind⟩⟩
    · refine ⟨⟨named, neighbours, ?_⟩, is_name⟩
      rw [is_name, if_neg (by decide)]
    · refine ⟨⟨reference, neighbours, ?_⟩, is_name⟩
      rw [if_pos is_reference]
      exact (nextSignificant_none_eq_some_iff neighbours.right_significant).mpr behind
  · rintro ⟨⟨next, neighbours, search⟩, is_name⟩
    refine ⟨is_name, ?_⟩
    split at search
    · next is_reference =>
        right
        refine ⟨next, is_reference, neighbours, ?_⟩
        exact (nextSignificant_none_eq_some_iff neighbours.right_significant).mp search
    · left
      rw [← Option.some.inj search]
      exact neighbours

theorem declarationName?_eq_some_iff {name : List Char}
    (declares : (ofLexemes lexemes).kind? index = some .functionKw) :
    (ofLexemes lexemes).declarationName? index = some name ↔
      ∃ named, Names (settledKinds lexemes) index named ∧
        lexemes[named]?.map Lexeme.text = some name := by
  have significant : SignificantAt (settledKinds lexemes) index :=
    ⟨.functionKw, by rw [← kind?_ofLexemes, declares], rfl⟩
  simp only [declarationName?, declares, Option.bind_eq_bind, Option.bind_some, reduceCtorEq,
    or_true, if_true, Option.bind_eq_some_iff, Option.ite_none_right_eq_some,
    names_iff_declared? significant]
  constructor
  · rintro ⟨named, search, token, found, is_name, text_eq⟩
    rcases of_get? found with ⟨lexeme, kind, conditions, lexeme_found, rfl⟩
    refine ⟨named, ⟨search, ?_⟩, ?_⟩
    · rw [kind?, found, Option.map_some, is_name]
    · rw [lexeme_found]
      exact text_eq
  · rintro ⟨named, ⟨search, is_name⟩, text_found⟩
    rcases Option.map_eq_some_iff.mp is_name with ⟨token, found, kind_eq⟩
    rcases of_get? found with ⟨lexeme, kind, conditions, lexeme_found, rfl⟩
    rw [lexeme_found] at text_found
    exact ⟨named, search, _, found, kind_eq, text_found⟩

theorem lastUnskipped?_eq (lexemes : List Lexeme) (skipped : Kind → Bool) (bound : Nat) :
    (ofLexemes lexemes).lastUnskipped? skipped bound =
      ((ofLexemes lexemes).findBefore (!skipped ·) bound).bind fun found =>
        if (ofLexemes lexemes).kind? found = some .attributeEnd then
          (pairAt (squares lexemes) found).bind fun span =>
            if span.opener < bound then (ofLexemes lexemes).lastUnskipped? skipped span.opener
            else none
        else some found := by
  rw [lastUnskipped?, findBefore]
  split
  · rfl
  · cases search : (ofLexemes lexemes).findPrevious (!skipped ·) (bound - 1) with
    | none => rfl
    | some found =>
      rcases hasKind_iff.mp (findPrevious_eq_some_iff.mp search).2.2.1 with
        ⟨kind, kind_found, -⟩
      rcases Option.map_eq_some_iff.mp kind_found with ⟨token, token_found, rfl⟩
      simp only [Option.bind_some, kind_found, token_found, Option.bind_eq_bind,
        brackets_of_get? token_found, Option.some.injEq]

theorem attributeStart_of_pairAt {span : Span}
    (ends : (ofLexemes lexemes).kind? index = some .attributeEnd)
    (paired : pairAt (squares lexemes) index = some span) :
    (settledKinds lexemes)[span.opener]? = some .attributeStart := by
  rcases Option.map_eq_some_iff.mp ends with ⟨token, found, kind_eq⟩
  rw [← brackets_of_get? found] at paired
  rw [← kind?_ofLexemes]
  exact (isAttribute_of_attributeEnd found kind_eq paired).2.opener

/-- The visibility after one more token. -/
def visibilityAfter (visibility : Visibility) (kind : Kind) : Visibility :=
  (Visibility.ofKind? kind).getD visibility

theorem visibility_foldl_add (kinds : List Kind) (modifiers : Modifiers) :
    (kinds.foldl Modifiers.add modifiers).visibility =
      kinds.foldl visibilityAfter modifiers.visibility := by
  induction kinds generalizing modifiers with
  | nil => rfl
  | cons kind kinds ih =>
    rw [List.foldl_cons, ih, List.foldl_cons]
    congr 1
    cases kind <;> rfl

/-- The modifiers of a function are read off the run of modifiers, whitespace and comments before
it. -/
theorem modifiers?_eq (inside : index ≤ stream.size) :
    stream.modifiers? index =
      some (((stream.tokens.toList.map fun token => token.kind).extract
        (stream.runStart (!·.mayPrecedeDeclaration) index) index).foldl Modifiers.add
          { hasBody := (stream.get? index).any fun token => token.braces.isSome }) := by
  have first_eq : (if index = 0 then 0 else
      (stream.findPrevious (!·.mayPrecedeDeclaration) (index - 1)).elim 0 (· + 1)) =
        stream.runStart (!·.mayPrecedeDeclaration) index := by
    rw [runStart, findBefore]
    split <;> rfl
  have ordered := runStart_le stream (!·.mayPrecedeDeclaration) index
  simp only [modifiers?, first_eq, slice?, if_pos (And.intro ordered inside),
    Option.bind_eq_bind, Option.bind_some, Option.pure_def]
  rw [Array.toList_extract, List.extract_eq_take_drop, List.extract_eq_take_drop, List.map_take,
    List.map_drop]

/-- A function is public if its last visibility keyword says so, or if it has none. -/
theorem isPublic_eq (inside : index < (settledKinds lexemes).length) :
    Standard.FunctionComment.isPublic (ofLexemes lexemes) index =
      ((((settledKinds lexemes).extract
        ((ofLexemes lexemes).runStart (!·.mayPrecedeDeclaration) index) index).foldl
          visibilityAfter .publicAccess) == .publicAccess) := by
  have within : index ≤ (ofLexemes lexemes).size := by
    rw [size_ofLexemes, ← length_settledKinds]
    exact inside.le
  rw [Standard.FunctionComment.isPublic, modifiers?_eq within, Option.any_some,
    visibility_foldl_add, kinds_ofLexemes]

namespace Embeds

variable {core whole : List Lexeme} {place : Nat → Nat} (embeds : Embeds core whole place)

include embeds

variable {kind : Kind}

theorem hasKind_place (wanted : Kind → Bool) (index : Nat) :
    (ofLexemes whole).hasKind wanted (place index) = (ofLexemes core).hasKind wanted index := by
  rw [hasKind, embeds.kind?_place, hasKind]

/-- A search that goes back from a function or an attribute meets the tokens of the smaller file
first. -/
theorem exists_origin_of_hasKind (passes : PassesPadding wanted)
    (found : (settledKinds core)[bound]? = some kind) (back : goesBack kind = true)
    (before : index < place bound) (wanted_there : (ofLexemes whole).hasKind wanted index = true) :
    ∃ origin, index ≤ place origin ∧ origin < bound ∧
      (ofLexemes core).hasKind wanted origin = true := by
  rcases hasKind_iff.mp wanted_there with ⟨other, other_found, other_wanted⟩
  rw [kind?_ofLexemes] at other_found
  rcases embeds.padding index other other_found with ⟨origin, rfl⟩ | padding
  · refine ⟨origin, le_rfl, embeds.mono.lt_iff_lt.mp before, ?_⟩
    rw [← embeds.hasKind_place, wanted_there]
  · rcases padding.exists_isIdle with ⟨padded, padded_found, idle⟩
    obtain rfl := Option.some.inj (other_found.symm.trans padded_found)
    rcases passes other idle other_wanted with ⟨stops_doc, stops_list, stops_array⟩
    rw [← embeds.kind] at found
    rcases padding.exists_end before found back with ⟨stop, lower, upper, ends⟩
    have stop_image : ∃ origin, stop = place origin := by
      rcases ends with ends | ends | ends
      · exact embeds.exists_origin ends rfl
      · exact embeds.exists_origin ends rfl
      · exact embeds.exists_origin ends rfl
    rcases stop_image with ⟨origin, rfl⟩
    refine ⟨origin, lower.le, embeds.mono.lt_iff_lt.mp upper, ?_⟩
    rw [hasKind_iff, kind?_ofLexemes, ← embeds.kind]
    rcases ends with ends | ends | ends
    · exact ⟨_, ends, stops_doc⟩
    · exact ⟨_, ends, stops_list⟩
    · exact ⟨_, ends, stops_array⟩

/-- A search that passes over what has been put in finds the token that it found before. -/
theorem findBefore_place (passes : PassesPadding wanted)
    (found : (settledKinds core)[bound]? = some kind) (back : goesBack kind = true) :
    (ofLexemes whole).findBefore wanted (place bound) =
      ((ofLexemes core).findBefore wanted bound).map place := by
  apply Option.ext
  intro last
  rw [Option.map_eq_some_iff, findBefore_eq_some_iff]
  constructor
  · rintro ⟨upper, wanted_there, behind⟩
    rcases embeds.exists_origin_of_hasKind passes found back upper wanted_there with
      ⟨origin, lower, origin_upper, origin_wanted⟩
    have same : place origin = last := by
      by_contra apart
      have later := behind (place origin) (by omega) (embeds.mono origin_upper)
      rw [embeds.hasKind_place, origin_wanted] at later
      cases later
    refine ⟨origin, findBefore_eq_some_iff.mpr ⟨origin_upper, origin_wanted, ?_⟩, same⟩
    intro index index_lower index_upper
    rw [← embeds.hasKind_place]
    exact behind (place index) (same ▸ embeds.mono index_lower) (embeds.mono index_upper)
  · rintro ⟨origin, search, rfl⟩
    rcases findBefore_eq_some_iff.mp search with ⟨upper, wanted_there, behind⟩
    refine ⟨embeds.mono upper, (embeds.hasKind_place wanted origin).trans wanted_there, ?_⟩
    intro index lower index_upper
    by_contra index_wanted
    rw [Bool.not_eq_false] at index_wanted
    rcases embeds.exists_origin_of_hasKind passes found back index_upper index_wanted with
      ⟨other, other_lower, other_upper, other_wanted⟩
    have later := embeds.mono.lt_iff_lt.mp (lower.trans_le other_lower)
    rw [behind other later other_upper] at other_wanted
    cases other_wanted

theorem places_eq {kinds : List Kind} (counted : ∀ kind ∈ kinds, Places.isIdle kind = false) :
    (ofLexemes whole).places kinds = ((ofLexemes core).places kinds).map place := by
  apply List.Pairwise.eq_of_mem_iff (sorted_places _ kinds)
  · exact (sorted_places _ kinds).map place fun _ _ lt => embeds.mono lt
  · intro index
    simp only [List.mem_map, mem_places_iff]
    constructor
    · rintro ⟨kind, listed, found⟩
      rw [kind?_ofLexemes] at found
      rcases embeds.exists_origin found (counted kind listed) with ⟨origin, rfl⟩
      rw [embeds.kind, ← kind?_ofLexemes] at found
      exact ⟨origin, ⟨kind, listed, found⟩, rfl⟩
    · rintro ⟨origin, ⟨kind, listed, found⟩, rfl⟩
      exact ⟨kind, listed, (embeds.kind?_place origin).trans found⟩

theorem neighbours_place {next : Nat} (neighbours : Neighbours (settledKinds core) index next)
    (found : (settledKinds core)[next]? = some kind)
    (inner : kind ≠ .closeParenthesis ∧ kind ≠ .closeShortArray) :
    Neighbours (settledKinds whole) (place index) (place next) := by
  rcases embeds.exists_neighbours_place neighbours with ⟨found_next, found_neighbours, same | ends⟩
  · rw [← same]
    exact found_neighbours
  · rw [found] at ends
    rcases ends with ⟨-, ends | ends⟩
    · exact absurd (Option.some.inj ends) inner.1
    · exact absurd (Option.some.inj ends) inner.2

theorem names_place_iff {named : Nat} :
    Names (settledKinds whole) (place index) (place named) ↔
      Names (settledKinds core) index named := by
  rw [Names, Names, embeds.kind]
  constructor
  · rintro ⟨is_name, neighbours | ⟨reference, is_reference, neighbours, behind⟩⟩
    · refine ⟨is_name, .inl ?_⟩
      exact embeds.neighbours_of_place neighbours
    · rcases embeds.exists_origin is_reference rfl with ⟨origin, rfl⟩
      rw [embeds.kind] at is_reference
      exact ⟨is_name, .inr ⟨origin, is_reference, embeds.neighbours_of_place neighbours,
        embeds.neighbours_of_place behind⟩⟩
  · rintro ⟨is_name, neighbours | ⟨reference, is_reference, neighbours, behind⟩⟩
    · exact ⟨is_name, .inl (embeds.neighbours_place neighbours is_name (by decide))⟩
    · refine ⟨is_name, .inr ⟨place reference, (embeds.kind reference).trans is_reference, ?_, ?_⟩⟩
      · exact embeds.neighbours_place neighbours is_reference (by decide)
      · exact embeds.neighbours_place behind is_name (by decide)

section

variable (declares : (ofLexemes core).kind? index = some .functionKw)

include declares

theorem declarationName?_place :
    (ofLexemes whole).declarationName? (place index) = (ofLexemes core).declarationName? index := by
  have text_place (named : Nat) :
      whole[place named]?.map Lexeme.text = core[named]?.map Lexeme.text := by
    have same := congrArg (Option.map Prod.snd) (embeds.piece named)
    rw [Option.map_map, Option.map_map] at same
    exact same
  apply Option.ext
  intro name
  rw [declarationName?_eq_some_iff declares,
    declarationName?_eq_some_iff ((embeds.kind?_place index).trans declares)]
  constructor
  · rintro ⟨named, names, text_found⟩
    rcases embeds.exists_origin names.1 rfl with ⟨origin, rfl⟩
    rw [text_place] at text_found
    exact ⟨origin, embeds.names_place_iff.mp names, text_found⟩
  · rintro ⟨named, names, text_found⟩
    exact ⟨place named, embeds.names_place_iff.mpr names, (text_place named).trans text_found⟩

theorem returnsValue_place_iff :
    Standard.FunctionComment.ReturnsValue whole (place index) ↔
      Standard.FunctionComment.ReturnsValue core index := by
  have braced (kind : ScopeKind) (functionLike : kind.isFunctionLike = true) :
      kind.isBraced = true := by rw [ScopeKind.isBraced, functionLike, Bool.or_true]
  constructor
  · rintro ⟨body, returned, next, opened, innermost, returns, neighbours, other⟩
    rw [embeds.scopeOf?_place declares rfl, Option.map_eq_some_iff] at opened
    rcases opened with ⟨origin, opened, rfl⟩
    rw [kind?_ofLexemes] at returns
    rcases embeds.exists_origin returns rfl with ⟨source, rfl⟩
    rw [embeds.kind, ← kind?_ofLexemes] at returns
    rcases embeds.exists_neighbours_of_place neighbours with ⟨follower, follows, same | ends⟩
    · subst same
      rw [embeds.kind?_place] at other
      exact ⟨origin, source, follower, opened, (embeds.innermost_move_iff braced).mp innermost,
        returns, follows, other⟩
    · refine ⟨origin, source, follower, opened, (embeds.innermost_move_iff braced).mp innermost,
        returns, follows, ?_⟩
      rw [kind?_ofLexemes]
      rcases ends with ⟨-, ends | ends⟩ <;> rw [ends] <;> decide
  · rintro ⟨body, returned, next, opened, innermost, returns, neighbours, other⟩
    have moved_opened : (ofLexemes whole).scopeOf? (place index) = some (body.move place) := by
      rw [embeds.scopeOf?_place declares rfl, opened, Option.map_some]
    have moved_innermost := (embeds.innermost_move_iff braced).mpr innermost
    have moved_returns := (embeds.kind?_place returned).trans returns
    rcases embeds.exists_neighbours_place neighbours with ⟨follower, follows, same | ends⟩
    · subst same
      rw [← embeds.kind?_place] at other
      exact ⟨_, _, _, moved_opened, moved_innermost, moved_returns, follows, other⟩
    · refine ⟨_, _, _, moved_opened, moved_innermost, moved_returns, follows, ?_⟩
      rw [kind?_ofLexemes, ends.1]
      decide

theorem boundary?_place :
    Standard.FunctionComment.boundary? (ofLexemes whole) (place index) =
      (Standard.FunctionComment.boundary? (ofLexemes core) index).map place := by
  rw [kind?_ofLexemes] at declares
  apply embeds.findBefore_place _ declares rfl
  intro kind idle wanted
  rcases Places.eq_of_isIdle idle with rfl | rfl | rfl | rfl | rfl <;> cases wanted

end

/-- The search for a comment passes over the same attributes and ends at the same token. -/
theorem lastUnskipped?_place {skipped : Kind → Bool} (passes : PassesPadding (!skipped ·))
    (found : (settledKinds core)[bound]? = some kind) (back : goesBack kind = true) :
    (ofLexemes whole).lastUnskipped? skipped (place bound) =
      ((ofLexemes core).lastUnskipped? skipped bound).map place := by
  induction bound using Nat.strong_induction_on generalizing kind with
  | _ bound ih =>
    rw [lastUnskipped?_eq, embeds.findBefore_place passes found back, lastUnskipped?_eq]
    cases (ofLexemes core).findBefore (!skipped ·) bound with
    | none => rfl
    | some last =>
      simp only [Option.map_some, Option.bind_some, embeds.kind?_place, embeds.squares_eq,
        pairAt_move embeds.mono]
      split
      · next ends =>
          cases paired : pairAt (squares core) last with
          | none => rfl
          | some span =>
            simp only [Option.map_some, Option.bind_some, Span.move, embeds.mono.lt_iff_lt]
            split
            · next before =>
                have opens := attributeStart_of_pairAt ends paired
                exact ih span.opener before opens rfl
            · rfl
      · rfl

theorem runStart_place (passes : PassesPadding wanted)
    (found : (settledKinds core)[bound]? = some kind) (back : goesBack kind = true) :
    (ofLexemes whole).runStart wanted (place bound) ≤
        place ((ofLexemes core).runStart wanted bound) ∧
      ∀ other, (ofLexemes whole).runStart wanted (place bound) ≤ place other →
        (ofLexemes core).runStart wanted bound ≤ other := by
  rw [runStart, embeds.findBefore_place passes found back, runStart]
  cases (ofLexemes core).findBefore wanted bound with
  | none => exact ⟨Nat.zero_le _, fun other _ => Nat.zero_le other⟩
  | some last =>
    constructor
    · exact embeds.mono (Nat.lt_succ_self last)
    · intro other lower
      exact embeds.mono.lt_iff_lt.mp lower

theorem isPublic_place (declares : (ofLexemes core).kind? index = some .functionKw) :
    Standard.FunctionComment.isPublic (ofLexemes whole) (place index) =
      Standard.FunctionComment.isPublic (ofLexemes core) index := by
  rw [kind?_ofLexemes] at declares
  have core_inside : index < (settledKinds core).length := (List.getElem?_eq_some_iff.mp declares).1
  have whole_inside : place index < (settledKinds whole).length :=
    (List.getElem?_eq_some_iff.mp ((embeds.kind index).trans declares)).1
  have passes : PassesPadding (!·.mayPrecedeDeclaration) := fun _ _ _ => ⟨rfl, rfl, rfl⟩
  rcases embeds.runStart_place passes declares rfl with ⟨start_le, start_of_le⟩
  rw [isPublic_eq whole_inside, isPublic_eq core_inside]
  congr 2
  apply embeds.spread.extract_eq (runStart_le _ _ index) whole_inside.le start_le
  · rintro between lower upper other rfl
    exact absurd (embeds.mono.monotone (start_of_le other lower)) (Nat.not_le_of_lt upper)
  · intro other kind lower upper other_found idle
    have precedes := hasKind_eq_false_of_runStart_le lower upper
    rw [hasKind, kind?_ofLexemes, other_found] at precedes
    rcases Places.eq_of_isIdle idle with rfl | rfl | rfl | rfl | rfl <;> cases precedes

end Embeds

end Stream

end PhpStyle
