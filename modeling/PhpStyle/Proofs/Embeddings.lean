import Mathlib.Data.List.Sort
import PhpStyle.Proofs.ReturnTags
import PhpStyle.Proofs.Segmentation

/-!
# Embeddings of files

A file is embedded in another one if its tokens stand there, in the same order and with
the same readings, among tokens that do not matter to its structure: parts of doc
comments and commas before the end of an array. The brackets of the larger file, the
braces that its keywords own and the scopes around its tokens are then those of the
smaller one, moved to where its tokens stand.

What a rule asks about a function is preserved for the same reason: the name, the
visibility, the comment above it, the body and whether the body returns a value.
-/

namespace PhpStyle

open List

section Kept

variable {α : Type}

/-- Where the entries that are kept stand among all entries. Behind the last entry, places go on. -/
def keptPlace : List Bool → Nat → Nat
  | [], index => index
  | true :: _, 0 => 0
  | true :: flags, index + 1 => keptPlace flags index + 1
  | false :: flags, index => keptPlace flags index + 1

theorem getElem?_keptPlace (keep : α → Bool) (items : List α) (index : Nat) :
    items[keptPlace (items.map keep) index]? = (items.filter keep)[index]? := by
  induction items generalizing index with
  | nil => rw [filter_nil, getElem?_nil, getElem?_nil]
  | cons item items ih =>
    rw [map_cons, filter_cons]
    cases keep item with
    | false => exact ih index
    | true =>
      cases index with
      | zero => rfl
      | succ index => exact ih index

theorem strictMono_keptPlace (flags : List Bool) : StrictMono (keptPlace flags) := by
  induction flags with
  | nil => exact strictMono_id
  | cons flag flags ih =>
    intro first second ordered
    cases flag with
    | false => exact Nat.succ_lt_succ (ih ordered)
    | true =>
      cases second with
      | zero => exact absurd ordered (Nat.not_lt_zero first)
      | succ second =>
        cases first with
        | zero => exact Nat.succ_pos _
        | succ first => exact Nat.succ_lt_succ (ih (Nat.lt_of_succ_lt_succ ordered))

/-- A kept entry stands behind as many kept ones as its index among them. -/
theorem keptPlace_length_filter (keep : α → Bool) {front : List α} {item : α} {rest : List α}
    (kept : keep item = true) :
    keptPlace ((front ++ item :: rest).map keep) (front.filter keep).length = front.length := by
  induction front with
  | nil =>
    rw [nil_append, map_cons, kept]
    rfl
  | cons first front ih =>
    rw [cons_append, map_cons, filter_cons]
    cases keep first with
    | false => exact congrArg (· + 1) ih
    | true => exact congrArg (· + 1) ih

theorem exists_keptPlace (keep : α → Bool) {items : List α} {index : Nat} {item : α}
    (found : items[index]? = some item) (kept : keep item = true) :
    ∃ origin, index = keptPlace (items.map keep) origin := by
  induction items generalizing index with
  | nil => cases found
  | cons first items ih =>
    rw [map_cons]
    cases index with
    | zero =>
      obtain rfl := Option.some.inj found
      rw [kept]
      exact ⟨0, rfl⟩
    | succ index =>
      rcases ih found with ⟨origin, rfl⟩
      cases keep first with
      | false => exact ⟨origin, rfl⟩
      | true => exact ⟨origin + 1, rfl⟩

end Kept

variable {place : Nat → Nat}

namespace Places

/-- Parts of doc comments and commas decide nothing about scopes. -/
def isIdle (kind : Kind) : Bool :=
  kind.isDocBody || kind == .comma

variable {kind : Kind}

theorem eq_of_isIdle (idle : isIdle kind = true) :
    kind = .docWhitespace ∨ kind = .docStar ∨ kind = .docTag ∨ kind = .docString ∨
      kind = .comma := by
  revert idle
  cases kind <;> decide

/-- Kinds that decide nothing about which brace a keyword reaches. -/
def isInert : Kind → Bool
  | .openParenthesis | .closeParenthesis | .openCurly | .closeCurly | .semicolon => false
  | kind => !kind.ownsBraces

theorem isInert_of_isIdle (idle : isIdle kind = true) : isInert kind = true := by
  rcases eq_of_isIdle idle with rfl | rfl | rfl | rfl | rfl <;> rfl

theorem ownsBraces_of_isInert (inert : isInert kind = true) : kind.ownsBraces = false := by
  revert inert
  cases kind <;> decide

theorem reachedBrace_cons_of_isInert (inert : isInert kind = true) (depth index : Nat)
    (rest : Places) : reachedBrace depth ((kind, index) :: rest) = reachedBrace depth rest := by
  rw [reachedBrace.eq_def]
  dsimp only
  split <;> first | rfl | cases inert

/-- A keyword reaches the same brace over what has been put in. -/
theorem reachedBrace_of_padded {core whole : Places} (padded : Padded (isInert · = true) core whole)
    (depth : Nat) : reachedBrace depth whole = reachedBrace depth core := by
  induction padded generalizing depth with
  | nil => rfl
  | idle unused padded ih => rw [reachedBrace_cons_of_isInert unused, ih]
  | @entry entry core whole padded ih =>
    rw [reachedBrace.eq_def, reachedBrace.eq_def]
    dsimp only
    split
    · exact ih _
    · exact ih _
    · rfl
    · rfl
    · rfl
    · exact ih _

theorem reachedBrace_move (place : Nat → Nat) (places : Places) (depth : Nat) :
    reachedBrace depth (places.map fun entry => (entry.1, place entry.2)) =
      (reachedBrace depth places).map place := by
  induction places generalizing depth with
  | nil => rfl
  | cons entry places ih =>
    rw [map_cons, reachedBrace.eq_def, reachedBrace.eq_def]
    dsimp only
    split
    · exact ih _
    · exact ih _
    · rfl
    · rfl
    · rfl
    · exact ih _

theorem reaches_of_padded {core whole : Places}
    (padded : Padded (isInert · = true) core whole) : reaches whole = reaches core := by
  induction padded with
  | nil => rfl
  | idle unused padded ih =>
    rw [reaches, ownsBraces_of_isInert unused, if_neg Bool.false_ne_true, ih]
  | entry padded ih => rw [reaches, reaches, reachedBrace_of_padded padded, ih]

end Places

/-- An owner and its brackets moved. -/
def Ownership.move (place : Nat → Nat) (ownership : Ownership) : Ownership :=
  ⟨place ownership.owner, place ownership.opener⟩

theorem Places.reaches_move (place : Nat → Nat) (places : Places) :
    reaches (places.map fun entry => (entry.1, place entry.2)) =
      (reaches places).map (Ownership.move place) := by
  induction places with
  | nil => rfl
  | cons entry places ih =>
    rw [map_cons, reaches, reaches, reachedBrace_move, ih]
    split
    · cases reachedBrace 0 places <;> rfl
    · rfl

theorem Places.reaches_of_spread {core whole : List Kind}
    (spread : Spread (isInert · = true) core whole place) :
    reaches whole.zipIdx = (reaches core.zipIdx).map (Ownership.move place) :=
  (reaches_of_padded spread.padded).trans (reaches_move place core.zipIdx)

theorem Ownership.ownerOf_move (mono : StrictMono place) (owners : List Ownership) (opener : Nat) :
    ownerOf (owners.map (move place)) (place opener) = (ownerOf owners opener).map place := by
  have same : ((fun ownership : Ownership => ownership.opener == place opener) ∘ move place) =
      fun ownership => ownership.opener == opener := by
    funext ownership
    exact mono.injective.beq_eq
  rw [ownerOf, find?_map, same, ownerOf, Option.map_map, Option.map_map]
  rfl

/-- A condition with its owner moved. -/
def Condition.move (place : Nat → Nat) (condition : Condition) : Condition :=
  ⟨place condition.owner, condition.kind⟩

/-- A scope with its ends and its owner moved. -/
def Scope.move (place : Nat → Nat) (scope : Scope) : Scope :=
  { scope.toSpan.move place with kind := scope.kind, owner := place scope.owner }

theorem Kind.isSignificant_of_isDocBody {kind : Kind} (inside : kind.isDocBody = true) :
    kind.isSignificant = false := by
  revert inside
  cases kind <;> decide

theorem Scope.move_injective (injective : Function.Injective place) :
    Function.Injective (move place) := by
  rintro ⟨⟨opener, closer⟩, kind, owner⟩ ⟨⟨other_opener, other_closer⟩, other_kind, other_owner⟩ same
  simp only [move, Span.move, mk.injEq, Span.mk.injEq] at same
  rcases same with ⟨⟨same_opener, same_closer⟩, rfl, same_owner⟩
  rw [injective same_opener, injective same_closer, injective same_owner]

theorem exists_neighbours {kinds : List Kind} {left later : Nat}
    (left_significant : SignificantAt kinds left) (lt : left < later)
    (later_significant : SignificantAt kinds later) : ∃ next, Neighbours kinds left next := by
  classical
  have some_later : ∃ next, left < next ∧ SignificantAt kinds next :=
    ⟨later, lt, later_significant⟩
  rcases Nat.find_spec some_later with ⟨next_lt, next_significant⟩
  refine ⟨Nat.find some_later, next_lt, left_significant, next_significant, ?_⟩
  intro between lower upper significant
  exact Nat.find_min some_later upper ⟨lower, significant⟩

namespace Stream

/-- What an embedding may add to a file: a part of a doc comment, which ends before anything else
follows, or a comma before the end of an array. -/
inductive IsPadding (kinds : List Kind) (index : Nat) : Prop where
  | docBody {kind : Kind} (found : kinds[index]? = some kind) (inside : kind.isDocBody = true)
      (closed : ∀ later kind, index < later → kinds[later]? = some kind → kind.isDocBody = false →
        ∃ closer, index < closer ∧ closer ≤ later ∧ kinds[closer]? = some .docClose) :
      IsPadding kinds index
  | comma {closer : Nat} (found : kinds[index]? = some .comma)
      (neighbours : Neighbours kinds index closer)
      (ends : kinds[closer]? = some .closeParenthesis ∨ kinds[closer]? = some .closeShortArray) :
      IsPadding kinds index

theorem IsPadding.exists_isIdle {kinds : List Kind} {index : Nat}
    (padding : IsPadding kinds index) :
    ∃ kind, kinds[index]? = some kind ∧ Places.isIdle kind = true := by
  cases padding with
  | @docBody kind found inside _ => exact ⟨kind, found, by rw [Places.isIdle, inside]; rfl⟩
  | comma found _ _ => exact ⟨.comma, found, rfl⟩

/-- The tokens of a file stand in another one at the given places, as they were read there, and all
other tokens of that file are padding. -/
structure Embeds (core whole : List Lexeme) (place : Nat → Nat) : Prop where
  mono : StrictMono place
  piece : ∀ index, whole[place index]?.map Lexeme.piece = core[index]?.map Lexeme.piece
  kind : ∀ index, (settledKinds whole)[place index]? = (settledKinds core)[index]?
  padding : ∀ index kind, (settledKinds whole)[index]? = some kind →
    (∃ origin, index = place origin) ∨ IsPadding (settledKinds whole) index

theorem kind_of_isIdle {lexemes : List Lexeme} {index : Nat} {kind : Kind} {lexeme : Lexeme}
    (settled : (settledKinds lexemes)[index]? = some kind) (idle : Places.isIdle kind = true)
    (found : lexemes[index]? = some lexeme) : lexeme.kind = kind := by
  rw [← kind?_ofLexemes] at settled
  rcases reading_of_kind? settled with ⟨other, word, other_found, -, word_reading, bracket_reading⟩
  obtain rfl := Option.some.inj (found.symm.trans other_found)
  generalize lexeme.kind = lexed at word_reading ⊢
  cases bracket_reading with
  | same =>
    cases word_reading with
    | same => rfl
    | name _ => cases idle
    | anonClass => cases idle
    | closure => cases idle
  | opener => cases idle
  | closer => cases idle
  | attributeEnd => cases idle

theorem bracePairs_eq_pairs (lexemes : List Lexeme) :
    bracePairs lexemes = pairs (Family.braces.sides lexemes) :=
  congrArg pairs (map_side_settledKinds (show Family.braces ≠ .squares by decide) lexemes)

theorem squares_eq_pairs (lexemes : List Lexeme) :
    squares lexemes = pairs (Family.squares.sides lexemes) :=
  congrArg pairs (map_side_settledWords .squares lexemes)

theorem parentheses_eq_pairs (lexemes : List Lexeme) :
    parentheses lexemes = pairs (Family.parentheses.sides lexemes) :=
  congrArg pairs (map_side_settledKinds (show Family.parentheses ≠ .squares by decide) lexemes)

theorem openedScope?_move {core whole : List Lexeme} {brace : Nat}
    (kinds : ∀ index, (ofLexemes whole).kind? (place index) = (ofLexemes core).kind? index)
    (owned : braceOwner? whole (place brace) = (braceOwner? core brace).map place) :
    openedScope? whole (place brace) = (openedScope? core brace).map (Condition.move place) := by
  rw [openedScope?, owned, openedScope?]
  cases braceOwner? core brace with
  | none => rfl
  | some owner =>
    simp only [Option.map_some, Option.bind_eq_bind, Option.bind_some, kinds]
    cases (ofLexemes core).kind? owner with
    | none => rfl
    | some kind =>
      simp only [Option.bind_some]
      cases ScopeKind.ofOwner? kind <;> rfl

namespace Embeds

variable {core whole : List Lexeme} {place : Nat → Nat} (embeds : Embeds core whole place)

include embeds

variable {index : Nat} {scope : Scope}

theorem kind?_place (index : Nat) :
    (ofLexemes whole).kind? (place index) = (ofLexemes core).kind? index := by
  rw [kind?_ofLexemes, kind?_ofLexemes, embeds.kind]

theorem exists_origin {kind : Kind} (found : (settledKinds whole)[index]? = some kind)
    (counts : Places.isIdle kind = false) : ∃ origin, index = place origin := by
  rcases embeds.padding index kind found with image | padding
  · exact image
  · rcases padding.exists_isIdle with ⟨other, other_found, idle⟩
    rw [Option.some.inj (found.symm.trans other_found), idle] at counts
    cases counts

/-- The readings of a file are spread over those of the larger one. -/
theorem spread : Spread (Places.isIdle · = true) (settledKinds core) (settledKinds whole) place where
  mono := embeds.mono
  at_place := embeds.kind
  idle index kind found := by
    rcases embeds.padding index kind found with image | padding
    · exact .inl image
    · rcases padding.exists_isIdle with ⟨other, other_found, idle⟩
      rw [Option.some.inj (found.symm.trans other_found)]
      exact .inr idle

theorem spread_sides (family : Family) :
    Spread (· = .neither) (family.sides core) (family.sides whole) place where
  mono := embeds.mono
  at_place index := by
    have same := congrArg (Option.map fun piece => family.side piece.1) (embeds.piece index)
    rw [Option.map_map, Option.map_map] at same
    rw [Family.sides, getElem?_map, Family.sides, getElem?_map]
    exact same
  idle index side found := by
    rw [Family.sides, getElem?_map, Option.map_eq_some_iff] at found
    rcases found with ⟨lexeme, found, rfl⟩
    rcases kind?_of_getElem? found with ⟨kind, settled⟩
    rw [kind?_ofLexemes] at settled
    rcases embeds.padding index kind settled with image | padding
    · exact .inl image
    · rcases padding.exists_isIdle with ⟨other, settled, idle⟩
      rw [kind_of_isIdle settled idle found]
      right
      rcases Places.eq_of_isIdle idle with rfl | rfl | rfl | rfl | rfl <;> cases family <;> rfl

theorem bracePairs_eq : bracePairs whole = (bracePairs core).map (Span.move place) := by
  rw [bracePairs_eq_pairs, bracePairs_eq_pairs, (embeds.spread_sides .braces).pairs_eq]

theorem squares_eq : squares whole = (squares core).map (Span.move place) := by
  rw [squares_eq_pairs, squares_eq_pairs, (embeds.spread_sides .squares).pairs_eq]

theorem bodies_eq : (structureOf (whole.map Lexeme.kind)).bodies =
    (structureOf (core.map Lexeme.kind)).bodies.map (Ownership.move place) :=
  Places.reaches_of_spread (embeds.spread.imp fun _ => Places.isInert_of_isIdle)

theorem braceOwner?_place (brace : Nat) :
    braceOwner? whole (place brace) = (braceOwner? core brace).map place := by
  rw [braceOwner?, embeds.bodies_eq, Ownership.ownerOf_move embeds.mono, braceOwner?]

theorem openedScope?_place (brace : Nat) :
    openedScope? whole (place brace) = (openedScope? core brace).map (Condition.move place) :=
  openedScope?_move embeds.kind?_place (embeds.braceOwner?_place brace)

theorem exists_scope_of_scopeOf? (braced : scope.kind.isBraced = true)
    (opened : (ofLexemes whole).scopeOf? scope.owner = some scope) :
    ∃ origin : Scope, (ofLexemes core).scopeOf? origin.owner = some origin ∧
      scope = origin.move place := by
  rw [scopeOf?_iff_of_isBraced braced, embeds.bracePairs_eq, mem_map] at opened
  rcases opened with ⟨⟨span, paired, moved⟩, opened⟩
  rw [← moved, show (span.move place).opener = place span.opener from rfl,
    embeds.openedScope?_place, Option.map_eq_some_iff] at opened
  rcases opened with ⟨condition, opened, same⟩
  have kind_eq : condition.kind = scope.kind := congrArg Condition.kind same
  have owner_eq : place condition.owner = scope.owner := congrArg Condition.owner same
  let origin : Scope := { span with kind := condition.kind, owner := condition.owner }
  have origin_braced : origin.kind.isBraced = true := by
    rw [show origin.kind = scope.kind from kind_eq]
    exact braced
  refine ⟨origin, (scopeOf?_iff_of_isBraced origin_braced).mpr ⟨paired, opened⟩, ?_⟩
  rcases scope with ⟨toSpan, kind, owner⟩
  subst kind_eq owner_eq moved
  rfl

/-- Scopes of braces are moved with their tokens. -/
theorem scopeOf?_move_iff (braced : scope.kind.isBraced = true) :
    (ofLexemes whole).scopeOf? (place scope.owner) = some (scope.move place) ↔
      (ofLexemes core).scopeOf? scope.owner = some scope := by
  have moved_braced : (scope.move place).kind.isBraced = true := braced
  constructor
  · intro opened
    rcases embeds.exists_scope_of_scopeOf? moved_braced opened with ⟨origin, origin_opened, same⟩
    rw [Scope.move_injective embeds.mono.injective same]
    exact origin_opened
  · intro opened
    apply (scopeOf?_iff_of_isBraced moved_braced).mpr
    rw [scopeOf?_iff_of_isBraced braced] at opened
    constructor
    · rw [embeds.bracePairs_eq]
      exact mem_map_of_mem opened.1
    · exact (embeds.openedScope?_place scope.opener).trans (congrArg (Option.map _) opened.2)

theorem scopeOf?_place {kind : Kind} (declares : (ofLexemes core).kind? index = some kind)
    (owns : kind.ownsBraces = true) :
    (ofLexemes whole).scopeOf? (place index) =
      ((ofLexemes core).scopeOf? index).map (Scope.move place) := by
  have braced {stream : Stream} {owner : Nat} {scope : Scope}
      (found : stream.kind? owner = some kind) (opened : stream.scopeOf? owner = some scope) :
      scope.kind.isBraced = true := by
    rw [ScopeKind.isBraced_of_ofOwner? (ofOwner?_of_scopeOf? opened found), owns]
  apply Option.ext
  intro scope
  rw [Option.map_eq_some_iff]
  constructor
  · intro opened
    have scope_braced := braced ((embeds.kind?_place index).trans declares) opened
    have owner_eq := (scopeOf?_eq_some_iff.mp opened).1
    rw [← owner_eq] at opened
    rcases embeds.exists_scope_of_scopeOf? scope_braced opened with ⟨origin, origin_opened, rfl⟩
    obtain rfl : origin.owner = index := embeds.mono.injective owner_eq
    exact ⟨origin, origin_opened, rfl⟩
  · rintro ⟨origin, opened, rfl⟩
    obtain rfl := (scopeOf?_eq_some_iff.mp opened).1
    exact (embeds.scopeOf?_move_iff (braced declares opened)).mpr opened

/-- Innermost scopes of braces are moved with their tokens. -/
theorem innermost_move_iff {wanted : ScopeKind → Bool}
    (braced : ∀ kind, wanted kind = true → kind.isBraced = true) :
    (ofLexemes whole).Innermost wanted (place index) (scope.move place) ↔
      (ofLexemes core).Innermost wanted index scope := by
  have around_iff (other : Scope) :
      (other.move place).contains (place index) = true ↔ other.contains index = true :=
    Eq.congr_left (Span.contains_move embeds.mono other.toSpan index)
  constructor
  · rintro ⟨opened, isWanted, around, last⟩
    refine ⟨(embeds.scopeOf?_move_iff (braced scope.kind isWanted)).mp opened, isWanted,
      (around_iff scope).mp around, ?_⟩
    intro other other_opened other_wanted other_around
    apply embeds.mono.le_iff_le.mp
    apply last (other.move place) _ other_wanted ((around_iff other).mpr other_around)
    exact (embeds.scopeOf?_move_iff (braced _ other_wanted)).mpr other_opened
  · rintro ⟨opened, isWanted, around, last⟩
    refine ⟨(embeds.scopeOf?_move_iff (braced _ isWanted)).mpr opened, isWanted,
      (around_iff scope).mpr around, ?_⟩
    intro other other_opened other_wanted other_around
    rcases embeds.exists_scope_of_scopeOf? (braced _ other_wanted) other_opened with
      ⟨origin, origin_opened, rfl⟩
    apply embeds.mono.monotone
    exact last origin origin_opened other_wanted ((around_iff origin).mp other_around)

theorem significantAt_place_iff (index : Nat) :
    SignificantAt (settledKinds whole) (place index) ↔ SignificantAt (settledKinds core) index := by
  rw [SignificantAt, embeds.kind, SignificantAt]

theorem neighbours_of_place {next : Nat}
    (neighbours : Neighbours (settledKinds whole) (place index) (place next)) :
    Neighbours (settledKinds core) index next where
  lt := embeds.mono.lt_iff_lt.mp neighbours.lt
  left_significant := (embeds.significantAt_place_iff index).mp neighbours.left_significant
  right_significant := (embeds.significantAt_place_iff next).mp neighbours.right_significant
  between other lower upper := by
    rw [← embeds.significantAt_place_iff]
    exact neighbours.between (place other) (embeds.mono lower) (embeds.mono upper)

/-- A significant token of the larger file is one of the smaller file, or a comma that stands before
one. -/
theorem exists_origin_of_significantAt (significant : SignificantAt (settledKinds whole) index) :
    (∃ origin, index = place origin) ∨
      (settledKinds whole)[index]? = some .comma ∧
        ∃ closer, Neighbours (settledKinds whole) index (place closer) ∧
          ((settledKinds core)[closer]? = some .closeParenthesis ∨
            (settledKinds core)[closer]? = some .closeShortArray) := by
  rcases significant with ⟨kind, found, kept⟩
  rcases embeds.padding index kind found with image | padding
  · exact .inl image
  · right
    cases padding with
    | @docBody other other_found inside _ =>
      rw [Option.some.inj (found.symm.trans other_found),
        Kind.isSignificant_of_isDocBody inside] at kept
      cases kept
    | @comma closer comma_found neighbours ends =>
      have closer_image : ∃ origin, closer = place origin := by
        rcases ends with ends | ends
        · exact embeds.exists_origin ends rfl
        · exact embeds.exists_origin ends rfl
      rcases closer_image with ⟨origin, rfl⟩
      rw [embeds.kind] at ends
      exact ⟨comma_found, origin, neighbours, ends⟩

/-- The next significant token is the same one, unless a comma has been put before it. -/
theorem exists_neighbours_of_place {next : Nat}
    (neighbours : Neighbours (settledKinds whole) (place index) next) :
    ∃ origin, Neighbours (settledKinds core) index origin ∧
      (next = place origin ∨ (settledKinds whole)[next]? = some .comma ∧
        ((settledKinds core)[origin]? = some .closeParenthesis ∨
          (settledKinds core)[origin]? = some .closeShortArray)) := by
  by_cases image : ∃ origin, next = place origin
  · rcases image with ⟨origin, rfl⟩
    exact ⟨origin, embeds.neighbours_of_place neighbours, .inl rfl⟩
  · rcases embeds.exists_origin_of_significantAt neighbours.right_significant with
      there | ⟨comma, closer, behind, ends⟩
    · exact absurd there image
    · have significant := (embeds.significantAt_place_iff index).mp neighbours.left_significant
      have closer_significant := (embeds.significantAt_place_iff closer).mp behind.right_significant
      have lt := embeds.mono.lt_iff_lt.mp (neighbours.lt.trans behind.lt)
      refine ⟨closer, ⟨lt, significant, closer_significant, ?_⟩, .inr ⟨comma, ends⟩⟩
      intro other lower upper
      rw [← embeds.significantAt_place_iff]
      rcases Nat.lt_or_gt_of_ne fun same => image ⟨other, same⟩ with later | earlier
      · exact behind.between (place other) later (embeds.mono upper)
      · exact neighbours.between (place other) (embeds.mono lower) earlier

/-- The next token stays the next one, unless a comma has been put before a closing bracket. -/
theorem exists_neighbours_place {origin : Nat}
    (neighbours : Neighbours (settledKinds core) index origin) :
    ∃ next, Neighbours (settledKinds whole) (place index) next ∧
      (next = place origin ∨ (settledKinds whole)[next]? = some .comma ∧
        ((settledKinds core)[origin]? = some .closeParenthesis ∨
          (settledKinds core)[origin]? = some .closeShortArray)) := by
  rcases exists_neighbours ((embeds.significantAt_place_iff index).mpr neighbours.left_significant)
    (embeds.mono neighbours.lt)
    ((embeds.significantAt_place_iff origin).mpr neighbours.right_significant) with ⟨next, found⟩
  rcases embeds.exists_neighbours_of_place found with ⟨other, other_neighbours, place_eq⟩
  rw [neighbours.right_eq other_neighbours]
  exact ⟨next, found, place_eq⟩

end Embeds

end Stream

end PhpStyle
