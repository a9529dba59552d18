import PhpStyle.Proofs.Pointers

/-!
# Scopes around a token

The queries for the scopes of braces around a token go by its conditions, in which
a brace stands for its keyword whether it is ever closed or not. A scope is a pair
of braces. The two agree because everything that opens inside of a pair is closed
inside of it: the innermost condition of a kind has a pair of braces as soon as one
condition of that kind has one.

So the innermost scope around a token is the one that opens last among those that
contain the token.
-/

namespace PhpStyle

open List

theorem find?_reverse_filterMap_eq_some_iff {β : Type} {items : List Nat}
    (sorted : items.Pairwise (· < ·)) (select : Nat → Option β) (wanted : β → Bool) {found : β} :
    (items.filterMap select).reverse.find? wanted = some found ↔
      wanted found = true ∧ ∃ item ∈ items, select item = some found ∧
        ∀ later ∈ items, item < later → ∀ other, select later = some other →
          wanted other = false := by
  constructor
  · intro search
    rcases find?_eq_some_iff_append.mp search with ⟨isWanted, behind, before, split, unwanted⟩
    rw [reverse_eq_iff, reverse_append, reverse_cons, List.append_assoc, singleton_append,
      filterMap_eq_append_iff] at split
    rcases split with ⟨front, back, rfl, -, split⟩
    rcases filterMap_eq_cons_iff.mp split with ⟨skipped, item, rest, rfl, silent, selected, rest_eq⟩
    refine ⟨isWanted, item, by simp, selected, fun later inside later_lt other chosen => ?_⟩
    have listed : later ∈ rest := by
      simp only [pairwise_append, pairwise_cons, mem_append, mem_cons] at sorted inside
      grind
    have : other ∈ behind.reverse := rest_eq ▸ mem_filterMap.mpr ⟨later, listed, chosen⟩
    simpa using unwanted other (by simpa using this)
  · rintro ⟨isWanted, item, inside, selected, last⟩
    rcases append_of_mem inside with ⟨front, rest, rfl⟩
    have silent : (rest.filterMap select).reverse.find? wanted = none := by
      simp only [find?_eq_none, mem_reverse, mem_filterMap]
      rintro other ⟨later, listed, chosen⟩
      have later_lt := (pairwise_cons.mp (pairwise_append.mp sorted).2.1).1 later listed
      simp [last later (by simp [listed]) later_lt other chosen]
    rw [filterMap_append, filterMap_cons_some selected, reverse_append, reverse_cons,
      List.append_assoc, find?_append, silent, Option.none_or, singleton_append,
      find?_cons_of_pos isWanted]

section Closing

variable {all : List Side} {index opener : Nat}

theorem exists_openersAt (bound : index ≤ all.length) : ∃ openers, OpenersAt all index openers := by
  induction index with
  | zero => exact ⟨[], .start all⟩
  | succ index ih =>
    rcases ih (by omega) with ⟨openers, at_index⟩
    have found := getElem?_eq_getElem (show index < all.length by omega)
    exact ⟨_, at_index.step found⟩

/-- What opens inside of a pair of brackets has a partner inside of it. -/
theorem exists_pair_of_opens {outer : Span} (paired : outer ∈ pairs all)
    (opens : all[opener]? = some .opens) (lower : outer.opener < opener)
    (upper : opener < outer.closer) :
    ∃ inner ∈ pairs all, inner.opener = opener ∧ inner.closer < outer.closer := by
  have closes := (pair_of_mem paired).2.2
  have bound := (List.getElem?_eq_some_iff.mp closes).1
  rcases exists_openersAt (Nat.le_of_lt bound) with ⟨openers, at_closer⟩
  have innermost : openers.head? = some outer.opener :=
    (at_closer.stillOpen.mem_pairs_iff closes rfl).mp paired
  have sorted := at_closer.stillOpen.places.sorted
  by_contra alone
  have listed : opener ∈ openers := by
    apply (at_closer.mem_iff opener).mpr
    refine ⟨upper, opens, ?_⟩
    intro inner inner_paired same
    by_contra early
    exact alone ⟨inner, inner_paired, same, by omega⟩
  cases openers with
  | nil => simp at listed
  | cons first outside =>
    rcases Option.some.inj innermost with rfl
    rcases List.mem_cons.mp listed with rfl | further
    · omega
    · have := (List.pairwise_cons.mp sorted).1 opener further
      omega

end Closing

/-- The kinds of the scopes that braces bound. -/
def ScopeKind.isBraced (kind : ScopeKind) : Bool :=
  kind.isClassLike || kind.isFunctionLike

theorem ScopeKind.isBraced_of_ofOwner? {kind : Kind} {scope : ScopeKind}
    (opens : ofOwner? kind = some scope) : scope.isBraced = kind.ownsBraces := by
  cases kind <;> simp [ofOwner?] at opens <;> subst opens <;> rfl

theorem Token.scopeSpan?_of_ownsBraces {token : Token} (owns : token.kind.ownsBraces = true) :
    token.scopeSpan? = token.braces := by
  unfold scopeSpan?
  revert owns
  cases token.kind <;> simp [Kind.ownsBraces]

namespace Stream

theorem scopeOf?_eq_some_iff {stream : Stream} {index : Nat} {scope : Scope} :
    stream.scopeOf? index = some scope ↔ scope.owner = index ∧
      ∃ token, stream.get? index = some token ∧ ScopeKind.ofOwner? token.kind = some scope.kind ∧
        token.scopeSpan? = some scope.toSpan := by
  rcases scope with ⟨span, kind, owner⟩
  simp only [scopeOf?, Option.bind_eq_bind, Option.bind_eq_some_iff, Option.pure_def,
    Option.some.injEq, Scope.mk.injEq]
  constructor
  · rintro ⟨token, found, other, opens, bounds, span_eq, rfl, rfl, rfl⟩
    exact ⟨rfl, token, found, opens, span_eq⟩
  · rintro ⟨rfl, token, found, opens, span_eq⟩
    exact ⟨token, found, kind, opens, span, span_eq, rfl, rfl, rfl⟩

section Braces

variable {lexemes : List Lexeme} {index : Nat} {scope : Scope}

variable {brace : Nat} {condition : Condition}

theorem openedScope?_eq_some_iff :
    openedScope? lexemes brace = some condition ↔
      braceOwner? lexemes brace = some condition.owner ∧
        ∃ token, (ofLexemes lexemes).get? condition.owner = some token ∧
          ScopeKind.ofOwner? token.kind = some condition.kind := by
  rcases condition with ⟨owner, kind⟩
  simp only [openedScope?, Option.bind_eq_bind, Option.bind_eq_some_iff, Option.pure_def,
    Option.some.injEq, Condition.mk.injEq, kind?, Option.map_eq_some_iff]
  constructor
  · rintro ⟨other, owned, -, ⟨token, found, rfl⟩, scope, opens, rfl, rfl⟩
    exact ⟨owned, token, found, opens⟩
  · rintro ⟨owned, token, found, opens⟩
    exact ⟨owner, owned, token.kind, ⟨token, found, rfl⟩, kind, opens, rfl, rfl⟩

/-- A scope of braces is a pair of braces whose opener has an owner. -/
theorem scopeOf?_iff_of_isBraced (braced : scope.kind.isBraced = true) :
    (ofLexemes lexemes).scopeOf? scope.owner = some scope ↔
      scope.toSpan ∈ bracePairs lexemes ∧
        openedScope? lexemes scope.opener = some ⟨scope.owner, scope.kind⟩ := by
  rw [scopeOf?_eq_some_iff]
  constructor
  · rintro ⟨-, token, found, opens, span_eq⟩
    have owns : token.kind.ownsBraces = true :=
      (ScopeKind.isBraced_of_ofOwner? opens).symm.trans braced
    rw [Token.scopeSpan?_of_ownsBraces owns] at span_eq
    rcases braceOwner?_of_braces found owns span_eq with ⟨paired, owned⟩
    exact ⟨paired, openedScope?_eq_some_iff.mpr ⟨owned, token, found, opens⟩⟩
  · rintro ⟨paired, opened⟩
    rcases openedScope?_eq_some_iff.mp opened with ⟨owned, token, found, opens⟩
    have owns : token.kind.ownsBraces = true :=
      (ScopeKind.isBraced_of_ofOwner? opens).symm.trans braced
    refine ⟨rfl, token, found, opens, ?_⟩
    have opener : Ownership.openerOf (structureOf (lexemes.map Lexeme.kind)).bodies scope.owner =
        some scope.opener := by
      change Ownership.openerOf (Family.braces.owners lexemes) scope.owner = some scope.opener
      exact openerOf_eq_some_iff.mpr ⟨Ownership.mem_of_ownerOf owned, owned⟩
    rw [Token.scopeSpan?_of_ownsBraces owns, braces_of_get? found, opener, Option.getD_some]
    exact pairAt_opener paired

theorem isBraced_of_openedScope? (opened : openedScope? lexemes brace = some condition) :
    condition.kind.isBraced = true := by
  rcases openedScope?_eq_some_iff.mp opened with ⟨owned, token, found, opens⟩
  rcases openedScope?_of_braceOwner? owned with ⟨kind, -, kind_found, owns, -⟩
  rw [kind?, found, Option.map_some, Option.some.injEq] at kind_found
  rw [ScopeKind.isBraced_of_ofOwner? opens, kind_found, owns]

theorem mem_enclosingBraces_of_contains {span : Span} (paired : span ∈ bracePairs lexemes)
    (around : span.contains index = true) :
    span.opener ∈ (ofLexemes lexemes).enclosingBraces index := by
  simp only [Span.contains, Bool.and_eq_true, decide_eq_true_eq] at around
  apply mem_enclosingBraces_iff.mpr
  refine ⟨around.1, (pair_of_mem paired).2.1, ?_⟩
  intro other other_paired same
  rw [eq_of_opener_eq other_paired paired same]
  exact around.2

theorem contains_of_mem_enclosingBraces {span : Span} (paired : span ∈ bracePairs lexemes)
    (enclosing : span.opener ∈ (ofLexemes lexemes).enclosingBraces index) :
    span.contains index = true := by
  rcases mem_enclosingBraces_iff.mp enclosing with ⟨lower, -, unclosed⟩
  simp only [Span.contains, Bool.and_eq_true, decide_eq_true_eq]
  exact ⟨lower, unclosed span paired rfl⟩

/-- Inside of a pair of braces only pairs of braces enclose a token. -/
theorem exists_pair_of_mem_enclosingBraces {outer : Span} (paired : outer ∈ bracePairs lexemes)
    (around : outer.contains index = true)
    (enclosing : brace ∈ (ofLexemes lexemes).enclosingBraces index) (later : outer.opener < brace) :
    ∃ inner ∈ bracePairs lexemes, inner.opener = brace := by
  simp only [Span.contains, Bool.and_eq_true, decide_eq_true_eq] at around
  rcases mem_enclosingBraces_iff.mp enclosing with ⟨lower, opens, -⟩
  rcases exists_pair_of_opens paired opens later (by omega) with ⟨inner, inner_paired, same, -⟩
  exact ⟨inner, inner_paired, same⟩

theorem sorted_enclosingBraces (stream : Stream) (index : Nat) :
    (stream.enclosingBraces index).Pairwise (· < ·) :=
  List.pairwise_lt_range.sublist filter_sublist

theorem innermostCondition_eq_some_iff {token : Token} {wanted : ScopeKind → Bool}
    (found : (ofLexemes lexemes).get? index = some token) :
    token.innermostCondition wanted = some condition ↔ wanted condition.kind = true ∧
      ∃ brace ∈ (ofLexemes lexemes).enclosingBraces index,
        openedScope? lexemes brace = some condition ∧
        ∀ later ∈ (ofLexemes lexemes).enclosingBraces index, brace < later →
          ∀ other, openedScope? lexemes later = some other → wanted other.kind = false := by
  rw [Token.innermostCondition, conditions_eq_filterMap found]
  exact find?_reverse_filterMap_eq_some_iff (sorted_enclosingBraces _ _) (openedScope? lexemes)
    (fun condition => wanted condition.kind)

end Braces

/-- The scope is the innermost one of a wanted kind around a token: of all that contain the token
it opens last. -/
structure Innermost (stream : Stream) (wanted : ScopeKind → Bool) (index : Nat) (scope : Scope) :
    Prop where
  opened : stream.scopeOf? scope.owner = some scope
  isWanted : wanted scope.kind = true
  around : scope.contains index = true
  last : ∀ other : Scope, stream.scopeOf? other.owner = some other → wanted other.kind = true →
    other.contains index = true → other.opener ≤ scope.opener

section Innermost

variable {lexemes : List Lexeme} {index : Nat} {scope : Scope} {wanted : ScopeKind → Bool}
  (braced : ∀ kind, wanted kind = true → kind.isBraced = true)

include braced

theorem Innermost.innermostCondition_eq {token : Token}
    (innermost : (ofLexemes lexemes).Innermost wanted index scope)
    (found : (ofLexemes lexemes).get? index = some token) :
    token.innermostCondition wanted = some ⟨scope.owner, scope.kind⟩ := by
  rcases innermost with ⟨opened, isWanted, around, last⟩
  rcases (scopeOf?_iff_of_isBraced (braced _ isWanted)).mp opened with ⟨paired, opens⟩
  apply (innermostCondition_eq_some_iff found).mpr
  refine ⟨isWanted, scope.opener, mem_enclosingBraces_of_contains paired around, opens, ?_⟩
  intro later enclosing later_lt other other_opens
  by_contra other_wanted
  rcases exists_pair_of_mem_enclosingBraces paired around enclosing later_lt with
    ⟨inner, inner_paired, rfl⟩
  let innerScope : Scope := ⟨inner, other.kind, other.owner⟩
  have inner_braced : innerScope.kind.isBraced = true := isBraced_of_openedScope? other_opens
  have inner_opened := (scopeOf?_iff_of_isBraced inner_braced).mpr ⟨inner_paired, other_opens⟩
  have := last innerScope inner_opened (by simpa using other_wanted)
    (contains_of_mem_enclosingBraces inner_paired enclosing)
  exact absurd later_lt (Nat.not_lt.mpr this)

theorem innermost_of_innermostCondition {token : Token}
    (found : (ofLexemes lexemes).get? index = some token)
    (condition : token.innermostCondition wanted = some ⟨scope.owner, scope.kind⟩)
    (opened : (ofLexemes lexemes).scopeOf? scope.owner = some scope) :
    (ofLexemes lexemes).Innermost wanted index scope := by
  rcases (innermostCondition_eq_some_iff found).mp condition with
    ⟨isWanted, brace, enclosing, opens, last⟩
  rcases (scopeOf?_iff_of_isBraced (braced _ isWanted)).mp opened with ⟨paired, also_opens⟩
  have reached := reaches_of_braceOwner? (openedScope?_eq_some_iff.mp opens).1
  have also_reached := reaches_of_braceOwner? (openedScope?_eq_some_iff.mp also_opens).1
  rcases also_reached.brace_eq reached with rfl
  refine ⟨opened, isWanted, contains_of_mem_enclosingBraces paired enclosing, ?_⟩
  intro other other_opened other_wanted other_around
  rcases (scopeOf?_iff_of_isBraced (braced _ other_wanted)).mp other_opened with
    ⟨other_paired, other_opens⟩
  by_contra later
  have := last other.opener (mem_enclosingBraces_of_contains other_paired other_around)
    (by omega) _ other_opens
  simp [other_wanted] at this

theorem enclosingScope?_eq_some_iff :
    (ofLexemes lexemes).enclosingScope? index wanted = some scope ↔
      (ofLexemes lexemes).Innermost wanted index scope := by
  simp only [enclosingScope?, Option.bind_eq_bind, Option.bind_eq_some_iff]
  constructor
  · rintro ⟨token, found, ⟨owner, kind⟩, condition, opened⟩
    rcases scopeOf?_eq_some_iff.mp opened with ⟨rfl, keyword, keyword_found, keyword_opens, -⟩
    rcases (innermostCondition_eq_some_iff found).mp condition with ⟨-, brace, -, opens, -⟩
    rcases (openedScope?_eq_some_iff.mp opens).2 with ⟨other, other_found, other_opens⟩
    rcases Option.some.inj (keyword_found.symm.trans other_found) with rfl
    rcases Option.some.inj (keyword_opens.symm.trans other_opens) with rfl
    exact innermost_of_innermostCondition braced found condition opened
  · intro innermost
    have bounds := (bounds_of_scopeOf? innermost.opened).2.2
    have around := innermost.around
    simp only [Span.contains, Bool.and_eq_true, decide_eq_true_eq] at around
    rcases exists_token (show index < (ofLexemes lexemes).size by omega) with ⟨token, found⟩
    exact ⟨token, found, _, innermost.innermostCondition_eq braced found, innermost.opened⟩

end Innermost

/-- A token belongs to the function or closure whose body is the innermost one around it. -/
theorem owningFunction?_eq_some_iff {lexemes : List Lexeme} {index : Nat} {body : Scope}
    (opened : (ofLexemes lexemes).scopeOf? body.owner = some body) :
    (ofLexemes lexemes).owningFunction? index = some body.owner ↔
      (ofLexemes lexemes).Innermost ScopeKind.isFunctionLike index body := by
  have braced : ∀ kind : ScopeKind, kind.isFunctionLike = true → kind.isBraced = true := by
    intro kind functionLike
    simp [ScopeKind.isBraced, functionLike]
  rw [← enclosingScope?_eq_some_iff braced]
  simp only [owningFunction?, enclosingScope?, Option.bind_eq_bind, Option.bind_eq_some_iff,
    Option.pure_def, Option.some.injEq]
  constructor
  · rintro ⟨token, found, condition, innermost, same⟩
    exact ⟨token, found, condition, innermost, by rw [same, opened]⟩
  · rintro ⟨token, found, condition, innermost, scope_eq⟩
    exact ⟨token, found, condition, innermost, (scopeOf?_eq_some_iff.mp scope_eq).1.symm⟩

end Stream

end PhpStyle
