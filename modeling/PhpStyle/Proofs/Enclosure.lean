import Mathlib.Data.List.Sort
import PhpStyle.Proofs.ArrayEnds

/-!
# Scopes of braces

The conditions of a token are found by a walk that keeps, for each brace still
open, the condition that it stands for. This file says what they are without the
walk: one condition for each brace before the token that has an owner and that is
not closed up to the token, in the order of the braces. Nothing is asked of the
file. A `}` without a partner closes nothing, and a `{` without one encloses the
rest of the file.

A keyword reaches one brace at most, so that no two braces have the same owner,
and it stands before the brace. Hence a stack of conditions alone, from which a
closing brace takes the last one if it has the same owner, gives the same lists.
-/

namespace PhpStyle

open List

section Unclosed

variable {all : List Side} {index opener : Nat} {openers : List Nat} {side : Side}

/-- A bracket opens at the place, and no partner closes it before the bound. -/
def Unclosed (all : List Side) (opener bound : Nat) : Prop :=
  all[opener]? = some .opens ∧ ∀ span ∈ pairs all, span.opener = opener → bound ≤ span.closer

/-- The openers with which the scan for pairs goes on at a place are all that are unclosed there. -/
structure OpenersAt (all : List Side) (index : Nat) (openers : List Nat) : Prop where
  stillOpen : StillOpen all index openers
  mem_iff : ∀ opener, opener ∈ openers ↔ opener < index ∧ Unclosed all opener index

/-- Of the openers at a place, those that are not closed there. -/
def innerOpeners (openers : List Nat) : Side → List Nat
  | .closes => openers.tail
  | _ => openers

theorem innerOpeners_sublist (openers : List Nat) (side : Side) :
    (innerOpeners openers side).Sublist openers := by
  cases side with
  | closes => exact tail_sublist openers
  | _ => exact List.Sublist.refl openers

theorem openersAfter_eq (index : Nat) (openers : List Nat) (side : Side) :
    openersAfter index openers side =
      if side = .opens then index :: innerOpeners openers side else innerOpeners openers side := by
  cases side <;> rfl

theorem unclosed_succ_iff :
    Unclosed all opener (index + 1) ↔ Unclosed all opener index ∧ ⟨opener, index⟩ ∉ pairs all := by
  constructor
  · rintro ⟨opens, later⟩
    refine ⟨⟨opens, fun span mem same => ?_⟩, fun mem => ?_⟩
    · have := later span mem same
      omega
    · exact absurd (later _ mem rfl) (Nat.not_succ_le_self index)
  · rintro ⟨⟨opens, later⟩, unpaired⟩
    refine ⟨opens, fun span mem same => ?_⟩
    have := later span mem same
    rcases Nat.eq_or_lt_of_le this with closes | further
    · exact absurd (by rwa [← same, closes]) unpaired
    · exact further

theorem unclosed_of_opens (opens : all[index]? = some .opens) : Unclosed all index (index + 1) := by
  refine ⟨opens, fun span mem same => ?_⟩
  have := (pair_of_mem mem).1
  omega

namespace OpenersAt

theorem start (all : List Side) : OpenersAt all 0 [] where
  stillOpen := .start all
  mem_iff opener := by simp

/-- What is inner at a place is what no partner has closed up to the place and at it. -/
theorem mem_innerOpeners_iff (at_index : OpenersAt all index openers)
    (found : all[index]? = some side) :
    opener ∈ innerOpeners openers side ↔ opener < index ∧ Unclosed all opener (index + 1) := by
  rw [unclosed_succ_iff, ← and_assoc, ← at_index.mem_iff]
  by_cases closes : side = .closes
  · subst closes
    have paired : ⟨opener, index⟩ ∈ pairs all ↔ openers.head? = some opener :=
      at_index.stillOpen.mem_pairs_iff found rfl
    rw [paired]
    have sorted := at_index.stillOpen.places.sorted
    cases openers with
    | nil => simp [innerOpeners]
    | cons first outer =>
      have first_notMem : first ∉ outer := fun mem =>
        absurd ((List.pairwise_cons.mp sorted).1 first mem) (lt_irrefl first)
      simp only [innerOpeners, tail_cons, mem_cons, head?_cons, Option.some.injEq]
      constructor
      · intro inside
        exact ⟨.inr inside, fun same => first_notMem (same ▸ inside)⟩
      · rintro ⟨same | inside, other⟩
        · exact absurd same.symm other
        · exact inside
  · have unpaired : ⟨opener, index⟩ ∉ pairs all := fun mem =>
      closes (Option.some.inj (found.symm.trans (pair_of_mem mem).2.2))
    have same : innerOpeners openers side = openers := by
      cases side <;> first | rfl | contradiction
    simp [same, unpaired]

theorem step (at_index : OpenersAt all index openers) (found : all[index]? = some side) :
    OpenersAt all (index + 1) (openersAfter index openers side) where
  stillOpen := at_index.stillOpen.step found
  mem_iff opener := by
    have inner : opener ∈ innerOpeners openers side ↔
        opener < index ∧ Unclosed all opener (index + 1) := at_index.mem_innerOpeners_iff found
    have earlier_or_here : opener < index + 1 ↔ opener < index ∨ opener = index := by omega
    rw [openersAfter_eq, earlier_or_here, or_and_right, ← inner, or_comm]
    by_cases opens : side = .opens
    · rw [if_pos opens, mem_cons]
      have here : opener = index → Unclosed all opener (index + 1) := by
        rintro rfl
        exact unclosed_of_opens (opens ▸ found)
      exact or_congr_left (and_iff_left_of_imp here).symm
    · rw [if_neg opens]
      refine (or_iff_right ?_).symm
      rintro ⟨rfl, unclosed⟩
      exact opens (Option.some.inj (found.symm.trans unclosed.1))

end OpenersAt

end Unclosed

namespace Places

variable {kinds : List Kind} {index : Nat}

variable {rest : List Kind} {openers : List Nat} {brace owner : Nat}

/-- One step of the walk, in the terms of what a brace does. -/
theorem conditions_cons (opened : Nat → Option Condition) (openers : List Nat) (kind : Kind)
    (index : Nat) (rest : Places) :
    conditions opened (openers.reverse.map opened) ((kind, index) :: rest) =
      (innerOpeners openers kind.curlySide).reverse.filterMap opened ::
        conditions opened ((openersAfter index openers kind.curlySide).reverse.map opened)
          rest := by
  have without_last : (openers.reverse.map opened).dropLast = openers.tail.reverse.map opened := by
    rw [← map_dropLast, dropLast_reverse]
  by_cases opens : kind = .openCurly
  · subst opens
    simp [conditions, Kind.curlySide, innerOpeners, openersAfter, filterMap_map]
  by_cases closes : kind = .closeCurly
  · subst closes
    simp only [conditions, Kind.curlySide, innerOpeners, openersAfter, without_last,
      filterMap_map, Function.id_comp]
  · have neither : kind.curlySide = .neither := by
      cases kind <;> first | rfl | contradiction
    rw [neither]
    cases kind <;> first
      | contradiction
      | simp [conditions, innerOpeners, openersAfter, filterMap_map]

/-- What the walk finds at a place: the conditions of the braces that are unclosed there. -/
theorem getElem?_conditions (opened : Nat → Option Condition) {offset : Nat} {kind : Kind}
    (suffix : kinds.drop index = rest)
    (at_index : OpenersAt (kinds.map Kind.curlySide) index openers)
    (found : rest[offset]? = some kind) :
    ∃ inner : List Nat,
      (conditions opened (openers.reverse.map opened) (rest.zipIdx index))[offset]? =
        some (inner.reverse.filterMap opened) ∧
      inner.Pairwise (· > ·) ∧
      ∀ brace, brace ∈ inner ↔ brace < index + offset ∧
        Unclosed (kinds.map Kind.curlySide) brace (index + offset + 1) := by
  induction rest generalizing index openers offset with
  | nil => simp at found
  | cons first rest ih =>
    rcases getElem?_of_drop suffix with ⟨at_first, later⟩
    have side : (kinds.map Kind.curlySide)[index]? = some first.curlySide := by
      simp [at_first]
    rw [zipIdx_cons, conditions_cons]
    cases offset with
    | zero =>
      refine ⟨innerOpeners openers first.curlySide, rfl, ?_, fun brace => ?_⟩
      · exact at_index.stillOpen.places.sorted.sublist (innerOpeners_sublist _ _)
      · exact at_index.mem_innerOpeners_iff side
    | succ offset =>
      rcases ih later (at_index.step side) found with ⟨inner, walked, sorted, mem_iff⟩
      refine ⟨inner, walked, sorted, fun brace => ?_⟩
      rw [mem_iff, show index + 1 + offset = index + (offset + 1) by omega]

/-- What is left of the stack behind a closing brace: the innermost condition goes if the keyword
that owns the pair is the one of the condition. -/
def closeOwned (owner : Option Nat) (stack : List Condition) : List Condition :=
  if owner.isSome && stack.getLast?.map Condition.owner == owner then stack.dropLast else stack

/-- The conditions of each token of a sequence, found with a stack that has room for conditions
alone. Braces without an owner leave no trace in it. -/
def ownedConditions (owner : Nat → Option Nat) (opened : Nat → Option Condition)
    (braces : List Span) (stack : List Condition) : Places → List (List Condition)
  | [] => []
  | (kind, index) :: rest =>
    let inner := if kind = .closeCurly then
      closeOwned ((pairAt braces index).bind fun span => owner span.opener) stack else stack
    inner :: ownedConditions owner opened braces
      (if kind = .openCurly then inner ++ (opened index).toList else inner) rest

/-- A closing brace takes off the condition of its partner, if that has one. -/
theorem closeOwned_eq {owner : Nat → Option Nat} {opened : Nat → Option Condition}
    (owns : ∀ brace, (opened brace).map Condition.owner = owner brace) {all : List Side}
    (stillOpen : StillOpen all index openers) (closes : all[index]? = some .closes) :
    closeOwned ((pairAt (pairs all) index).bind fun span => owner span.opener)
        (openers.reverse.filterMap opened) = openers.tail.reverse.filterMap opened := by
  cases openers with
  | nil =>
    cases found : pairAt (pairs all) index with
    | none => rfl
    | some span =>
      rcases pairAt_of_closes closes found with ⟨mem, ends⟩
      simpa using (stillOpen.mem_pairs_iff closes ends).mp mem
  | cons first outer =>
    have mem : ⟨first, index⟩ ∈ pairs all := (stillOpen.mem_pairs_iff closes rfl).mpr rfl
    rw [pairAt_closer mem, Option.bind_some, ← owns first, reverse_cons,
      filterMap_append, tail_cons]
    cases at_first : opened first with
    | none => simp [closeOwned, at_first]
    | some condition => simp [closeOwned, at_first]

/-- The stack of conditions goes along with the stack of all braces. -/
theorem ownedConditions_eq {owner : Nat → Option Nat} {opened : Nat → Option Condition}
    (owns : ∀ brace, (opened brace).map Condition.owner = owner brace)
    (suffix : kinds.drop index = rest)
    (stillOpen : StillOpen (kinds.map Kind.curlySide) index openers) :
    ownedConditions owner opened (pairs (kinds.map Kind.curlySide))
        (openers.reverse.filterMap opened) (rest.zipIdx index) =
      conditions opened (openers.reverse.map opened) (rest.zipIdx index) := by
  induction rest generalizing index openers with
  | nil => rfl
  | cons kind rest ih =>
    rcases getElem?_of_drop suffix with ⟨at_index, later⟩
    have side : (kinds.map Kind.curlySide)[index]? = some kind.curlySide := by simp [at_index]
    rw [zipIdx_cons, conditions_cons, ← ih later (stillOpen.step side), ownedConditions]
    by_cases closes : kind = .closeCurly
    · subst closes
      simp only [if_true, closeOwned_eq owns stillOpen side]
      rfl
    by_cases opens : kind = .openCurly
    · subst opens
      have alone : [index].filterMap opened = (opened index).toList := by
        cases at_brace : opened index <;> simp [at_brace]
      simp [Kind.curlySide, innerOpeners, openersAfter, alone]
    · have neither : kind.curlySide = .neither := by
        cases kind <;> first | rfl | contradiction
      simp only [if_neg closes, if_neg opens, neither]
      rfl

/-- A keyword stands before the brace that it reaches. -/
theorem of_reachedBrace {depth : Nat} (suffix : kinds.drop index = rest)
    (reached : reachedBrace depth (rest.zipIdx index) = some brace) :
    index ≤ brace ∧ kinds[brace]? = some .openCurly := by
  induction rest generalizing index depth with
  | nil => simp [reachedBrace] at reached
  | cons kind rest ih =>
    rcases getElem?_of_drop suffix with ⟨at_index, later⟩
    have further {depth : Nat}
        (more : reachedBrace depth (rest.zipIdx (index + 1)) = some brace) :
        index ≤ brace ∧ kinds[brace]? = some .openCurly := by
      rcases ih later more with ⟨bound, found⟩
      exact ⟨by omega, found⟩
    rw [zipIdx_cons] at reached
    unfold reachedBrace at reached
    split at reached
    · exact further reached
    · exact further reached
    · obtain rfl := Option.some.inj reached
      exact ⟨Nat.le_refl _, at_index⟩
    · simp at reached
    · simp at reached
    · exact further reached

/-- The keyword reaches the brace. -/
def Reaches (kinds : List Kind) (owner brace : Nat) : Prop :=
  ∃ kind, kinds[owner]? = some kind ∧ kind.ownsBraces = true ∧
    reachedBrace 0 ((kinds.drop (owner + 1)).zipIdx (owner + 1)) = some brace

/-- The braces that a scan finds are those that the keywords behind its start reach. -/
theorem mem_reaches_iff (suffix : kinds.drop index = rest) :
    ⟨owner, brace⟩ ∈ reaches (rest.zipIdx index) ↔ index ≤ owner ∧ Reaches kinds owner brace := by
  induction rest generalizing index with
  | nil =>
    simp only [zipIdx_nil, reaches, not_mem_nil, false_iff, not_and]
    rintro bound ⟨kind, found, -⟩
    have := (List.getElem?_eq_some_iff.mp found).1
    have := List.drop_eq_nil_iff.mp suffix
    omega
  | cons first rest ih =>
    rcases getElem?_of_drop suffix with ⟨at_index, later⟩
    have here : Reaches kinds index brace ↔ first.ownsBraces = true ∧
        reachedBrace 0 (rest.zipIdx (index + 1)) = some brace := by
      simp [Reaches, at_index, later]
    have split : index ≤ owner ∧ Reaches kinds owner brace ↔
        owner = index ∧ Reaches kinds index brace ∨
          index + 1 ≤ owner ∧ Reaches kinds owner brace := by
      constructor
      · rintro ⟨bound, reached⟩
        rcases Nat.eq_or_lt_of_le bound with rfl | further
        · exact .inl ⟨rfl, reached⟩
        · exact .inr ⟨further, reached⟩
      · rintro (⟨rfl, reached⟩ | ⟨bound, reached⟩)
        · exact ⟨Nat.le_refl _, reached⟩
        · exact ⟨by omega, reached⟩
    rw [split, here, ← ih later, zipIdx_cons, reaches]
    by_cases owns : first.ownsBraces = true
    · rw [if_pos owns]
      cases reachedBrace 0 (rest.zipIdx (index + 1)) with
      | none => simp
      | some reached => simp [owns, eq_comm]
    · simp [owns]

theorem Reaches.lt (reached : Reaches kinds owner brace) :
    owner < brace ∧ kinds[brace]? = some .openCurly := by
  rcases reached with ⟨kind, -, -, reached⟩
  rcases of_reachedBrace rfl reached with ⟨bound, found⟩
  exact ⟨bound, found⟩

theorem Reaches.brace_eq {first second : Nat} (reached : Reaches kinds owner first)
    (also : Reaches kinds owner second) : first = second := by
  rcases reached with ⟨-, -, -, reached⟩
  rcases also with ⟨-, -, -, also⟩
  exact Option.some.inj (reached.symm.trans also)

end Places

theorem Ownership.mem_of_ownerOf {owners : List Ownership} {owner brace : Nat}
    (found : ownerOf owners brace = some owner) : ⟨owner, brace⟩ ∈ owners := by
  rcases Option.map_eq_some_iff.mp found with ⟨⟨other, place⟩, first, rfl⟩
  have here := find?_some first
  simp only [beq_iff_eq] at here
  exact here ▸ mem_of_find?_eq_some first

theorem Ownership.ownerOf_of_openerOf {owners : List Ownership} {owner brace : Nat}
    (found : openerOf owners owner = some brace) : ownerOf owners brace = some owner := by
  rcases Option.map_eq_some_iff.mp found with ⟨⟨other, place⟩, own, rfl⟩
  have owns := find?_some own
  simp only [Bool.and_eq_true, beq_iff_eq] at owns
  exact owns.2

theorem ScopeKind.exists_ofOwner? {kind : Kind} (owns : kind.ownsBraces = true) :
    ∃ scope, ofOwner? kind = some scope := by
  cases kind <;> first | exact ⟨_, rfl⟩ | simp [Kind.ownsBraces] at owns

namespace Stream

variable {lexemes : List Lexeme} {index brace owner : Nat} {token : Token}

/-- The keyword that owns the brace at an index. -/
def braceOwner? (lexemes : List Lexeme) (brace : Nat) : Option Nat :=
  Ownership.ownerOf (structureOf (lexemes.map Lexeme.kind)).bodies brace

/-- The scope that opens with a brace: the owner of the brace and the kind of scope that it
opens. -/
def openedScope? (lexemes : List Lexeme) (brace : Nat) : Option Condition := do
  let owner ← braceOwner? lexemes brace
  let kind ← (ofLexemes lexemes).kind? owner
  let scope ← ScopeKind.ofOwner? kind
  return ⟨owner, scope⟩

/-- The braces that open before a token and have no partner, or one behind the token. -/
def enclosingBraces (stream : Stream) (index : Nat) : List Nat :=
  (List.range index).filter fun brace =>
    stream.kind? brace == some .openCurly &&
      ((stream.get? brace).bind fun token => token.braces).all fun span => index < span.closer

/-- The pairs of braces of a file. -/
def bracePairs (lexemes : List Lexeme) : List Span :=
  pairs ((settledKinds lexemes).map Kind.curlySide)

theorem reaches_of_braceOwner? (found : braceOwner? lexemes brace = some owner) :
    Places.Reaches (settledKinds lexemes) owner brace :=
  ((Places.mem_reaches_iff (drop_zero (l := settledKinds lexemes))).mp
    (Ownership.mem_of_ownerOf found)).2

theorem conditionOf_eq (lexemes : List Lexeme) (brace : Nat) :
    Places.conditionOf ((settledKinds lexemes).zipIdx 0)
        (structureOf (lexemes.map Lexeme.kind)).bodies brace =
      openedScope? lexemes brace := by
  unfold Places.conditionOf openedScope? braceOwner?
  congr 1
  funext owner
  rw [kind?_ofLexemes, getElem?_zipIdx]
  cases (settledKinds lexemes)[owner]? <;> rfl

/-- The conditions of a file are those that the stack of owned braces gives. -/
theorem conditions_eq_ownedConditions (lexemes : List Lexeme) :
    (structureOf (lexemes.map Lexeme.kind)).conditions =
      Places.ownedConditions (braceOwner? lexemes) (openedScope? lexemes) (bracePairs lexemes) []
        (settledKinds lexemes).zipIdx := by
  have owns (brace : Nat) :
      (openedScope? lexemes brace).map Condition.owner = braceOwner? lexemes brace := by
    rw [openedScope?]
    cases owned : braceOwner? lexemes brace with
    | none => rfl
    | some owner =>
      rcases reaches_of_braceOwner? owned with ⟨kind, at_owner, owns, -⟩
      rcases ScopeKind.exists_ofOwner? owns with ⟨scope, opens⟩
      simp [kind?_ofLexemes, at_owner, opens]
  rw [bracePairs]
  refine Eq.trans ?_ (Places.ownedConditions_eq owns drop_zero (.start _)).symm
  rw [← funext (conditionOf_eq lexemes)]
  rfl

theorem braces_of_get? (found : (ofLexemes lexemes).get? index = some token) :
    token.braces = pairAt (bracePairs lexemes)
      ((Ownership.openerOf (structureOf (lexemes.map Lexeme.kind)).bodies index).getD index) := by
  rcases of_get? found with ⟨lexeme, kind, conditions, -, rfl⟩
  rfl

theorem conditions_of_get? (found : (ofLexemes lexemes).get? index = some token) :
    (structureOf (lexemes.map Lexeme.kind)).conditions[index]? = some token.conditions := by
  simp only [get?, ofLexemes, annotate, getElem?_toArray, getElem?_mapIdx,
    Option.map_eq_some_iff] at found
  rcases found with ⟨⟨lexeme, kind, conditions⟩, zipped, rfl⟩
  exact (List.getElem?_zip_eq_some.mp (List.getElem?_zip_eq_some.mp zipped).2).2

theorem openerOf_eq_none (opens : (settledKinds lexemes)[brace]? = some .openCurly) :
    Ownership.openerOf (structureOf (lexemes.map Lexeme.kind)).bodies brace = none := by
  cases found : Ownership.openerOf (structureOf (lexemes.map Lexeme.kind)).bodies brace with
  | none => rfl
  | some other =>
    rcases reaches_of_braceOwner? (Ownership.ownerOf_of_openerOf found) with
      ⟨kind, owner, owns, -⟩
    rw [Option.some.inj (owner.symm.trans opens)] at owns
    simp [Kind.ownsBraces] at owns

/-- What the tokens know of their braces tells which braces are unclosed. -/
theorem mem_enclosingBraces_iff :
    brace ∈ (ofLexemes lexemes).enclosingBraces index ↔
      brace < index ∧ Unclosed ((settledKinds lexemes).map Kind.curlySide) brace (index + 1) := by
  rw [enclosingBraces, mem_filter, mem_range, Bool.and_eq_true, beq_iff_eq, kind?_ofLexemes]
  refine and_congr_right fun _ => ?_
  have opens_iff : ((settledKinds lexemes).map Kind.curlySide)[brace]? = some .opens ↔
      (settledKinds lexemes)[brace]? = some .openCurly := by
    rw [getElem?_map]
    cases (settledKinds lexemes)[brace]? with
    | none => simp
    | some kind => cases kind <;> simp [Kind.curlySide]
  rw [Unclosed, opens_iff]
  refine and_congr_right fun opens => ?_
  obtain ⟨token, found, -⟩ : ∃ token, (ofLexemes lexemes).get? brace = some token ∧
      token.kind = .openCurly := by
    rwa [← kind?_ofLexemes, kind?, Option.map_eq_some_iff] at opens
  rw [found, Option.bind_some, braces_of_get? found, openerOf_eq_none opens, Option.getD_none]
  constructor
  · rintro closed span mem rfl
    rw [bracePairs, pairAt_opener mem] at closed
    simpa [Nat.succ_le_iff] using closed
  · intro closed
    cases pair : pairAt (bracePairs lexemes) brace with
    | none => rfl
    | some span =>
      rcases pairAt_of_opens (opens_iff.mpr opens) pair with ⟨mem, same⟩
      simpa [Nat.succ_le_iff] using closed span mem same

theorem conditions_eq_filterMap (found : (ofLexemes lexemes).get? index = some token) :
    token.conditions =
      ((ofLexemes lexemes).enclosingBraces index).filterMap (openedScope? lexemes) := by
  have kind_found : (settledKinds lexemes)[index]? = some token.kind := by
    rw [← kind?_ofLexemes, kind?, found, Option.map_some]
  rcases Places.getElem?_conditions (openedScope? lexemes) drop_zero
    (OpenersAt.start _) kind_found with ⟨inner, walked, sorted, mem_iff⟩
  have conditions_eq : token.conditions = inner.reverse.filterMap (openedScope? lexemes) := by
    have all : (structureOf (lexemes.map Lexeme.kind)).conditions =
        Places.conditions (openedScope? lexemes) [] ((settledKinds lexemes).zipIdx 0) := by
      rw [← funext (conditionOf_eq lexemes)]
      rfl
    have at_index := conditions_of_get? found
    rw [all] at at_index
    exact Option.some.inj (at_index.symm.trans walked)
  have braces_eq : inner.reverse = (ofLexemes lexemes).enclosingBraces index := by
    apply List.Pairwise.eq_of_mem_iff (r := (· < ·))
    · exact List.pairwise_reverse.mpr sorted
    · exact List.pairwise_lt_range.sublist filter_sublist
    · intro brace
      rw [mem_reverse, mem_iff, mem_enclosingBraces_iff, Nat.zero_add]
  rw [conditions_eq, braces_eq]

theorem openedScope?_of_braceOwner? (found : braceOwner? lexemes brace = some owner) :
    ∃ kind scope, (ofLexemes lexemes).kind? owner = some kind ∧ kind.ownsBraces = true ∧
      ScopeKind.ofOwner? kind = some scope ∧ openedScope? lexemes brace = some ⟨owner, scope⟩ := by
  rcases reaches_of_braceOwner? found with ⟨kind, kind_found, owns, -⟩
  rcases ScopeKind.exists_ofOwner? owns with ⟨scope, opens⟩
  rw [← kind?_ofLexemes] at kind_found
  exact ⟨kind, scope, kind_found, owns, opens, by simp [openedScope?, found, kind_found, opens]⟩

/-- The braces that a keyword has are those that it owns. -/
theorem braceOwner?_of_braces {span : Span} (found : (ofLexemes lexemes).get? owner = some token)
    (owns : token.kind.ownsBraces = true) (braces : token.braces = some span) :
    span ∈ bracePairs lexemes ∧ braceOwner? lexemes span.opener = some owner := by
  have kind_found : (settledKinds lexemes)[owner]? = some token.kind := by
    rw [← kind?_ofLexemes, kind?, found, Option.map_some]
  rw [braces_of_get? found] at braces
  cases opener : Ownership.openerOf (structureOf (lexemes.map Lexeme.kind)).bodies owner with
  | none =>
    have side : ((settledKinds lexemes).map Kind.curlySide)[owner]? = some .neither := by
      rw [getElem?_map, kind_found, Option.map_some]
      revert owns
      cases token.kind <;> simp [Kind.ownsBraces, Kind.curlySide]
    rw [opener, Option.getD_none, bracePairs, pairAt_eq_none side] at braces
    simp at braces
  | some place =>
    have owned := Ownership.ownerOf_of_openerOf opener
    have side : ((settledKinds lexemes).map Kind.curlySide)[place]? = some .opens := by
      rw [getElem?_map, (reaches_of_braceOwner? owned).lt.2]
      rfl
    rw [opener, Option.getD_some] at braces
    rcases pairAt_of_opens side braces with ⟨mem, rfl⟩
    exact ⟨mem, owned⟩

/-- The conditions of a token are the scopes of the braces around it: those that open before the
token, that have an owner and whose partner, if there is one, comes behind the token. Different
braces have different owners, and a keyword stands before its braces. -/
theorem conditions_are_enclosing_braces (lexemes : List Lexeme) :
    let stream := ofLexemes lexemes
    (∀ index token, stream.get? index = some token →
      token.conditions = (stream.enclosingBraces index).filterMap (openedScope? lexemes)) ∧
    (∀ brace owner, braceOwner? lexemes brace = some owner →
      owner < brace ∧ stream.kind? brace = some .openCurly ∧
      ∃ kind scope, stream.kind? owner = some kind ∧ kind.ownsBraces = true ∧
        ScopeKind.ofOwner? kind = some scope ∧
        openedScope? lexemes brace = some ⟨owner, scope⟩) ∧
    (∀ first second owner, braceOwner? lexemes first = some owner →
      braceOwner? lexemes second = some owner → first = second) ∧
    (∀ keyword token span, stream.get? keyword = some token → token.kind.ownsBraces = true →
      token.braces = some span → braceOwner? lexemes span.opener = some keyword ∧
        keyword < span.opener ∧ span.opener < span.closer) := by
  intro stream
  refine ⟨fun index token found => conditions_eq_filterMap found, ?_, ?_, ?_⟩
  · intro brace owner found
    rcases (reaches_of_braceOwner? found).lt with ⟨before, opens⟩
    rw [← kind?_ofLexemes] at opens
    exact ⟨before, opens, openedScope?_of_braceOwner? found⟩
  · intro first second owner found also
    exact (reaches_of_braceOwner? found).brace_eq (reaches_of_braceOwner? also)
  · intro keyword token span found owns braces
    rcases braceOwner?_of_braces found owns braces with ⟨mem, owned⟩
    exact ⟨owned, (reaches_of_braceOwner? owned).lt.1, (pair_of_mem mem).1⟩

theorem conditions_are_enclosing_braces_unbalanced :
    let lexemes := lex "<?php \x7d class A \x7b function f() \x7b\x7d \x7b $x".toList
    let stream := ofLexemes lexemes
    stream.enclosingBraces 21 = [8, 19] ∧
      (∃ token, stream.get? 21 = some token ∧ token.conditions = [⟨4, .classBody⟩]) ∧
      (∃ token span, stream.get? 10 = some token ∧ token.braces = some span ∧
        braceOwner? lexemes span.opener = some 10 ∧ 10 < span.opener ∧
        span.opener < span.closer) := by
  intro lexemes stream
  rcases conditions_are_enclosing_braces lexemes with ⟨conditions, -, -, keywords⟩
  have around : stream.enclosingBraces 21 = [8, 19] := by decide +kernel
  have scopes : [8, 19].filterMap (openedScope? lexemes) = [⟨4, .classBody⟩] := by decide +kernel
  obtain ⟨inner, inner_found⟩ : ∃ token, stream.get? 21 = some token :=
    Option.isSome_iff_exists.mp (by decide +kernel)
  obtain ⟨keyword, keyword_found, owns, span, braces⟩ : ∃ token, stream.get? 10 = some token ∧
      token.kind.ownsBraces = true ∧ ∃ span, token.braces = some span :=
    ⟨_, Option.eq_some_of_isSome (by decide +kernel), by decide +kernel,
      Option.isSome_iff_exists.mp (by decide +kernel)⟩
  refine ⟨around, ⟨inner, inner_found, ?_⟩, keyword, span, keyword_found, braces, ?_⟩
  · rw [conditions 21 inner inner_found, around, scopes]
  · exact keywords 10 keyword span keyword_found owns braces

end Stream

end PhpStyle
