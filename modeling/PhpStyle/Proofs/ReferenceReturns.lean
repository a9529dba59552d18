import PhpStyle.Proofs.Ampersands
import PhpStyle.Proofs.EmbeddedFunctions
import PhpStyle.Proofs.Relocations

/-!
# Functions that return by reference

An ampersand is put before the name of a declared function. If the name is no reserved word, or
if it is `static`, all other tokens are read as before and know the same of each other: their
brackets, their doc comments and the scopes around them. The function is declared by the same
name in both files, or by none if the word is `static`, which is never read as a name.

No search from a token in front of `function` goes past it, and the searches from `function`
itself pass over the ampersand. So each reading, each list of parameters and each body is found
where it was.
-/

namespace PhpStyle

open Lexeme List

namespace Kind

variable {gap : List Kind}

theorem filter_of_isTrivia {α : Type} (kind : α → Kind) {gap : List α}
    (trivia : ∀ entry ∈ gap, (kind entry).isTrivia = true) :
    gap.filter (fun entry => (kind entry).isSignificant) = [] := by
  rw [filter_eq_nil_iff]
  intro entry listed
  simp [isSignificant, trivia entry listed]

theorem beginsParameters_gap (trivia : ∀ kind ∈ gap, kind.isTrivia = true) (rest : List Kind) :
    beginsParameters (gap ++ rest) = beginsParameters rest := by
  have skipped : gap.filter isSignificant = [] := filter_of_isTrivia id trivia
  rw [beginsParameters, filter_append, skipped, nil_append, beginsParameters]

/-- What comes behind another `function` does not matter. -/
theorem beginsParameters_front (front rest other : List Kind) :
    beginsParameters (front ++ functionKw :: rest) =
      beginsParameters (front ++ functionKw :: other) := by
  have kept (rest : List Kind) :
      (functionKw :: rest).filter isSignificant = functionKw :: rest.filter isSignificant := rfl
  rw [beginsParameters, beginsParameters, filter_append, filter_append, kept, kept]
  rcases front.filter isSignificant with _ | ⟨first, _ | ⟨second, more⟩⟩
  · rfl
  · cases first <;> rfl
  · cases first <;> first | rfl | (cases second <;> rfl)

theorem settleWord_congr {following other : List Kind}
    (same : beginsParameters following = beginsParameters other) (before : Option Kind)
    (kind : Kind) : settleWord before kind following = settleWord before kind other := by
  rw [settleWord, settleWord, same]

theorem settleWords_gap (trivia : ∀ kind ∈ gap, kind.isTrivia = true) (before : Option Kind)
    (rest : List Kind) : settleWords before (gap ++ rest) = gap ++ settleWords before rest := by
  induction gap with
  | nil => rfl
  | cons kind gap ih =>
    rw [forall_mem_cons] at trivia
    have settled : settleWord before kind (gap ++ rest) = kind := by
      have plain : kind.isKeyword = false := by
        have := trivia.1
        revert this
        cases kind <;> decide
      rw [settleWord, plain, if_neg Bool.false_ne_true]
    rw [cons_append, settleWords, settled, lastSignificant, if_pos trivia.1, ih trivia.2,
      cons_append]

/-- The words up to the name of a function are read alike whatever the name is. -/
theorem exists_settleWords (front : List Kind) (trivia : ∀ kind ∈ gap, kind.isTrivia = true)
    (before : Option Kind) :
    ∃ settledFront keyword, settledFront.length = front.length ∧
      ∀ rest, beginsParameters rest = false →
        settleWords before (front ++ functionKw :: (gap ++ rest)) =
          settledFront ++ keyword :: (gap ++ settleWords (some keyword) rest) := by
  induction front generalizing before with
  | nil =>
    refine ⟨[], settleWord before functionKw [], rfl, ?_⟩
    intro rest noParameters
    have settled : settleWord before functionKw (gap ++ rest) =
        settleWord before functionKw [] := by
      apply settleWord_congr
      rw [beginsParameters_gap trivia, noParameters]
      rfl
    have reading := wordReading_settleWord before functionKw []
    rw [nil_append, settleWords, settled,
      lastSignificant_of_isSignificant (reading.isSignificant.trans rfl),
      settleWords_gap trivia]
    rfl
  | cons kind front ih =>
    let settled := settleWord before kind (front ++ [functionKw])
    rcases ih (lastSignificant before settled) with ⟨settledFront, keyword, length, rest_eq⟩
    refine ⟨settled :: settledFront, keyword, by simp [length], ?_⟩
    intro rest noParameters
    rw [cons_append, settleWords, settleWord_congr (beginsParameters_front front _ []),
      rest_eq rest noParameters, cons_append]

theorem settleBrackets_plain {kind : Kind} (plain : kind.squareSide = .neither)
    (before : Option Kind) (stillOpen rest : List Kind) :
    settleBrackets before stillOpen (kind :: rest) =
      kind :: settleBrackets (lastSignificant before kind) stillOpen rest := by
  cases kind <;> first | rfl | cases plain

theorem settleBrackets_gap (trivia : ∀ kind ∈ gap, kind.isTrivia = true) (before : Option Kind)
    (stillOpen rest : List Kind) :
    settleBrackets before stillOpen (gap ++ rest) =
      gap ++ settleBrackets before stillOpen rest := by
  induction gap with
  | nil => rfl
  | cons kind gap ih =>
    rw [forall_mem_cons] at trivia
    have plain : kind.squareSide = .neither := by
      have := trivia.1
      revert this
      cases kind <;> decide
    rw [cons_append, settleBrackets_plain plain, lastSignificant, if_pos trivia.1,
      ih trivia.2, cons_append]

/-- Brackets are read from the front on. -/
theorem exists_settleBrackets (lead : List Kind) (before : Option Kind) (stillOpen : List Kind) :
    ∃ settledLead carried opened, settledLead.length = lead.length ∧
      ∀ rest, settleBrackets before stillOpen (lead ++ rest) =
        settledLead ++ settleBrackets carried opened rest := by
  induction lead generalizing before stillOpen with
  | nil => exact ⟨[], before, stillOpen, rfl, fun rest => rfl⟩
  | cons kind lead ih =>
    let settled := settleBracket before stillOpen kind
    rcases ih (lastSignificant before settled) (openAfter stillOpen settled kind) with
      ⟨settledLead, carried, opened, length, rest_eq⟩
    refine ⟨settled :: settledLead, carried, opened, by simp [length], ?_⟩
    intro rest
    rw [cons_append, settleBrackets_cons, rest_eq, cons_append]

/-- How the word behind `function` is read. -/
def declared (word : Kind) : Kind :=
  if word = staticKw then staticKw else name

theorem isSignificant_declared (word : Kind) : (declared word).isSignificant = true := by
  rw [declared]
  split <;> rfl

theorem squareSide_declared (word : Kind) : (declared word).squareSide = .neither := by
  rw [declared]
  split <;> rfl

theorem declared_ne_ampersand (word : Kind) : declared word ≠ ampersand := by
  rw [declared]
  split <;> simp

theorem settleWord_declared {word : Kind} (isWord : word.isWord = true) (following : List Kind) :
    settleWord (some functionKw) word following = declared word := by
  revert isWord
  cases word <;> first | (intro; rfl) | (intro isWord; cases isWord)

/-- The readings of a file in which a function is declared, and of the same file with an ampersand
before the declared word, if the word is not read in another way there. -/
theorem exists_readings {front : List Kind} {word : Kind} {back : List Kind}
    (trivia : ∀ kind ∈ gap, kind.isTrivia = true) (isWord : word.isWord = true)
    (declares : (settleBrackets none [] (settleWords none
      (front ++ functionKw :: (gap ++ word :: back))))[front.length]? = some functionKw) :
    ∃ settledFront behind, settledFront.length = front.length ∧
      settleBrackets none [] (settleWords none (front ++ functionKw :: (gap ++ word :: back))) =
        settledFront ++ functionKw :: (gap ++ declared word :: behind) ∧
      (declared word = word → settleBrackets none [] (settleWords none
          (front ++ functionKw :: (gap ++ ampersand :: word :: back))) =
        settledFront ++ functionKw :: (gap ++ ampersand :: word :: behind)) := by
  rcases exists_settleWords front trivia none with ⟨words, keyword, words_length, words_eq⟩
  rcases exists_settleBrackets words none [] with
    ⟨settledFront, carried, opened, length, brackets_eq⟩
  have noParameters : beginsParameters (word :: back) = false := by
    revert isWord
    cases word <;> first | (intro; rfl) | (intro isWord; cases isWord)
  have noReference : beginsParameters (ampersand :: word :: back) = false := by
    revert isWord
    cases word <;> first | (intro; rfl) | (intro isWord; cases isWord)
  have settled (rest : List Kind) (noList : beginsParameters rest = false) :
      settleBrackets none [] (settleWords none (front ++ functionKw :: (gap ++ rest))) =
        settledFront ++
          settleBrackets carried opened (keyword :: (gap ++ settleWords (some keyword) rest)) := by
    rw [words_eq rest noList, brackets_eq]
  obtain rfl : keyword = functionKw := by
    rw [settled _ noParameters, getElem?_append_right (by omega), settleBrackets_cons, length,
      words_length, Nat.sub_self, getElem?_cons_zero, Option.some.injEq] at declares
    have reading := declares ▸ bracketReading_settleBracket carried opened keyword
    cases reading
    rfl
  have behind_keyword (rest : List Kind) (noList : beginsParameters rest = false) :
      settleBrackets none [] (settleWords none (front ++ functionKw :: (gap ++ rest))) =
        settledFront ++ functionKw ::
          (gap ++
            settleBrackets (some functionKw) opened (settleWords (some functionKw) rest)) := by
    rw [settled rest noList, settleBrackets_plain rfl, settleBrackets_gap trivia]
    rfl
  have plain := squareSide_declared word
  have significant := isSignificant_declared word
  refine ⟨settledFront, settleBrackets (some (declared word)) opened
    (settleWords (some (declared word)) back), length.trans words_length, ?_, ?_⟩
  · rw [behind_keyword _ noParameters, settleWords, settleWord_declared isWord,
      settleBrackets_plain plain, lastSignificant_of_isSignificant significant]
  · intro same
    rw [same] at plain significant ⊢
    have kept : settleWord (some ampersand) word back = word := by
      rw [declared] at same
      split at same <;> subst same <;> rfl
    have words : settleWords (some functionKw) (ampersand :: word :: back) =
        ampersand :: word :: settleWords (some word) back := by
      show ampersand :: settleWords (some ampersand) (word :: back) = _
      rw [settleWords, kept, lastSignificant_of_isSignificant significant]
    rw [behind_keyword _ noReference, words, settleBrackets_plain rfl,
      settleBrackets_plain plain, lastSignificant_of_isSignificant significant]

end Kind

section Places

/-- Where the entries of a sequence stand after one has been put in at a place. -/
def placeBehind (inserted index : Nat) : Nat :=
  if index < inserted then index else index + 1

variable {α : Type}

theorem strictMono_placeBehind (inserted : Nat) : StrictMono (placeBehind inserted) := by
  intro first second lt
  simp only [placeBehind]
  split <;> split <;> omega

theorem eq_or_exists_placeBehind (inserted index : Nat) :
    index = inserted ∨ ∃ origin, index = placeBehind inserted origin := by
  rcases Nat.lt_trichotomy index inserted with before | rfl | behind
  · right
    exact ⟨index, by rw [placeBehind, if_pos before]⟩
  · left
    rfl
  · right
    refine ⟨index - 1, ?_⟩
    rw [placeBehind, if_neg (by omega)]
    omega

theorem getElem?_placeBehind (lead rest : List α) (item : α) (index : Nat) :
    (lead ++ item :: rest)[placeBehind lead.length index]? = (lead ++ rest)[index]? := by
  rw [placeBehind]
  split
  · next before => rw [getElem?_append_left before, getElem?_append_left before]
  · next behind =>
      rw [getElem?_append_right (by omega), getElem?_append_right (by omega),
        show index + 1 - lead.length = index - lead.length + 1 by omega, getElem?_cons_succ]

theorem spread_insert {idle : α → Prop} {item : α} (unused : idle item) (lead rest : List α) :
    Spread idle (lead ++ rest) (lead ++ item :: rest) (placeBehind lead.length) where
  mono := strictMono_placeBehind lead.length
  at_place := getElem?_placeBehind lead rest item
  idle index entry found := by
    rcases eq_or_exists_placeBehind lead.length index with rfl | moved
    · right
      rw [getElem?_append_right (Nat.le_refl _), Nat.sub_self, getElem?_cons_zero] at found
      exact Option.some.inj found ▸ unused
    · exact Or.inl moved

theorem zipIdx_insert (lead rest : List α) (item : α) :
    (lead ++ item :: rest).zipIdx =
      lead.zipIdx ++ (item, lead.length) :: rest.zipIdx (lead.length + 1) := by
  rw [zipIdx_append, zipIdx_cons, Nat.zero_add]

theorem map_placeBehind_zipIdx (lead rest : List α) :
    ((lead ++ rest).zipIdx.map fun entry => (entry.1, placeBehind lead.length entry.2)) =
      lead.zipIdx ++ rest.zipIdx (lead.length + 1) := by
  rw [zipIdx_append, map_append, Nat.zero_add, zipIdx_succ]
  congr 1
  · refine (map_congr_left ?_).trans (map_id _)
    rintro ⟨item, index⟩ listed
    have before := (mem_zipIdx' listed).1
    rw [placeBehind, if_pos before, id]
  · apply map_congr_left
    rintro ⟨item, index⟩ listed
    have behind := (mem_zipIdx listed).1
    rw [placeBehind, if_neg (by omega)]

end Places

namespace Places

/-- What a keyword skips ends before another `function`. -/
theorem skip_front {kind : Kind} (other : kind ≠ .functionKw) (front : Places) (keyword : Nat)
    (rest : Places) : skip kind (front ++ (.functionKw, keyword) :: rest) =
      skip kind front ++ (.functionKw, keyword) :: rest := by
  cases front with
  | nil => exact if_neg other.symm
  | cons entry front =>
    rw [cons_append, skip, skip]
    split <;> rfl

/-- No list opens behind another `function`. -/
theorem listOpener_front (kind : Kind) (front : Places) (keyword : Nat) (rest other : Places) :
    listOpener kind (front ++ (.functionKw, keyword) :: rest) =
      listOpener kind (front ++ (.functionKw, keyword) :: other) := by
  have first (front : Places) :
      listOpener .arrayKw (front ++ (.functionKw, keyword) :: rest) =
        listOpener .arrayKw (front ++ (.functionKw, keyword) :: other) := by
    rcases front with _ | ⟨⟨found, index⟩, front⟩
    · rfl
    · cases found <;> rfl
  rw [listOpener_eq, listOpener_eq kind (front ++ (.functionKw, keyword) :: other)]
  split <;> split <;> simp only [skip_front (by decide : Kind.ampersand ≠ .functionKw),
    skip_front (by decide : Kind.name ≠ .functionKw), first _]

section Insertion

variable {keyword inserted named : Nat} {word : Kind} {gap rest : Places}
  (trivia : ∀ entry ∈ gap, entry.1.isTrivia = true) (significant : word.isSignificant = true)
  (other : word ≠ .ampersand)

include trivia in
theorem lists_gap (rest : Places) : lists (gap ++ rest) = lists rest := by
  induction gap with
  | nil => rfl
  | cons entry gap ih =>
    rw [forall_mem_cons] at trivia
    have plain : ¬(entry.1 = .arrayKw ∨ entry.1 = .functionKw ∨ entry.1 = .closure ∨
        entry.1 = .fnKw) := by
      rintro (kind | kind | kind | kind) <;> rw [kind] at trivia <;> cases trivia.1
    rw [cons_append, lists, if_neg plain, ih trivia.2]

include trivia significant other in
/-- Every list of parameters opens where it did before the ampersand was put in. -/
theorem lists_insert (front : Places) :
    lists (front ++ (.functionKw, keyword) ::
        (gap ++ (.ampersand, inserted) :: (word, named) :: rest)) =
      lists (front ++ (.functionKw, keyword) :: (gap ++ (word, named) :: rest)) := by
  induction front with
  | nil =>
    have opener : listOpener .functionKw
          ((gap ++ (.ampersand, inserted) :: (word, named) :: rest).filter
            fun entry => entry.1.isSignificant) =
        listOpener .functionKw
          ((gap ++ (word, named) :: rest).filter fun entry => entry.1.isSignificant) := by
      have kept : ((word, named) :: rest).filter (fun entry => entry.1.isSignificant) =
          (word, named) :: rest.filter fun entry => entry.1.isSignificant :=
        filter_cons_of_pos significant
      rw [filter_append, filter_append, Kind.filter_of_isTrivia Prod.fst trivia,
        nil_append, nil_append, filter_cons_of_pos rfl, kept, listOpener_eq,
        listOpener_eq .functionKw ((word, named) :: _)]
      simp [skip, other]
    rw [nil_append, nil_append, lists, lists, opener, lists_gap trivia, lists_gap trivia]
    rfl
  | cons entry front ih =>
    have kept (rest : Places) : (front ++ (.functionKw, keyword) :: rest).filter
          (fun entry => entry.1.isSignificant) =
        front.filter (fun entry => entry.1.isSignificant) ++ (.functionKw, keyword) ::
          rest.filter fun entry => entry.1.isSignificant := by
      rw [filter_append, filter_cons_of_pos rfl]
    rw [cons_append, cons_append, lists, lists, kept, kept, ih,
      listOpener_front entry.1 _ keyword _ ((gap ++ (word, named) :: rest).filter _)]

end Insertion

end Places

theorem DocBlock.collect_insert {inserted named : Nat} {word : Kind} {rest : Places}
    (significant : word.isSignificant = true) (front : Places)
    (stillOpen : Option (Nat × List Nat)) :
    collect stillOpen (front ++ (.ampersand, inserted) :: (word, named) :: rest) =
      collect stillOpen (front ++ (word, named) :: rest) := by
  induction front generalizing stillOpen with
  | nil =>
    rw [nil_append, nil_append, collect_significant rfl,
      collect_significant significant, collect_significant significant]
    rfl
  | cons entry front ih =>
    cases stillOpen with
    | none => rw [cons_append, cons_append, collect, collect, ih]
    | some start => simp only [cons_append, collect, ih]

namespace Stream

theorem settledKinds_eq (lexemes : List Lexeme) : settledKinds lexemes =
    Kind.settleBrackets none [] (Kind.settleWords none (lexemes.map Lexeme.kind)) :=
  rfl

/-- Behind `function` an ampersand before the word moves all tokens and changes nothing else, if
the readings of the other tokens are as they were. -/
theorem relocates_of_readings {core whole : List Lexeme} {front gap behind : List Kind}
    {word : Kind} (trivia : ∀ kind ∈ gap, kind.isTrivia = true)
    (significant : word.isSignificant = true) (other : word ≠ .ampersand)
    (core_eq : settledKinds core = front ++ .functionKw :: gap ++ word :: behind)
    (whole_eq : settledKinds whole = front ++ .functionKw :: gap ++ .ampersand :: word :: behind)
    (sides : ∀ family : Family, Spread (· = .neither) (family.sides core) (family.sides whole)
      (placeBehind (front ++ Kind.functionKw :: gap).length)) :
    Relocates core whole (placeBehind (front ++ Kind.functionKw :: gap).length) := by
  have lead : (front ++ Kind.functionKw :: gap).zipIdx =
      front.zipIdx ++ (.functionKw, front.length) :: gap.zipIdx (front.length + 1) :=
    zipIdx_insert front gap .functionKw
  have gap_trivia : ∀ entry ∈ gap.zipIdx (front.length + 1), entry.1.isTrivia = true := by
    intro entry listed
    exact trivia entry.1 (fst_mem_of_mem_zipIdx listed)
  refine ⟨?_, sides, ?_, ?_⟩
  · rw [core_eq, whole_eq]
    refine spread_insert ?_ _ _
    rfl
  · rw [core_eq, whole_eq, zipIdx_insert, ← Places.lists_move, map_placeBehind_zipIdx, lead,
      zipIdx_cons, List.append_assoc, List.append_assoc, cons_append, cons_append]
    exact Places.lists_insert gap_trivia significant other _
  · rw [blocks, blocks, core_eq, whole_eq, zipIdx_insert, ← DocBlock.collect_move _ _ none,
      map_placeBehind_zipIdx, zipIdx_cons]
    exact DocBlock.collect_insert significant _ none

theorem neighbours_of_gap {kinds front gap behind : List Kind} {first second : Kind}
    (split : kinds = front ++ first :: gap ++ second :: behind)
    (trivia : ∀ kind ∈ gap, kind.isTrivia = true) (first_significant : first.isSignificant = true)
    (second_significant : second.isSignificant = true) :
    Neighbours kinds front.length (front ++ first :: gap).length := by
  subst split
  refine ⟨by simp, ⟨first, by simp, first_significant⟩, ⟨second, by simp, second_significant⟩, ?_⟩
  rintro index lower upper ⟨kind, found, significant⟩
  rw [getElem?_append_left upper, getElem?_append_right lower.le,
    getElem?_cons, if_neg (by omega)] at found
  rw [Kind.isSignificant, trivia kind (mem_of_getElem? found)] at significant
  cases significant

section Names

variable {lexemes : List Lexeme} {index next named : Nat}
  (neighbours : Neighbours (settledKinds lexemes) index next)

include neighbours

theorem declared?_eq (other : (settledKinds lexemes)[next]? ≠ some .ampersand) :
    (ofLexemes lexemes).declared? index = some next := by
  rw [declared?, (nextSignificant_none_eq_some_iff neighbours.left_significant).mpr neighbours,
    Option.bind_eq_bind, Option.bind_some, kind?_ofLexemes, if_neg other]

theorem declared?_reference_eq (reference : (settledKinds lexemes)[next]? = some .ampersand)
    (behind : Neighbours (settledKinds lexemes) next named) :
    (ofLexemes lexemes).declared? index = some named := by
  rw [declared?, (nextSignificant_none_eq_some_iff neighbours.left_significant).mpr neighbours,
    Option.bind_eq_bind, Option.bind_some, kind?_ofLexemes, if_pos reference,
    (nextSignificant_none_eq_some_iff behind.left_significant).mpr behind]

omit neighbours in
/-- A function has the name of the declared token if that is read as a name. -/
theorem declarationName?_of_declared? {name : Lexeme} {word : Kind}
    (declares : (settledKinds lexemes)[index]? = some .functionKw)
    (declared : (ofLexemes lexemes).declared? index = some named)
    (at_name : lexemes[named]? = some name) (read : (settledKinds lexemes)[named]? = some word) :
    (ofLexemes lexemes).declarationName? index =
      if word = .name then some name.text else none := by
  rcases get?_ofLexemes at_name with ⟨kind, conditions, kind_found, token_found⟩
  obtain rfl := Option.some.inj (kind_found.symm.trans read)
  rw [← kind?_ofLexemes] at declares
  simp only [declarationName?, declares, declared, token_found, Option.bind_eq_bind,
    Option.bind_some, reduceCtorEq, or_true, if_true]
  rfl

end Names

end Stream

/-- A token apart from its line and its column. -/
def Token.unplaced (token : Token) : Token :=
  { token with line := 0, column := 0 }

namespace Stream

theorem text_of_get? {lexemes : List Lexeme} {index : Nat} {token : Token}
    (found : (ofLexemes lexemes).get? index = some token) :
    (lexemes.map text)[index]? = some token.text := by
  rcases of_get? found with ⟨lexeme, kind, conditions, at_index, rfl⟩
  rw [getElem?_map, at_index]
  rfl

/-- Tokens with the same texts as before are the same at their new places, apart from their lines
and columns. -/
theorem Relocates.unplaced_eq {core whole : List Lexeme} {place : Nat → Nat}
    (relocates : Relocates core whole place) (texts : ∀ index,
      (whole.map text)[place index]? = (core.map text)[index]?) (index : Nat) :
    ((ofLexemes whole).get? (place index)).map Token.unplaced =
      ((ofLexemes core).get? index).map fun token => (token.move place).unplaced := by
  cases found : (ofLexemes core).get? index with
  | none =>
    rw [relocates.get?_place_eq_none found]
    rfl
  | some token =>
    rcases relocates.exists_moved found with ⟨moved, moved_found, kind_eq, moved_eq⟩
    have text_eq : moved.text = token.text := by
      have same := texts index
      rw [text_of_get? moved_found, text_of_get? found] at same
      exact Option.some.inj same
    rw [moved_found, Option.map_some, Option.map_some, ← moved_eq]
    simp only [Token.unplaced, kind_eq, text_eq]

/-- A function that is declared in a sequence of lexemes: its keyword, trivia and a word. -/
structure DeclaredFunction (lexemes front : List Lexeme) (keyword : Lexeme) (gap : List Lexeme)
    (name : Lexeme) (back : List Lexeme) : Prop where
  split : lexemes = front ++ keyword :: gap ++ name :: back
  trivia : ∀ lexeme ∈ gap, lexeme.kind.isTrivia = true
  isWord : name.kind.isWord = true
  declares : (ofLexemes lexemes).kind? front.length = some .functionKw

theorem map_of_pieces {α : Type} (read : Kind × List Char → α) {whole lead rest : List Lexeme}
    {added : Kind × List Char} (pieces : whole.map piece =
      lead.map piece ++ added :: rest.map piece) :
    whole.map (fun lexeme => read lexeme.piece) =
      lead.map (fun lexeme => read lexeme.piece) ++
        read added :: rest.map fun lexeme => read lexeme.piece := by
  have reads := congrArg (List.map read) pieces
  rw [map_append, map_cons, map_map, map_map, map_map] at reads
  exact reads

namespace DeclaredFunction

variable {core whole front gap back : List Lexeme} {keyword name : Lexeme}
  (declared : DeclaredFunction core front keyword gap name back)

include declared

theorem keyword_kind : keyword.kind = .functionKw := by
  have read := declared.declares
  rw [kind?_ofLexemes, settledKinds_eq] at read
  rcases Kind.getElem?_settleBrackets read with ⟨word, word_found, bracket⟩
  cases bracket
  rcases Kind.getElem?_settleWords word_found with ⟨kind, kind_found, reading⟩
  cases reading
  rw [declared.split] at kind_found
  simpa using kind_found

theorem gap_kinds : ∀ kind ∈ gap.map Lexeme.kind, kind.isTrivia = true := by
  intro kind listed
  rcases List.mem_map.mp listed with ⟨lexeme, member, rfl⟩
  exact declared.trivia lexeme member

theorem exists_readings (whole : List Lexeme) :
    ∃ settledFront behind, settledFront.length = front.length ∧
    settledKinds core = settledFront ++ .functionKw :: gap.map Lexeme.kind ++
      Kind.declared name.kind :: behind ∧
    (Kind.declared name.kind = name.kind →
      whole.map Lexeme.kind = (front ++ keyword :: gap).map Lexeme.kind ++
        .ampersand :: (name :: back).map Lexeme.kind →
      settledKinds whole = settledFront ++ .functionKw :: gap.map Lexeme.kind ++
        .ampersand :: name.kind :: behind) := by
  have kinds_eq : core.map Lexeme.kind = front.map Lexeme.kind ++
      .functionKw :: (gap.map Lexeme.kind ++ name.kind :: back.map Lexeme.kind) := by
    rw [declared.split]
    simp [declared.keyword_kind]
  have declares := declared.declares
  rw [kind?_ofLexemes, settledKinds_eq, kinds_eq, ← length_map Lexeme.kind] at declares
  rcases Kind.exists_readings declared.gap_kinds declared.isWord declares with
    ⟨settledFront, behind, length, core_eq, whole_eq⟩
  refine ⟨settledFront, behind, by simpa using length, ?_, ?_⟩
  · rw [settledKinds_eq, kinds_eq, core_eq]
    simp
  · intro same whole_kinds
    rw [settledKinds_eq, whole_kinds]
    simpa [declared.keyword_kind] using whole_eq same

section

variable (same : Kind.declared name.kind = name.kind)

include same

/-- The ampersand before the word moves the tokens behind it, and does nothing else. -/
theorem relocates
    (whole_kinds : whole.map Lexeme.kind = (front ++ keyword :: gap).map Lexeme.kind ++
      .ampersand :: (name :: back).map Lexeme.kind) :
    Relocates core whole (placeBehind (front ++ keyword :: gap).length) := by
  rcases declared.exists_readings whole with ⟨settledFront, behind, length, core_eq, whole_eq⟩
  have significant := Kind.isSignificant_declared name.kind
  have other := Kind.declared_ne_ampersand name.kind
  have inserted : (settledFront ++ Kind.functionKw :: gap.map Lexeme.kind).length =
      (front ++ keyword :: gap).length := by
    simp [length]
  rw [same] at core_eq significant other
  rw [← inserted]
  apply relocates_of_readings declared.gap_kinds significant other core_eq
    (whole_eq same whole_kinds)
  intro family
  have sides_eq (lexemes : List Lexeme) :
      family.sides lexemes = (lexemes.map Lexeme.kind).map family.side := by
    rw [Family.sides, map_map]
    rfl
  have core_kinds : core.map Lexeme.kind =
      (front ++ keyword :: gap).map Lexeme.kind ++ (name :: back).map Lexeme.kind := by
    rw [declared.split, map_append]
  rw [inserted, ← length_map Lexeme.kind, sides_eq, sides_eq, core_kinds, whole_kinds]
  generalize (front ++ keyword :: gap).map Lexeme.kind = lead
  rw [← length_map family.side, map_append, map_append, map_cons]
  refine spread_insert ?_ _ _
  cases family <;> rfl

theorem reference_kind
    (whole_kinds : whole.map Lexeme.kind = (front ++ keyword :: gap).map Lexeme.kind ++
      .ampersand :: (name :: back).map Lexeme.kind) :
    (settledKinds whole)[(front ++ keyword :: gap).length]? = some .ampersand := by
  rcases declared.exists_readings whole with ⟨settledFront, behind, length, -, whole_eq⟩
  rw [whole_eq same whole_kinds]
  simp [length]

theorem reference_token (whole_pieces : whole.map piece = (front ++ keyword :: gap).map piece ++
      (.ampersand, ['&']) :: (name :: back).map piece) :
    ((ofLexemes whole).get? (front ++ keyword :: gap).length).map
      (fun token => (token.kind, token.text)) = some (.ampersand, ['&']) := by
  have whole_kinds := map_of_pieces Prod.fst whole_pieces
  obtain ⟨lexeme, at_index, piece_eq⟩ : ∃ lexeme,
      whole[(front ++ keyword :: gap).length]? = some lexeme ∧
        lexeme.piece = (.ampersand, ['&']) := by
    rw [← Option.map_eq_some_iff, ← getElem?_map, whole_pieces,
      ← length_map piece, getElem?_append_right (Nat.le_refl _), Nat.sub_self,
      getElem?_cons_zero]
  rcases get?_ofLexemes at_index with ⟨kind, conditions, kind_found, token_found⟩
  rw [declared.reference_kind same whole_kinds, Option.some.injEq] at kind_found
  rw [token_found, ← kind_found]
  exact congrArg some (congrArg (Prod.mk Kind.ampersand) (congrArg Prod.snd piece_eq))

end

/-- A declared function has the name of the word, unless that is `static`. -/
theorem declarationName?_eq : (ofLexemes core).declarationName? front.length =
    if name.kind = .staticKw then none else some name.text := by
  rcases declared.exists_readings core with ⟨settledFront, behind, length, core_eq, -⟩
  have neighbours := neighbours_of_gap core_eq declared.gap_kinds rfl
    (Kind.isSignificant_declared name.kind)
  have read :
      (settledKinds core)[(settledFront ++ Kind.functionKw :: gap.map Lexeme.kind).length]? =
        some (Kind.declared name.kind) := by
    rw [core_eq, getElem?_append_right (Nat.le_refl _), Nat.sub_self, getElem?_cons_zero]
  have at_name : core[(settledFront ++ Kind.functionKw :: gap.map Lexeme.kind).length]? =
      some name := by
    rw [declared.split]
    simp [length]
  have next : (ofLexemes core).declared? settledFront.length =
      some (settledFront ++ Kind.functionKw :: gap.map Lexeme.kind).length := by
    apply declared?_eq neighbours
    rw [read]
    exact fun reference => Kind.declared_ne_ampersand name.kind (Option.some.inj reference)
  have declares := declared.declares
  rw [kind?_ofLexemes, ← length] at declares
  rw [← length, declarationName?_of_declared? declares next at_name read, Kind.declared]
  split <;> rfl

/-- Behind an ampersand the name is the same. -/
theorem declarationName?_reference_eq (same : Kind.declared name.kind = name.kind)
    (whole_pieces : whole.map piece = (front ++ keyword :: gap).map piece ++
      (.ampersand, ['&']) :: (name :: back).map piece) :
    (ofLexemes whole).declarationName? front.length =
      if name.kind = .staticKw then none else some name.text := by
  rcases declared.exists_readings whole with ⟨settledFront, behind, length, -, whole_eq⟩
  have whole_kinds := map_of_pieces Prod.fst whole_pieces
  have settled := whole_eq same whole_kinds
  generalize lead_eq : settledFront ++ Kind.functionKw :: gap.map Lexeme.kind = lead at settled
  have inserted : lead.length = (front ++ keyword :: gap).length := by simp [← lead_eq, length]
  have significant : name.kind.isSignificant = true := by
    rw [← same]
    exact Kind.isSignificant_declared name.kind
  have reference : (settledKinds whole)[lead.length]? = some .ampersand := by
    rw [inserted]
    exact declared.reference_kind same whole_kinds
  have read : (settledKinds whole)[lead.length + 1]? = some name.kind := by
    rw [settled, getElem?_append_right (Nat.le_add_right _ 1), Nat.add_sub_cancel_left,
      getElem?_cons_succ, getElem?_cons_zero]
  have neighbours : Neighbours (settledKinds whole) settledFront.length lead.length := by
    rw [← lead_eq] at settled ⊢
    exact neighbours_of_gap settled declared.gap_kinds rfl rfl
  have behind_reference : Neighbours (settledKinds whole) lead.length (lead.length + 1) := by
    have apart : settledKinds whole = lead ++ .ampersand :: [] ++ name.kind :: behind := by
      rw [settled, List.append_assoc, cons_append, nil_append]
    simpa using neighbours_of_gap apart (by simp) rfl significant
  obtain ⟨other, at_name, piece_eq⟩ : ∃ other, whole[lead.length + 1]? = some other ∧
      other.piece = name.piece := by
    rw [← Option.map_eq_some_iff, ← getElem?_map, whole_pieces, inserted,
      ← length_map piece, getElem?_append_right (Nat.le_add_right _ 1),
      Nat.add_sub_cancel_left, getElem?_cons_succ]
    rfl
  have declares : (settledKinds whole)[settledFront.length]? = some .functionKw := by
    rw [settled, ← lead_eq]
    simp
  have next := declared?_reference_eq neighbours reference behind_reference
  have text_eq : other.text = name.text := congrArg Prod.snd piece_eq
  rw [← length, declarationName?_of_declared? declares next at_name read, text_eq, ← same,
    Kind.declared]
  split <;> rfl

end DeclaredFunction

/-- Lexing finds the ampersand and all other lexemes again. -/
theorem DeclaredFunction.map_piece_lex {source : List Char} {front gap back : List Lexeme}
    {keyword name : Lexeme} (declared : DeclaredFunction (lex source) front keyword gap name back) :
    (lex ((front ++ keyword :: gap).flatMap text ++
        '&' :: (name :: back).flatMap text)).map piece =
      (front ++ keyword :: gap).map piece ++
        (.ampersand, ['&']) :: (name :: back).map piece := by
  have cuts := cuts_lex source
  rw [declared.split] at cuts
  have long : 3 ≤ keyword.text.length := by
    rw [List.append_assoc, cons_append] at cuts
    exact cuts.long_of_functionKw declared.keyword_kind
  exact cuts.cut_ampersand
    (leadsToName_declaration front declared.keyword_kind long declared.trivia)
    declared.isWord

/-- An ampersand before the name of a declared function changes nothing else. A function has the
word behind it as its name, unless that is `static`, which stays a keyword. If the word is no
reserved word, or if it is `static`, then all tokens are the same with the ampersand, with their
kinds, their texts, their pointers and the scopes around them, up to their new places; and the
name of the function is the same. -/
theorem reference_changes_nothing_else {source : List Char} {front gap back : List Lexeme}
    {keyword name : Lexeme}
    (declared : DeclaredFunction (lex source) front keyword gap name back) :
    let before := (front ++ keyword :: gap).flatMap Lexeme.text
    let behind := (name :: back).flatMap Lexeme.text
    let core := ofSource source
    let whole := ofSource (before ++ '&' :: behind)
    let inserted := (front ++ keyword :: gap).length
    let place := placeBehind inserted
    source = before ++ behind ∧
    core.declarationName? front.length =
      (if name.kind = .staticKw then none else some name.text) ∧
    (name.kind = .name ∨ name.kind = .staticKw →
      (∀ index, index = inserted ∨ ∃ origin, index = place origin) ∧
      (∀ index, (whole.get? (place index)).map Token.unplaced =
        (core.get? index).map fun token => (token.move place).unplaced) ∧
      (whole.get? inserted).map (fun token => (token.kind, token.text)) =
        some (.ampersand, ['&']) ∧
      whole.declarationName? front.length = core.declarationName? front.length) := by
  intro before behind core whole inserted place
  have pieces := declared.map_piece_lex
  refine ⟨?_, declared.declarationName?_eq, ?_⟩
  · have text_eq := (cuts_lex source).flatMap_text
    rw [declared.split, flatMap_append] at text_eq
    exact text_eq.symm
  · intro plain
    have same : Kind.declared name.kind = name.kind := by
      rcases plain with kind_eq | kind_eq <;> rw [kind_eq] <;> rfl
    refine ⟨eq_or_exists_placeBehind inserted, ?_, declared.reference_token same pieces, ?_⟩
    · apply (declared.relocates same (map_of_pieces Prod.fst pieces)).unplaced_eq
      intro index
      have whole_texts : (lex (before ++ '&' :: behind)).map Lexeme.text =
          (front ++ keyword :: gap).map Lexeme.text ++ ['&'] :: (name :: back).map Lexeme.text :=
        map_of_pieces Prod.snd pieces
      have core_texts : (lex source).map Lexeme.text =
          (front ++ keyword :: gap).map Lexeme.text ++ (name :: back).map Lexeme.text := by
        rw [declared.split, map_append]
      rw [whole_texts, core_texts, ← length_map Lexeme.text]
      exact getElem?_placeBehind _ _ _ index
    · exact (declared.declarationName?_reference_eq same pieces).trans
        declared.declarationName?_eq.symm

/-- The ampersand stands behind a comment; the body of the method is found behind it. -/
theorem reference_changes_nothing_else_behind_comment :
    let core := ofSource "<?php class A \x7bfunction/**/f()\x7b\x7d\x7d".toList
    let whole := ofSource "<?php class A \x7bfunction/**/&f()\x7b\x7d\x7d".toList
    core.declarationName? 7 = some ['f'] ∧ whole.declarationName? 7 = some ['f'] ∧
      (core.get? 7).map Token.braces = some (some ⟨12, 13⟩) ∧
      (whole.get? 7).map Token.braces = some (some ⟨13, 14⟩) := by
  intro core whole
  let lexemes := lex "<?php class A \x7bfunction/**/f()\x7b\x7d\x7d".toList
  let keyword : Lexeme := ⟨.functionKw, "function".toList, 1, 16⟩
  let comment : Lexeme := ⟨.comment, "/**/".toList, 1, 24⟩
  let name : Lexeme := ⟨.name, ['f'], 1, 28⟩
  have split : lexemes = lexemes.take 7 ++ keyword :: [comment] ++ name :: lexemes.drop 10 ∧
      core.kind? (lexemes.take 7).length = some .functionKw := by
    decide +kernel
  have edited : (lexemes.take 7).length = 7 ∧
      (lexemes.take 7 ++ keyword :: [comment]).flatMap Lexeme.text ++
          '&' :: (name :: lexemes.drop 10).flatMap Lexeme.text =
        "<?php class A \x7bfunction/**/&f()\x7b\x7d\x7d".toList := by
    decide +kernel
  rcases reference_changes_nothing_else ⟨split.1, by simp [comment, Kind.isTrivia], rfl, split.2⟩
    with ⟨-, core_name, plain⟩
  rcases plain (Or.inl rfl) with ⟨-, moved, -, whole_name⟩
  rw [edited.1, if_neg (by decide)] at core_name
  rw [edited.1, edited.2, core_name] at whole_name
  have braces : (core.get? 7).map Token.braces = some (some ⟨12, 13⟩) := by
    decide +kernel
  refine ⟨core_name, whole_name, braces, ?_⟩
  have moved_braces := congrArg (Option.map Token.braces) (moved 7)
  rw [edited.2, length_append, edited.1, Option.map_map, Option.map_map] at moved_braces
  calc (whole.get? 7).map Token.braces
      = (core.get? 7).map (Option.map (Span.move (placeBehind 9)) ∘ Token.braces) := moved_braces
    _ = some (some ⟨13, 14⟩) := by
      rw [← Option.map_map, braces]
      rfl

/-- A method may have the name `static`, but no declaration of it is found to have a name. -/
theorem static_declares_no_name :
    let core := ofSource "<?php class A \x7b function static() \x7b\x7d \x7d".toList
    let whole := ofSource "<?php class A \x7b function &static() \x7b\x7d \x7d".toList
    core.kind? 8 = some .functionKw ∧ whole.kind? 8 = some .functionKw ∧
      (core.get? 10).map (fun token => token.text) = some "static".toList ∧
      (whole.get? 11).map (fun token => token.text) = some "static".toList ∧
      core.declarationName? 8 = none ∧ whole.declarationName? 8 = none := by
  decide +kernel

end Stream

end PhpStyle
