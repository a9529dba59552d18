import PhpStyle.Proofs.ArrayLiterals

/-!
# Commas at the ends of array literals

A walk over the tokens of a file marks those that close an array literal. It
needs the last significant kind and, of each parenthesis that is still open,
whether `array` stands before it. What it marks is exactly what closes the array
literals of the stream.

Marks make it possible to say what several rounds of fixing add up to: each adds
commas before marked tokens that no comma precedes, and after that the tokens have
the marks they had. So the rounds together add at most one comma to a literal.
-/

namespace PhpStyle

open List

namespace Kind

/-- Whether a token closes an array literal. Of each parenthesis that is still open, innermost
first, it is known whether `array` stands before it. -/
def closesArray (arrays : List Bool) : Kind → Bool
  | closeParenthesis => arrays.head?.getD false
  | kind => kind == closeShortArray

/-- What is known of the parentheses that are open after one more token. -/
def arraysAfter (before : Option Kind) (arrays : List Bool) : Kind → List Bool
  | openParenthesis => (before == some arrayKw) :: arrays
  | closeParenthesis => arrays.tail
  | _ => arrays

section Marks

variable {α : Type}

/-- Items with a mark on those that close an array literal. -/
def markArrays (before : Option Kind) (arrays : List Bool) :
    List (Kind × α) → List (Kind × Bool × α)
  | [] => []
  | (kind, content) :: items =>
    (kind, closesArray arrays kind, content) ::
      markArrays (lastSignificant before kind) (arraysAfter before arrays kind) items

/-- An item without its mark. -/
def unmark (item : Kind × Bool × α) : Kind × α :=
  (item.1, item.2.2)

variable {arrays : List Bool}

theorem map_unmark_markArrays (before : Option Kind) (arrays : List Bool)
    (items : List (Kind × α)) : (markArrays before arrays items).map unmark = items := by
  induction items generalizing before arrays with
  | nil => rfl
  | cons item items ih => rw [markArrays, map_cons, ih]; rfl

theorem arraysAfter_of_isTrivia (before : Option Kind) (arrays : List Bool) {kind : Kind}
    (trivia : kind.isSignificant = false) : arraysAfter before arrays kind = arrays := by
  cases kind <;> first | rfl | simp [isSignificant, isTrivia, isDocComment] at trivia

/-- Trivia have no influence on the marks. -/
theorem significant_markArrays (before : Option Kind) (arrays : List Bool)
    (items : List (Kind × α)) :
    significant (markArrays before arrays items) =
      markArrays before arrays (significant items) := by
  induction items generalizing before arrays with
  | nil => rfl
  | cons item items ih =>
    rw [markArrays, significant_cons, significant_cons, ih]
    cases kept : item.1.isSignificant with
    | true => rfl
    | false =>
      rw [lastSignificant_of_isTrivia kept, arraysAfter_of_isTrivia before arrays kept]
      rfl

/-- Commas are added before marked items that no comma precedes. -/
inductive CommasAdded (comma : α) :
    Option Kind → List (Kind × Bool × α) → List (Kind × Bool × α) → Prop where
  | nil {before : Option Kind} : CommasAdded comma before [] []
  | keep {before : Option Kind} {item : Kind × Bool × α} {items more : List (Kind × Bool × α)}
      (following : CommasAdded comma (some item.1) items more) :
      CommasAdded comma before (item :: items) (item :: more)
  | add {before : Option Kind} {item : Kind × Bool × α} {items more : List (Kind × Bool × α)}
      (marked : item.2.1 = true) (apart : before ≠ some .comma)
      (following : CommasAdded comma (some item.1) items more) :
      CommasAdded comma before (item :: items) ((.comma, false, comma) :: item :: more)

namespace CommasAdded

variable {comma : α}

theorem refl (before : Option Kind) (items : List (Kind × Bool × α)) :
    CommasAdded comma before items items := by
  induction items generalizing before with
  | nil => exact .nil
  | cons item items ih => exact .keep (ih _)

/-- Adding commas twice is adding commas once: a comma bears no mark, and the item behind it has its
comma. -/
theorem trans {before : Option Kind} {items more most : List (Kind × Bool × α)}
    (first : CommasAdded comma before items more) (second : CommasAdded comma before more most) :
    CommasAdded comma before items most := by
  induction first generalizing most with
  | nil => exact second
  | keep following ih =>
    cases second with
    | keep second => exact .keep (ih second)
    | add marked apart second => exact .add marked apart (ih second)
  | add marked apart following ih =>
    cases second with
    | keep second =>
      cases second with
      | keep second => exact .add marked apart (ih second)
      | add _ not_comma _ => simp at not_comma
    | add comma_marked _ _ => simp at comma_marked

/-- A choice of places that begins with one more place. -/
def chooseFirst (first : Bool) (chosen : Nat → Bool) : Nat → Bool
  | 0 => first
  | place + 1 => chosen place

theorem marked_of_chooseFirst {first : Bool} {chosen : Nat → Bool} {item : Kind × Bool × α}
    {marked : List (Kind × Bool × α)} (here : first = true → item.2.1 = true)
    (marks : ∀ place, chosen place = true → ∃ item, marked[place]? = some item ∧ item.2.1 = true) :
    ∀ place, chooseFirst first chosen place = true →
      ∃ other, (item :: marked)[place]? = some other ∧ other.2.1 = true
  | 0, chosen_here => ⟨item, rfl, here chosen_here⟩
  | place + 1, chosen_there => marks place chosen_there

/-- Where commas were added, as the choice of marked items before which they stand. Places are
counted with the trivia, which get no comma. -/
theorem exists_chosen {before : Option Kind} {marked more : List (Kind × Bool × α)}
    (added : CommasAdded comma before (significant marked) more) :
    ∃ chosen : Nat → Bool,
      (∀ place, chosen place = true → ∃ item, marked[place]? = some item ∧ item.2.1 = true) ∧
      more.map unmark = withCommas comma (significant
        ((marked.map unmark).mapIdx fun place item => (item.1, chosen place, item.2))) := by
  induction marked generalizing before more with
  | nil =>
    cases added
    exact ⟨fun _ => false, by simp, rfl⟩
  | cons item marked ih =>
    rw [significant_cons] at added
    cases kept : item.1.isSignificant with
    | false =>
      rw [kept] at added
      rcases ih added with ⟨chosen, marks, more_eq⟩
      refine ⟨chooseFirst false chosen, marked_of_chooseFirst (by simp) marks, ?_⟩
      rw [map_cons, mapIdx_cons, significant_cons, unmark, kept]
      exact more_eq
    | true =>
      rw [kept, if_pos rfl] at added
      cases added with
      | keep following =>
        rcases ih following with ⟨chosen, marks, more_eq⟩
        refine ⟨chooseFirst false chosen, marked_of_chooseFirst (by simp) marks, ?_⟩
        rw [map_cons, map_cons, mapIdx_cons, significant_cons, unmark, kept, more_eq]
        rfl
      | add mark apart following =>
        rcases ih following with ⟨chosen, marks, more_eq⟩
        refine ⟨chooseFirst true chosen, marked_of_chooseFirst (fun _ => mark) marks, ?_⟩
        rw [map_cons, map_cons, map_cons, mapIdx_cons, significant_cons,
          unmark, unmark, kept, more_eq]
        rfl

end CommasAdded

/-- A comma may be added before each item that is chosen. -/
def Admits (before : Option Kind) (arrays : List Bool) : List (Kind × Bool × α) → Prop
  | [] => True
  | (kind, chosen, _) :: items =>
    (chosen = true → closesArray arrays kind = true ∧ before ≠ some .comma) ∧
      Admits (lastSignificant before kind) (arraysAfter before arrays kind) items

theorem admits_significant {before : Option Kind} {items : List (Kind × Bool × α)}
    (admits : Admits before arrays items) : Admits before arrays (significant items) := by
  induction items generalizing before arrays with
  | nil => exact admits
  | cons item items ih =>
    have rest := ih admits.2
    rw [significant_cons]
    cases kept : item.1.isSignificant with
    | true => exact ⟨admits.1, rest⟩
    | false =>
      rw [lastSignificant_of_isTrivia kept, arraysAfter_of_isTrivia before arrays kept] at rest
      exact rest

theorem arraysAfter_of_closesArray (before other : Option Kind) {kind : Kind}
    (closes : closesArray arrays kind = true) :
    arraysAfter before arrays kind = arraysAfter other arrays kind := by
  cases kind <;> first | rfl | simp [closesArray] at closes

/-- Chosen items get their commas, and all items keep their marks. -/
theorem commasAdded_withCommas {comma : α} {before : Option Kind} {items : List (Kind × Bool × α)}
    (significant : ∀ item ∈ items, item.1.isSignificant = true)
    (admits : Admits before arrays items) :
    CommasAdded comma before (markArrays before arrays (items.map unmark))
      (markArrays before arrays (withCommas comma items)) := by
  induction items generalizing before arrays with
  | nil => exact .nil
  | cons item items ih =>
    rcases item with ⟨kind, chosen, content⟩
    have kept : kind.isSignificant = true := significant (kind, chosen, content) (by simp)
    have rest := ih (fun item inside => significant item (by simp [inside])) admits.2
    cases chosen with
    | false => exact .keep (lastSignificant_of_isSignificant kept ▸ rest)
    | true =>
      rcases admits.1 rfl with ⟨closes, apart⟩
      have items_eq : withCommas comma ((kind, true, content) :: items) =
          (.comma, comma) :: (kind, content) :: withCommas comma items := rfl
      have comma_leaves : arraysAfter before arrays .comma = arrays := rfl
      have comma_before : lastSignificant before .comma = some .comma := rfl
      rw [items_eq, map_cons, unmark, markArrays, markArrays, markArrays, comma_leaves,
        comma_before, lastSignificant_of_isSignificant kept,
        lastSignificant_of_isSignificant kept,
        arraysAfter_of_closesArray (some .comma) before closes]
      rw [lastSignificant_of_isSignificant kept] at rest
      exact .add closes apart rest

end Marks

end Kind

section LastBefore

variable {kinds : List Kind} {index left : Nat} {kind : Kind}

/-- The last significant kind before a place. -/
def lastBefore (kinds : List Kind) (index : Nat) : Option Kind :=
  (kinds.take index).foldl Kind.lastSignificant none

theorem lastBefore_succ (found : kinds[index]? = some kind) :
    lastBefore kinds (index + 1) = Kind.lastSignificant (lastBefore kinds index) kind := by
  rw [lastBefore, take_add_one, found, Option.toList_some, foldl_append]
  rfl

theorem lastBefore_succ_of_not_significantAt (trivia : ¬SignificantAt kinds index) :
    lastBefore kinds (index + 1) = lastBefore kinds index := by
  cases found : kinds[index]? with
  | none =>
    have outside := List.getElem?_eq_none_iff.mp found
    rw [lastBefore, lastBefore, take_of_length_le (by omega), take_of_length_le outside]
  | some kind =>
    have insignificant : kind.isSignificant = false := by
      by_contra significant
      exact trivia ⟨kind, found, by simpa using significant⟩
    rw [lastBefore_succ found, Kind.lastSignificant_of_isTrivia insignificant]

/-- The last significant token before a place has only trivia behind it. -/
theorem lastBefore_eq_some_iff :
    lastBefore kinds index = some kind ↔
      ∃ left, left < index ∧ kinds[left]? = some kind ∧ kind.isSignificant = true ∧
        ∀ place, left < place → place < index → ¬SignificantAt kinds place := by
  induction index with
  | zero => simp [lastBefore]
  | succ index ih =>
    by_cases significant : SignificantAt kinds index
    · rcases significant with ⟨last, found, significant⟩
      rw [lastBefore_succ found, Kind.lastSignificant_of_isSignificant significant,
        Option.some.injEq]
      constructor
      · rintro rfl
        exact ⟨index, by omega, found, significant, fun place lower upper => by omega⟩
      · rintro ⟨left, bound, left_found, -, between⟩
        rcases Nat.eq_or_lt_of_le (Nat.le_of_lt_succ bound) with rfl | earlier
        · exact Option.some.inj (found.symm.trans left_found)
        · exact absurd ⟨last, found, significant⟩ (between index earlier (by omega))
    · rw [lastBefore_succ_of_not_significantAt significant, ih]
      constructor
      · rintro ⟨left, bound, left_found, left_significant, between⟩
        refine ⟨left, by omega, left_found, left_significant, fun place lower upper => ?_⟩
        rcases Nat.eq_or_lt_of_le (Nat.le_of_lt_succ upper) with rfl | earlier
        · exact significant
        · exact between place lower earlier
      · rintro ⟨left, bound, left_found, left_significant, between⟩
        rcases Nat.eq_or_lt_of_le (Nat.le_of_lt_succ bound) with rfl | earlier
        · exact absurd ⟨kind, left_found, left_significant⟩ significant
        · exact ⟨left, earlier, left_found, left_significant, fun place lower upper =>
            between place lower (by omega)⟩

theorem Neighbours.lastBefore_eq (neighbours : Neighbours kinds left index) :
    lastBefore kinds index = kinds[left]? := by
  rcases neighbours.left_significant with ⟨kind, found, significant⟩
  rw [found]
  exact lastBefore_eq_some_iff.mpr ⟨left, neighbours.lt, found, significant, neighbours.between⟩

/-- A parenthesis opens an array literal if the last significant token before it is `array`. -/
theorem lastBefore_eq_arrayKw_iff (opens : kinds[index]? = some .openParenthesis) :
    (lastBefore kinds index == some .arrayKw) = true ↔
      ∃ owner, Places.OpensArray kinds owner index := by
  rw [beq_iff_eq]
  constructor
  · intro keyword
    rcases lastBefore_eq_some_iff.mp keyword with ⟨owner, bound, found, significant, between⟩
    exact ⟨owner, found, opens, bound, ⟨_, found, significant⟩, ⟨_, opens, rfl⟩, between⟩
  · rintro ⟨owner, array⟩
    rw [array.neighbours.lastBefore_eq, array.keyword]

end LastBefore

section OpenParentheses

variable {all : List Side} {index : Nat} {openers : List Nat} {side : Side}

/-- The openers still open at a place are those with which the scan for pairs goes on there. -/
structure StillOpen (all : List Side) (index : Nat) (openers : List Nat) : Prop where
  places : Openers all index openers
  paired : ∀ span, span ∈ pairsFrom index openers (all.drop index) ↔
    span ∈ pairs all ∧ index ≤ span.closer

theorem StillOpen.start (all : List Side) : StillOpen all 0 [] where
  places := .nil all 0
  paired span := by simp [pairs]

theorem StillOpen.step (stillOpen : StillOpen all index openers) (found : all[index]? = some side) :
    StillOpen all (index + 1) (openersAfter index openers side) where
  places := stillOpen.places.after found
  paired span := by
    have suffix : all.drop index = side :: all.drop (index + 1) := by
      rcases List.getElem?_eq_some_iff.mp found with ⟨bound, rfl⟩
      exact drop_eq_getElem_cons bound
    have paired := stillOpen.paired span
    rw [suffix, mem_pairsFrom_cons] at paired
    constructor
    · intro inside
      have later := (pairFrom_of_mem rfl (stillOpen.places.after found) inside).index_le
      exact ⟨(paired.mp (.inr inside)).1, later⟩
    · rintro ⟨mem, later⟩
      rcases paired.mpr ⟨mem, by omega⟩ with ⟨-, -, same⟩ | inside
      · omega
      · exact inside

/-- A pair closes at a place exactly if a side closes there and an opener is open. -/
theorem StillOpen.mem_pairs_iff (stillOpen : StillOpen all index openers)
    (found : all[index]? = some .closes) {span : Span} (closes : span.closer = index) :
    span ∈ pairs all ↔ openers.head? = some span.opener := by
  have suffix : all.drop index = .closes :: all.drop (index + 1) := by
    rcases List.getElem?_eq_some_iff.mp found with ⟨bound, same⟩
    rw [drop_eq_getElem_cons bound, same]
  have paired := stillOpen.paired span
  rw [suffix, mem_pairsFrom_cons] at paired
  constructor
  · intro mem
    rcases paired.mpr ⟨mem, by omega⟩ with ⟨-, opener, -⟩ | inside
    · exact opener
    · have := (pairFrom_of_mem rfl (stillOpen.places.after found) inside).index_le
      omega
  · exact fun opener => (paired.mp (.inl ⟨rfl, opener, closes⟩)).1

end OpenParentheses

/-- What the walk that marks the ends of array literals knows at a place. -/
structure ArrayState (kinds : List Kind) (index : Nat) (before : Option Kind) (arrays : List Bool) :
    Prop where
  before_eq : before = lastBefore kinds index
  openers : ∃ openers, StillOpen (kinds.map Kind.parenthesisSide) index openers ∧
    List.Forall₂ (fun opener array => array = true ↔ ∃ owner, Places.OpensArray kinds owner opener)
      openers arrays

namespace ArrayState

variable {kinds : List Kind} {index : Nat} {before : Option Kind} {arrays : List Bool} {kind : Kind}

theorem start (kinds : List Kind) : ArrayState kinds 0 none [] where
  before_eq := rfl
  openers := ⟨[], .start _, .nil⟩

theorem step (state : ArrayState kinds index before arrays) (found : kinds[index]? = some kind) :
    ArrayState kinds (index + 1) (Kind.lastSignificant before kind)
      (Kind.arraysAfter before arrays kind) where
  before_eq := by rw [lastBefore_succ found, state.before_eq]
  openers := by
    rcases state.openers with ⟨openers, stillOpen, flags⟩
    have side : (kinds.map Kind.parenthesisSide)[index]? = some kind.parenthesisSide := by
      simp [found]
    refine ⟨_, stillOpen.step side, ?_⟩
    by_cases opens : kind = .openParenthesis
    · subst opens
      exact .cons (state.before_eq ▸ lastBefore_eq_arrayKw_iff found) flags
    by_cases closes : kind = .closeParenthesis
    · subst closes
      cases flags with
      | nil => exact .nil
      | cons _ outer => exact outer
    · have neither : kind.parenthesisSide = .neither := by
        cases kind <;> first | rfl | contradiction
      have same : Kind.arraysAfter before arrays kind = arrays := by
        cases kind <;> first | rfl | contradiction
      rw [neither, same]
      exact flags

end ArrayState

namespace Stream

variable {lexemes : List Lexeme} {index : Nat} {before : Option Kind} {arrays : List Bool}
  {kind : Kind}

/-- The token closes an array literal. -/
def EndsArray (lexemes : List Lexeme) (index : Nat) : Prop :=
  ∃ owner span, IsArray lexemes owner span ∧ span.closer = index

theorem EndsArray.kind_eq (ends : EndsArray lexemes index)
    (found : (settledKinds lexemes)[index]? = some kind) :
    kind = .closeParenthesis ∨ kind = .closeShortArray := by
  rcases ends with ⟨owner, span, array, rfl⟩
  rcases array.closer.2 with ⟨-, closes⟩ | ⟨-, closes⟩
  · exact .inl (Option.some.inj (found.symm.trans closes))
  · exact .inr (Option.some.inj (found.symm.trans closes))

theorem EndsArray.lexed (ends : EndsArray lexemes index)
    (lexed : ∀ lexeme ∈ lexemes, Lexeme.isContextual lexeme.kind = false) {lexeme : Lexeme}
    (found : lexemes[index]? = some lexeme) :
    lexeme.kind = .closeParenthesis ∨ lexeme.kind = .closeSquare := by
  rcases kind?_of_getElem? found with ⟨kind, kind_found⟩
  rcases reading_of_kind? kind_found with ⟨other, word, other_found, word_found, reading, bracket⟩
  obtain rfl := Option.some.inj (found.symm.trans other_found)
  rw [kind?_ofLexemes] at kind_found
  generalize lexeme.kind = lexed_kind at reading
  rcases ends.kind_eq kind_found with rfl | rfl
  · cases bracket
    cases reading
    exact .inl rfl
  · cases bracket with
    | same => exact absurd (mem_of_getElem? word_found) (not_mem_settledWords lexed (by simp))
    | closer =>
      cases reading
      exact .inr rfl

/-- A parenthesis closes an array literal if the innermost open one belongs to `array`. -/
theorem endsArray_closeParenthesis_iff
    (state : ArrayState (settledKinds lexemes) index before arrays)
    (found : (settledKinds lexemes)[index]? = some .closeParenthesis) :
    arrays.head?.getD false = true ↔ EndsArray lexemes index := by
  rcases state.openers with ⟨openers, stillOpen, flags⟩
  have side : ((settledKinds lexemes).map Kind.parenthesisSide)[index]? = some .closes := by
    simp [found, Kind.parenthesisSide]
  have keyword_of_ends : EndsArray lexemes index → ∃ owner opener,
      Places.OpensArray (settledKinds lexemes) owner opener ∧ openers.head? = some opener := by
    rintro ⟨owner, span, array, closes⟩
    cases array with
    | keyword array paired =>
      exact ⟨owner, span.opener, array, (stillOpen.mem_pairs_iff side closes).mp paired⟩
    | short opens same paired =>
      have array : IsArray lexemes owner span := .short opens same paired
      rcases array.closer.2 with ⟨keyword, -⟩ | ⟨-, closer⟩
      · simp [opens] at keyword
      · simp [closes, found] at closer
  cases flags with
  | nil =>
    simp only [head?_nil, Option.getD_none, Bool.false_eq_true, false_iff]
    intro ends
    rcases keyword_of_ends ends with ⟨owner, opener, -, first⟩
    simp at first
  | @cons opener array _ _ flag _ =>
    rw [head?_cons, Option.getD_some, flag]
    constructor
    · rintro ⟨owner, array⟩
      let span : Span := ⟨opener, index⟩
      have paired : span ∈ parentheses lexemes := (stillOpen.mem_pairs_iff side rfl).mpr rfl
      exact ⟨owner, span, .keyword array paired, rfl⟩
    · intro ends
      rcases keyword_of_ends ends with ⟨owner, other, array, first⟩
      obtain rfl : opener = other := by simpa using first
      exact ⟨owner, array⟩

theorem endsArray_closeShortArray
    (lexed : ∀ lexeme ∈ lexemes, Lexeme.isContextual lexeme.kind = false)
    (found : (settledKinds lexemes)[index]? = some .closeShortArray) : EndsArray lexemes index := by
  have words := not_mem_settledWords lexed (.inr (.inl (Eq.refl Kind.closeShortArray)))
  obtain ⟨span, paired, closes⟩ : ∃ span ∈ squares lexemes, span.closer = index :=
    Kind.exists_pair_of_settled drop_zero rfl words (.inl rfl) (Nat.zero_le index) found
  have settled := settled_squares paired
  rw [kind?_ofLexemes, closes, found, kind?_ofLexemes, eq_comm, Option.map_eq_some_iff] at settled
  rcases settled with ⟨opener, opener_found, settled⟩
  obtain rfl : opener = .openShortArray := by
    cases opener <;> first | rfl | simp [Kind.settleCloser] at settled
  exact ⟨span.opener, span, .short opener_found rfl paired, closes⟩

/-- The walk marks exactly the tokens that close array literals. -/
theorem closesArray_iff (lexed : ∀ lexeme ∈ lexemes, Lexeme.isContextual lexeme.kind = false)
    (state : ArrayState (settledKinds lexemes) index before arrays)
    (found : (settledKinds lexemes)[index]? = some kind) :
    Kind.closesArray arrays kind = true ↔ EndsArray lexemes index := by
  by_cases parenthesis : kind = .closeParenthesis
  · subst parenthesis
    exact endsArray_closeParenthesis_iff state found
  by_cases short : kind = .closeShortArray
  · subst short
    exact iff_of_true rfl (endsArray_closeShortArray lexed found)
  · refine iff_of_false ?_ fun ends => (ends.kind_eq found).elim parenthesis short
    cases kind <;> first | exact Bool.false_ne_true | contradiction

section Walk

variable {α : Type} (lexed : ∀ lexeme ∈ lexemes, Lexeme.isContextual lexeme.kind = false)

include lexed

/-- What the walk marks ends an array literal. -/
theorem endsArray_of_mark {items : List (Kind × α)} {offset : Nat} {item : Kind × Bool × α}
    (state : ArrayState (settledKinds lexemes) index before arrays)
    (suffix : (settledKinds lexemes).drop index = items.map Prod.fst)
    (found : (Kind.markArrays before arrays items)[offset]? = some item)
    (mark : item.2.1 = true) : EndsArray lexemes (index + offset) := by
  induction items generalizing index before arrays offset with
  | nil => simp [Kind.markArrays] at found
  | cons first items ih =>
    rcases getElem?_of_drop suffix with ⟨at_index, later⟩
    cases offset with
    | zero =>
      obtain rfl := Option.some.inj found
      exact (closesArray_iff lexed state at_index).mp mark
    | succ offset =>
      have := ih (state.step at_index) later found
      rwa [show index + 1 + offset = index + (offset + 1) by omega] at this

/-- Commas may be added before tokens that close an array literal and have none before them. -/
theorem admits_of_endsArray {items : List (Kind × Bool × α)}
    (state : ArrayState (settledKinds lexemes) index before arrays)
    (suffix : (settledKinds lexemes).drop index = items.map Prod.fst)
    (allowed : ∀ offset item, items[offset]? = some item → item.2.1 = true →
      EndsArray lexemes (index + offset) ∧
        lastBefore (settledKinds lexemes) (index + offset) ≠ some .comma) :
    Kind.Admits before arrays items := by
  induction items generalizing index before arrays with
  | nil => trivial
  | cons first items ih =>
    rcases getElem?_of_drop suffix with ⟨at_index, later⟩
    refine ⟨fun chosen => ?_, ih (state.step at_index) later fun offset item found mark => ?_⟩
    · rcases allowed 0 first rfl chosen with ⟨ends, apart⟩
      rw [state.before_eq]
      exact ⟨(closesArray_iff lexed state at_index).mpr ends, apart⟩
    · have := allowed (offset + 1) item found mark
      rwa [show index + (offset + 1) = index + 1 + offset by omega] at this

end Walk

end Stream

end PhpStyle
