import PhpStyle.Proofs.Annotation
import PhpStyle.Proofs.Relexing

/-!
# Readings of words and brackets

The lexer gives each lexeme a kind by its text, and the neighbours settle it. This
file says what the settled kinds have to do with the lexed ones, token by token,
and that only significant tokens matter: settling the kinds of a file and leaving
out the trivia is the same as settling the kinds of its significant tokens.

A comma before a closing bracket settles nothing, so it can be put there without
any other token being read in another way.
-/

namespace PhpStyle

open List

namespace Kind

/-- How a word may be read. -/
inductive WordReading : Kind → Kind → Prop where
  | same {kind : Kind} : WordReading kind kind
  | name {kind : Kind} (keyword : kind.isKeyword = true) : WordReading kind .name
  | anonClass : WordReading .classKw .anonClass
  | closure : WordReading .functionKw .closure

/-- How a square bracket may be read. -/
inductive BracketReading : Kind → Kind → Prop where
  | same {kind : Kind} : BracketReading kind kind
  | opener : BracketReading .openSquare .openShortArray
  | closer : BracketReading .closeSquare .closeShortArray
  | attributeEnd : BracketReading .closeSquare .attributeEnd

variable {before : Option Kind} {word kind : Kind}

theorem wordReading_settleWord (before : Option Kind) (kind : Kind) (following : List Kind) :
    WordReading kind (settleWord before kind following) := by
  unfold settleWord
  by_cases keyword : kind.isKeyword = true
  · rw [if_pos keyword]
    split
    · exact .name keyword
    · split
      · exact .name keyword
      · split
        · next anonymous =>
            simp only [Bool.and_eq_true, beq_iff_eq] at anonymous
            rw [anonymous.1]
            exact .anonClass
        · split
          · next parameters =>
              simp only [Bool.and_eq_true, beq_iff_eq] at parameters
              rw [parameters.1]
              exact .closure
          · exact .same
  · rw [if_neg keyword]
    exact .same

theorem getElem?_settleWords {kinds : List Kind} {index : Nat}
    (found : (settleWords before kinds)[index]? = some word) :
    ∃ kind, kinds[index]? = some kind ∧ WordReading kind word := by
  induction kinds generalizing before index with
  | nil => simp [settleWords] at found
  | cons kind following ih =>
    cases index with
    | zero =>
      simp only [settleWords, getElem?_cons_zero, Option.some.injEq] at found ⊢
      exact ⟨kind, rfl, found ▸ wordReading_settleWord before kind following⟩
    | succ index =>
      simp only [settleWords, getElem?_cons_succ] at found ⊢
      exact ih found

/-- The reading of one token, given the readings of the brackets still open. -/
def settleBracket (before : Option Kind) (stillOpen : List Kind) : Kind → Kind
  | openSquare => if before.any precedesOffset then openSquare else openShortArray
  | closeSquare => (stillOpen.head?.map settleCloser).getD closeSquare
  | kind => kind

/-- The readings of the brackets that are open after one more token. -/
def openAfter (stillOpen : List Kind) (settled : Kind) : Kind → List Kind
  | openSquare | attributeStart => settled :: stillOpen
  | closeSquare => stillOpen.tail
  | _ => stillOpen

theorem openAfter_of_isTrivia (stillOpen : List Kind) (settled : Kind)
    (trivia : kind.isSignificant = false) : openAfter stillOpen settled kind = stillOpen := by
  cases kind <;> first | rfl | simp [isSignificant, isTrivia, isDocComment] at trivia

theorem settleBrackets_cons (before : Option Kind) (stillOpen : List Kind) (kind : Kind)
    (following : List Kind) :
    settleBrackets before stillOpen (kind :: following) =
      settleBracket before stillOpen kind ::
        settleBrackets (lastSignificant before (settleBracket before stillOpen kind))
          (openAfter stillOpen (settleBracket before stillOpen kind) kind) following := by
  by_cases opens : kind = openSquare
  · subst opens
    simp only [settleBrackets, settleBracket, openAfter]
    split <;> rfl
  by_cases closes : kind = closeSquare
  · subst closes
    cases stillOpen with
    | nil => rfl
    | cons opener outer => cases opener <;> rfl
  by_cases starts : kind = attributeStart
  · subst starts
    rfl
  · cases kind <;> first | rfl | contradiction

theorem bracketReading_settleBracket (before : Option Kind) (stillOpen : List Kind) (kind : Kind) :
    BracketReading kind (settleBracket before stillOpen kind) := by
  by_cases opens : kind = openSquare
  · subst opens
    simp only [settleBracket]
    split
    · exact .same
    · exact .opener
  by_cases closes : kind = closeSquare
  · subst closes
    cases stillOpen with
    | nil => exact .same
    | cons opener outer =>
      simp only [settleBracket, head?_cons, Option.map_some, Option.getD_some, settleCloser]
      split
      · exact .closer
      · exact .attributeEnd
      · exact .same
  · have same : settleBracket before stillOpen kind = kind := by
      cases kind <;> first | rfl | contradiction
    rw [same]
    exact .same

theorem getElem?_settleBrackets {stillOpen kinds : List Kind} {index : Nat}
    (found : (settleBrackets before stillOpen kinds)[index]? = some kind) :
    ∃ word, kinds[index]? = some word ∧ BracketReading word kind := by
  induction kinds generalizing before stillOpen index with
  | nil => simp [settleBrackets] at found
  | cons word following ih =>
    rw [settleBrackets_cons] at found
    cases index with
    | zero =>
      simp only [getElem?_cons_zero, Option.some.injEq] at found ⊢
      exact ⟨word, rfl, found ▸ bracketReading_settleBracket before stillOpen word⟩
    | succ index =>
      simp only [getElem?_cons_succ] at found ⊢
      exact ih found

theorem isSignificant_of_isKeyword (keyword : kind.isKeyword = true) :
    kind.isSignificant = true := by
  revert keyword
  cases kind <;> decide

theorem WordReading.isSignificant (reading : WordReading kind word) :
    word.isSignificant = kind.isSignificant := by
  cases reading with
  | name keyword => rw [isSignificant_of_isKeyword keyword]; rfl
  | _ => rfl

theorem BracketReading.isSignificant (reading : BracketReading word kind) :
    kind.isSignificant = word.isSignificant := by
  cases reading <;> rfl

/-- Kinds that can be read in one way only. -/
def isPlain (kind : Kind) : Bool :=
  !kind.isKeyword && kind != openSquare && kind != closeSquare

theorem isPlain_of_isTrivia (trivia : kind.isSignificant = false) : kind.isPlain = true := by
  revert trivia
  cases kind <;> decide

theorem WordReading.eq_of_isPlain (reading : WordReading kind word) (plain : kind.isPlain = true) :
    word = kind := by
  cases reading with
  | same => rfl
  | name keyword => simp [isPlain, keyword] at plain
  | anonClass => simp [isPlain, isKeyword] at plain
  | closure => simp [isPlain, isKeyword] at plain

theorem BracketReading.eq_of_isPlain (reading : BracketReading word kind)
    (plain : word.isPlain = true) : kind = word := by
  cases reading with
  | same => rfl
  | _ => simp [isPlain] at plain

theorem lastSignificant_of_isSignificant (significant : kind.isSignificant = true) :
    lastSignificant before kind = some kind := by
  simp only [isSignificant, Bool.not_eq_true'] at significant
  simp [lastSignificant, significant]

theorem lastSignificant_of_isTrivia (trivia : kind.isSignificant = false) :
    lastSignificant before kind = before := by
  simp only [isSignificant, Bool.not_eq_false'] at trivia
  simp [lastSignificant, trivia]

theorem beginsParameters_filter (following : List Kind) :
    beginsParameters (following.filter isSignificant) = beginsParameters following := by
  simp [beginsParameters, filter_filter]

theorem settleWord_filter (before : Option Kind) (kind : Kind) (following : List Kind) :
    settleWord before kind (following.filter isSignificant) = settleWord before kind following := by
  simp only [settleWord, beginsParameters_filter]

end Kind

/-- The significant ones of some items with kinds. -/
def significant {α : Type} (items : List (Kind × α)) : List (Kind × α) :=
  items.filter fun item => item.1.isSignificant

theorem significant_cons {α : Type} (item : Kind × α) (items : List (Kind × α)) :
    significant (item :: items) =
      if item.1.isSignificant then item :: significant items else significant items :=
  filter_cons

theorem significant_append {α : Type} (front back : List (Kind × α)) :
    significant (front ++ back) = significant front ++ significant back :=
  filter_append front back

namespace Kind

section Significant

variable {α : Type}

/-- Items with their words read. -/
def readWords (before : Option Kind) (items : List (Kind × α)) : List (Kind × α) :=
  (settleWords before (items.map Prod.fst)).zip (items.map Prod.snd)

/-- Items with their brackets read. -/
def readBrackets (before : Option Kind) (stillOpen : List Kind) (items : List (Kind × α)) :
    List (Kind × α) :=
  (settleBrackets before stillOpen (items.map Prod.fst)).zip (items.map Prod.snd)

theorem readWords_cons (before : Option Kind) (item : Kind × α) (items : List (Kind × α)) :
    readWords before (item :: items) =
      (settleWord before item.1 (items.map Prod.fst), item.2) ::
        readWords (lastSignificant before (settleWord before item.1 (items.map Prod.fst))) items :=
  rfl

theorem readBrackets_cons (before : Option Kind) (stillOpen : List Kind) (item : Kind × α)
    (items : List (Kind × α)) :
    readBrackets before stillOpen (item :: items) =
      (settleBracket before stillOpen item.1, item.2) ::
        readBrackets (lastSignificant before (settleBracket before stillOpen item.1))
          (openAfter stillOpen (settleBracket before stillOpen item.1) item.1) items := by
  simp only [readBrackets, map_cons, settleBrackets_cons, zip_cons_cons]

section Filter

variable {keep : Kind × α → Bool}
  (keeps : ∀ item : Kind × α, item.1.isSignificant = true → keep item = true)

include keeps

theorem settleWord_filter_of_keeps (before : Option Kind) (kind : Kind)
    (following : List (Kind × α)) :
    settleWord before kind ((following.filter keep).map Prod.fst) =
      settleWord before kind (following.map Prod.fst) := by
  have same : ((following.filter keep).map Prod.fst).filter isSignificant =
      (following.map Prod.fst).filter isSignificant := by
    rw [filter_map, filter_map, filter_filter]
    congr 1
    apply filter_congr
    intro other _
    rw [Function.comp_apply]
    cases kept : other.1.isSignificant with
    | true => rw [keeps other kept, Bool.and_self]
    | false => rfl
  rw [← settleWord_filter, same, settleWord_filter]

/-- Words are read by the tokens that are kept, if all significant ones are. -/
theorem filter_readWords (before : Option Kind) (items : List (Kind × α)) :
    (readWords before items).filter keep = readWords before (items.filter keep) := by
  induction items generalizing before with
  | nil => rfl
  | cons item items ih =>
    have reading := wordReading_settleWord before item.1 (items.map Prod.fst)
    rw [readWords_cons, filter_cons, filter_cons, ih]
    cases kept : item.1.isSignificant with
    | true =>
      rw [if_pos (keeps _ (reading.isSignificant.trans kept)), if_pos (keeps _ kept),
        readWords_cons, settleWord_filter_of_keeps keeps]
    | false =>
      have settled := reading.eq_of_isPlain (isPlain_of_isTrivia kept)
      rw [lastSignificant_of_isTrivia (reading.isSignificant.trans kept), settled]
      split
      · rw [readWords_cons, (wordReading_settleWord _ _ _).eq_of_isPlain
          (isPlain_of_isTrivia kept), lastSignificant_of_isTrivia kept]
      · rfl

theorem filter_readBrackets (before : Option Kind) (stillOpen : List Kind)
    (items : List (Kind × α)) :
    (readBrackets before stillOpen items).filter keep =
      readBrackets before stillOpen (items.filter keep) := by
  induction items generalizing before stillOpen with
  | nil => rfl
  | cons item items ih =>
    have reading := bracketReading_settleBracket before stillOpen item.1
    rw [readBrackets_cons, filter_cons, filter_cons, ih]
    cases kept : item.1.isSignificant with
    | true =>
      rw [if_pos (keeps _ (reading.isSignificant.trans kept)), if_pos (keeps _ kept),
        readBrackets_cons]
    | false =>
      have settled := reading.eq_of_isPlain (isPlain_of_isTrivia kept)
      rw [lastSignificant_of_isTrivia (reading.isSignificant.trans kept),
        openAfter_of_isTrivia stillOpen _ kept, settled]
      split
      · rw [readBrackets_cons, settled, lastSignificant_of_isTrivia kept,
          openAfter_of_isTrivia stillOpen _ kept]
      · rfl

end Filter

end Significant

section Commas

variable {α : Type}

/-- Marked items with a comma before each one whose mark is set. -/
def withCommas (comma : α) : List (Kind × Bool × α) → List (Kind × α)
  | [] => []
  | (kind, mark, content) :: items =>
    (if mark then [(.comma, comma)] else []) ++ (kind, content) :: withCommas comma items

/-- The items are significant, and only brackets that close are marked. -/
def MarksClosers (items : List (Kind × Bool × α)) : Prop :=
  ∀ item ∈ items, item.1.isSignificant = true ∧
    (item.2.1 = true → item.1 = closeParenthesis ∨ item.1 = closeSquare)

variable {items : List (Kind × Bool × α)}

theorem isSignificant_withCommas {comma : α} (closers : MarksClosers items) :
    ∀ kind ∈ (withCommas comma items).map Prod.fst, kind.isSignificant = true := by
  induction items with
  | nil => simp [withCommas]
  | cons item items ih =>
    rcases item with ⟨kind, mark, content⟩
    have first := (closers _ mem_cons_self).1
    have rest := ih fun item inside => closers item (mem_cons_of_mem _ inside)
    cases mark with
    | true => simpa [withCommas, first] using ⟨by decide, by simpa using rest⟩
    | false => simpa [withCommas, first] using rest

/-- A comma before a closing bracket is not taken for the start of parameters. -/
theorem beginsParameters_withCommas (comma : α) (closers : MarksClosers items) :
    beginsParameters ((withCommas comma items).map Prod.fst) =
      beginsParameters (items.map Prod.fst) := by
  have all : ∀ kind ∈ items.map Prod.fst, kind.isSignificant = true := by
    simp only [mem_map, forall_exists_index, and_imp, forall_apply_eq_imp_iff₂]
    exact fun item inside => (closers item inside).1
  simp only [beginsParameters, List.filter_eq_self.mpr all,
    List.filter_eq_self.mpr (isSignificant_withCommas closers)]
  cases items with
  | nil => rfl
  | cons first items =>
    rcases first with ⟨kind, mark, content⟩
    have first_closes := (closers _ mem_cons_self).2
    cases mark with
    | true =>
      rcases first_closes rfl with closes | closes <;> simp_all [withCommas]
    | false =>
      by_cases opens : kind = openParenthesis
      · subst opens
        rfl
      by_cases reference : kind = ampersand
      · subst reference
        cases items with
        | nil => rfl
        | cons second items =>
          rcases second with ⟨kind, mark, content⟩
          have second_closes := (closers (kind, mark, content) (by simp)).2
          cases mark with
          | true => rcases second_closes rfl with closes | closes <;> simp_all [withCommas]
          | false => cases kind <;> rfl
      · simp only [withCommas, Bool.false_eq_true, if_false, nil_append, map_cons]
        cases kind <;> first | rfl | contradiction

/-- Commas before closing brackets do not change how words are read. -/
theorem readWords_withCommas (before : Option Kind) (comma : α) (closers : MarksClosers items) :
    readWords before (withCommas comma items) = withCommas comma (readWords before items) := by
  induction items generalizing before with
  | nil => rfl
  | cons item items ih =>
    rcases item with ⟨kind, mark, content⟩
    have rest : MarksClosers items := fun item inside => closers item (by simp [inside])
    have first := closers (kind, mark, content) (by simp)
    have same (before : Option Kind) :
        settleWord before kind ((withCommas comma items).map Prod.fst) =
          settleWord before kind (items.map Prod.fst) := by
      simp only [settleWord, beginsParameters_withCommas comma rest]
    cases mark with
    | false =>
      simp only [withCommas, Bool.false_eq_true, if_false, nil_append, readWords_cons,
        same, ih _ rest]
    | true =>
      have word (before : Option Kind) (following : List Kind) :
          settleWord before kind following = kind := by
        rcases first.2 rfl with rfl | rfl <;> rfl
      simp only [withCommas, if_true, cons_append, nil_append, readWords_cons, word,
        ih _ rest, lastSignificant_of_isSignificant first.1]
      rfl

/-- Commas before closing brackets do not change how brackets are read. -/
theorem readBrackets_withCommas (before : Option Kind) (stillOpen : List Kind) (comma : α)
    (closers : MarksClosers items) :
    readBrackets before stillOpen (withCommas comma items) =
      withCommas comma (readBrackets before stillOpen items) := by
  induction items generalizing before stillOpen with
  | nil => rfl
  | cons item items ih =>
    rcases item with ⟨kind, mark, content⟩
    have rest : MarksClosers items := fun item inside => closers item (by simp [inside])
    have first := closers (kind, mark, content) (by simp)
    cases mark with
    | false =>
      simp only [withCommas, Bool.false_eq_true, if_false, nil_append, readBrackets_cons,
        ih _ _ rest]
    | true =>
      have bracket (other : Option Kind) :
          settleBracket other stillOpen kind = settleBracket before stillOpen kind := by
        rcases first.2 rfl with rfl | rfl <;> rfl
      have reading := (bracketReading_settleBracket before stillOpen kind).isSignificant
      have comma_settled : settleBracket before stillOpen Kind.comma = Kind.comma := rfl
      have comma_opens : openAfter stillOpen Kind.comma Kind.comma = stillOpen := rfl
      simp only [withCommas, if_true, cons_append, nil_append, readBrackets_cons,
        ih _ _ rest, comma_settled, comma_opens, bracket,
        lastSignificant_of_isSignificant (reading.trans first.1)]

/-- The words are read first, and closing brackets are none. -/
theorem marksClosers_readWords (before : Option Kind) (closers : MarksClosers items) :
    MarksClosers (readWords before items) := by
  induction items generalizing before with
  | nil => exact closers
  | cons item items ih =>
    have first := closers item mem_cons_self
    have rest := ih (lastSignificant before (settleWord before item.1 (items.map Prod.fst)))
      fun item inside => closers item (by simp [inside])
    have reading := wordReading_settleWord before item.1 (items.map Prod.fst)
    rw [readWords_cons]
    intro other inside
    rcases List.mem_cons.mp inside with rfl | inside
    · refine ⟨reading.isSignificant.trans first.1, fun mark => ?_⟩
      rcases first.2 mark with closes | closes <;> simp [closes, settleWord, isKeyword]
    · exact rest other inside

/-- Items with their words and brackets read. -/
def read (items : List (Kind × α)) : List (Kind × α) :=
  readBrackets none [] (readWords none items)

theorem read_eq (items : List (Kind × α)) :
    read items = (settleBrackets none [] (settleWords none (items.map Prod.fst))).zip
      (items.map Prod.snd) := by
  have length :
      (settleWords none (items.map Prod.fst)).length = (items.map Prod.snd).length := by
    simp [length_settleWords]
  rw [read, readBrackets, readWords, map_fst_zip (Nat.le_of_eq length),
    map_snd_zip (Nat.le_of_eq length.symm)]

/-- Items are read by significant tokens only. -/
theorem filter_read {keep : Kind × α → Bool}
    (keeps : ∀ item : Kind × α, item.1.isSignificant = true → keep item = true)
    (items : List (Kind × α)) : (read items).filter keep = read (items.filter keep) := by
  rw [read, filter_readBrackets keeps, filter_readWords keeps, read]

theorem significant_read (items : List (Kind × α)) :
    significant (read items) = read (significant items) :=
  filter_read (fun _ kept => kept) items

/-- Commas before closing brackets change no reading. -/
theorem read_withCommas (comma : α) (closers : MarksClosers items) :
    read (withCommas comma items) = withCommas comma (read items) := by
  rw [read, readWords_withCommas none comma closers,
    readBrackets_withCommas none [] comma (marksClosers_readWords none closers), read]

end Commas

end Kind

end PhpStyle
