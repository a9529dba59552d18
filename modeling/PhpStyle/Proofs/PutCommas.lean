import Mathlib.Order.Monotone.Basic
import PhpStyle.Proofs.ArrayLiterals

/-!
# Commas behind tokens

Commas behind some tokens move the tokens after them and add nothing else. If the
next significant token behind each comma closes a bracket, no word and no bracket
is read in another way than before, and the brackets pair up as they did.
-/

namespace PhpStyle

open List

section Items

variable {α β : Type}

/-- Items with a comma behind each one that is marked. -/
def putCommas (comma : α) : List Bool → List α → List α
  | mark :: marks, item :: items =>
    item :: if mark then comma :: putCommas comma marks items else putCommas comma marks items
  | _, items => items

/-- The place that an item has once the commas are there. -/
def shifted (marks : List Bool) (index : Nat) : Nat :=
  index + (marks.take index).count true

variable {marks : List Bool} {items : List α}

theorem map_putCommas (f : α → β) (comma : α) (marks : List Bool) (items : List α) :
    (putCommas comma marks items).map f = putCommas (f comma) marks (items.map f) := by
  induction items generalizing marks with
  | nil => cases marks <;> rfl
  | cons item items ih =>
    cases marks with
    | nil => rfl
    | cons mark marks => cases mark <;> simp [putCommas, ih]

theorem shifted_cons (mark : Bool) (marks : List Bool) (index : Nat) :
    shifted (mark :: marks) (index + 1) = shifted marks index + 1 + mark.toNat := by
  cases mark <;> simp [shifted] <;> omega

/-- Each item is found again at its shifted place. -/
theorem getElem?_shifted (comma : α) (marks : List Bool) (items : List α) (index : Nat) :
    (putCommas comma marks items)[shifted marks index]? = items[index]? := by
  induction items generalizing marks index with
  | nil => cases marks <;> simp [putCommas]
  | cons item items ih =>
    cases marks with
    | nil => simp [putCommas, shifted]
    | cons mark marks =>
      cases index with
      | zero => rfl
      | succ index =>
        rw [shifted_cons]
        cases mark <;> simp [putCommas, ih]

theorem getElem?_shifted_add_one (comma : α) {index : Nat} (marked : marks[index]? = some true)
    (inside : index < items.length) :
    (putCommas comma marks items)[shifted marks index + 1]? = some comma := by
  induction items generalizing marks index with
  | nil => simp at inside
  | cons item items ih =>
    cases marks with
    | nil => simp at marked
    | cons mark marks =>
      cases index with
      | zero =>
        obtain rfl : mark = true := by simpa using marked
        rfl
      | succ index =>
        have := ih (by simpa using marked) (by simpa using inside)
        rw [shifted_cons]
        cases mark <;> simp [putCommas, this]

theorem exists_shifted_of_lt_length (comma : α) {place : Nat}
    (inside : place < (putCommas comma marks items).length) :
    (∃ index, place = shifted marks index) ∨
      ∃ index, place = shifted marks index + 1 ∧ marks[index]? = some true := by
  induction items generalizing marks place with
  | nil => cases marks <;> simp [putCommas] at inside
  | cons first items ih =>
    cases marks with
    | nil => exact .inl ⟨place, by simp [shifted]⟩
    | cons mark marks =>
      cases place with
      | zero => exact .inl ⟨0, rfl⟩
      | succ place =>
        have later (next : Nat)
            (next_inside : next < (putCommas comma marks items).length) :
            (∃ index, next + 1 + mark.toNat = shifted (mark :: marks) index) ∨
              ∃ index, next + 1 + mark.toNat = shifted (mark :: marks) index + 1 ∧
                (mark :: marks)[index]? = some true := by
          rcases ih next_inside with ⟨index, rfl⟩ | ⟨index, rfl, marked⟩
          · exact .inl ⟨index + 1, (shifted_cons mark marks index).symm⟩
          · refine .inr ⟨index + 1, ?_, marked⟩
            rw [shifted_cons]
            omega
        cases mark with
        | false => exact later place (by simpa [putCommas] using inside)
        | true =>
          cases place with
          | zero => exact .inr ⟨0, rfl, rfl⟩
          | succ place => exact later place (by simpa [putCommas] using inside)

/-- Each place is that of an item or of the comma behind one. -/
theorem of_getElem?_putCommas {comma item : α} {place : Nat}
    (found : (putCommas comma marks items)[place]? = some item) :
    (∃ index, place = shifted marks index ∧ items[index]? = some item) ∨ item = comma := by
  have inside := (List.getElem?_eq_some_iff.mp found).1
  rcases exists_shifted_of_lt_length comma inside with ⟨index, rfl⟩ | ⟨index, rfl, marked⟩
  · rw [getElem?_shifted] at found
    exact .inl ⟨index, rfl, found⟩
  · have there := getElem?_eq_getElem (Nat.lt_of_succ_lt inside)
    rw [getElem?_shifted] at there
    rw [getElem?_shifted_add_one comma marked (List.getElem?_eq_some_iff.mp there).1] at found
    exact .inr (Option.some.inj found).symm

theorem length_putCommas (comma : α) (same : marks.length = items.length) :
    (putCommas comma marks items).length = shifted marks items.length := by
  induction items generalizing marks with
  | nil =>
    rw [List.length_eq_zero_iff.mp same]
    rfl
  | cons item items ih =>
    cases marks with
    | nil => cases same
    | cons mark marks =>
      rw [length_cons, shifted_cons, ← ih (Nat.succ.inj same)]
      cases mark <;> rfl

theorem strictMono_shifted (marks : List Bool) : StrictMono (shifted marks) := by
  intro first second ordered
  have sublist : (marks.take first).Sublist (marks.take second) :=
    take_sublist_take_left (by omega)
  have := sublist.count_le true
  simp only [shifted]
  omega

/-- Commas move the other items and add nothing else. -/
theorem spread_putCommas (comma : α) (marks : List Bool) (items : List α) :
    Spread (· = comma) items (putCommas comma marks items) (shifted marks) where
  mono := strictMono_shifted marks
  at_place := getElem?_shifted comma marks items
  idle _ _ found := (of_getElem?_putCommas found).imp_left fun ⟨index, there, _⟩ => ⟨index, there⟩

theorem take_shifted (comma : α) (marks : List Bool) (items : List α) (index : Nat) :
    (putCommas comma marks items).take (shifted marks index) =
      putCommas comma marks (items.take index) := by
  induction items generalizing marks index with
  | nil => cases marks <;> simp [putCommas]
  | cons item items ih =>
    cases marks with
    | nil => simp [putCommas, shifted]
    | cons mark marks =>
      cases index with
      | zero => cases mark <;> simp [putCommas, shifted]
      | succ index =>
        rw [shifted_cons]
        cases mark <;> simp [putCommas, ih]

theorem shifted_add_one (marks : List Bool) (index : Nat) :
    shifted marks (index + 1) = shifted marks index + 1 + (marks[index]?.getD false).toNat := by
  rw [shifted, shifted, take_add_one, count_append]
  cases marked : marks[index]? with
  | none => simp; omega
  | some mark => cases mark <;> simp <;> omega

theorem putCommas_cons (comma : α) (marks : List Bool) (item : α) (items : List α) :
    putCommas comma marks (item :: items) =
      item :: (List.replicate (marks.headD false).toNat comma ++
        putCommas comma marks.tail items) := by
  cases marks with
  | nil => cases items <;> rfl
  | cons mark marks => cases mark <;> rfl

end Items

namespace Kind

/-- Commas are put only behind significant tokens, and only where the next significant token closes
a bracket. The flag says whether the last significant token has got a comma. -/
def AwaitsCloser (pending : Bool) (marks : List Bool) : List Kind → Prop
  | [] => True
  | kind :: kinds =>
    if kind.isSignificant then
      (pending = true → kind = closeParenthesis ∨ kind = closeSquare) ∧
        AwaitsCloser (marks.headD false) marks.tail kinds
    else marks.headD false = false ∧ AwaitsCloser pending marks.tail kinds

section Settled

variable {pending : Bool} {marks : List Bool} {kinds : List Kind}

variable {kind : Kind}

theorem awaitsCloser_of_significant (kept : kind.isSignificant = true) :
    AwaitsCloser pending marks (kind :: kinds) ↔
      (pending = true → kind = closeParenthesis ∨ kind = closeSquare) ∧
        AwaitsCloser (marks.headD false) marks.tail kinds := by
  rw [AwaitsCloser, if_pos kept]

theorem awaitsCloser_of_trivia (trivia : kind.isSignificant = false) :
    AwaitsCloser pending marks (kind :: kinds) ↔
      marks.headD false = false ∧ AwaitsCloser pending marks.tail kinds := by
  rw [AwaitsCloser, trivia, if_neg Bool.false_ne_true]

/-- The first significant token stays the first one. -/
theorem head?_filter_putCommas (awaits : AwaitsCloser pending marks kinds) :
    ((putCommas comma marks kinds).filter isSignificant).head? =
      (kinds.filter isSignificant).head? := by
  induction kinds generalizing marks with
  | nil => cases marks <;> rfl
  | cons kind kinds ih =>
    rw [putCommas_cons, filter_cons, filter_cons]
    cases kept : kind.isSignificant with
    | true => rfl
    | false =>
      rcases (awaitsCloser_of_trivia kept).mp awaits with ⟨unmarked, rest⟩
      rw [unmarked]
      exact ih rest

theorem head?_filter_of_awaitsCloser (awaits : AwaitsCloser true marks kinds)
    (first : (kinds.filter isSignificant).head? = some kind) :
    kind = closeParenthesis ∨ kind = closeSquare := by
  induction kinds generalizing marks with
  | nil => simp at first
  | cons next kinds ih =>
    rw [filter_cons] at first
    cases kept : next.isSignificant with
    | true =>
      rw [kept] at first
      obtain rfl := Option.some.inj first
      exact ((awaitsCloser_of_significant kept).mp awaits).1 rfl
    | false =>
      rw [kept] at first
      exact ih ((awaitsCloser_of_trivia kept).mp awaits).2 first

theorem beginsParameters_cons (kept : kind.isSignificant = true) (following : List Kind) :
    beginsParameters (kind :: following) = true ↔
      kind = openParenthesis ∨
        kind = ampersand ∧ (following.filter isSignificant).head? = some openParenthesis := by
  rw [beginsParameters, filter_cons, if_pos kept]
  constructor
  · intro begins
    split at begins
    · next split =>
        obtain rfl := (List.cons.inj split).1
        exact .inl rfl
    · next split =>
        rcases List.cons.inj split with ⟨rfl, rest⟩
        exact .inr ⟨rfl, by rw [rest]; rfl⟩
    · exact absurd begins Bool.false_ne_true
  · rintro (rfl | ⟨rfl, opens⟩)
    · rfl
    · rcases List.head?_eq_some_iff.mp opens with ⟨more, rest⟩
      rw [rest]

theorem beginsParameters_of_trivia (trivia : kind.isSignificant = false) (following : List Kind) :
    beginsParameters (kind :: following) = beginsParameters following := by
  rw [beginsParameters, filter_cons, trivia, if_neg Bool.false_ne_true, beginsParameters]

theorem opens_putCommas_iff (awaits : AwaitsCloser pending marks kinds) :
    ((List.replicate pending.toNat comma ++ putCommas comma marks kinds).filter
        isSignificant).head? = some openParenthesis ↔
      (kinds.filter isSignificant).head? = some openParenthesis := by
  cases pending with
  | false => exact Eq.congr_left (head?_filter_putCommas awaits)
  | true =>
    refine iff_of_false (by rintro ⟨⟩) fun opens => ?_
    rcases head?_filter_of_awaitsCloser awaits opens with closes | closes <;> contradiction

theorem not_beginsParameters_of_awaitsCloser (awaits : AwaitsCloser true marks kinds) :
    beginsParameters kinds = false := by
  rw [beginsParameters]
  have first {kind : Kind} (found : (kinds.filter isSignificant).head? = some kind) :=
    head?_filter_of_awaitsCloser awaits found
  split
  · next opens => exact absurd (first (by rw [opens]; rfl)) (by decide)
  · next opens => exact absurd (first (by rw [opens]; rfl)) (by decide)
  · rfl

/-- A comma before a closing bracket does not begin parameters, nor does the bracket. -/
theorem beginsParameters_putCommas (awaits : AwaitsCloser pending marks kinds) :
    beginsParameters (List.replicate pending.toNat comma ++ putCommas comma marks kinds) =
      beginsParameters kinds := by
  cases pending with
  | true =>
    rw [not_beginsParameters_of_awaitsCloser awaits]
    rfl
  | false =>
    induction kinds generalizing marks with
    | nil => cases marks <;> rfl
    | cons kind kinds ih =>
      rw [putCommas_cons]
      cases kept : kind.isSignificant with
      | false =>
        rcases (awaitsCloser_of_trivia kept).mp awaits with ⟨unmarked, rest⟩
        rw [unmarked, beginsParameters_of_trivia kept]
        exact (beginsParameters_of_trivia kept _).trans (ih rest)
      | true =>
        rcases (awaitsCloser_of_significant kept).mp awaits with ⟨-, rest⟩
        have opens := opens_putCommas_iff rest
        exact Bool.eq_iff_iff.mpr ((beginsParameters_cons kept _).trans
          ((or_congr_right (and_congr_right fun _ => opens)).trans
            (beginsParameters_cons kept _).symm))

theorem settleWord_putCommas (awaits : AwaitsCloser pending marks (kind :: kinds))
    (before : Option Kind) :
    settleWord (if pending then some comma else before) kind
        (List.replicate (marks.headD false).toNat comma ++ putCommas comma marks.tail kinds) =
      settleWord before kind kinds := by
  cases kept : kind.isSignificant with
  | false =>
    have plain : kind.isKeyword = false := by
      by_contra keyword
      rw [Bool.not_eq_false] at keyword
      simp [isSignificant_of_isKeyword keyword] at kept
    simp [settleWord, plain]
  | true =>
    rcases (awaitsCloser_of_significant kept).mp awaits with ⟨closes, rest⟩
    cases pending with
    | false => rw [settleWord, settleWord, beginsParameters_putCommas rest]; rfl
    | true => rcases closes rfl with rfl | rfl <;> rfl

theorem awaitsCloser_settleWords (awaits : AwaitsCloser pending marks kinds)
    (before : Option Kind) : AwaitsCloser pending marks (settleWords before kinds) := by
  induction kinds generalizing pending marks before with
  | nil => trivial
  | cons kind kinds ih =>
    have reading := wordReading_settleWord before kind kinds
    rw [settleWords]
    cases kept : kind.isSignificant with
    | false =>
      rcases (awaitsCloser_of_trivia kept).mp awaits with ⟨unmarked, rest⟩
      exact (awaitsCloser_of_trivia (reading.isSignificant.trans kept)).mpr ⟨unmarked, ih rest _⟩
    | true =>
      rcases (awaitsCloser_of_significant kept).mp awaits with ⟨closes, rest⟩
      refine (awaitsCloser_of_significant (reading.isSignificant.trans kept)).mpr
        ⟨fun waiting => ?_, ih rest _⟩
      rcases closes waiting with rfl | rfl <;> simp [settleWord, isKeyword]

/-- A comma that stands behind a token is the last significant token, and goes on as such. -/
theorem settle_putCommas (settle : Option Kind → List Kind → List Kind)
    (settle_comma : ∀ before rest, settle before (comma :: rest) = comma :: settle (some comma) rest)
    (ih : ∀ {pending marks}, AwaitsCloser pending marks kinds → ∀ before,
      settle (if pending then some comma else before) (putCommas comma marks kinds) =
        putCommas comma marks (settle before kinds))
    (awaits : AwaitsCloser pending marks (kind :: kinds)) (before : Option Kind) {read : Kind}
    (same : read.isSignificant = kind.isSignificant) :
    settle (lastSignificant (if pending then some comma else before) read)
        (List.replicate (marks.headD false).toNat comma ++ putCommas comma marks.tail kinds) =
      List.replicate (marks.headD false).toNat comma ++
        putCommas comma marks.tail (settle (lastSignificant before read) kinds) := by
  cases kept : kind.isSignificant with
  | false =>
    rcases (awaitsCloser_of_trivia kept).mp awaits with ⟨unmarked, rest⟩
    have trivia := same.trans kept
    rw [unmarked, lastSignificant_of_isTrivia trivia, lastSignificant_of_isTrivia trivia]
    exact ih rest before
  | true =>
    rcases (awaitsCloser_of_significant kept).mp awaits with ⟨-, rest⟩
    have significant := same.trans kept
    rw [lastSignificant_of_isSignificant significant, lastSignificant_of_isSignificant significant]
    have later := ih rest (some read)
    cases mark : marks.headD false with
    | false =>
      rw [mark] at later
      exact later
    | true =>
      rw [mark] at later
      exact (settle_comma _ _).trans (congrArg (List.cons comma) later)

/-- Words are read as before commas were put before closing brackets. -/
theorem settleWords_putCommas (awaits : AwaitsCloser pending marks kinds) (before : Option Kind) :
    settleWords (if pending then some comma else before) (putCommas comma marks kinds) =
      putCommas comma marks (settleWords before kinds) := by
  induction kinds generalizing pending marks before with
  | nil => cases marks <;> rfl
  | cons kind kinds ih =>
    rw [putCommas_cons, settleWords, settleWords, settleWord_putCommas awaits, putCommas_cons]
    exact congrArg _ (settle_putCommas settleWords (fun _ _ => rfl) (ih ·) awaits before
      (wordReading_settleWord before kind kinds).isSignificant)

/-- The reading of a bracket does not change: one that closes does not look at the token before. -/
theorem settleBracket_of_awaitsCloser (awaits : AwaitsCloser pending marks (kind :: kinds))
    (before : Option Kind) (stillOpen : List Kind) :
    settleBracket (if pending then some comma else before) stillOpen kind =
      settleBracket before stillOpen kind := by
  cases pending with
  | false => rfl
  | true =>
    have other : kind ≠ openSquare := by
      rintro rfl
      rcases ((awaitsCloser_of_significant rfl).mp awaits).1 rfl with closes | closes <;>
        contradiction
    cases kind <;> first | rfl | contradiction

/-- Brackets are read as before commas were put before closing brackets. -/
theorem settleBrackets_putCommas (awaits : AwaitsCloser pending marks kinds)
    (before : Option Kind) (stillOpen : List Kind) :
    settleBrackets (if pending then some comma else before) stillOpen
        (putCommas comma marks kinds) =
      putCommas comma marks (settleBrackets before stillOpen kinds) := by
  induction kinds generalizing pending marks before stillOpen with
  | nil => cases marks <;> rfl
  | cons kind kinds ih =>
    rw [putCommas_cons, settleBrackets_cons, settleBrackets_cons, settleBracket_of_awaitsCloser
      awaits, putCommas_cons]
    exact congrArg _ (settle_putCommas (settleBrackets · _) (fun _ _ => rfl)
      (fun rest before => ih rest before _) awaits before
      (bracketReading_settleBracket before stillOpen kind).isSignificant)

/-- Marks at tokens whose next significant token closes a bracket. A comma is pending at a place if
it stands behind the last significant token before the place. -/
theorem awaitsCloser_drop {all : List Kind}
    (marked : ∀ index, marks[index]? = some true → ∃ closer, Neighbours all index closer ∧
      (all[closer]? = some closeParenthesis ∨ all[closer]? = some closeSquare)) {place : Nat}
    (suffix : all.drop place = kinds)
    (waits : pending = true → ∃ index, index < place ∧ marks[index]? = some true ∧
      ∀ between, index < between → between < place → ¬SignificantAt all between) :
    AwaitsCloser pending (marks.drop place) kinds := by
  induction kinds generalizing place pending with
  | nil => trivial
  | cons kind kinds ih =>
    rcases getElem?_of_drop suffix with ⟨found, later⟩
    have mark_eq : (marks.drop place).headD false = marks[place]?.getD false := by
      rw [headD_eq_head?_getD, head?_drop]
    have marked_here (mark : (marks.drop place).headD false = true) :
        marks[place]? = some true := by
      rw [mark_eq] at mark
      cases at_place : marks[place]? <;> simp_all
    cases kept : kind.isSignificant with
    | false =>
      have trivia : ¬SignificantAt all place := by
        rintro ⟨other, other_found, significant⟩
        obtain rfl := Option.some.inj (found.symm.trans other_found)
        simp [kept] at significant
      refine (awaitsCloser_of_trivia kept).mpr ⟨?_, ?_⟩
      · by_contra mark
        rcases marked place (marked_here (by simpa using mark)) with ⟨closer, neighbours, -⟩
        exact trivia neighbours.left_significant
      · rw [tail_drop]
        refine ih later fun waiting => ?_
        rcases waits waiting with ⟨index, earlier, mark, between⟩
        refine ⟨index, by omega, mark, fun other lower upper => ?_⟩
        rcases Nat.eq_or_lt_of_le (Nat.le_of_lt_succ upper) with rfl | before
        · exact trivia
        · exact between other lower before
    | true =>
      have significant : SignificantAt all place := ⟨kind, found, kept⟩
      refine (awaitsCloser_of_significant kept).mpr ⟨fun waiting => ?_, ?_⟩
      · rcases waits waiting with ⟨index, earlier, mark, between⟩
        rcases marked index mark with ⟨closer, neighbours, closes⟩
        have here : Neighbours all index place :=
          ⟨earlier, neighbours.left_significant, significant, between⟩
        obtain rfl := neighbours.right_eq here
        simpa [found] using closes
      · rw [tail_drop]
        refine ih later fun waiting => ?_
        exact ⟨place, by omega, marked_here waiting, fun other lower upper => by omega⟩

theorem awaitsCloser_of_neighbours
    (marked : ∀ index, marks[index]? = some true → ∃ closer, Neighbours kinds index closer ∧
      (kinds[closer]? = some closeParenthesis ∨ kinds[closer]? = some closeSquare)) :
    AwaitsCloser false marks kinds := by
  have from_start : AwaitsCloser false (marks.drop 0) kinds :=
    awaitsCloser_drop marked drop_zero (by rintro ⟨⟩)
  exact from_start

end Settled

end Kind

end PhpStyle
