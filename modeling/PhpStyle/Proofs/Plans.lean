import PhpStyle.Proofs.ArrayEnds
import PhpStyle.Proofs.Repairs

/-!
# What a plan leaves of a file

A plan of repairs that do not meet leaves each lexeme as it is, with a comma
behind it, or not at all. Seen from left to right this is a `Lexeme.Revision`, so
the lexer finds in the repaired text just the lexemes that were left.

A comma is put behind the last token of an array literal, with only trivia
between it and the closer. Once the trivia are left out, it stands before the
closer.
-/

namespace PhpStyle

namespace Repair

open Lexeme PhpStyle.Stream

/-- The repair deletes the token. -/
def deletes : Repair → Nat → Bool
  | comma _, _ => false
  | line previous last, index => previous < index && index ≤ last
  | tail tag stop, index => tag ≤ index && index < stop

theorem covers_of_deletes {repair : Repair} {index : Nat} (deleted : repair.deletes index = true) :
    repair.covers index := by
  cases repair with
  | comma last => simp [deletes] at deleted
  | line previous last => simpa [deletes, covers] using deleted
  | tail tag stop =>
    simp only [deletes, Bool.and_eq_true, decide_eq_true_eq] at deleted
    exact ⟨deleted.1, by omega⟩

/-- What a plan leaves of a lexeme. -/
def remains (plan : List Repair) (lexeme : Lexeme) (index : Nat) : List Piece :=
  if plan.any fun repair => repair.deletes index then []
  else lexeme.piece :: if .comma index ∈ plan then [(.comma, [','])] else []

/-- What a plan leaves of the lexemes from a place on. -/
def piecesFrom (plan : List Repair) (lexemes : List Lexeme) (index : Nat) : List Piece :=
  ((lexemes.drop index).zipIdx index).flatMap fun place => remains plan place.1 place.2

section Pieces

variable {plan : List Repair} {lexemes : List Lexeme} {lexeme : Lexeme} {repair : Repair}
  {index : Nat}

theorem piecesFrom_of_getElem? (plan : List Repair) (found : lexemes[index]? = some lexeme) :
    piecesFrom plan lexemes index =
      remains plan lexeme index ++ piecesFrom plan lexemes (index + 1) := by
  rcases List.getElem?_eq_some_iff.mp found with ⟨bound, rfl⟩
  rw [piecesFrom, List.drop_eq_getElem_cons bound, List.zipIdx_cons, List.flatMap_cons, piecesFrom]

theorem piecesFrom_of_length_le (plan : List Repair) (outside : lexemes.length ≤ index) :
    piecesFrom plan lexemes index = [] := by
  simp [piecesFrom, List.drop_of_length_le outside]

theorem remains_of_not_covered (free : ∀ repair ∈ plan, ¬repair.covers index) (lexeme : Lexeme) :
    remains plan lexeme index = [lexeme.piece] := by
  have kept : (plan.any fun repair => repair.deletes index) = false := by
    rw [List.any_eq_false]
    exact fun repair planned deleted => free repair planned (covers_of_deletes deleted)
  have no_comma : .comma index ∉ plan := fun planned => free _ planned rfl
  simp [remains, kept, no_comma]

variable (apart : plan.Pairwise Apart)

include apart

/-- A token is covered by one repair of a plan at most. -/
theorem eq_of_covers {other : Repair} (planned : repair ∈ plan) (other_planned : other ∈ plan)
    (covered : repair.covers index) (other_covered : other.covers index) : repair = other := by
  rcases related_of_mem apart planned other_planned with same | away | away
  · exact same
  · exact absurd other_covered (away index covered)
  · exact absurd covered (away index other_covered)

theorem remains_of_covers (planned : repair ∈ plan) (covered : repair.covers index)
    (lexeme : Lexeme) :
    remains plan lexeme index = if repair.deletes index then [] else
      lexeme.piece :: if repair = .comma index then [(.comma, [','])] else [] := by
  have deleted : (plan.any fun repair => repair.deletes index) = repair.deletes index := by
    rw [Bool.eq_iff_iff, List.any_eq_true]
    constructor
    · rintro ⟨other, other_planned, deleted⟩
      rwa [eq_of_covers apart planned other_planned covered (covers_of_deletes deleted)]
    · exact fun deleted => ⟨repair, planned, deleted⟩
  have comma : .comma index ∈ plan ↔ repair = .comma index :=
    ⟨fun other_planned => eq_of_covers apart planned other_planned covered rfl, (· ▸ planned)⟩
  simp only [remains, deleted, comma]

end Pieces

section Text

open Edit

variable {lexemes : List Lexeme} {repair : Repair} {index : Nat}

theorem revised_deletions (first last index : Nat) (text : List Char) :
    revised (Fixer.deletions first last) index text =
      if first ≤ index ∧ index < last + 1 then [] else text := by
  have erased (indices : List Nat) (text : List Char) :
      revised (indices.map fun place => .replace place []) index text =
        if index ∈ indices then [] else text := by
    induction indices generalizing text with
    | nil => rfl
    | cons place indices ih =>
      rw [List.map_cons, revised, ih]
      grind
  have within : index ∈ List.range' first (last + 1 - first) ↔
      first ≤ index ∧ index < last + 1 := by
    rw [List.mem_range'_1]
    omega
  rw [Fixer.deletions, erased]
  simp only [within]

/-- A repair touches the tokens that it deletes and the one that it puts a comma behind. -/
theorem Fits.touches_iff (fits : repair.Fits lexemes) :
    touches repair.edits index = true ↔ repair.deletes index = true ∨ repair = .comma index := by
  cases fits with
  | comma found takes more => simp [edits, touches, Edit.index, deletes]
  | line ordered previous_found starts last_found ends =>
    simp only [edits, touches_deletions, deletes, Bool.and_eq_true, decide_eq_true_eq,
      reduceCtorEq, or_false]
    omega
  | tail ordered tag_found tagged stop_found stops =>
    simp only [edits, touches_deletions, deletes, Bool.and_eq_true, decide_eq_true_eq,
      reduceCtorEq, or_false]
    omega

theorem Fits.revised_of_deletes (fits : repair.Fits lexemes) (deleted : repair.deletes index = true)
    (text : List Char) : revised repair.edits index text = [] := by
  have touched := fits.touches_iff.mpr (.inl deleted)
  cases repair with
  | comma last => simp [deletes] at deleted
  | line previous last =>
    have bounds := (touches_deletions _ _ _).mp touched
    rw [edits, revised_deletions, if_pos (by omega)]
  | tail tag stop =>
    have bounds := (touches_deletions _ _ _).mp touched
    rw [edits, revised_deletions, if_pos (by omega)]

theorem revised_flatten_of_untouched {plan : List Repair}
    (free : ∀ repair ∈ plan, touches repair.edits index = false) (text : List Char) :
    revised (plan.map edits).flatten index text = text := by
  refine revised_of_not_touches ?_ text
  rw [touches_flatten, List.any_eq_false]
  intro changeset inside
  rcases List.mem_map.mp inside with ⟨repair, planned, rfl⟩
  simp [free repair planned]

/-- The edits of a plan turn the text of a lexeme into the text of what the plan leaves of it. -/
theorem revised_eq_texts {plan : List Repair} (apart : plan.Pairwise Apart)
    (fits : ∀ repair ∈ plan, repair.Fits lexemes) (lexeme : Lexeme) (index : Nat) :
    revised (plan.map edits).flatten index lexeme.text = texts (remains plan lexeme index) := by
  by_cases touched : ∃ repair ∈ plan, touches repair.edits index = true
  · rcases touched with ⟨repair, planned, touched⟩
    have disjoint : (plan.map edits).Pairwise Disjoint :=
      List.pairwise_map.mpr (apart.imp Apart.disjoint)
    rw [revised_flatten_of_mem disjoint (List.mem_map_of_mem planned) touched,
      remains_of_covers apart planned (covers_of_touches touched)]
    rcases (fits repair planned).touches_iff.mp touched with deleted | rfl
    · rw [if_pos deleted, (fits repair planned).revised_of_deletes deleted]
      rfl
    · simp [deletes, edits, revised, piece, texts]
  · have untouched : ∀ repair ∈ plan, touches repair.edits index = false := by
      intro repair planned
      by_contra also
      exact touched ⟨repair, planned, by simpa using also⟩
    have kept : ∀ repair ∈ plan, repair.deletes index = false ∧ repair ≠ .comma index := by
      intro repair planned
      have := untouched repair planned
      rw [Bool.eq_false_iff, ne_eq, (fits repair planned).touches_iff, not_or] at this
      simpa using this
    have no_comma : .comma index ∉ plan := fun planned => (kept _ planned).2 rfl
    have no_deletion : (plan.any fun repair => repair.deletes index) = false := by
      rw [List.any_eq_false]
      exact fun repair planned => by simp [(kept repair planned).1]
    rw [revised_flatten_of_untouched untouched]
    simp [remains, no_comma, no_deletion, piece, texts]

end Text

section Revisions

variable {plan : List Repair} {lexemes : List Lexeme} {lexeme : Lexeme} {index : Nat}

variable {repair : Repair}

/-- Nothing is left of the tokens that a repair deletes. -/
theorem piecesFrom_of_deletes {first stop : Nat} (ordered : first ≤ stop)
    (bound : stop ≤ lexemes.length) (planned : repair ∈ plan)
    (deleted : ∀ place, first ≤ place → place < stop → repair.deletes place = true) :
    piecesFrom plan lexemes first = piecesFrom plan lexemes stop := by
  induction stop, ordered using Nat.le_induction with
  | base => rfl
  | succ stop ordered ih =>
    have found := List.getElem?_eq_getElem (show stop < lexemes.length by omega)
    have gone : remains plan (lexemes[stop]) stop = [] :=
      if_pos (List.any_eq_true.mpr ⟨repair, planned, deleted stop ordered (by omega)⟩)
    rw [ih (by omega) fun place lower upper => deleted place lower (by omega),
      piecesFrom_of_getElem? plan found, gone, List.nil_append]

theorem drop_eq_append {stop : Nat} (found : lexemes[stop]? = some lexeme)
    (ordered : index ≤ stop) :
    ∃ between, lexemes.drop index = between ++ lexeme :: lexemes.drop (stop + 1) := by
  refine ⟨(lexemes.drop index).take (stop - index), ?_⟩
  rcases List.getElem?_eq_some_iff.mp found with ⟨bound, rfl⟩
  rw [← List.drop_eq_getElem_cons bound]
  nth_rewrite 1 [← List.take_append_drop (stop - index) (lexemes.drop index)]
  rw [List.drop_drop, Nat.add_sub_cancel' ordered]

/-- A place at which no repair has begun without having ended. The flag says whether a line of a
doc comment has just ended. -/
def Boundary (plan : List Repair) (lexemes : List Lexeme) (index : Nat) (lineStart : Bool) : Prop :=
  ∀ previous, index = previous + 1 →
    (∀ repair ∈ plan, repair.covers previous → ¬repair.covers index) ∧
      ∀ before, lexemes[previous]? = some before → lineStart = before.endsDocLine

theorem boundary_succ (found : lexemes[index]? = some lexeme)
    (ended : ∀ repair ∈ plan, repair.covers index → ¬repair.covers (index + 1)) :
    Boundary plan lexemes (index + 1) lexeme.endsDocLine := by
  intro previous next
  obtain rfl : index = previous := by omega
  refine ⟨ended, fun before before_found => ?_⟩
  rw [Option.some.inj (found.symm.trans before_found)]

/-- The last token that a repair covers. -/
def stop : Repair → Nat
  | comma last | line _ last | tail _ last => last

theorem le_stop (covered : repair.covers index) : index ≤ repair.stop := by
  cases repair with
  | comma last => exact Nat.le_of_eq covered
  | line previous last => exact covered.2
  | tail tag last => exact covered.2

theorem Fits.covers_stop (fits : repair.Fits lexemes) : repair.covers repair.stop := by
  cases fits with
  | comma found takes more => rfl
  | line ordered previous_found starts last_found ends => exact ⟨ordered, Nat.le_refl _⟩
  | tail ordered tag_found tagged stop_found stops => exact ⟨Nat.le_of_lt ordered, Nat.le_refl _⟩

/-- What is left at a repair and behind it is a revision if what is left behind it is one. -/
theorem Fits.revision (fits : repair.Fits lexemes) (apart : plan.Pairwise Apart)
    (planned : repair ∈ plan) (covered : repair.covers index) {lineStart : Bool}
    (boundary : Boundary plan lexemes index lineStart)
    (following : ∀ behind, lexemes[repair.stop]? = some behind →
      Revision behind.endsDocLine (lexemes.drop (repair.stop + 1))
        (piecesFrom plan lexemes (repair.stop + 1))) :
    Revision lineStart (lexemes.drop index) (piecesFrom plan lexemes index) := by
  have begins : index ≠ 0 → ¬repair.covers (index - 1) := fun positive before =>
    (boundary (index - 1) (by omega)).1 repair planned before covered
  have split {stop : Nat} {behind : Lexeme} (found : lexemes[stop]? = some behind) :
      lexemes.drop stop = behind :: lexemes.drop (stop + 1) := by
    rcases List.getElem?_eq_some_iff.mp found with ⟨bound, rfl⟩
    exact List.drop_eq_getElem_cons bound
  cases fits with
  | @comma last lexeme found takes more =>
    obtain rfl : index = last := covered
    have left_over : remains plan lexeme index = [lexeme.piece, (.comma, [','])] := by
      rw [remains_of_covers apart planned rfl]
      simp [deletes]
    have goesOn : lexemes.drop (index + 1) ≠ [] := by
      rw [ne_eq, List.drop_eq_nil_iff]
      omega
    rw [split found, piecesFrom_of_getElem? plan found, left_over]
    exact .comma takes goesOn (following lexeme found)
  | @line previous last before lexeme ordered previous_found starts last_found ends =>
    obtain rfl : index = previous + 1 := by
      have bounds : previous < index ∧ index ≤ last := covered
      by_contra later
      exact begins (by omega) ⟨by omega, by omega⟩
    obtain rfl : lineStart = true := by
      rw [(boundary previous rfl).2 before previous_found, starts]
    have bound := (List.getElem?_eq_some_iff.mp last_found).1
    rcases drop_eq_append last_found ordered with ⟨between, line_eq⟩
    rw [line_eq, piecesFrom_of_deletes (show previous + 1 ≤ last + 1 by omega) bound planned
      fun place lower upper => by simp [deletes]; omega]
    exact .dropLine ends (ends ▸ following lexeme last_found)
  | @tail tag last lexeme behind ordered tag_found tagged stop_found stops =>
    obtain rfl : index = tag := by
      have bounds : tag ≤ index ∧ index ≤ last := covered
      by_contra later
      exact begins (by omega) ⟨by omega, by omega⟩
    have left_over : remains plan behind last = [behind.piece] := by
      rw [remains_of_covers apart planned ⟨by omega, Nat.le_refl _⟩]
      simp [deletes]
    have bound := (List.getElem?_eq_some_iff.mp stop_found).1
    rcases drop_eq_append stop_found ordered with ⟨between, text_eq⟩
    rw [split tag_found, text_eq,
      piecesFrom_of_deletes (show index ≤ last by omega) (by omega) planned
        fun place lower upper => by simp [deletes]; omega,
      piecesFrom_of_getElem? plan stop_found, left_over]
    exact .dropTail tagged stops (following behind stop_found)

/-- What a plan leaves of a file is a revision of it, in which a repair leads from one boundary to
the next one. -/
theorem revision_piecesFrom (apart : plan.Pairwise Apart)
    (fits : ∀ repair ∈ plan, repair.Fits lexemes) {lineStart : Bool}
    (boundary : Boundary plan lexemes index lineStart) :
    Revision lineStart (lexemes.drop index) (piecesFrom plan lexemes index) := by
  generalize left : lexemes.length - index = count
  induction count using Nat.strong_induction_on generalizing index lineStart with
  | _ count ih =>
    rcases Nat.lt_or_ge index lexemes.length with bound | outside
    · have found := List.getElem?_eq_getElem bound
      by_cases covered : ∃ repair ∈ plan, repair.covers index
      · rcases covered with ⟨repair, planned, covered⟩
        have fits := fits repair planned
        refine fits.revision apart planned covered boundary fun behind behind_found => ?_
        have stop_bound := fits.lt_length fits.covers_stop
        have later := le_stop covered
        refine ih _ (by omega) (boundary_succ behind_found ?_) rfl
        intro other other_planned here next
        obtain rfl := eq_of_covers apart planned other_planned fits.covers_stop here
        have := le_stop next
        omega
      · have free : ∀ repair ∈ plan, ¬repair.covers index :=
          fun repair planned here => covered ⟨repair, planned, here⟩
        rw [List.drop_eq_getElem_cons bound, piecesFrom_of_getElem? plan found,
          remains_of_not_covered free]
        refine .keep (ih _ (by omega) (boundary_succ found fun repair planned here => ?_) rfl)
        exact absurd here (free repair planned)
    · rw [List.drop_of_length_le outside, piecesFrom_of_length_le plan outside]
      exact .done

end Revisions

/-- What is known of the repairs of one pass: they fit and do not meet, only trivia are deleted, and
commas are put before the closers of array literals that have none. -/
structure IsPlan (lexemes : List Lexeme) (plan : List Repair) : Prop where
  apart : plan.Pairwise Apart
  fits : ∀ repair ∈ plan, repair.Fits lexemes
  trivia : ∀ repair ∈ plan, ∀ place, repair.deletes place = true →
    ¬SignificantAt (settledKinds lexemes) place
  array : ∀ last, .comma last ∈ plan → ∃ closer, Stream.EndsArray lexemes closer ∧
    Neighbours (settledKinds lexemes) last closer ∧ (settledKinds lexemes)[last]? ≠ some .comma

/-- A comma is put behind the last significant token before a place. -/
def Pending (plan : List Repair) (kinds : List Kind) (index : Nat) : Prop :=
  ∃ last, .comma last ∈ plan ∧ last < index ∧
    ∀ place, last < place → place < index → ¬SignificantAt kinds place

/-- A comma is put before the token, with only trivia in between. -/
def PutsComma (plan : List Repair) (kinds : List Kind) (index : Nat) : Prop :=
  ∃ last, .comma last ∈ plan ∧ Neighbours kinds last index

/-- Lexemes from a place on, with marks on those that are chosen. -/
def markedFrom (lexemes : List Lexeme) (chosen : Nat → Bool) (index : Nat) :
    List (Kind × Bool × List Char) :=
  ((lexemes.drop index).zipIdx index).map fun place => (place.1.kind, chosen place.2, place.1.text)

section Commas

variable {plan : List Repair} {lexemes : List Lexeme} {index : Nat}

theorem markedFrom_of_getElem? {lexeme : Lexeme} (chosen : Nat → Bool)
    (found : lexemes[index]? = some lexeme) :
    markedFrom lexemes chosen index =
      (lexeme.kind, chosen index, lexeme.text) :: markedFrom lexemes chosen (index + 1) := by
  rcases List.getElem?_eq_some_iff.mp found with ⟨bound, rfl⟩
  rw [markedFrom, List.drop_eq_getElem_cons bound, List.zipIdx_cons, List.map_cons, markedFrom]

variable (isPlan : IsPlan lexemes plan)

include isPlan

theorem IsPlan.significantAt {last : Nat} (planned : .comma last ∈ plan) :
    SignificantAt (settledKinds lexemes) last := by
  rcases isPlan.array last planned with ⟨closer, -, neighbours, -⟩
  exact neighbours.left_significant

theorem IsPlan.not_pending_of_length_le (outside : lexemes.length ≤ index) :
    ¬Pending plan (settledKinds lexemes) index := by
  rintro ⟨last, planned, before, between⟩
  rcases isPlan.array last planned with ⟨closer, -, neighbours, -⟩
  rcases neighbours.right_significant with ⟨kind, found, significant⟩
  have bound := (List.getElem?_eq_some_iff.mp found).1
  rw [length_settledKinds] at bound
  exact between closer neighbours.lt (by omega) ⟨kind, found, significant⟩

theorem IsPlan.pending_iff_putsComma (significant : SignificantAt (settledKinds lexemes) index) :
    Pending plan (settledKinds lexemes) index ↔
      PutsComma plan (settledKinds lexemes) index := by
  constructor
  · rintro ⟨last, planned, before, between⟩
    exact ⟨last, planned, before, isPlan.significantAt planned, significant, between⟩
  · rintro ⟨last, planned, neighbours⟩
    exact ⟨last, planned, neighbours.lt, neighbours.between⟩

omit isPlan in
theorem pending_succ_of_significantAt (significant : SignificantAt (settledKinds lexemes) index) :
    Pending plan (settledKinds lexemes) (index + 1) ↔ .comma index ∈ plan := by
  constructor
  · rintro ⟨last, planned, before, between⟩
    rcases Nat.eq_or_lt_of_le (Nat.le_of_lt_succ before) with rfl | earlier
    · exact planned
    · exact absurd significant (between index earlier (by omega))
  · exact fun planned => ⟨index, planned, by omega, fun place lower upper => by omega⟩

theorem IsPlan.pending_succ_of_trivia (trivia : ¬SignificantAt (settledKinds lexemes) index) :
    Pending plan (settledKinds lexemes) (index + 1) ↔
      Pending plan (settledKinds lexemes) index := by
  constructor
  · rintro ⟨last, planned, before, between⟩
    rcases Nat.eq_or_lt_of_le (Nat.le_of_lt_succ before) with rfl | earlier
    · exact absurd (isPlan.significantAt planned) trivia
    · exact ⟨last, planned, earlier, fun place lower upper => between place lower (by omega)⟩
  · rintro ⟨last, planned, before, between⟩
    refine ⟨last, planned, by omega, fun place lower upper => ?_⟩
    rcases Nat.eq_or_lt_of_le (Nat.le_of_lt_succ upper) with rfl | earlier
    · exact trivia
    · exact between place lower earlier

theorem IsPlan.significant_remains {lexeme : Lexeme} (found : lexemes[index]? = some lexeme) :
    significant (remains plan lexeme index) =
      if lexeme.kind.isSignificant then
        lexeme.piece :: if .comma index ∈ plan then [(.comma, [','])] else []
      else [] := by
  have significant_iff := significantAt_iff found
  cases kept : lexeme.kind.isSignificant with
  | true =>
    have undeleted : (plan.any fun repair => repair.deletes index) = false := by
      rw [List.any_eq_false]
      exact fun repair planned deleted =>
        isPlan.trivia repair planned index deleted (significant_iff.mpr kept)
    have comma_kept : Kind.comma.isSignificant = true := rfl
    rw [remains, undeleted, if_neg Bool.false_ne_true, significant_cons, piece, if_pos kept]
    split <;> simp [significant, comma_kept]
  | false =>
    have no_comma : .comma index ∉ plan := fun planned => by
      have := significant_iff.mp (isPlan.significantAt planned)
      simp [kept] at this
    rw [remains, if_neg no_comma]
    split <;> simp [significant, kept, piece]

/-- Commas behind the last tokens of array literals are commas before their closers. A comma is
pending until the next significant token, where it is chosen. -/
theorem IsPlan.withCommas_markedFrom {chosen : Nat → Bool}
    (chosen_iff : ∀ index, chosen index = true ↔
      PutsComma plan (settledKinds lexemes) index) {pending : Bool}
    (pending_iff : pending = true ↔ Pending plan (settledKinds lexemes) index) :
    (if pending then [(.comma, [','])] else []) ++ significant (piecesFrom plan lexemes index) =
      Kind.withCommas [','] (significant (markedFrom lexemes chosen index)) := by
  generalize left : lexemes.length - index = count
  induction count generalizing index pending with
  | zero =>
    have outside : lexemes.length ≤ index := by omega
    obtain rfl : pending = false := by
      rw [Bool.eq_false_iff, ne_eq, pending_iff]
      exact isPlan.not_pending_of_length_le outside
    simp [piecesFrom_of_length_le plan outside, markedFrom, List.drop_of_length_le outside,
      significant, Kind.withCommas]
  | succ count ih =>
    have found := List.getElem?_eq_getElem (show index < lexemes.length by omega)
    generalize lexemes[index] = lexeme at found
    rw [piecesFrom_of_getElem? plan found, markedFrom_of_getElem? chosen found, significant_cons]
    rw [significant_append, isPlan.significant_remains found]
    cases kept : lexeme.kind.isSignificant with
    | true =>
      have significant := (significantAt_iff found).mpr kept
      have chosen_eq : chosen index = pending := by
        rw [Bool.eq_iff_iff, chosen_iff, pending_iff, isPlan.pending_iff_putsComma significant]
      have next : decide (.comma index ∈ plan) = true ↔
          Pending plan (settledKinds lexemes) (index + 1) := by
        rw [decide_eq_true_eq, pending_succ_of_significantAt significant]
      rw [if_pos rfl, if_pos rfl, Kind.withCommas, ← ih next (by omega), chosen_eq]
      simp only [decide_eq_true_eq, List.cons_append, piece]
    | false =>
      have trivia : ¬SignificantAt (settledKinds lexemes) index := by
        rw [significantAt_iff found, kept]
        simp
      exact ih (pending_iff.trans (isPlan.pending_succ_of_trivia trivia).symm) (by omega)

end Commas

end Repair

end PhpStyle
