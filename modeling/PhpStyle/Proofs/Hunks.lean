import Mathlib.Data.List.Chain
import PhpStyle.Patch
import PhpStyle.Proofs.EditScripts

/-!
# What hunks cover

The hunks of a comparison stand in order, do not overlap, and outside of them both sequences have
the same elements; each hunk knows how many elements of either sequence stand before it.

Its header, though, is taken from the places that its first and its last segment remember. The
header is right if and only if these segments stand where they remember to.
-/

namespace PhpStyle.Patch

open List

variable {α : Type}

/-! ## Segments -/

/-- A segment that has something in it. -/
def Segment.IsReal (segment : Segment α) : Prop :=
  segment.old ++ segment.new ≠ []

/-- Segments none of which is empty and in which changes and unchanged stretches take turns. -/
structure IsDivision (segments : List (Segment α)) : Prop where
  real : ∀ segment ∈ segments, segment.IsReal
  alternates : (segments.map Segment.isChange).IsChain (· ≠ ·)

/-- A step joins the first segment behind it, or is a segment of another sort. -/
theorem segments_cons (step : Step α) (rest : Script α) :
    (∃ first joined others, segments rest = first :: others ∧
        segments (step :: rest) = joined :: others ∧ joined.isChange = first.isChange ∧
        joined.old = step.old ++ first.old ∧ joined.new = step.new ++ first.new) ∨
      ∃ single, segments (step :: rest) = single :: segments rest ∧
        single.old = step.old ∧ single.new = step.new ∧
        ∀ first ∈ (segments rest).head?, single.isChange ≠ first.isChange := by
  cases step with
  | keep element =>
    cases found : segments rest with
    | nil => exact .inr ⟨.same [element], by rw [segments, found], rfl, rfl, by simp⟩
    | cons first others =>
      cases first with
      | same elements =>
        exact .inl ⟨_, .same (element :: elements), others, rfl, by rw [segments, found], rfl,
          rfl, rfl⟩
      | changed deleted inserted oldAt newAt =>
        exact .inr ⟨.same [element], by rw [segments, found], rfl, rfl, by simp [Segment.isChange]⟩
  | delete elements newAt =>
    cases found : segments rest with
    | nil =>
      exact .inr ⟨.changed elements [] 0 newAt, by rw [segments, found], rfl, rfl, by simp⟩
    | cons first others =>
      cases first with
      | same kept =>
        exact .inr ⟨.changed elements [] 0 newAt, by rw [segments, found], rfl, rfl,
          by simp [Segment.isChange]⟩
      | changed deleted inserted oldAt place =>
        exact .inl ⟨_, .changed (elements ++ deleted) inserted oldAt newAt, others, rfl,
          by rw [segments, found], rfl, rfl, rfl⟩
  | insert elements oldAt =>
    cases found : segments rest with
    | nil =>
      exact .inr ⟨.changed [] elements oldAt 0, by rw [segments, found], rfl, rfl, by simp⟩
    | cons first others =>
      cases first with
      | same kept =>
        exact .inr ⟨.changed [] elements oldAt 0, by rw [segments, found], rfl, rfl,
          by simp [Segment.isChange]⟩
      | changed deleted inserted place newAt =>
        exact .inl ⟨_, .changed deleted (elements ++ inserted) oldAt newAt, others, rfl,
          by rw [segments, found], rfl, rfl, rfl⟩

/-- Segments in which a comparison of two sequences is divided. -/
structure Compares (segments : List (Segment α)) (old new : List α) : Prop
    extends IsDivision segments where
  old_eq : segments.flatMap Segment.old = old
  new_eq : segments.flatMap Segment.new = new

/-- The segments of a script compare the two texts of the script. -/
theorem compares_segments {script : Script α} (real : ∀ step ∈ script, step.IsReal) :
    Compares (segments script) (script.flatMap Step.old) (script.flatMap Step.new) := by
  induction script with
  | nil => exact ⟨⟨forall_mem_nil _, isChain_nil⟩, rfl, rfl⟩
  | cons step rest ih =>
    rw [forall_mem_cons] at real
    have behind := ih real.2
    rw [flatMap_cons, flatMap_cons, ← behind.old_eq, ← behind.new_eq]
    have behind_real := behind.real
    have behind_alternates := behind.alternates
    rcases segments_cons step rest with ⟨first, joined, others, found, joined_eq, sort, old, new⟩ |
      ⟨single, single_eq, old, new, apart⟩
    · rw [found, forall_mem_cons] at behind_real
      rw [found, map_cons] at behind_alternates
      rw [joined_eq, found]
      refine ⟨⟨List.forall_mem_cons.mpr ⟨?_, behind_real.2⟩, ?_⟩, ?_, ?_⟩
      · intro empty
        apply behind_real.1
        simp only [old, new, append_eq_nil_iff] at empty
        rw [empty.1.2, empty.2.2, append_nil]
      · rw [map_cons, sort]
        exact behind_alternates
      · rw [flatMap_cons, flatMap_cons, old, List.append_assoc]
      · rw [flatMap_cons, flatMap_cons, new, List.append_assoc]
    · rw [single_eq]
      refine ⟨⟨List.forall_mem_cons.mpr ⟨?_, behind_real⟩,
        List.isChain_cons.mpr ⟨?_, behind_alternates⟩⟩, ?_, ?_⟩
      · rw [Segment.IsReal, old, new]
        exact real.1
      · intro sort listed
        rw [head?_map] at listed
        rcases Option.map_eq_some_iff.mp listed with ⟨first, first_listed, rfl⟩
        exact apart first first_listed
      · rw [flatMap_cons, old]
      · rw [flatMap_cons, new]

/-! ## Places -/

/-- Hunks that stand in two sequences, of which given numbers of elements have been passed: each
hunk starts where it says to, and what stands before, between and behind the hunks is the same in
both sequences. -/
inductive Covers : Nat → Nat → List (Hunk α) → List α → List α → Prop
  | rest (oldAt newAt : Nat) (elements : List α) : Covers oldAt newAt [] elements elements
  | hunk {oldAt newAt : Nat} {hunk : Hunk α} {others : List (Hunk α)} {old new : List α}
      (gap : List α) (oldStart_eq : hunk.oldStart = oldAt + gap.length)
      (newStart_eq : hunk.newStart = newAt + gap.length)
      (covers : Covers (hunk.oldStart + hunk.old.length) (hunk.newStart + hunk.new.length) others
        old new) :
      Covers oldAt newAt (hunk :: others) (gap ++ (hunk.old ++ old)) (gap ++ (hunk.new ++ new))

theorem Hunk.old_push (hunk : Hunk α) (segment : Segment α) :
    (hunk.push segment).old = hunk.old ++ segment.old := by
  simp [Hunk.old, Hunk.push]

theorem Hunk.new_push (hunk : Hunk α) (segment : Segment α) :
    (hunk.push segment).new = hunk.new ++ segment.new := by
  simp [Hunk.new, Hunk.push]

theorem Hunk.old_next (hunk : Hunk α) (distance : Nat) : (hunk.next distance).old = [] := rfl

theorem Hunk.new_next (hunk : Hunk α) (distance : Nat) : (hunk.next distance).new = [] := rfl

theorem Segment.old_eq_new {segment : Segment α} (unchanged : segment.isChange = false) :
    segment.old = segment.new := by
  cases segment with
  | same elements => rfl
  | changed deleted inserted oldAt newAt => cases unchanged

theorem Hunk.old_eq_new {hunk : Hunk α} (unchanged : ¬hunk.segments.any Segment.isChange = true) :
    hunk.old = hunk.new := by
  rw [any_eq_true, not_exists] at unchanged
  apply flatMap_congr
  intro segment listed
  apply Segment.old_eq_new
  rw [Bool.eq_false_iff]
  exact fun changed => unchanged segment ⟨listed, changed⟩

/-- A stretch falls into what is shown after its start, what is left out and what is shown before
its end. -/
theorem append_eq_take_take_drop (elements rest : List α) (shown skipped : Nat) :
    elements ++ rest = elements.take shown ++ ((elements.drop shown).take skipped ++
      (elements.drop (shown + skipped) ++ rest)) := by
  rw [← drop_drop, ← List.append_assoc (List.take skipped _), take_append_drop,
    ← List.append_assoc, take_append_drop]

/-- Hunks cover the segments. What is left out of a stretch stands between a hunk and the next one.
-/
theorem covers_hunksFrom (segments : List (Segment α)) (hunk : Hunk α) {oldAt newAt : Nat}
    (gap cut : List α) (oldStart_eq : hunk.oldStart = oldAt + gap.length)
    (newStart_eq : hunk.newStart = newAt + gap.length) :
    Covers oldAt newAt (hunksFrom hunk segments)
      (gap ++ (hunk.old ++ (segments.flatMap Segment.old ++ cut)))
      (gap ++ (hunk.new ++ (segments.flatMap Segment.new ++ cut))) := by
  induction segments generalizing hunk oldAt newAt gap with
  | nil =>
    rw [hunksFrom]
    split
    · exact .hunk gap oldStart_eq newStart_eq (.rest _ _ cut)
    · next unchanged =>
        rw [Hunk.old_eq_new unchanged]
        exact .rest _ _ _
  | cons segment rest ih =>
    have pushed := ih (hunk.push segment) gap oldStart_eq newStart_eq
    rw [Hunk.old_push, Hunk.new_push, List.append_assoc, List.append_assoc] at pushed
    rw [flatMap_cons, flatMap_cons, List.append_assoc, List.append_assoc]
    cases segment with
    | changed deleted inserted oldPlace newPlace => exact pushed
    | same elements =>
      rw [hunksFrom]
      split
      · next long =>
          generalize skipped_eq : elements.length - 2 * contextSize = skipped
          have between : ((elements.drop contextSize).take skipped).length = skipped := by
            rw [length_take, length_drop]
            omega
          have later := ih (((hunk.push (.same (elements.take contextSize))).next skipped).push
            (.same (elements.drop (contextSize + skipped))))
            ((elements.drop contextSize).take skipped)
            (congrArg (_ + ·) between.symm) (congrArg (_ + ·) between.symm)
          have whole : Covers oldAt newAt (hunk.push (.same (elements.take contextSize)) :: _) _ _ :=
            .hunk gap oldStart_eq newStart_eq later
          simp only [Hunk.old_push, Hunk.new_push, Hunk.old_next, Hunk.new_next, Segment.old,
            Segment.new, nil_append, List.append_assoc, ← append_eq_take_take_drop] at whole
          exact whole
      · exact pushed

/-- What is cut off at the end stands at the end of both sequences. -/
theorem exists_trimEnd_append (segments : List (Segment α)) : ∃ cut,
    segments.flatMap Segment.old = (trimEnd segments).flatMap Segment.old ++ cut ∧
      segments.flatMap Segment.new = (trimEnd segments).flatMap Segment.new ++ cut := by
  fun_induction trimEnd segments with
  | case1 => exact ⟨[], rfl, rfl⟩
  | case2 elements =>
    refine ⟨elements.drop contextSize, ?_, ?_⟩
    · simp [Segment.old]
    · simp [Segment.new]
  | case3 segment rest _ ih =>
    rcases ih with ⟨cut, old_eq, new_eq⟩
    refine ⟨cut, ?_, ?_⟩
    · rw [flatMap_cons, flatMap_cons, old_eq, List.append_assoc]
    · rw [flatMap_cons, flatMap_cons, new_eq, List.append_assoc]

theorem covers_hunks (segments : List (Segment α)) :
    Covers 0 0 (hunks segments) (segments.flatMap Segment.old) (segments.flatMap Segment.new) := by
  rw [hunks.eq_def]
  split
  · next elements rest =>
      rcases exists_trimEnd_append
        (.same (elements.drop (elements.length - contextSize)) :: rest) with ⟨cut, old_eq, new_eq⟩
      have skipped : elements.length - contextSize =
          0 + (elements.take (elements.length - contextSize)).length := by
        rw [length_take]
        omega
      have whole := covers_hunksFrom
        (trimEnd (.same (elements.drop (elements.length - contextSize)) :: rest))
        ⟨elements.length - contextSize, elements.length - contextSize, []⟩
        (elements.take (elements.length - contextSize)) cut skipped skipped
      rw [← old_eq, ← new_eq, flatMap_cons, flatMap_cons] at whole
      simp only [Hunk.old, Hunk.new, flatMap_nil, nil_append, Segment.old, Segment.new,
        ← List.append_assoc, take_append_drop] at whole
      exact whole
  · rcases exists_trimEnd_append segments with ⟨cut, old_eq, new_eq⟩
    rw [old_eq, new_eq]
    exact covers_hunksFrom (trimEnd segments) ⟨0, 0, []⟩ [] cut rfl rfl

/-! ## Headers -/

theorem Segment.isReal_same {elements : List α} :
    (Segment.same elements).IsReal ↔ elements ≠ [] := by
  simp [Segment.IsReal, Segment.old, Segment.new]

theorem take_contextSize_ne_nil {elements : List α} (nonempty : elements ≠ []) :
    elements.take contextSize ≠ [] := by
  rw [ne_eq, take_eq_nil_iff, not_or]
  exact ⟨by decide, nonempty⟩

namespace IsDivision

variable {segments front back : List (Segment α)}

theorem left_of_append (division : IsDivision (front ++ back)) : IsDivision front := by
  constructor
  · exact (List.forall_mem_append.mp division.real).1
  · have alternates := division.alternates
    rw [map_append] at alternates
    exact alternates.left_of_append

theorem right_of_append (division : IsDivision (front ++ back)) : IsDivision back := by
  constructor
  · exact (List.forall_mem_append.mp division.real).2
  · have alternates := division.alternates
    rw [map_append] at alternates
    exact alternates.right_of_append

/-- A stretch may be shortened as long as something is left of it. -/
theorem shorten {elements : List α} (division : IsDivision (front ++ .same elements :: back))
    {kept : List α} (nonempty : kept ≠ []) : IsDivision (front ++ .same kept :: back) := by
  constructor
  · have real := division.real
    rw [forall_mem_append, forall_mem_cons] at real ⊢
    exact ⟨real.1, Segment.isReal_same.mpr nonempty, real.2.2⟩
  · have alternates := division.alternates
    rw [map_append, map_cons] at alternates ⊢
    exact alternates

theorem nonempty {elements : List α} (division : IsDivision segments)
    (listed : .same elements ∈ segments) : elements ≠ [] :=
  Segment.isReal_same.mp (division.real _ listed)

theorem trimEnd (division : IsDivision (front ++ segments)) :
    IsDivision (front ++ trimEnd segments) := by
  fun_induction Patch.trimEnd segments generalizing front with
  | case1 => exact division
  | case2 elements =>
    apply division.shorten
    apply take_contextSize_ne_nil
    exact division.nonempty (by simp)
  | case3 segment rest _ ih =>
    have whole : IsDivision (front ++ [segment] ++ Patch.trimEnd rest) := by
      apply ih
      rw [List.append_assoc]
      exact division
    rw [List.append_assoc] at whole
    exact whole

end IsDivision

/-- The segments of each hunk are a division again. -/
theorem isDivision_of_mem_hunksFrom (segments : List (Segment α)) (hunk : Hunk α)
    (division : IsDivision (hunk.segments ++ segments)) :
    ∀ shown ∈ hunksFrom hunk segments, IsDivision shown.segments := by
  induction segments generalizing hunk with
  | nil =>
    rw [append_nil] at division
    rw [hunksFrom]
    split
    · exact List.forall_mem_singleton.mpr division
    · exact forall_mem_nil _
  | cons segment rest ih =>
    have pushed := ih (hunk.push segment)
    rw [Hunk.push, List.append_assoc] at pushed
    cases segment with
    | changed deleted inserted oldPlace newPlace => exact pushed division
    | same elements =>
      rw [hunksFrom]
      split
      · next long =>
          intro shown listed
          rcases List.mem_cons.mp listed with rfl | listed
          · have nonempty : elements ≠ [] := division.nonempty (by simp)
            have whole := division.shorten (take_contextSize_ne_nil nonempty)
            rw [← singleton_append, ← List.append_assoc] at whole
            exact whole.left_of_append
          · refine ih _ ?_ shown listed
            apply (division.shorten _).right_of_append
            rw [ne_eq, drop_eq_nil_iff]
            have shown_some : 0 < contextSize := by decide
            omega
      · exact pushed division

theorem isDivision_of_mem_hunks {segments : List (Segment α)} (division : IsDivision segments) :
    ∀ hunk ∈ hunks segments, IsDivision hunk.segments := by
  rw [hunks.eq_def]
  split
  · next elements rest =>
      have nonempty := List.length_pos_iff.mpr (division.nonempty mem_cons_self)
      apply isDivision_of_mem_hunksFrom
      apply IsDivision.trimEnd
      apply IsDivision.shorten division
      rw [ne_eq, drop_eq_nil_iff]
      have shown_some : 0 < contextSize := by decide
      omega
  · apply isDivision_of_mem_hunksFrom
    exact IsDivision.trimEnd division

/-- The place of the first sequence that a segment without elements of it remembers. -/
def Segment.oldPlace? : Segment α → Option Nat
  | changed [] _ oldAt _ => some oldAt
  | _ => none

/-- The place of the second sequence that a segment without elements of it remembers. -/
def Segment.newPlace? : Segment α → Option Nat
  | changed _ [] _ newAt => some newAt
  | _ => none

namespace Hunk

/-- A hunk that starts and ends where its segments say: a first or last segment that only inserts
or only deletes stands at the place that it remembers. -/
structure InPlace (hunk : Hunk α) : Prop where
  oldStart : ∀ place ∈ hunk.segments.head?.bind Segment.oldPlace?, place = hunk.oldStart
  oldEnd : ∀ place ∈ hunk.segments.getLast?.bind Segment.oldPlace?,
    place = hunk.oldStart + hunk.old.length
  newStart : ∀ place ∈ hunk.segments.head?.bind Segment.newPlace?, place = hunk.newStart
  newEnd : ∀ place ∈ hunk.segments.getLast?.bind Segment.newPlace?,
    place = hunk.newStart + hunk.new.length

theorem oldRange_eq (hunk : Hunk α) : hunk.oldRange =
    ((hunk.segments.head?.bind Segment.oldPlace?).getD hunk.oldStart,
      (hunk.segments.getLast?.bind Segment.oldPlace?).getD (hunk.oldStart + hunk.old.length)) := by
  rw [oldRange]
  apply Prod.ext
  · rcases hunk.segments.head? with _ | _ | ⟨_ | _, _, _, _⟩ <;> rfl
  · rcases hunk.segments.getLast? with _ | _ | ⟨_ | _, _, _, _⟩ <;> rfl

theorem newRange_eq (hunk : Hunk α) : hunk.newRange =
    ((hunk.segments.head?.bind Segment.newPlace?).getD hunk.newStart,
      (hunk.segments.getLast?.bind Segment.newPlace?).getD (hunk.newStart + hunk.new.length)) := by
  rw [newRange]
  apply Prod.ext
  · rcases hunk.segments.head? with _ | _ | ⟨_, _ | _, _, _⟩ <;> rfl
  · rcases hunk.segments.getLast? with _ | _ | ⟨_, _ | _, _, _⟩ <;> rfl

theorem inPlace_iff (hunk : Hunk α) : hunk.InPlace ↔
    hunk.oldRange = (hunk.oldStart, hunk.oldStart + hunk.old.length) ∧
      hunk.newRange = (hunk.newStart, hunk.newStart + hunk.new.length) := by
  have right (place? : Option Nat) (place : Nat) :
      place?.getD place = place ↔ ∀ found ∈ place?, found = place := by
    cases place? <;> simp
  rw [oldRange_eq, newRange_eq, Prod.mk.injEq, Prod.mk.injEq, right, right, right, right]
  constructor
  · intro inPlace
    exact ⟨⟨inPlace.oldStart, inPlace.oldEnd⟩, inPlace.newStart, inPlace.newEnd⟩
  · rintro ⟨⟨oldStart, oldEnd⟩, newStart, newEnd⟩
    exact ⟨oldStart, oldEnd, newStart, newEnd⟩

end Hunk

theorem Segment.IsReal.isChange {segment : Segment α} (real : segment.IsReal)
    (empty : segment.old = [] ∨ segment.new = []) : segment.isChange = true := by
  cases segment with
  | same elements =>
    apply absurd _ (Segment.isReal_same.mp real)
    exact empty.elim id id
  | changed deleted inserted oldAt newAt => rfl

/-- Changes do not stand next to each other, so where nothing is unchanged there is one change. -/
theorem IsDivision.head?_eq_getLast? {segments : List (Segment α)} (division : IsDivision segments)
    (empty : segments.flatMap Segment.old = [] ∨ segments.flatMap Segment.new = []) :
    segments.head? = segments.getLast? := by
  have changes (segment : Segment α) (listed : segment ∈ segments) : segment.isChange = true := by
    apply (division.real segment listed).isChange
    rw [flatMap_eq_nil_iff, flatMap_eq_nil_iff] at empty
    exact empty.imp (· segment listed) (· segment listed)
  cases segments with
  | nil => rfl
  | cons first rest =>
    cases rest with
    | nil => rfl
    | cons second others =>
      have alternates := division.alternates
      rw [map_cons, map_cons, isChain_cons_cons] at alternates
      apply absurd _ alternates.1
      rw [changes first (by simp), changes second (by simp)]

theorem range_eq_iff {first last : Option Nat} {start length : Nat} (same : length = 0 → first = last) :
    (first.getD start, last.getD (start + length)) = (start, start + length) ↔
      first.getD start = start ∧ last.getD (start + length) - first.getD start = length := by
  rw [Prod.mk.injEq]
  apply and_congr_right
  intro right
  rcases Nat.eq_zero_or_pos length with rfl | some
  · rw [← same rfl, Nat.add_zero, right]
    omega
  · omega

namespace Hunk

variable {hunk : Hunk α} (division : IsDivision hunk.segments)

include division

/-- The range of the first sequence is right if its start and its length are. -/
theorem oldRange_eq_iff : hunk.oldRange = (hunk.oldStart, hunk.oldStart + hunk.old.length) ↔
    hunk.oldRange.1 = hunk.oldStart ∧ hunk.oldRange.2 - hunk.oldRange.1 = hunk.old.length := by
  rw [oldRange_eq]
  apply range_eq_iff
  intro empty
  rw [division.head?_eq_getLast? (.inl (List.length_eq_zero_iff.mp empty))]

/-- The range of the second sequence is right if its start and its length are. -/
theorem newRange_eq_iff : hunk.newRange = (hunk.newStart, hunk.newStart + hunk.new.length) ↔
    hunk.newRange.1 = hunk.newStart ∧ hunk.newRange.2 - hunk.newRange.1 = hunk.new.length := by
  rw [newRange_eq]
  apply range_eq_iff
  intro empty
  rw [division.head?_eq_getLast? (.inr (List.length_eq_zero_iff.mp empty))]

/-- A hunk never mistakes both of its starts. -/
theorem oldStart_or_newStart :
    hunk.oldRange.1 = hunk.oldStart ∨ hunk.newRange.1 = hunk.newStart := by
  rw [oldRange_eq, newRange_eq]
  cases found : hunk.segments.head? with
  | none => exact .inl rfl
  | some first =>
    have real := division.real first (mem_of_head? found)
    cases first with
    | same elements => exact .inl rfl
    | changed deleted inserted oldAt newAt =>
      cases deleted with
      | cons element rest => exact .inl rfl
      | nil =>
        cases inserted with
        | cons element rest => exact .inr rfl
        | nil => exact absurd rfl real

end Hunk

end PhpStyle.Patch
