import PhpStyle.Proofs.Hunks

/-!
# Replaying hunks

A hunk as it is printed: the ranges of its header and its lines, each behind a sign. Printed hunks
are replayed on the lines of the old text one after the other. Each has to fit: its header gives a
place behind the hunk before it, the same number of lines further in both texts, and as many lines
as there are below it, and the kept and the deleted lines stand at that place.

The hunks of a comparison can be replayed if and only if each of them starts and ends where its
segments say; the lines of the new text are the result.
-/

namespace PhpStyle.Patch

open List

/-- A line with an end. -/
def ended (line : Line) : Line :=
  if line.isEnded then line else line ++ ['\n']

/-- The range in a header for a number of lines behind a number of others. -/
def rangeOf (start length : Nat) : Nat × Nat :=
  (if length = 0 then start else start + 1, length)

/-- The number of lines before a range. -/
def linesBefore (range : Nat × Nat) : Nat :=
  if range.2 = 0 then range.1 else range.1 - 1

theorem linesBefore_rangeOf (start length : Nat) : linesBefore (rangeOf start length) = start := by
  rw [linesBefore, rangeOf]
  dsimp only
  split <;> omega

/-- A printed hunk. -/
structure Shown where
  oldRange : Nat × Nat
  newRange : Nat × Nat
  lines : List (Char × Line)
deriving DecidableEq, Repr

namespace Shown

/-- The lines of the old text in a hunk. -/
def old (shown : Shown) : List Line :=
  (shown.lines.filter (·.1 ≠ '+')).map Prod.snd

/-- The lines of the new text in a hunk. -/
def new (shown : Shown) : List Line :=
  (shown.lines.filter (·.1 ≠ '-')).map Prod.snd

/-- The number of lines between a place of the old text and a hunk. -/
def distance (shown : Shown) (oldAt : Nat) : Nat :=
  linesBefore shown.oldRange - oldAt

/-- Whether a hunk can be replayed on lines, before which there are given numbers of lines of both
texts. -/
def Fits (shown : Shown) (oldAt newAt : Nat) (lines : List Line) : Prop :=
  linesBefore shown.oldRange = oldAt + shown.distance oldAt ∧
    linesBefore shown.newRange = newAt + shown.distance oldAt ∧
    shown.oldRange.2 = shown.old.length ∧ shown.newRange.2 = shown.new.length ∧
    shown.distance oldAt ≤ lines.length ∧ shown.old <+: lines.drop (shown.distance oldAt)

instance (shown : Shown) (oldAt newAt : Nat) (lines : List Line) :
    Decidable (shown.Fits oldAt newAt lines) :=
  inferInstanceAs (Decidable (_ ∧ _))

end Shown

/-- The lines that hunks make of others. -/
def replay? (oldAt newAt : Nat) : List Shown → List Line → Option (List Line)
  | [], lines => some lines
  | shown :: others, lines =>
    let distance := shown.distance oldAt
    if shown.Fits oldAt newAt lines then
      (replay? (oldAt + distance + shown.old.length) (newAt + distance + shown.new.length) others
        (lines.drop (distance + shown.old.length))).map (lines.take distance ++ shown.new ++ ·)
    else none

/-! ## What is printed of a hunk -/

/-- The lines of a segment with their signs. -/
def Segment.signed : Segment Line → List (Char × Line)
  | same lines => lines.map (' ', ·)
  | changed deleted inserted _ _ => deleted.map ('-', ·) ++ inserted.map ('+', ·)

namespace Hunk

/-- The lines of a hunk with their signs. -/
def signed (hunk : Hunk Line) : List (Char × Line) :=
  hunk.segments.flatMap Segment.signed

/-- What is printed of a hunk. -/
def shown (hunk : Hunk Line) : Shown where
  oldRange := rangeOf hunk.oldRange.1 (hunk.oldRange.2 - hunk.oldRange.1)
  newRange := rangeOf hunk.newRange.1 (hunk.newRange.2 - hunk.newRange.1)
  lines := hunk.signed.map fun (sign, line) => (sign, ended line)

variable {hunk : Hunk Line}

theorem linesBefore_oldRange (hunk : Hunk Line) :
    linesBefore hunk.shown.oldRange = hunk.oldRange.1 := linesBefore_rangeOf ..

theorem linesBefore_newRange (hunk : Hunk Line) :
    linesBefore hunk.shown.newRange = hunk.newRange.1 := linesBefore_rangeOf ..

theorem old_eq (hunk : Hunk Line) : hunk.old = (hunk.signed.filter (·.1 ≠ '+')).map Prod.snd := by
  rw [signed, filter_flatMap, map_flatMap]
  apply flatMap_congr
  intro segment _
  cases segment <;> simp [Segment.signed, Segment.old, filter_map, Function.comp_def]

theorem new_eq (hunk : Hunk Line) : hunk.new = (hunk.signed.filter (·.1 ≠ '-')).map Prod.snd := by
  rw [signed, filter_flatMap, map_flatMap]
  apply flatMap_congr
  intro segment _
  cases segment <;> simp [Segment.signed, Segment.new, filter_map, Function.comp_def]

theorem old_shown (hunk : Hunk Line) : hunk.shown.old = hunk.old.map ended := by
  rw [old_eq, Shown.old, shown, filter_map, map_map, map_map]
  rfl

theorem new_shown (hunk : Hunk Line) : hunk.shown.new = hunk.new.map ended := by
  rw [new_eq, Shown.new, shown, filter_map, map_map, map_map]
  rfl

theorem sign_of_mem_signed {signed : Char × Line} (listed : signed ∈ hunk.signed) :
    signed.1 ∈ [' ', '-', '+'] := by
  rcases List.mem_flatMap.mp listed with ⟨segment, -, listed⟩
  cases segment with
  | same lines =>
    rcases List.mem_map.mp listed with ⟨line, -, rfl⟩
    simp
  | changed deleted inserted oldAt newAt =>
    rcases List.mem_append.mp listed with listed | listed <;>
      (rcases List.mem_map.mp listed with ⟨line, -, rfl⟩; simp)

theorem mem_old_or_new_iff {line : Line} :
    line ∈ hunk.old ++ hunk.new ↔ ∃ sign, (sign, line) ∈ hunk.signed := by
  simp only [old_eq, new_eq, mem_append, mem_map, mem_filter, decide_eq_true_eq,
    Prod.exists, exists_eq_right]
  constructor
  · rintro (⟨sign, listed, -⟩ | ⟨sign, listed, -⟩) <;> exact ⟨sign, listed⟩
  · rintro ⟨sign, listed⟩
    by_cases inserted : sign = '+'
    · exact .inr ⟨sign, listed, by rw [inserted]; decide⟩
    · exact .inl ⟨sign, listed, inserted⟩

/-- The header of a hunk says where its lines stand and how many there are. -/
def HeaderAgrees (hunk : Hunk Line) : Prop :=
  hunk.shown.oldRange = rangeOf hunk.oldStart hunk.old.length ∧
    hunk.shown.newRange = rangeOf hunk.newStart hunk.new.length

theorem headerAgrees_iff (division : IsDivision hunk.segments) :
    hunk.HeaderAgrees ↔ hunk.InPlace := by
  have injective {start other length count : Nat} :
      rangeOf start length = rangeOf other count ↔ start = other ∧ length = count := by
    constructor
    · intro same
      have starts := congrArg linesBefore same
      rw [linesBefore_rangeOf, linesBefore_rangeOf] at starts
      exact ⟨starts, congrArg Prod.snd same⟩
    · rintro ⟨rfl, rfl⟩
      rfl
  rw [inPlace_iff, oldRange_eq_iff division, newRange_eq_iff division, HeaderAgrees, shown,
    injective, injective]

/-- A hunk that starts behind a gap fits there if and only if its header agrees with it. The gap is
the same in both texts, so if one start is right the other one is. -/
theorem fits_iff (division : IsDivision hunk.segments) {oldAt newAt : Nat} {gap old : List Line}
    (oldStart_eq : hunk.oldStart = oldAt + gap.length)
    (newStart_eq : hunk.newStart = newAt + gap.length) :
    hunk.shown.Fits oldAt newAt ((gap ++ (hunk.old ++ old)).map ended) ↔ hunk.InPlace := by
  have oldLength : hunk.shown.oldRange.2 = hunk.oldRange.2 - hunk.oldRange.1 := rfl
  have newLength : hunk.shown.newRange.2 = hunk.newRange.2 - hunk.newRange.1 := rfl
  rw [inPlace_iff, oldRange_eq_iff division, newRange_eq_iff division, Shown.Fits, Shown.distance,
    linesBefore_oldRange, linesBefore_newRange, oldLength, newLength, old_shown, new_shown,
    length_map, length_map]
  constructor
  · rintro ⟨oldPlace, newPlace, oldCount, newCount, -, -⟩
    rcases oldStart_or_newStart division with right | right
    · refine ⟨⟨right, oldCount⟩, ?_, newCount⟩
      omega
    · refine ⟨⟨?_, oldCount⟩, right, newCount⟩
      omega
  · rintro ⟨⟨oldPlace, oldCount⟩, newPlace, newCount⟩
    have distance : hunk.oldRange.1 - oldAt = (gap.map ended).length := by
      rw [length_map]
      omega
    rw [distance, map_append, drop_left, map_append]
    refine ⟨?_, ?_, oldCount, newCount, ?_, prefix_append _ _⟩
    · rw [length_map]
      omega
    · rw [length_map]
      omega
    · rw [length_append]
      omega

end Hunk

theorem replay?_cons {hunk : Hunk Line} (division : IsDivision hunk.segments) (inPlace : hunk.InPlace)
    {oldAt newAt : Nat} {gap : List Line} (old : List Line)
    (oldStart_eq : hunk.oldStart = oldAt + gap.length)
    (newStart_eq : hunk.newStart = newAt + gap.length) (others : List Shown) :
    replay? oldAt newAt (hunk.shown :: others) ((gap ++ (hunk.old ++ old)).map ended) =
      (replay? (hunk.oldStart + hunk.old.length) (hunk.newStart + hunk.new.length) others
        (old.map ended)).map (gap.map ended ++ hunk.new.map ended ++ ·) := by
  have distance : hunk.shown.distance oldAt = (gap.map ended).length := by
    have start := congrArg Prod.fst (hunk.inPlace_iff.mp inPlace).1
    rw [Shown.distance, Hunk.linesBefore_oldRange, start, length_map]
    omega
  rw [replay?, if_pos ((Hunk.fits_iff division oldStart_eq newStart_eq).mpr inPlace), distance,
    Hunk.old_shown, Hunk.new_shown, map_append, take_left, ← drop_drop, drop_left,
    map_append, drop_left, oldStart_eq, newStart_eq]
  simp only [length_map]

/-- Replayed on the lines of the old text, hunks give the lines of the new one if they are all in
place, and nothing otherwise. -/
theorem Covers.replay?_eq_some_iff {oldAt newAt : Nat} {hunks : List (Hunk Line)}
    {old new : List Line} (covers : Covers oldAt newAt hunks old new)
    (divisions : ∀ hunk ∈ hunks, IsDivision hunk.segments) (lines : List Line) :
    replay? oldAt newAt (hunks.map Hunk.shown) (old.map ended) = some lines ↔
      (∀ hunk ∈ hunks, hunk.InPlace) ∧ lines = new.map ended := by
  induction covers generalizing lines with
  | rest oldAt newAt elements =>
    rw [map_nil, replay?, Option.some.injEq, eq_comm]
    simp
  | @hunk oldAt newAt hunk others old new gap oldStart_eq newStart_eq covers ih =>
    rw [forall_mem_cons] at divisions
    rw [map_cons, forall_mem_cons]
    by_cases inPlace : hunk.InPlace
    · rw [replay?_cons divisions.1 inPlace old oldStart_eq newStart_eq, Option.map_eq_some_iff]
      constructor
      · rintro ⟨others_lines, found, rfl⟩
        rcases (ih divisions.2 others_lines).mp found with ⟨others_inPlace, rfl⟩
        exact ⟨⟨inPlace, others_inPlace⟩, by simp⟩
      · rintro ⟨⟨-, others_inPlace⟩, rfl⟩
        exact ⟨new.map ended, (ih divisions.2 _).mpr ⟨others_inPlace, rfl⟩, by simp⟩
    · rw [replay?, if_neg (mt (Hunk.fits_iff divisions.1 oldStart_eq newStart_eq).mp inPlace)]
      simp [inPlace]

end PhpStyle.Patch
