import PhpStyle.Proofs.Replay
import PhpStyle.Proofs.TextReading

/-!
# Reading printed differences

The text of differences is read line by line, with the same ends of lines as the texts that are
compared. A line that lacks its end gets one, and an empty line behind it; all other lines are a
header, with the ranges of a hunk, or begin with a sign. So the hunks are read back from the text
without its empty lines, and they can be replayed if their headers are right.
-/

namespace PhpStyle

open List

/-! ## Lines -/

/-- The characters that end a line. -/
def lineEnds : List (List Char) :=
  [['\n'], ['\r'], ['\r', '\n']]

variable {rest front : List Char}

theorem splitLines_cons {c : Char} (plain : c ≠ '\n' ∧ c ≠ '\r') {first : Line} {others : List Line}
    (lines : splitLines rest = first :: others) :
    splitLines (c :: rest) = (c :: first) :: others := by
  rw [splitLines, if_neg (not_or.mpr plain), lines]
  intro behind carriage
  exact absurd carriage plain.2

theorem splitLines_carriage (apart : rest.head? ≠ some '\n') :
    splitLines ('\r' :: rest) = ['\r'] :: splitLines rest := by
  rw [splitLines, if_pos (.inr rfl)]
  rintro behind - rfl
  exact apart rfl

theorem splitLines_append {ending : List Char} (unbroken : IsUnbroken front)
    (listed : ending ∈ lineEnds) (apart : ending = ['\r'] → rest.head? ≠ some '\n') :
    splitLines (front ++ ending ++ rest) = (front ++ ending) :: splitLines rest := by
  induction front with
  | nil =>
    simp only [lineEnds, mem_cons, not_mem_nil, or_false] at listed
    rcases listed with rfl | rfl | rfl
    · simp [splitLines]
    · exact splitLines_carriage (apart rfl)
    · simp [splitLines]
  | cons c front ih =>
    rw [isUnbroken_cons] at unbroken
    exact splitLines_cons unbroken.1 (ih unbroken.2)

/-- A line is a text without an end of a line in it, followed by one unless the text ends there. -/
theorem exists_of_mem_splitLines {text line : List Char} (listed : line ∈ splitLines text) :
    ∃ front ending, line = front ++ ending ∧ IsUnbroken front ∧ (ending = [] ∨ ending ∈ lineEnds) := by
  fun_induction splitLines text generalizing line with
  | case1 => cases listed
  | case2 rest ih =>
    rcases List.mem_cons.mp listed with rfl | listed
    · exact ⟨[], _, rfl, isUnbroken_nil, .inr (by decide)⟩
    · exact ih listed
  | case3 c rest _ breaks ih =>
    rcases List.mem_cons.mp listed with rfl | listed
    · refine ⟨[], _, rfl, isUnbroken_nil, .inr ?_⟩
      rcases breaks with rfl | rfl <;> decide
    · exact ih listed
  | case4 c rest _ plain _ ih =>
    rw [mem_singleton] at listed
    refine ⟨[c], [], listed, isUnbroken_cons.mpr ⟨not_or.mp plain, isUnbroken_nil⟩, .inl rfl⟩
  | case5 c rest _ plain first others lines ih =>
    rcases List.mem_cons.mp listed with rfl | listed
    · rcases ih (lines ▸ mem_cons_self) with ⟨front, ending, first_eq, unbroken, ends⟩
      refine ⟨c :: front, ending, ?_, isUnbroken_cons.mpr ⟨not_or.mp plain, unbroken⟩, ends⟩
      rw [first_eq, cons_append]
    · apply ih
      rw [lines]
      exact mem_cons_of_mem first listed

theorem isEnded_of_unbroken (unbroken : IsUnbroken front) : Line.isEnded front = false := by
  cases last : front.getLast? with
  | none => simp [Line.isEnded, last]
  | some c =>
    have plain := unbroken c (mem_of_getLast? last)
    simp [Line.isEnded, last, plain]

theorem isEnded_append {ending : List Char} (listed : ending ∈ lineEnds) :
    Line.isEnded (front ++ ending) = true := by
  simp only [lineEnds, mem_cons, not_mem_nil, or_false] at listed
  rcases listed with rfl | rfl | rfl <;> simp [Line.isEnded]

namespace Patch

/-- A text that is cut into given lines wherever it stands before others. -/
structure Prints (text : List Char) (lines : List Line) : Prop where
  starts : text.head? ≠ some '\n'
  splits {rest : List Char} (apart : rest.head? ≠ some '\n') :
    splitLines (text ++ rest) = lines ++ splitLines rest

namespace Prints

variable {text more : List Char} {lines others : List Line}

theorem nil : Prints [] [] :=
  ⟨by simp, fun _ => rfl⟩

theorem head?_append (prints : Prints text lines) (apart : rest.head? ≠ some '\n') :
    (text ++ rest).head? ≠ some '\n' := by
  cases text with
  | nil => exact apart
  | cons c text => exact prints.starts

theorem append (prints : Prints text lines) (prints_more : Prints more others) :
    Prints (text ++ more) (lines ++ others) := by
  constructor
  · exact prints.head?_append prints_more.starts
  · intro rest apart
    rw [List.append_assoc, prints.splits (prints_more.head?_append apart), prints_more.splits apart,
      List.append_assoc]

theorem flatMap {α : Type} {elements : List α} {write : α → List Char} {read : α → List Line}
    (prints : ∀ element ∈ elements, Prints (write element) (read element)) :
    Prints (elements.flatMap write) (elements.flatMap read) := by
  induction elements with
  | nil => exact nil
  | cons element rest ih =>
    rw [forall_mem_cons] at prints
    exact prints.1.append (ih prints.2)

theorem of_unbroken {ending : List Char} (unbroken : IsUnbroken front) (nonempty : front ≠ [])
    (listed : ending ∈ lineEnds) : Prints (front ++ ending) [front ++ ending] := by
  constructor
  · cases front with
    | nil => exact absurd rfl nonempty
    | cons c front =>
      intro feed
      cases feed
      exact absurd rfl (unbroken '\n' mem_cons_self).1
  · intro rest apart
    exact splitLines_append unbroken listed fun _ => apart

end Prints

/-- A line with nothing in it. -/
def blank : Line := ['\n']

/-- The lines that are printed for a line with a sign. -/
def printed (signed : Char × Line) : List Line :=
  (signed.1 :: ended signed.2) :: if signed.2.isEnded then [] else [blank]

variable {hunk : Hunk Line}

theorem prints_signedLine {sign : Char} (plain : sign ≠ '\n' ∧ sign ≠ '\r') {text : List Char}
    {line : Line} (listed : line ∈ splitLines text) :
    Prints (signedLine sign line) (printed (sign, line)) := by
  rcases exists_of_mem_splitLines listed with ⟨front, ending, rfl, unbroken, rfl | ends⟩
  · have signed_unbroken : IsUnbroken (sign :: front) := isUnbroken_cons.mpr ⟨plain, unbroken⟩
    rw [append_nil, signedLine, printed, ended, isEnded_of_unbroken unbroken]
    constructor
    · intro feed
      exact plain.1 (Option.some.inj feed)
    · intro rest _
      have first : splitLines (sign :: front ++ ['\n'] ++ '\n' :: rest) =
          (sign :: front ++ ['\n']) :: splitLines ('\n' :: rest) :=
        splitLines_append signed_unbroken (by decide) (by simp)
      have second : splitLines ('\n' :: rest) = ['\n'] :: splitLines rest :=
        splitLines_append isUnbroken_nil (mem_cons_self) (by simp)
      rw [second] at first
      simpa [blank] using first
  · rw [signedLine, printed, ended, isEnded_append ends]
    simpa using Prints.of_unbroken (isUnbroken_cons.mpr ⟨plain, unbroken⟩) (cons_ne_nil _ _) ends

/-! ## Headers -/

/-- The range that is written in a header. A single line has no number of lines. -/
def range? (text : List Char) : Option (Nat × Nat) :=
  match cutAt? [','] text with
  | none => (number? text).map (·, 1)
  | some (first, length) => do return (← number? first, ← number? length)

theorem toList_rangeText (start stop : Nat) : (rangeText (start, stop)).toList =
    (toString (rangeOf start (stop - start)).1).toList ++
      if stop - start = 1 then [] else [','] ++ (toString (stop - start)).toList := by
  rw [rangeText, rangeOf]
  split
  · next single =>
      rw [single]
      simp
  · split
    · next empty =>
        rw [empty]
        simp [toString]
    · simp [toString]

theorem mem_rangeText {range : Nat × Nat} {c : Char} (written : c ∈ (rangeText range).toList) :
    c.isDigit = true ∨ c = ',' := by
  rw [toList_rangeText, mem_append] at written
  rcases written with written | written
  · exact .inl (isDigit_of_mem_toString written)
  · split at written
    · cases written
    · rcases List.mem_cons.mp written with comma | written
      · exact .inr comma
      · exact .inl (isDigit_of_mem_toString written)

theorem range?_rangeText (range : Nat × Nat) :
    range? (rangeText range).toList = some (rangeOf range.1 (range.2 - range.1)) := by
  have comma (number : Nat) : ',' ∉ (toString number).toList := by
    intro written
    cases isDigit_of_mem_toString written
  rw [toList_rangeText]
  by_cases single : range.2 - range.1 = 1
  · rw [if_pos single, append_nil, range?, cutAt?_eq_none (comma _), number?_toString, single]
    rfl
  · rw [if_neg single, ← List.append_assoc, range?, cutAt?_of_not_mem (comma _)]
    simp only [number?_toString, Option.bind_eq_bind, Option.bind_some, Option.pure_def]
    rfl

/-- The ranges in the header of a hunk. -/
def ranges? (line : Line) : Option ((Nat × Nat) × (Nat × Nat)) := do
  let (front, text) ← cutAt? "@@ -".toList line
  let (old, text) ← cutAt? " +".toList text
  let (new, text) ← cutAt? " @@\n".toList text
  if front.isEmpty && text.isEmpty then return (← range? old, ← range? new) else none

/-- The header of a hunk. -/
def Hunk.header (hunk : Hunk Line) : List Char :=
  "@@ -".toList ++ ((rangeText hunk.oldRange).toList ++ " +".toList ++
    ((rangeText hunk.newRange).toList ++ " @@\n".toList ++ []))

theorem ranges?_header (hunk : Hunk Line) :
    ranges? hunk.header = some (hunk.shown.oldRange, hunk.shown.newRange) := by
  have space (range : Nat × Nat) : ' ' ∉ (rangeText range).toList := by
    intro written
    rcases mem_rangeText written with digit | comma
    · cases digit
    · cases comma
  have front (text : List Char) : cutAt? "@@ -".toList ("@@ -".toList ++ text) = some ([], text) := rfl
  have middle (text : List Char) : cutAt? " +".toList ((rangeText hunk.oldRange).toList ++
      " +".toList ++ text) = some ((rangeText hunk.oldRange).toList, text) := cutAt?_of_not_mem (space _)
  have back : cutAt? " @@\n".toList ((rangeText hunk.newRange).toList ++ " @@\n".toList ++ []) =
      some ((rangeText hunk.newRange).toList, []) := cutAt?_of_not_mem (space _)
  simp only [ranges?, Hunk.header, front, middle, back, range?_rangeText, Option.bind_eq_bind,
    Option.bind_some]
  rfl

theorem isUnbroken_rangeText (range : Nat × Nat) : IsUnbroken (rangeText range).toList := by
  intro c written
  rcases mem_rangeText written with digit | comma
  · constructor <;> (rintro rfl; cases digit)
  · rw [comma]
    decide

theorem prints_header (hunk : Hunk Line) : Prints hunk.header [hunk.header] := by
  have front : IsUnbroken ("@@ -".toList ++ ((rangeText hunk.oldRange).toList ++ " +".toList ++
      ((rangeText hunk.newRange).toList ++ " @@".toList))) := by
    have signs : IsUnbroken "@@ -".toList ∧ IsUnbroken " +".toList ∧ IsUnbroken " @@".toList := by
      decide
    simp only [isUnbroken_append, signs, isUnbroken_rangeText, and_self]
  have prints := Prints.of_unbroken front (by simp) (mem_cons_self (a := ['\n']))
  simpa [Hunk.header] using prints

theorem flatMap_render (hunk : Hunk Line) : hunk.segments.flatMap Segment.render =
    hunk.signed.flatMap fun signed => signedLine signed.1 signed.2 := by
  rw [Hunk.signed, flatMap_assoc]
  apply flatMap_congr
  intro segment _
  cases segment <;> simp [Segment.render, Segment.signed, flatMap_map]

theorem toList_render (hunk : Hunk Line) : hunk.render.toList =
    hunk.header ++ hunk.signed.flatMap fun signed => signedLine signed.1 signed.2 := by
  rw [← flatMap_render]
  unfold Hunk.render
  simp only [String.toList_append, toString, String.toList_ofList, Hunk.header]
  simp

/-- The lines that are printed for a hunk. -/
def Hunk.printedLines (hunk : Hunk Line) : List Line :=
  hunk.header :: hunk.signed.flatMap printed

theorem plain_of_mem_signed {signed : Char × Line} (listed : signed ∈ hunk.signed) :
    signed.1 ≠ '\n' ∧ signed.1 ≠ '\r' := by
  have plain : ∀ sign ∈ [' ', '-', '+'], sign ≠ '\n' ∧ sign ≠ '\r' := by simp
  exact plain _ (Hunk.sign_of_mem_signed listed)

/-- A hunk prints its header and its lines, if these are lines of texts. -/
theorem prints_render (lines : ∀ line ∈ hunk.old ++ hunk.new, ∃ text, line ∈ splitLines text) :
    Prints hunk.render.toList hunk.printedLines := by
  rw [toList_render]
  apply (prints_header hunk).append
  apply Prints.flatMap
  intro signed listed
  rcases lines signed.2 (Hunk.mem_old_or_new_iff.mpr ⟨signed.1, listed⟩) with ⟨text, inside⟩
  exact prints_signedLine (plain_of_mem_signed listed) inside

theorem filter_printedLines (hunk : Hunk Line) : hunk.printedLines.filter (· ≠ blank) =
    hunk.header :: hunk.shown.lines.map fun signed => signed.1 :: signed.2 := by
  have header : hunk.header ≠ blank := by simp [Hunk.header, blank]
  rw [Hunk.printedLines, filter_cons_of_pos (by simpa using header), filter_flatMap,
    Hunk.shown, map_map, map_eq_flatMap]
  congr 1
  apply flatMap_congr
  intro signed listed
  have plain := (plain_of_mem_signed listed).1
  rw [printed]
  split <;> simp [blank, plain]

theorem blank_mem_printedLines_iff (hunk : Hunk Line) : blank ∈ hunk.printedLines ↔
    ∃ line ∈ hunk.old ++ hunk.new, line.isEnded = false := by
  have mem_printed (signed : Char × Line) (listed : signed ∈ hunk.signed) :
      blank ∈ printed signed ↔ signed.2.isEnded = false := by
    have plain := (plain_of_mem_signed listed).1.symm
    rw [printed]
    split <;> simp_all [blank]
  have header : blank ≠ hunk.header := by simp [Hunk.header, blank]
  rw [Hunk.printedLines, mem_cons, or_iff_right header, mem_flatMap]
  constructor
  · rintro ⟨signed, listed, inside⟩
    exact ⟨signed.2, Hunk.mem_old_or_new_iff.mpr ⟨signed.1, listed⟩,
      (mem_printed signed listed).mp inside⟩
  · rintro ⟨line, inside, unended⟩
    rcases Hunk.mem_old_or_new_iff.mp inside with ⟨sign, listed⟩
    exact ⟨(sign, line), listed, (mem_printed (sign, line) listed).mpr unended⟩

/-- The hunks in lines, behind lines that belong to no hunk. -/
def readLines? : List Line → Option (List (Char × Line) × List Shown)
  | [] => some ([], [])
  | [] :: _ => none
  | (sign :: text) :: rest => do
    let (behind, hunks) ← readLines? rest
    if sign = '@' then
      let (oldRange, newRange) ← ranges? (sign :: text)
      return ([], ⟨oldRange, newRange, behind⟩ :: hunks)
    else if sign ∈ [' ', '-', '+'] then return ((sign, text) :: behind, hunks)
    else none

/-- The hunks in lines. -/
def read? (lines : List Line) : Option (List Shown) := do
  let (before, hunks) ← readLines? lines
  if before.isEmpty then return hunks else none

/-- The lines of a hunk are read one by one, up to what is read behind them. -/
theorem readLines?_append {signed : List (Char × Line)}
    (signs : ∀ entry ∈ signed, entry.1 ∈ [' ', '-', '+']) {rest : List Line}
    {behind : List (Char × Line)} {hunks : List Shown}
    (found : readLines? rest = some (behind, hunks)) :
    readLines? ((signed.map fun entry => entry.1 :: entry.2) ++ rest) =
      some (signed ++ behind, hunks) := by
  induction signed with
  | nil => exact found
  | cons entry signed ih =>
    rw [forall_mem_cons] at signs
    have other : entry.1 ≠ '@' := by
      intro header
      rw [header] at signs
      simp at signs
    rw [map_cons, cons_append, readLines?, ih signs.2]
    simp only [Option.bind_eq_bind, Option.bind_some, if_neg other, if_pos signs.1, Option.pure_def,
      cons_append]

/-- A printed hunk is read back, before the hunks that are read behind it. -/
theorem readLines?_hunk (hunk : Hunk Line) {rest : List Line} {hunks : List Shown}
    (found : readLines? rest = some ([], hunks)) :
    readLines? ((hunk.header :: hunk.shown.lines.map fun signed => signed.1 :: signed.2) ++ rest) =
      some ([], hunk.shown :: hunks) := by
  have signs : ∀ entry ∈ hunk.shown.lines, entry.1 ∈ [' ', '-', '+'] := by
    intro entry listed
    rcases List.mem_map.mp listed with ⟨signed, inside, rfl⟩
    have sign := Hunk.sign_of_mem_signed inside
    exact sign
  have lines := readLines?_append signs found
  have ranges := ranges?_header hunk
  obtain ⟨text, header_eq⟩ : ∃ text, hunk.header = '@' :: text := ⟨_, rfl⟩
  rw [header_eq] at ranges ⊢
  rw [cons_append, readLines?, lines]
  simp only [Option.bind_eq_bind, Option.bind_some, if_true, ranges, Option.pure_def, append_nil]

/-- What is printed for hunks is read back as these hunks. -/
theorem read?_printed (hunks : List (Hunk Line)) :
    read? ((hunks.flatMap Hunk.printedLines).filter (· ≠ blank)) = some (hunks.map Hunk.shown) := by
  have lines : readLines? ((hunks.flatMap Hunk.printedLines).filter (· ≠ blank)) =
      some ([], hunks.map Hunk.shown) := by
    rw [filter_flatMap]
    induction hunks with
    | nil => rfl
    | cons hunk others ih =>
      rw [flatMap_cons, filter_printedLines]
      exact readLines?_hunk hunk ih
  rw [read?, lines]
  rfl

/-! ## Differences of texts -/

theorem Covers.mem {oldAt newAt : Nat} {hunks : List (Hunk Line)} {old new : List Line}
    (covers : Covers oldAt newAt hunks old new) (listed : hunk ∈ hunks) :
    (∀ line ∈ hunk.old, line ∈ old) ∧ ∀ line ∈ hunk.new, line ∈ new := by
  induction covers with
  | rest oldAt newAt elements => cases listed
  | hunk gap oldStart_eq newStart_eq covers ih =>
    rcases List.mem_cons.mp listed with rfl | listed
    · simp +contextual
    · simp +contextual [ih listed]

/-- The hunks of two texts cover the lines of both. -/
theorem covers_textHunks (old new : List Char) :
    Covers 0 0 (textHunks old new) (splitLines old) (splitLines new) := by
  have makes := makes_script (splitLines old) (splitLines new)
  have compares := compares_segments makes.real
  have covers := covers_hunks (segments (script (splitLines old) (splitLines new)))
  rwa [compares.old_eq, compares.new_eq, makes.old_eq, makes.new_eq] at covers

theorem isDivision_of_mem_textHunks {old new : List Char} (listed : hunk ∈ textHunks old new) :
    IsDivision hunk.segments := by
  have makes := makes_script (splitLines old) (splitLines new)
  exact isDivision_of_mem_hunks (compares_segments makes.real).toIsDivision hunk listed

theorem prints_textHunks (old new : List Char) :
    Prints ((textHunks old new).flatMap fun hunk => hunk.render.toList)
      ((textHunks old new).flatMap Hunk.printedLines) := by
  apply Prints.flatMap
  intro hunk listed
  have inside := (covers_textHunks old new).mem listed
  apply prints_render
  intro line shown
  rcases List.mem_append.mp shown with shown | shown
  · exact ⟨old, inside.1 line shown⟩
  · exact ⟨new, inside.2 line shown⟩

/-- Differences are printed as two lines with the path and hunks that can be read back from the
lines below them. Behind every line that lacks its end there is an empty line, and there are no
others. The hunks stand in order and do not overlap, the kept and deleted lines of each are the
lines of the old text at its place and the kept and inserted ones those of the new text, and the
lines outside of the hunks are the same in both texts. A header agrees with the lines below it if
and only if the hunk starts and ends where its segments say. If this is so for all hunks, they can
be replayed on the old text and give the new one; otherwise they cannot be replayed. -/
theorem differences_replay_iff (path : String) (old new : List Char) :
    ∃ body, (unified path old new).toList = s!"--- a/{path}\n+++ b/{path}\n".toList ++ body ∧
      splitLines body = (textHunks old new).flatMap Hunk.printedLines ∧
      read? ((splitLines body).filter (· ≠ blank)) = some ((textHunks old new).map Hunk.shown) ∧
      (blank ∈ splitLines body ↔
        ∃ hunk ∈ textHunks old new, ∃ line ∈ hunk.old ++ hunk.new, line.isEnded = false) ∧
      Covers 0 0 (textHunks old new) (splitLines old) (splitLines new) ∧
      (∀ hunk ∈ textHunks old new, hunk.shown.old = hunk.old.map ended ∧
        hunk.shown.new = hunk.new.map ended ∧ (hunk.HeaderAgrees ↔ hunk.InPlace)) ∧
      ∀ lines, replay? 0 0 ((textHunks old new).map Hunk.shown) ((splitLines old).map ended) =
          some lines ↔
        (∀ hunk ∈ textHunks old new, hunk.InPlace) ∧ lines = (splitLines new).map ended := by
  have lines : splitLines (_ ++ []) = _ ++ splitLines [] := (prints_textHunks old new).splits (by simp)
  rw [append_nil, splitLines, append_nil] at lines
  refine ⟨(textHunks old new).flatMap fun hunk => hunk.render.toList, ?_, lines, ?_, ?_,
    covers_textHunks old new, ?_, ?_⟩
  · rw [unified, String.toList_append, String.toList_join, flatMap_map]
  · rw [lines]
    exact read?_printed _
  · rw [lines, mem_flatMap]
    simp only [blank_mem_printedLines_iff]
  · intro hunk listed
    exact ⟨hunk.old_shown, hunk.new_shown, Hunk.headerAgrees_iff (isDivision_of_mem_textHunks listed)⟩
  · intro lines
    exact (covers_textHunks old new).replay?_eq_some_iff (fun _ => isDivision_of_mem_textHunks) lines

/-- A deleted and an inserted line have passed each other, and the header is wrong: the hunk cannot
be replayed. Lines without an end are followed by empty lines. -/
theorem header_differs_from_lines :
    let old := "x\na\n".toList
    let new := "a\na\n".toList
    unified "a.php" old new = "--- a/a.php\n+++ b/a.php\n@@ -1 +2 @@\n-x\n a\n+a\n" ∧
      replay? 0 0 ((textHunks old new).map Hunk.shown) (splitLines old) = none ∧
      unified "a.php" "a".toList "b".toList =
        "--- a/a.php\n+++ b/a.php\n@@ -1 +1 @@\n-a\n\n+b\n\n" := by
  intro old new
  refine ⟨?_, ?_, ?_⟩
  · decide +kernel
  · decide +kernel
  · decide +kernel

end Patch

end PhpStyle
