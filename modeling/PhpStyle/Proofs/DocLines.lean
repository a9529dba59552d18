import Mathlib.Data.List.DropRight
import PhpStyle.Proofs.Segmentation

/-!
# The lines of a doc comment

What the tags of a doc comment are can be said without the lexer, by the lines of
its body. A line is indented by blanks and, unless it is the first one, by a star
and more blanks. A tag has to come next, and the rest of the line is its content.

`tagsFrom` reads a text of which the first line has been begun, with the two flags
that say what may still come on it. The lemmas take a line apart from the front.
-/

namespace PhpStyle

open Text List

/-- A tag as the text of a doc comment spells it. -/
structure TagSpelling where
  name : String
  content : Option String
deriving DecidableEq, Repr, Inhabited

def Tag.spelling (tag : Tag) : TagSpelling :=
  ⟨tag.name, tag.content⟩

namespace DocLine

/-- The text without the blanks at both ends. -/
def trim (text : List Char) : List Char :=
  (text.dropWhile isBlank).rdropWhile isBlank

/-- The content of a tag, given what is left of the line behind its name. -/
def content? (rest : List Char) : Option String :=
  if rest.head?.any isBlank ∧ trim rest ≠ [] then some (String.ofList (trim rest)) else none

/-- The tag that begins a text. -/
def tag? : List Char → Option TagSpelling
  | '@' :: rest =>
    if rest.head?.any isTagChar then
      some ⟨String.ofList ('@' :: rest.takeWhile isTagChar), content? (rest.dropWhile isTagChar)⟩
    else none
  | _ => none

/-- The text without a star at its front. -/
def skipStar : List Char → List Char
  | '*' :: rest => rest
  | rest => rest

/-- A line without its indentation, of which one star is a part where a star is allowed. -/
def unindent (starAllowed : Bool) (line : List Char) : List Char :=
  let front := line.dropWhile isBlank
  if starAllowed then (skipStar front).dropWhile isBlank else front

/-- The tags that the lines of the body of a doc comment spell. -/
def tags (body : List Char) : List TagSpelling :=
  match body.splitOn '\n' with
  | [] => []
  | first :: later =>
    (tag? (unindent false first)).toList ++ later.filterMap fun line => tag? (unindent true line)

/-- The tag of a line of which the front has been read. -/
def lineTag? (starAllowed tagAllowed : Bool) (line : List Char) : Option TagSpelling :=
  if tagAllowed then tag? (unindent starAllowed line) else none

/-- The tags of the lines of a text, of which the first one has been begun. -/
def tagsFrom (starAllowed tagAllowed : Bool) (text : List Char) : List TagSpelling :=
  match text.splitOn '\n' with
  | [] => []
  | first :: later =>
    (lineTag? starAllowed tagAllowed first).toList ++ later.filterMap (lineTag? true true)

theorem tags_eq_tagsFrom (body : List Char) : tags body = tagsFrom false true body :=
  rfl

def firstLine (text : List Char) : List Char :=
  text.takeWhile (· != '\n')

section Lines

variable {line rest : List Char} {starAllowed tagAllowed : Bool}

theorem splitOn_of_newline_not_mem (within : '\n' ∉ line) : line.splitOn '\n' = [line] := by
  apply splitOnP_eq_singleton
  intro c inside
  rw [beq_eq_false_iff_ne]
  rintro rfl
  exact within inside

theorem splitOn_append_newline (front rest : List Char) :
    (front ++ '\n' :: rest).splitOn '\n' = front.splitOn '\n' ++ rest.splitOn '\n' :=
  splitOnP_append_cons front rest (beq_self_eq_true '\n')

theorem length_splitOn_newline (text : List Char) :
    (text.splitOn '\n').length = text.count '\n' + 1 := by
  induction text with
  | nil => rfl
  | cons c text ih =>
    rw [List.splitOn] at ih
    rw [List.splitOn, splitOnP_cons_eq_if_modifyHead]
    by_cases newline : c = '\n'
    · simp [newline, ih]
    · simp [newline, ih]

theorem firstLine_of_newline_not_mem (within : '\n' ∉ line) : firstLine line = line := by
  apply List.takeWhile_eq_self_iff.mpr
  intro c inside
  rw [bne_iff_ne]
  rintro rfl
  exact within inside

theorem firstLine_append (within : '\n' ∉ line) (rest : List Char) :
    firstLine (line ++ rest) = line ++ firstLine rest := by
  apply takeWhile_append_of_pos
  intro c inside
  rw [bne_iff_ne]
  rintro rfl
  exact within inside

@[simp]
theorem firstLine_newline (rest : List Char) : firstLine ('\n' :: rest) = [] := rfl

theorem firstLine_append_of_newline_mem (newline : '\n' ∈ line) (rest : List Char) :
    firstLine (line ++ rest) = firstLine line := by
  rcases eq_append_cons_of_mem newline with ⟨front, behind, rfl, within⟩
  rw [List.append_assoc, firstLine_append within, firstLine_append within, cons_append,
    firstLine_newline, firstLine_newline]

/-- Behind a text only the first line of what follows can be on its last line. -/
theorem firstLine_append_congr {other : List Char} (same : firstLine rest = firstLine other)
    (front : List Char) : firstLine (front ++ rest) = firstLine (front ++ other) := by
  by_cases newline : '\n' ∈ front
  · rw [firstLine_append_of_newline_mem newline, firstLine_append_of_newline_mem newline]
  · rw [firstLine_append newline, firstLine_append newline, same]

theorem mem_of_mem_firstLine {c : Char} (inside : c ∈ firstLine line) : c ∈ line :=
  (takeWhile_sublist _).mem inside

theorem head?_firstLine_any {test : Char → Bool} {behind : List Char}
    (fails : (line ++ behind).head?.any test = false) :
    (firstLine line).head?.any test = false := by
  cases line with
  | nil => rfl
  | cons c line =>
    by_cases newline : c = '\n'
    · rw [newline, firstLine_newline]
      rfl
    · simpa [firstLine, newline] using fails

theorem newline_not_mem_of_blank (blank : ∀ c ∈ line, isBlank c = true) : '\n' ∉ line := by
  intro newline
  simpa [isBlank] using blank '\n' newline

theorem exists_line (text : List Char) :
    ∃ line, '\n' ∉ line ∧ (text = line ∨ ∃ rest, text = line ++ '\n' :: rest) := by
  by_cases newline : '\n' ∈ text
  · rcases eq_append_cons_of_mem newline with ⟨line, rest, split, within⟩
    exact ⟨line, within, .inr ⟨rest, split⟩⟩
  · exact ⟨text, newline, .inl rfl⟩

@[simp]
theorem lineTag?_nil (starAllowed tagAllowed : Bool) :
    lineTag? starAllowed tagAllowed [] = none := by
  cases starAllowed <;> cases tagAllowed <;> rfl

theorem tagsFrom_line (starAllowed tagAllowed : Bool) (within : '\n' ∉ line) :
    tagsFrom starAllowed tagAllowed line = (lineTag? starAllowed tagAllowed line).toList := by
  rw [tagsFrom, splitOn_of_newline_not_mem within]
  exact append_nil _

theorem tagsFrom_append_newline (starAllowed tagAllowed : Bool) (within : '\n' ∉ line)
    (rest : List Char) :
    tagsFrom starAllowed tagAllowed (line ++ '\n' :: rest) =
      (lineTag? starAllowed tagAllowed line).toList ++ tagsFrom true true rest := by
  rw [tagsFrom, splitOn_append_newline, splitOn_of_newline_not_mem within, tagsFrom]
  cases lines : rest.splitOn '\n' with
  | nil => exact absurd lines (splitOnP_ne_nil _ _)
  | cons first later =>
    cases found : lineTag? true true first <;> simp [found]

/-- Of the first line only its own tag depends on the flags. -/
theorem tagsFrom_eq (starAllowed tagAllowed : Bool) (text : List Char) :
    tagsFrom starAllowed tagAllowed text =
      (lineTag? starAllowed tagAllowed (firstLine text)).toList ++ tagsFrom false false text := by
  rcases exists_line text with ⟨line, within, rfl | ⟨rest, rfl⟩⟩
  · rw [tagsFrom_line _ _ within, tagsFrom_line _ _ within, firstLine_of_newline_not_mem within]
    exact (append_nil _).symm
  · rw [tagsFrom_append_newline _ _ within, tagsFrom_append_newline _ _ within,
      firstLine_append within, firstLine_newline, append_nil]
    rfl

/-- The tags of a text are that of its first line and those of the other lines. -/
theorem tagsFrom_append (within : '\n' ∉ line) (rest : List Char) :
    tagsFrom starAllowed tagAllowed (line ++ rest) =
      (lineTag? starAllowed tagAllowed (line ++ firstLine rest)).toList ++
        tagsFrom false false rest := by
  have same : tagsFrom false false (line ++ rest) = tagsFrom false false rest := by
    rcases exists_line rest with ⟨front, front_within, rfl | ⟨behind, rfl⟩⟩
    · have both : '\n' ∉ line ++ rest := by simp [within, front_within]
      rw [tagsFrom_line _ _ both, tagsFrom_line _ _ front_within]
      rfl
    · have both : '\n' ∉ line ++ front := by simp [within, front_within]
      rw [← List.append_assoc, tagsFrom_append_newline _ _ both,
        tagsFrom_append_newline _ _ front_within]
      rfl
  rw [tagsFrom_eq, firstLine_append within, same]

end Lines

section Front

variable {starAllowed tagAllowed : Bool} {blanks line : List Char}

theorem lineTag?_blanks (blank : ∀ c ∈ blanks, isBlank c = true) (line : List Char) :
    lineTag? starAllowed tagAllowed (blanks ++ line) = lineTag? starAllowed tagAllowed line := by
  simp only [lineTag?, unindent, dropWhile_append_of_pos blank]

theorem lineTag?_star (line : List Char) :
    lineTag? true true ('*' :: line) = lineTag? false true line :=
  rfl

theorem unindent_cons {c : Char} (notBlank : isBlank c = false)
    (notStar : c = '*' → starAllowed = false) (line : List Char) :
    unindent starAllowed (c :: line) = c :: line := by
  have front : (c :: line).dropWhile isBlank = c :: line :=
    dropWhile_cons_of_neg (by simp [notBlank])
  rw [unindent, front]
  split
  · next allowed =>
      have kept : skipStar (c :: line) = c :: line := by
        unfold skipStar
        split
        · next whole =>
            have star := notStar (List.cons.inj whole).1
            simp [star] at allowed
        · rfl
      rw [kept, front]
  · rfl

theorem lineTag?_text {c : Char} (notBlank : isBlank c = false)
    (notStar : c = '*' → starAllowed = false)
    (notTag : c = '@' → tagAllowed = true → line.head?.any isTagChar = false) :
    lineTag? starAllowed tagAllowed (c :: line) = none := by
  rw [lineTag?, unindent_cons notBlank notStar]
  split
  · next allowed =>
      unfold tag?
      split
      · next front =>
          obtain ⟨rfl, rfl⟩ := List.cons.inj front
          simp [notTag rfl allowed]
      · rfl
  · rfl

theorem lineTag?_tag {name : List Char} (allowed : tagAllowed = true) (nonempty : name ≠ [])
    (named : ∀ c ∈ name, isTagChar c = true) (whole : line.head?.any isTagChar = false) :
    lineTag? starAllowed tagAllowed ('@' :: (name ++ line)) =
      some ⟨String.ofList ('@' :: name), content? line⟩ := by
  have front : (name ++ line).head?.any isTagChar = true := by
    cases name with
    | nil => exact absurd rfl nonempty
    | cons c name => simpa using named c (by simp)
  have taken : (name ++ line).takeWhile isTagChar = name :=
    Scan.takeWhile_append_eq.mpr ⟨named, whole⟩
  have left : (name ++ line).dropWhile isTagChar = line := by
    have split := takeWhile_append_dropWhile (p := isTagChar) (l := name ++ line)
    rwa [taken, append_cancel_left_eq] at split
  rw [lineTag?, if_pos allowed, unindent_cons (by decide) (by simp), tag?, if_pos front, taken,
    left]

theorem dropWhile_of_head? {text : List Char} (first : text.head?.any isBlank = false) :
    text.dropWhile isBlank = text := by
  cases text with
  | nil => rfl
  | cons c text => simpa using first

/-- Trimming takes away the blanks around a text and nothing else. -/
theorem trim_append {text behind : List Char} (front : ∀ c ∈ blanks, isBlank c = true)
    (back : ∀ c ∈ behind, isBlank c = true) (nonempty : text ≠ [])
    (first : text.head?.any isBlank = false) (last : text.reverse.head?.any isBlank = false) :
    trim (blanks ++ (text ++ behind)) = text := by
  have first_kept : (text ++ behind).head?.any isBlank = false := by
    cases text with
    | nil => exact absurd rfl nonempty
    | cons c text => simpa using first
  have back_reversed : ∀ c ∈ behind.reverse, isBlank c = true := by simpa using back
  rw [trim, dropWhile_append_of_pos front, dropWhile_of_head? first_kept, List.rdropWhile,
    reverse_append, dropWhile_append_of_pos back_reversed, dropWhile_of_head? last,
    reverse_reverse]

theorem content?_of_blank (blank : ∀ c ∈ blanks, isBlank c = true) : content? blanks = none := by
  have nothing : trim blanks = [] := by
    rw [trim, List.dropWhile_eq_nil_iff.mpr blank]
    rfl
  simp [content?, nothing]

theorem content?_of_text {text behind : List Char} (front : ∀ c ∈ blanks, isBlank c = true)
    (separated : blanks ≠ []) (back : ∀ c ∈ behind, isBlank c = true) (nonempty : text ≠ [])
    (first : text.head?.any isBlank = false) (last : text.reverse.head?.any isBlank = false) :
    content? (blanks ++ (text ++ behind)) = some (String.ofList text) := by
  have begins : (blanks ++ (text ++ behind)).head?.any isBlank = true := by
    cases blanks with
    | nil => exact absurd rfl separated
    | cons c blanks => simpa using front c (by simp)
  rw [content?, trim_append front back nonempty first last, if_pos ⟨begins, nonempty⟩]

end Front

end DocLine

end PhpStyle
