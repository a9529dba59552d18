/-!
# Reading texts

What readers of written texts have in common: cutting a text at the first place where a separator
stands, and reading a number. A cut is found again in a written text if the separator does not
begin anywhere in the part before it. A text that is read line by line has to stand in one line.
-/

namespace PhpStyle

open List

section Cuts

variable {separator before behind text : List Char}

/-- What stands before the first separator in a text, and what stands behind it. -/
def cutAt? (separator : List Char) : List Char → Option (List Char × List Char)
  | [] => none
  | c :: rest =>
    if separator <+: c :: rest then some ([], (c :: rest).drop separator.length)
    else (cutAt? separator rest).map fun (before, behind) => (c :: before, behind)

theorem cutAt?_append (nonempty : separator ≠ [])
    (first : ∀ back, back <:+ before → back ≠ [] → ¬separator <+: back ++ separator ++ behind) :
    cutAt? separator (before ++ separator ++ behind) = some (before, behind) := by
  induction before with
  | nil =>
    cases separator with
    | nil => exact absurd rfl nonempty
    | cons c rest =>
      rw [nil_append, cons_append, cutAt?, ← cons_append,
        if_pos (prefix_append _ behind), drop_left]
  | cons c rest ih =>
    have later : cutAt? separator (rest ++ separator ++ behind) = some (rest, behind) := by
      apply ih
      intro back ends
      exact first back (ends.trans (suffix_cons c rest))
    rw [cons_append, cons_append, cutAt?, if_neg, later]
    · rfl
    · exact first (c :: rest) (suffix_refl _) (by simp)

/-- A separator is found again if its first character does not stand before it. -/
theorem cutAt?_of_not_mem {c : Char} {rest : List Char} (absent : c ∉ before) :
    cutAt? (c :: rest) (before ++ c :: rest ++ behind) = some (before, behind) := by
  apply cutAt?_append (by simp)
  intro back ends nonempty begins
  cases back with
  | nil => exact nonempty rfl
  | cons d more =>
    rw [cons_append, cons_append, cons_prefix_cons] at begins
    rw [begins.1] at absent
    exact absent (ends.subset (by simp))

/-- A doubled character is found again if the text before it neither holds nor begins another
pair. -/
theorem cutAt?_pair {c : Char} (apart : ¬[c, c] <:+: before) (last : before.getLast? ≠ some c) :
    cutAt? [c, c] (before ++ [c, c] ++ behind) = some (before, behind) := by
  apply cutAt?_append (by simp)
  intro back ends nonempty begins
  rcases ends with ⟨front, rfl⟩
  cases back with
  | nil => exact nonempty rfl
  | cons d more =>
    rw [cons_append, cons_append, cons_prefix_cons] at begins
    rcases begins with ⟨rfl, begins⟩
    cases more with
    | nil => simp at last
    | cons e more =>
      rw [cons_append, cons_append, cons_prefix_cons] at begins
      rcases begins with ⟨rfl, -⟩
      exact apart ⟨front, more, by simp⟩

theorem eq_append_of_cutAt? (cut : cutAt? separator text = some (before, behind)) :
    text = before ++ separator ++ behind := by
  induction text generalizing before with
  | nil => cases cut
  | cons c rest ih =>
    rw [cutAt?] at cut
    split at cut
    · next begins =>
        rcases begins with ⟨more, text_eq⟩
        rw [← text_eq, drop_left] at cut
        cases cut
        exact text_eq.symm
    · rcases Option.map_eq_some_iff.mp cut with ⟨⟨shorter, other⟩, later, same⟩
      cases same
      rw [ih later]
      rfl

theorem cutAt?_eq_none {c : Char} {rest : List Char} (absent : c ∉ text) :
    cutAt? (c :: rest) text = none := by
  cases cut : cutAt? (c :: rest) text with
  | none => rfl
  | some parts =>
    rw [eq_append_of_cutAt? cut] at absent
    simp at absent

/-- No separator stands in what is before the first one. -/
theorem not_infix_of_cutAt? (nonempty : separator ≠ [])
    (cut : cutAt? separator text = some (before, behind)) : ¬separator <:+: before := by
  induction text generalizing before with
  | nil => cases cut
  | cons c rest ih =>
    rw [cutAt?] at cut
    split at cut
    · cases cut
      intro inside
      exact nonempty (List.infix_nil.mp inside)
    · next other =>
        rcases Option.map_eq_some_iff.mp cut with ⟨⟨shorter, behind⟩, later, same⟩
        cases same
        intro inside
        rcases List.infix_cons_iff.mp inside with begins | inside
        · apply other
          rw [eq_append_of_cutAt? later, List.append_assoc, ← cons_append]
          exact begins.trans (prefix_append _ _)
        · exact ih later inside

end Cuts

/-- A word without a character stands on one side of it. -/
theorem infix_append_cons_iff {word left right : List Char} {c : Char} (absent : c ∉ word) :
    word <:+: left ++ c :: right ↔ word <:+: left ∨ word <:+: right := by
  constructor
  · intro inside
    rcases List.infix_append_iff.mp inside with left_inside | inside | ⟨front, back, rfl, ends, begins⟩
    · exact .inl left_inside
    · rcases List.infix_cons_iff.mp inside with begins | right_inside
      · cases word with
        | nil => exact .inr List.nil_infix
        | cons d more =>
          rw [cons_prefix_cons] at begins
          exact absurd (by simp [begins.1]) absent
      · exact .inr right_inside
    · cases back with
      | nil =>
        rw [append_nil]
        exact .inl ends.isInfix
      | cons d more =>
        rw [cons_prefix_cons] at begins
        exact absurd (by simp [begins.1]) absent
  · rintro (inside | inside)
    · exact inside.trans (prefix_append _ _).isInfix
    · exact inside.trans ((suffix_cons c right).trans (suffix_append _ _)).isInfix

/-- The pieces of a text are parts of it in which the separator does not stand. -/
theorem piece_of_mem_splitOn {c : Char} {text piece : List Char} (listed : piece ∈ text.splitOn c) :
    c ∉ piece ∧ piece <:+: text := by
  by_cases present : c ∈ text
  · rcases eq_append_cons_of_mem present with ⟨first, rest, text_eq, absent⟩
    rw [text_eq, splitOn_append_cons_self_of_not_mem absent, mem_cons] at listed
    rw [text_eq]
    rcases listed with rfl | listed
    · exact ⟨absent, (prefix_append _ _).isInfix⟩
    · rcases piece_of_mem_splitOn listed with ⟨absent, inside⟩
      exact ⟨absent, (infix_append_cons_iff absent).mpr (.inr inside)⟩
  · rw [splitOn_eq_singleton present, mem_singleton] at listed
    rw [listed]
    exact ⟨present, infix_refl text⟩
termination_by text.length
decreasing_by
  rw [text_eq, length_append, length_cons]
  omega

/-- A text without an end of a line in it. -/
def IsUnbroken (text : List Char) : Prop :=
  ∀ c ∈ text, c ≠ '\n' ∧ c ≠ '\r'

instance (text : List Char) : Decidable (IsUnbroken text) := List.decidableBAll _ text

theorem isUnbroken_nil : IsUnbroken [] := forall_mem_nil _

theorem isUnbroken_append {left right : List Char} :
    IsUnbroken (left ++ right) ↔ IsUnbroken left ∧ IsUnbroken right := forall_mem_append

theorem isUnbroken_cons {c : Char} {rest : List Char} :
    IsUnbroken (c :: rest) ↔ (c ≠ '\n' ∧ c ≠ '\r') ∧ IsUnbroken rest := forall_mem_cons

/-- The number that digits stand for. -/
def number? (digits : List Char) : Option Nat :=
  if digits.isEmpty || !digits.all Char.isDigit then none
  else some (Nat.ofDigitChars 10 digits 0)

theorem isDigit_of_mem_toString {number : Nat} {c : Char} (written : c ∈ (toString number).toList) :
    c.isDigit = true := by
  rw [Nat.toString_eq_repr, Nat.toList_repr] at written
  exact Nat.isDigit_of_mem_toDigits (by decide) (by decide) written

theorem isUnbroken_toString (number : Nat) : IsUnbroken (toString number).toList := by
  intro c written
  have digit := isDigit_of_mem_toString written
  constructor <;> (rintro rfl; cases digit)

/-- A written number is read back. -/
theorem number?_toString (number : Nat) : number? (toString number).toList = some number := by
  have digits : (toString number).toList.all Char.isDigit = true := by
    rw [all_eq_true]
    intro c written
    exact isDigit_of_mem_toString written
  rw [number?, digits, Nat.toString_eq_repr, Nat.toList_repr, Nat.ofDigitChars_ten_toDigits]
  simp

end PhpStyle
