import Mathlib.Data.List.Induction
import PhpStyle.Proofs.Lexing

/-!
# What a lexeme sees of the text behind it

A lexeme ends where it does because of the characters after it, but no lexeme
outside doc comments looks further than three characters ahead. This file says
when the text behind a lexeme can be replaced by another one so that the lexeme
stays as it is: the new text shows nothing at its front that the old one did not
show, apart from a comma, which belongs to no lexeme but itself. Behind trivia
and the word `function` it may also show an ampersand, which belongs to operators
only. The relation is `NothingNew`.

Some lexemes also depend on what is there. Inline HTML ends before `<?` and a
line comment before `?>`, and the opener of a doc comment needs a space behind
it. Behind these the front of the text has to stay, which `SameFront` says.
-/

namespace PhpStyle

open List

/-- Apart from some marks the new text shows nothing at its front that the old one did not show. -/
structure NothingNew (marks old new : List Char) : Prop where
  shown : ∀ front : List Char, front.length ≤ 3 → (∀ c ∈ front, c ∉ marks) → front <+: new →
    front <+: old
  empty : old = [] → new = []

/-- What is not an operator takes in neither a comma nor an ampersand. -/
abbrev CanReplace : List Char → List Char → Prop :=
  NothingNew [',', '&']

/-- The kinds that stand before a declared name: `function` and trivia. -/
def Kind.isLead (kind : Kind) : Bool :=
  kind == .functionKw || kind.isTrivia

/-- The marks that no lexeme of a kind takes in. -/
def Kind.marks (kind : Kind) : List Char :=
  if kind.isLead then [',', '&'] else [',']

variable {taken : List Char}

theorem Kind.marks_subset (kind : Kind) : kind.marks ⊆ [',', '&'] := by
  rw [marks]
  split <;> simp

theorem Kind.comma_subset_marks (kind : Kind) : [','] ⊆ kind.marks := by
  rw [marks]
  split <;> simp

namespace Lexeme

/-- Whether the text is inside a doc comment. -/
def Mode.isDoc : Mode → Bool
  | .docComment _ _ => true
  | _ => false

/-- The characters that end PHP code, or the text outside it. -/
def Mode.sign : Mode → List Char
  | .html => ['<', '?']
  | _ => ['?', '>']

end Lexeme

open Lexeme (Mode)

/-- The new text begins with the sign if the old one did, and inside a doc comment as it did. -/
structure SameFront (mode after : Mode) (old new : List Char) : Prop where
  sign : mode.sign <+: old → mode.sign <+: new
  head? : after.isDoc = true → new.head? = old.head?

theorem prefix_append_cases {front rest : List Char} (begins : front <+: taken ++ rest) :
    front <+: taken ∨ ∃ more, front = taken ++ more ∧ more <+: rest := by
  rcases prefix_or_prefix_of_prefix begins (prefix_append taken rest) with
    within | ⟨more, rfl⟩
  · exact .inl within
  · exact .inr ⟨more, rfl, (prefix_append_right_inj taken).mp begins⟩

namespace NothingNew

variable {marks old new : List Char}

theorem mono {more : List Char} (subset : marks ⊆ more) (nothingNew : NothingNew marks old new) :
    NothingNew more old new where
  shown front short noMark :=
    nothingNew.shown front short fun c listed => mt (@subset c) (noMark c listed)
  empty := nothingNew.empty

theorem append (taken : List Char) (nothingNew : NothingNew marks old new) :
    NothingNew marks (taken ++ old) (taken ++ new) where
  shown front short noMark begins := by
    rcases prefix_append_cases begins with within | ⟨more, rfl, more_begins⟩
    · exact within.trans (prefix_append taken old)
    · rw [length_append] at short
      exact (prefix_append_right_inj taken).mpr (nothingNew.shown more (by omega)
        (fun c listed => noMark c (mem_append_right taken listed)) more_begins)
  empty := by
    simp only [append_eq_nil_iff]
    exact fun both => ⟨both.1, nothingNew.empty both.2⟩

/-- No more than three characters count. -/
theorem of_long (long : 3 ≤ taken.length) (old new : List Char) :
    NothingNew marks (taken ++ old) (taken ++ new) where
  shown front short _ begins :=
    (prefix_of_prefix_length_le begins (prefix_append taken new) (by omega)).trans
      (prefix_append taken old)
  empty := by
    cases taken with
    | nil => simp at long
    | cons c taken => simp

theorem insert {mark : Char} (listed : mark ∈ marks) (nonempty : old ≠ []) (new : List Char) :
    NothingNew marks old (mark :: new) where
  shown front _ noMark begins := by
    cases front with
    | nil => exact nil_prefix
    | cons c front =>
      rcases begins with ⟨more, split⟩
      simp only [cons_append, List.cons.injEq] at split
      exact absurd listed (split.1 ▸ noMark c mem_cons_self)
  empty old_nil := absurd old_nil nonempty

section

variable (nothingNew : NothingNew marks old new)

include nothingNew

theorem head? {c : Char} (head : new.head? = some c) (noMark : c ∉ marks) : old.head? = some c := by
  rcases List.head?_eq_some_iff.mp head with ⟨rest, rfl⟩
  rcases nothingNew.shown [c] (by simp) (by simpa using noMark) ⟨rest, rfl⟩ with ⟨more, rfl⟩
  rfl

theorem head?_any {test : Char → Bool} (noMark : marks.any test = false)
    (other : old.head?.any test = false) : new.head?.any test = false := by
  cases head : new.head? with
  | none => rfl
  | some c =>
    by_cases listed : c ∈ marks
    · simpa using List.any_eq_false.mp noMark c listed
    · rw [nothingNew.head? head listed] at other
      simpa using other

theorem head?_ne {c : Char} (noMark : c ∉ marks)
    (other : old.head? ≠ some c) : new.head? ≠ some c :=
  fun head => other (nothingNew.head? head noMark)

/-- What does not begin a text does not begin it after a replacement further on either. -/
theorem not_prefix {front : List Char} {c : Char}
    (short : front.length ≤ 3) (noMark : ∀ d ∈ front, d ∉ marks)
    (other : ¬front <+: c :: (taken ++ old)) : ¬front <+: c :: (taken ++ new) :=
  mt ((nothingNew.append (c :: taken)).shown front short noMark) other

end

end NothingNew

theorem not_mem_of_test {test : Char → Bool} {c : Char} {marks : List Char} (passes : test c = true)
    (noMark : marks.any test = false) : c ∉ marks :=
  fun listed => List.any_eq_false.mp noMark c listed passes

theorem head?_append_any {old : List Char} {test : Char → Bool} (new : List Char)
    (passes : (taken ++ old).head?.any test = true) (nonempty : taken ≠ []) :
    (taken ++ new).head?.any test = true := by
  cases taken with
  | nil => exact absurd rfl nonempty
  | cons c taken => simpa using passes

theorem head?_isNameChar {text : List Char} (named : text.head?.any Text.isNameStart = true) :
    text.head?.any Text.isNameChar = true := by
  cases text with
  | nil => simp at named
  | cons c rest => simpa using Text.isNameChar_of_isNameStart (by simpa using named)

theorem cons_eq_append {c : Char} {rest old : List Char} (split : c :: rest = taken ++ old)
    (nonempty : 0 < taken.length) : ∃ inner, taken = c :: inner ∧ rest = inner ++ old := by
  cases taken with
  | nil => simp at nonempty
  | cons d inner =>
    simp only [cons_append, List.cons.injEq] at split
    exact ⟨inner, by rw [split.1], split.2⟩

namespace Scan

open Text

variable {taken old new : List Char}

variable {belongs : Char → Bool} {text : List Char} {decimal : Bool}

theorem takeWhile_append_eq :
    (taken ++ old).takeWhile belongs = taken ↔
      (∀ c ∈ taken, belongs c = true) ∧ old.head?.any belongs = false := by
  induction taken with
  | nil =>
    cases old with
    | nil => simp
    | cons c rest => cases holds : belongs c <;> simp [holds]
  | cons c taken ih => cases holds : belongs c <;> simp [holds, ih]

theorem run_append_eq :
    run belongs (taken ++ old) = taken.length ↔
      (∀ c ∈ taken, belongs c = true) ∧ old.head?.any belongs = false := by
  rw [← takeWhile_append_eq, run]
  constructor
  · intro length
    have whole := List.prefix_iff_eq_take.mp (List.takeWhile_prefix (l := taken ++ old) belongs)
    rwa [length, take_left] at whole
  · exact congrArg List.length

theorem takeWhile_replace (reaches : (taken ++ old).takeWhile belongs = taken)
    (noMark : [',', '&'].any belongs = false) (canReplace : CanReplace old new) :
    (taken ++ new).takeWhile belongs = taken := by
  rw [takeWhile_append_eq] at reaches ⊢
  exact ⟨reaches.1, canReplace.head?_any noMark reaches.2⟩

theorem run_replace (reaches : run belongs (taken ++ old) = taken.length)
    (noMark : [',', '&'].any belongs = false) (canReplace : CanReplace old new) :
    run belongs (taken ++ new) = taken.length := by
  rw [run_append_eq] at reaches ⊢
  exact ⟨reaches.1, canReplace.head?_any noMark reaches.2⟩

theorem spacing_eq_zero :
    spacing text = 0 ↔ text.head?.any (fun c => c == '\n' || isBlank c) = false := by
  cases text with
  | nil => simp [spacing]
  | cons c rest =>
    simp only [spacing, head?_cons, Option.any_some, Bool.or_eq_false_iff, beq_eq_false_iff_ne]
    by_cases newline : c = '\n'
    · simp [newline]
    · cases blank : isBlank c <;> simp [newline]

/-- Whitespace reaches as far before any text that does not go on with it. -/
theorem spacing_congr (reaches : spacing (taken ++ old) = taken.length)
    (stops : spacing old = 0 → spacing new = 0) : spacing (taken ++ new) = taken.length := by
  induction taken with
  | nil => exact stops reaches
  | cons c taken ih =>
    simp only [cons_append, spacing, length_cons] at reaches ⊢
    by_cases newline : c = '\n'
    · rw [if_pos newline] at reaches ⊢
      exact reaches
    · rw [if_neg newline] at reaches ⊢
      cases blank : isBlank c with
      | false => simp [blank] at reaches
      | true =>
        simp only [blank, if_true, Nat.add_right_cancel_iff] at reaches ⊢
        exact ih reaches

theorem spacing_replace (reaches : spacing (taken ++ old) = taken.length)
    (canReplace : CanReplace old new) : spacing (taken ++ new) = taken.length := by
  apply spacing_congr reaches
  rw [spacing_eq_zero, spacing_eq_zero]
  exact canReplace.head?_any (by decide)

theorem before_replace {sign : List Char} (reaches : before sign (taken ++ old) = taken.length)
    (short : sign.length ≤ 3) (noMark : ∀ c ∈ sign, c ∉ [',', '&']) (canReplace : CanReplace old new)
    (stays : sign <+: old → sign <+: new) : before sign (taken ++ new) = taken.length := by
  induction taken with
  | nil =>
    cases old with
    | nil => simp [canReplace.empty rfl, before]
    | cons c rest =>
      have begins : sign <+: c :: rest := by
        by_contra other
        simp [before, other] at reaches
      cases new with
      | nil => simp [before]
      | cons d rest => simp [before, stays begins]
  | cons c taken ih =>
    simp only [cons_append, before, length_cons] at reaches ⊢
    by_cases begins : sign <+: c :: (taken ++ old)
    · simp [begins] at reaches
    · have other := canReplace.not_prefix short noMark begins
      rw [if_neg begins, Nat.add_right_cancel_iff] at reaches
      rw [if_neg other, ih reaches]

theorem lineComment_replace (reaches : lineComment (taken ++ old) = taken.length)
    (canReplace : CanReplace old new) (stays : ['?', '>'] <+: old → ['?', '>'] <+: new) :
    lineComment (taken ++ new) = taken.length := by
  induction taken with
  | nil =>
    cases old with
    | nil => simp [canReplace.empty rfl, lineComment]
    | cons c rest =>
      have closes : ['?', '>'] <+: c :: rest := by
        by_contra other
        simp only [nil_append, lineComment, if_neg other, length_nil] at reaches
        split at reaches <;> omega
      cases new with
      | nil => simp [lineComment]
      | cons d rest => simp only [nil_append, lineComment, if_pos (stays closes), length_nil]
  | cons c taken ih =>
    simp only [cons_append, lineComment, length_cons] at reaches ⊢
    by_cases closes : ['?', '>'] <+: c :: (taken ++ old)
    · rw [if_pos closes] at reaches
      omega
    · have other := canReplace.not_prefix (by simp) (by simp) closes
      rw [if_neg closes] at reaches
      rw [if_neg other]
      by_cases newline : c = '\n'
      · rw [if_pos newline] at reaches ⊢
        exact reaches
      · rw [if_neg newline, Nat.add_right_cancel_iff] at reaches
        rw [if_neg newline, ih reaches]

theorem blockComment_pos (c : Char) (rest : List Char) : 0 < (blockComment (c :: rest)).1 := by
  simp only [blockComment]
  split
  · simp
  · split <;> simp

theorem blockComment_replace {closed : Bool}
    (reaches : blockComment (taken ++ old) = (taken.length, closed))
    (canReplace : CanReplace old new) : blockComment (taken ++ new) = (taken.length, closed) := by
  induction taken with
  | nil =>
    cases old with
    | nil => simpa [canReplace.empty rfl] using reaches
    | cons c rest =>
      have := blockComment_pos c rest
      simp only [nil_append, length_nil] at reaches
      simp [reaches] at this
  | cons c taken ih =>
    simp only [cons_append, blockComment, length_cons] at reaches ⊢
    by_cases closes : ['*', '/'] <+: c :: (taken ++ old)
    · rw [if_pos closes, Prod.mk.injEq] at reaches
      obtain ⟨d, rfl⟩ := List.length_eq_one_iff.mp (show taken.length = 1 by omega)
      have still : ['*', '/'] <+: c :: ([d] ++ new) := by simpa using closes
      rw [if_pos still]
      simp [reaches.2]
    · have other := canReplace.not_prefix (by simp) (by simp) closes
      rw [if_neg closes] at reaches
      rw [if_neg other]
      by_cases newline : c = '\n'
      · rw [if_pos newline] at reaches ⊢
        exact reaches
      · rw [if_neg newline] at reaches ⊢
        simp only [Prod.mk.injEq, Nat.add_right_cancel_iff] at reaches ⊢
        have := ih (Prod.ext reaches.1 reaches.2)
        simp [this]

theorem quoted_pos (quote c : Char) (rest : List Char) : 0 < quoted quote (c :: rest) := by
  cases rest with
  | nil => simp [quoted]
  | cons hidden rest =>
    simp only [quoted]
    split
    · omega
    · split <;> omega

theorem quoted_replace {quote : Char} (reaches : quoted quote (taken ++ old) = taken.length)
    (canReplace : CanReplace old new) : quoted quote (taken ++ new) = taken.length := by
  induction taken using List.twoStepInduction with
  | nil =>
    cases old with
    | nil => simp [canReplace.empty rfl, quoted]
    | cons c rest =>
      have := quoted_pos quote c rest
      simp only [nil_append, length_nil] at reaches
      omega
  | singleton c =>
    cases old with
    | nil => simp [canReplace.empty rfl, quoted]
    | cons hidden rest =>
      have rest_pos := quoted_pos quote hidden rest
      simp only [cons_append, nil_append, quoted, length_cons, length_nil] at reaches
      split at reaches
      · omega
      · next escape =>
          split at reaches
          · next ends =>
              cases new with
              | nil => simp [quoted]
              | cons hidden rest => simp only [cons_append, nil_append, quoted,
                  if_neg escape, if_pos ends, length_cons, length_nil]
          · omega
  | cons_cons c hidden taken ih ih_tail =>
    simp only [cons_append, quoted, length_cons] at reaches ih_tail ⊢
    by_cases escape : c = '\\'
    · rw [if_pos escape] at reaches ⊢
      rw [ih (by omega)]
    · rw [if_neg escape] at reaches ⊢
      by_cases ends : c = quote
      · rw [if_pos ends] at reaches ⊢
        exact reaches
      · rw [if_neg ends] at reaches ⊢
        rw [ih_tail hidden (by simpa using reaches)]

/-- Characters that may continue a number. -/
def continuesNumber (decimal : Bool) (c : Char) : Bool :=
  c.isAlphanum || c == '_' || (c == '.' && !decimal)

theorem number_of_not_continues (other : text.head?.any (continuesNumber decimal) = false) :
    number decimal text = (0, decimal) := by
  cases text with
  | nil => rfl
  | cons c rest =>
    simp only [head?_cons, Option.any_some, continuesNumber] at other
    simp [number, other]

theorem not_continues_of_number (stops : (number decimal text).1 = 0) :
    text.head?.any (continuesNumber decimal) = false := by
  cases text with
  | nil => rfl
  | cons c rest =>
    simp only [number] at stops
    simp only [head?_cons, Option.any_some, continuesNumber]
    split at stops
    · omega
    · next other => simpa using other

theorem number_replace {pointed : Bool}
    (reaches : number decimal (taken ++ old) = (taken.length, pointed))
    (canReplace : CanReplace old new) :
    number decimal (taken ++ new) = (taken.length, pointed) := by
  induction taken generalizing decimal with
  | nil =>
    have other := not_continues_of_number (congrArg Prod.fst reaches)
    rw [← reaches, number_of_not_continues other]
    exact number_of_not_continues (canReplace.head?_any (by cases decimal <;> decide) other)
  | cons c taken ih =>
    simp only [cons_append, number, length_cons] at reaches ⊢
    split at reaches
    · next belongs =>
        simp only [Prod.mk.injEq, Nat.add_right_cancel_iff] at reaches
        rw [if_pos belongs, ih (Prod.ext reaches.1 reaches.2)]
    · simp at reaches

/-- A name goes on with a name character, or with a backslash before one that begins a name. -/
theorem name_eq_zero :
    name text = 0 ↔ text.head?.any isNameChar = false ∧
      ∀ c, isNameStart c = true → ¬['\\', c] <+: text := by
  cases text with
  | nil => simp [name]
  | cons c rest =>
    simp only [name, head?_cons, Option.any_some]
    cases holds : isNameChar c with
    | true => simp
    | false =>
      cases rest with
      | nil => simp
      | cons d rest =>
        by_cases joins : c = '\\' ∧ isNameStart d = true
        · simp [joins]
        · have apart (e : Char) (starts : isNameStart e = true) :
              ¬['\\', e] <+: c :: d :: rest := by
            rintro ⟨more, split⟩
            simp only [cons_append, List.cons.injEq] at split
            exact joins ⟨split.1.symm, split.2.1 ▸ starts⟩
          simpa [joins] using apart

/-- A name reaches as far before any text that does not go on with it. -/
theorem name_congr (reaches : name (taken ++ old) = taken.length)
    (stops : name old = 0 → name new = 0) : name (taken ++ new) = taken.length := by
  induction taken with
  | nil => exact stops reaches
  | cons c taken ih =>
    simp only [cons_append, name, length_cons] at reaches ⊢
    split at reaches
    · next belongs => rw [if_pos belongs, ih (by omega)]
    · next other =>
        split at reaches
        · next joins =>
            have nonempty : taken ≠ [] := by
              rintro rfl
              have notName := (name_eq_zero.mp (by simpa using reaches)).1
              simpa [notName] using head?_isNameChar joins.2
            have still := head?_append_any new joins.2 nonempty
            rw [if_neg other, if_pos ⟨joins.1, still⟩, ih (by omega)]
        · omega

theorem name_replace (reaches : name (taken ++ old) = taken.length)
    (canReplace : CanReplace old new) : name (taken ++ new) = taken.length := by
  apply name_congr reaches
  rw [name_eq_zero, name_eq_zero]
  rintro ⟨notName, notJoined⟩
  refine ⟨canReplace.head?_any (by decide) notName, fun c starts begins => ?_⟩
  have noMark := not_mem_of_test starts (show [',', '&'].any isNameStart = false by decide)
  exact notJoined c starts (canReplace.shown _ (by simp) (by simpa using noMark) begins)

theorem heredocBody_pos {label : List Char} (named : label ≠ []) (lineStart : Bool) (c : Char)
    (rest : List Char) : 0 < heredocBody label lineStart (c :: rest) := by
  have := List.length_pos_iff.mpr named
  simp only [heredocBody]
  split <;> omega

theorem isIndent_eq_false_of_isNameChar {c : Char} (named : isNameChar c = true) :
    isIndent c = false := by
  by_contra indent
  simp only [isIndent, Bool.or_eq_true, beq_iff_eq, Bool.not_eq_false] at indent
  rcases indent with rfl | rfl <;> simp [isNameChar] at named

section Heredoc

/-! A label is a word: name characters, and at least one of them. -/

variable {label : List Char} (named : label ≠ []) (word : ∀ c ∈ label, isNameChar c = true)
include named word

theorem head?_label_append (rest : List Char) : (label ++ rest).head?.any isIndent = false := by
  cases label with
  | nil => exact absurd rfl named
  | cons c label => simpa using isIndent_eq_false_of_isNameChar (word c (by simp))

theorem run_indent_label {indent : List Char} (blank : ∀ c ∈ indent, isIndent c = true)
    (rest : List Char) : run isIndent (indent ++ (label ++ rest)) = indent.length :=
  run_append_eq.mpr ⟨blank, head?_label_append named word rest⟩

/-- The last line of a heredoc is its label, which blanks may indent and no name may continue. -/
theorem endsHeredoc_iff {line : List Char} :
    endsHeredoc label line = true ↔
      ∃ indent rest, line = indent ++ (label ++ rest) ∧ (∀ c ∈ indent, isIndent c = true) ∧
        rest.head?.any isNameChar = false := by
  simp only [endsHeredoc, Bool.and_eq_true, isPrefixOf_iff_prefix, Bool.not_eq_true']
  constructor
  · rintro ⟨⟨rest, split⟩, stops⟩
    refine ⟨line.takeWhile isIndent, rest, ?_, List.all_eq_true.mp all_takeWhile, ?_⟩
    · rw [split, takeWhile_append_dropWhile]
    · rwa [← split, drop_left] at stops
  · rintro ⟨indent, rest, rfl, blank, stops⟩
    have text : (indent ++ (label ++ rest)).dropWhile isIndent = label ++ rest := by
      rw [dropWhile_append_of_pos blank]
      cases split : label ++ rest with
      | nil => simp
      | cons c text =>
        have stays := head?_label_append named word rest
        simp only [split, head?_cons, Option.any_some] at stays
        simp [stays]
    rw [text, drop_left]
    exact ⟨prefix_append label rest, stops⟩

/-- Where its label ends a heredoc, what is taken is the indent and the label. -/
theorem split_of_endsHeredoc (ends : endsHeredoc label (taken ++ old) = true)
    (reaches : run isIndent (taken ++ old) + label.length = taken.length) :
    ∃ indent, taken = indent ++ label ∧ (∀ c ∈ indent, isIndent c = true) ∧
      old.head?.any isNameChar = false := by
  rcases (endsHeredoc_iff named word).mp ends with ⟨indent, rest, split, blank, stops⟩
  have lengths : taken.length = (indent ++ label).length := by
    rw [split, run_indent_label named word blank] at reaches
    rw [length_append]
    omega
  rw [← List.append_assoc] at split
  rcases append_inj split lengths with ⟨rfl, rfl⟩
  exact ⟨indent, rfl, blank, stops⟩

/-- A heredoc that something follows ends with its label, and so with a name character. -/
theorem heredocBody_end {lineStart : Bool}
    (reaches : heredocBody label lineStart (taken ++ old) = taken.length) (more : old ≠ [])
    (nonempty : taken ≠ []) :
    (∃ last ∈ taken.getLast?, isNameChar last = true) ∧ old.head?.any isNameChar = false := by
  induction taken generalizing lineStart with
  | nil => exact absurd rfl nonempty
  | cons c taken ih =>
    simp only [cons_append, heredocBody, length_cons] at reaches
    split at reaches
    · next ends =>
        simp only [Bool.and_eq_true, ← cons_append] at ends
        rcases split_of_endsHeredoc named word ends.2 reaches with ⟨indent, split, -, stops⟩
        refine ⟨?_, stops⟩
        rw [split, getLast?_append_of_ne_nil _ named, getLast?_eq_some_getLast named]
        exact ⟨label.getLast named, rfl, word _ (getLast_mem named)⟩
    · have reaches := Nat.add_right_cancel reaches
      have inner : taken ≠ [] := by
        rintro rfl
        rcases exists_cons_of_ne_nil more with ⟨d, rest, rfl⟩
        have := heredocBody_pos named (c == '\n') d rest
        simp only [nil_append, length_nil] at reaches
        omega
      rcases ih reaches inner with ⟨last, stops⟩
      rw [getLast?_cons_of_ne_nil inner]
      exact ⟨last, stops⟩

/-- A text that ends with a name character, and that no name character follows, holds the last
line of a heredoc whatever else follows it. -/
theorem endsHeredoc_of_replace (ends : endsHeredoc label (taken ++ new) = true)
    (last : ∃ last ∈ taken.getLast?, isNameChar last = true)
    (stops : old.head?.any isNameChar = false) (new_stops : new.head?.any isNameChar = false) :
    endsHeredoc label (taken ++ old) = true := by
  rcases (endsHeredoc_iff named word).mp ends with ⟨indent, rest, split, blank, rest_stops⟩
  rcases last with ⟨last, last_mem, last_named⟩
  rcases List.append_eq_append_iff.mp split with ⟨middle, rfl, -⟩ | ⟨middle, rfl, outer⟩
  · have := blank last (by simp [mem_of_getLast? last_mem])
    simp [isIndent_eq_false_of_isNameChar last_named] at this
  rcases List.append_eq_append_iff.mp outer with ⟨more, rfl, rfl⟩ | ⟨more, rfl, rfl⟩
  · refine (endsHeredoc_iff named word).mpr ⟨indent, more ++ old, by simp, blank, ?_⟩
    cases more with
    | nil => exact stops
    | cons c more => simpa using rest_stops
  · cases more with
    | nil =>
      rw [append_nil] at named word ⊢
      exact (endsHeredoc_iff named word).mpr
        ⟨indent, old, List.append_assoc indent middle old, blank, stops⟩
    | cons c more =>
      have := word c (by simp)
      simp [this] at new_stops

theorem heredocBody_replace {lineStart : Bool}
    (reaches : heredocBody label lineStart (taken ++ old) = taken.length)
    (canReplace : CanReplace old new) :
    heredocBody label lineStart (taken ++ new) = taken.length := by
  cases old with
  | nil => rwa [canReplace.empty rfl]
  | cons d rest =>
    induction taken generalizing lineStart with
    | nil =>
      have := heredocBody_pos named lineStart d rest
      simp only [nil_append, length_nil] at reaches
      omega
    | cons c taken ih =>
      rcases heredocBody_end named word reaches (by simp) (by simp) with ⟨last, stops⟩
      have new_stops := canReplace.head?_any (by decide) stops
      simp only [cons_append, heredocBody, length_cons] at reaches ⊢
      split at reaches
      · next ends =>
          simp only [Bool.and_eq_true, ← cons_append] at ends
          rcases split_of_endsHeredoc named word ends.2 reaches with ⟨indent, split, blank, -⟩
          have still := endsHeredoc_of_replace named word ends.2 last new_stops stops
          simp only [← cons_append, ends.1, still, Bool.and_self, if_true]
          rw [split, List.append_assoc, run_indent_label named word blank,
            ← length_append, ← split, length_cons]
      · next goesOn =>
          have other : ¬(lineStart && endsHeredoc label (c :: (taken ++ new))) = true := by
            intro ends
            simp only [Bool.and_eq_true, ← cons_append] at ends goesOn
            exact goesOn ⟨ends.1, endsHeredoc_of_replace named word ends.2 last stops new_stops⟩
          rw [if_neg other, ih (Nat.add_right_cancel reaches)]

end Heredoc

/-- The blanks and the quote before the label of a heredoc do not depend on more than the
character behind them. -/
theorem heredocIntro_replace (reaches : heredocIntro (taken ++ old) = taken.length)
    (canReplace : CanReplace old new) : heredocIntro (taken ++ new) = taken.length := by
  simp only [heredocIntro] at reaches ⊢
  split at reaches
  · next quoted =>
      obtain rfl | ⟨blanks, quote, rfl⟩ := eq_nil_or_concat' taken
      · simp at reaches
      · simp only [List.append_assoc, cons_append, nil_append, length_append,
          length_cons, length_nil, Nat.add_right_cancel_iff] at reaches quoted ⊢
        have blank := run_append_eq.mp reaches
        have still : run isIndent (blanks ++ quote :: new) = blanks.length :=
          run_append_eq.mpr ⟨blank.1, by simpa using blank.2⟩
        simp only [reaches, drop_left, head?_cons] at quoted
        simp only [still, drop_left, head?_cons, if_pos quoted]
  · next other =>
      have still := run_replace reaches (by decide) canReplace
      simp only [reaches, drop_left, not_or] at other
      have single := canReplace.head?_ne (by decide) other.1
      have double := canReplace.head?_ne (by decide) other.2
      simp only [still, drop_left, single, double, or_self, if_false]

end Scan

namespace Lexeme

open Text

variable {taken old new : List Char}

variable {rest : List Char} {c : Char} {found : Step}

/-- After `<<<` come the blanks and the quote, the label and the rest. -/
theorem heredoc_split (text : List Char) :
    ∃ opening label rest, text = opening ++ (label ++ rest) ∧
      Scan.heredocIntro (opening ++ (label ++ rest)) = opening.length ∧
      (label ++ rest).takeWhile isNameChar = label := by
  refine ⟨text.take (Scan.heredocIntro text),
    (text.drop (Scan.heredocIntro text)).takeWhile isNameChar,
    (text.drop (Scan.heredocIntro text)).dropWhile isNameChar, ?_⟩
  rw [takeWhile_append_dropWhile, take_append_drop, length_take_of_le (Scan.heredocIntro_le text)]
  exact ⟨rfl, rfl, rfl⟩

theorem heredocStep_append {opening label : List Char}
    (length : Scan.heredocIntro (opening ++ (label ++ rest)) = opening.length)
    (word : (label ++ rest).takeWhile isNameChar = label) :
    heredocStep (opening ++ (label ++ rest)) =
      if label.isEmpty then ⟨.operator, 2 + opening.length, .php⟩
      else ⟨.heredoc, 2 + (opening.length + label.length) + Scan.heredocBody label false rest,
        .php⟩ := by
  have lines : (opening ++ (label ++ rest)).drop (opening.length + label.length) = rest := by
    rw [← List.append_assoc, ← length_append, drop_left]
  simp only [heredocStep, length, drop_left, word, lines]

theorem heredocStep_replace (whole : (heredocStep (taken ++ old)).tail = 2 + taken.length)
    (canReplace : CanReplace old new) :
    heredocStep (taken ++ new) = heredocStep (taken ++ old) := by
  rcases heredoc_split (taken ++ old) with ⟨opening, label, rest, split, length, word⟩
  have step_eq := heredocStep_append length word
  have parts_le : (opening ++ label).length ≤ taken.length := by
    rw [split, step_eq] at whole
    rw [length_append]
    split at whole
    · next empty =>
        simp only [isEmpty_iff_length_eq_zero] at empty
        simp only at whole
        omega
    · simp only at whole
      omega
  rw [← List.append_assoc] at split
  obtain ⟨body, rfl, rfl⟩ : ∃ body, taken = opening ++ label ++ body ∧ rest = body ++ old := by
    rcases List.append_eq_append_iff.mp split with ⟨more, outer, rfl⟩ | inner
    · have := congrArg List.length outer
      simp only [length_append] at this parts_le
      obtain rfl := List.length_eq_zero_iff.mp (show more.length = 0 by omega)
      exact ⟨[], by simpa using outer.symm, rfl⟩
    · exact inner
  simp only [List.append_assoc] at whole ⊢
  have new_length := Scan.heredocIntro_replace length ((canReplace.append body).append label)
  have new_word := Scan.takeWhile_replace word (by decide) (canReplace.append body)
  rw [heredocStep_append new_length new_word, step_eq]
  rw [step_eq] at whole
  cases label with
  | nil => rfl
  | cons c label =>
    simp only [isEmpty_cons, Bool.false_eq_true, if_false, length_append, length_cons] at whole ⊢
    have named := (Scan.takeWhile_append_eq.mp word).1
    have reaches : Scan.heredocBody (c :: label) false (body ++ old) = body.length := by omega
    rw [reaches, Scan.heredocBody_replace (by simp) named reaches canReplace]

theorem two_le_heredocStep_tail (rest : List Char) : 2 ≤ (heredocStep rest).tail := by
  simp only [heredocStep]
  split <;> simp only <;> omega

theorem operators_spec : ∀ entry ∈ Kind.operators,
    entry.1 ≠ [] ∧ entry.1.length ≤ 3 ∧ (',' ∈ entry.1 → entry.1 = [',']) := by
  decide

theorem operatorStep_replace (whole : (operatorStep c (taken ++ old)).tail = taken.length)
    (nothingNew : NothingNew [','] old new) :
    operatorStep c (taken ++ new) = operatorStep c (taken ++ old) := by
  have fewer : ∀ entry ∈ Kind.operators, entry.1 <+: c :: (taken ++ new) →
      entry.1 <+: c :: (taken ++ old) := by
    intro entry listed begins
    rcases operators_spec entry listed with ⟨-, short, comma⟩
    by_cases listed : ',' ∈ entry.1
    · rw [comma listed] at begins ⊢
      simpa using begins
    · refine (nothingNew.append (c :: taken)).shown _ short (fun d inside => ?_) begins
      rw [mem_singleton]
      rintro rfl
      exact listed inside
  have same : (Kind.operators.find? fun entry => entry.1.isPrefixOf (c :: (taken ++ new))) =
      Kind.operators.find? fun entry => entry.1.isPrefixOf (c :: (taken ++ old)) := by
    unfold operatorStep at whole
    cases found : Kind.operators.find? fun entry => entry.1.isPrefixOf (c :: (taken ++ old)) with
    | none =>
      simp only [find?_eq_none, isPrefixOf_iff_prefix] at found ⊢
      exact fun entry listed begins => found entry listed (fewer entry listed begins)
    | some entry =>
      rw [found] at whole
      have listed := mem_of_find?_eq_some found
      rw [find?_eq_some_iff_append] at found ⊢
      rcases found with ⟨begins, earlier, later, split, others⟩
      rw [List.isPrefixOf_iff_prefix] at begins
      have length : entry.1.length = (c :: taken).length := by
        have := List.length_pos_iff.mpr (operators_spec entry listed).1
        simp only [length_cons] at whole ⊢
        omega
      have entry_eq : entry.1 = c :: taken := by
        have := List.prefix_iff_eq_take.mp begins
        rwa [length, ← cons_append, take_left] at this
      refine ⟨?_, earlier, later, split, fun other before => ?_⟩
      · rw [List.isPrefixOf_iff_prefix, entry_eq, ← cons_append]
        exact prefix_append _ _
      · have other_listed : other ∈ Kind.operators := by simp [split, before]
        have fails := others other before
        simp only [Bool.not_eq_true', ← Bool.not_eq_true, isPrefixOf_iff_prefix] at fails ⊢
        exact mt (fewer other other_listed) fails
  simp only [operatorStep, same]

/-- What holds of the kinds of operators holds of every operator. -/
theorem operatorStep_satisfies (holds : Kind → Prop)
    (listed : ∀ entry ∈ Kind.operators, holds entry.2) (other : holds .operator) (c : Char)
    (rest : List Char) : holds (operatorStep c rest).kind := by
  unfold operatorStep
  split
  · next text kind found => exact listed _ (mem_of_find?_eq_some found)
  · exact other

theorem HtmlStep.isDoc (begins : HtmlStep c rest found) : found.mode.isDoc = false := by
  cases begins <;> rfl

theorem isLead_operatorStep (c : Char) (rest : List Char) :
    (operatorStep c rest).kind.isLead = false :=
  operatorStep_satisfies (fun kind => kind.isLead = false) (by decide) rfl c rest

theorem operatorStep_mode (c : Char) (rest : List Char) : (operatorStep c rest).mode = .php := by
  unfold operatorStep
  split <;> rfl

theorem heredocStep_mode (rest : List Char) : (heredocStep rest).mode = .php := by
  simp only [heredocStep]
  split <;> rfl

theorem commentStep_mode (seen : Nat) (text : List Char) : (commentStep seen text).mode =
    if (Scan.blockComment text).2 then .php else .blockComment :=
  rfl

theorem commentStep_isDoc (seen : Nat) (text : List Char) :
    (commentStep seen text).mode.isDoc = false := by
  rw [commentStep_mode]
  split <;> rfl

theorem commentStep_replace {seen : Nat}
    (reaches : (Scan.blockComment (taken ++ old)).1 = taken.length)
    (canReplace : CanReplace old new) :
    commentStep seen (taken ++ new) = commentStep seen (taken ++ old) := by
  have still := Scan.blockComment_replace (Prod.ext reaches rfl) canReplace
  simp only [commentStep, still, reaches]

theorem BeginsOperator.replace (begins : BeginsOperator c (taken ++ old))
    (canReplace : CanReplace old new) : BeginsOperator c (taken ++ new) := by
  have behind := canReplace.append taken
  exact
    { not_space := begins.not_space
      not_hash := begins.not_hash
      not_comment := fun slash =>
        ⟨behind.head?_ne (by decide) (begins.not_comment slash).1,
          behind.head?_ne (by decide) (begins.not_comment slash).2⟩
      not_variable := fun dollar => behind.head?_any (by decide) (begins.not_variable dollar)
      not_quote := begins.not_quote
      not_heredoc := canReplace.not_prefix (by simp) (by simp) begins.not_heredoc
      not_close := fun question => behind.head?_ne (by decide) (begins.not_close question)
      not_number := ⟨begins.not_number.1,
        fun point => behind.head?_any (by decide) (begins.not_number.2 point)⟩
      not_name := ⟨begins.not_name.1,
        fun backslash => behind.head?_any (by decide) (begins.not_name.2 backslash)⟩ }

theorem take_append_replace {count : Nat} (inside : count ≤ taken.length) (old new : List Char) :
    (taken ++ new).take count = (taken ++ old).take count := by
  rw [take_append_of_le_length inside, take_append_of_le_length inside]

theorem HtmlStep.replace (begins : HtmlStep c rest found) (split : rest = taken ++ old)
    (whole : found.tail = taken.length) (canReplace : CanReplace old new)
    (sign : found.kind = .inlineHtml → ['<', '?'] <+: old → ['<', '?'] <+: new) :
    htmlStep c (taken ++ new) = found := by
  cases begins with
  | @longTag rest long =>
    obtain ⟨taken, rfl, rfl⟩ := cons_eq_append split (by simp [← whole])
    have same := take_append_replace (show 4 ≤ ('?' :: taken).length by simp [← whole]) old new
    have long :
        equalsIgnoringCase (('?' :: (taken ++ new)).take 4) ['?', 'p', 'h', 'p'] = true := by
      rw [← cons_append, same]
      exact long
    exact (HtmlStep.longTag long).eq_htmlStep
  | @echoTag rest =>
    obtain ⟨taken, rfl, inner⟩ := cons_eq_append split (by simp [← whole])
    obtain ⟨taken, rfl, rfl⟩ := cons_eq_append inner (by simp at whole; omega)
    obtain rfl := List.length_eq_zero_iff.mp (show taken.length = 0 by simpa using whole)
    exact HtmlStep.echoTag.eq_htmlStep
  | @shortTag rest notLong notEcho =>
    obtain ⟨taken, rfl, rfl⟩ := cons_eq_append split (by simp [← whole])
    obtain rfl := List.length_eq_zero_iff.mp (show taken.length = 0 by simpa using whole)
    refine (HtmlStep.shortTag ?_ (canReplace.head?_ne (by decide) notEcho)).eq_htmlStep
    by_contra long
    have word : (new.take 3).map Char.toLower = ['p', 'h', 'p'] := by
      simpa [equalsIgnoringCase] using long
    have length : (new.take 3).length = 3 := by simpa using congrArg List.length word
    have noMark : ∀ c ∈ new.take 3, c ∉ [',', '&'] := by
      intro c listed mark
      have lower := mem_map_of_mem (f := Char.toLower) listed
      rw [word] at lower
      simp only [mem_cons, not_mem_nil, or_false] at mark
      rcases mark with rfl | rfl <;> revert lower <;> decide
    have shown := canReplace.shown _ (Nat.le_of_eq length) noMark (List.take_prefix 3 new)
    rw [prefix_iff_eq_take, length] at shown
    simp [equalsIgnoringCase, ← shown, word] at notLong
  | html notOpen =>
    subst split
    have still := Scan.before_replace whole (by simp) (by simp) canReplace (sign rfl)
    have notOpen := canReplace.not_prefix (by simp) (by simp) notOpen
    rw [(HtmlStep.html notOpen).eq_htmlStep, still, ← whole]

theorem opensDoc_iff :
    rest.head? = some '*' ∧ (rest.drop 1).head?.any isUnicodeSpace = true ↔
      ∃ space, isUnicodeSpace space = true ∧ ['*', space] <+: rest := by
  constructor
  · rintro ⟨star, behind⟩
    obtain ⟨rest, rfl⟩ := List.head?_eq_some_iff.mp star
    cases rest with
    | nil => simp at behind
    | cons space rest => exact ⟨space, by simpa using behind, by simp⟩
  · rintro ⟨space, behind, rest, rfl⟩
    simpa using behind

theorem not_opensDoc_replace (follows : CanReplace old new)
    (other : ¬((taken ++ old).head? = some '*' ∧
      ((taken ++ old).drop 1).head?.any isUnicodeSpace = true)) :
    ¬((taken ++ new).head? = some '*' ∧
      ((taken ++ new).drop 1).head?.any isUnicodeSpace = true) := by
  rw [opensDoc_iff] at other ⊢
  rintro ⟨space, behind, begins⟩
  have noMark := not_mem_of_test behind (show [',', '&'].any isUnicodeSpace = false by decide)
  exact other ⟨space, behind, (follows.append taken).shown _ (by simp) (by simpa using noMark)
    begins⟩

/-- A newline right behind a closing tag belongs to it, so it is not replaced. -/
theorem newline_replace (follows : CanReplace old new)
    (whole : (if (taken ++ old).head? = some '\n' then 2 else 1) = taken.length + 1) :
    (taken ++ new).head? = some '\n' ↔ (taken ++ old).head? = some '\n' := by
  cases taken with
  | nil =>
    simp only [nil_append, length_nil] at whole ⊢
    have other : old.head? ≠ some '\n' := by
      intro newline
      simp [newline] at whole
    simp [other, follows.head?_ne (by decide) other]
  | cons d taken => simp

theorem numeric_replace
    (numeric : c.isDigit = true ∨ c = '.' ∧ (taken ++ old).head?.any Char.isDigit = true)
    (whole : (Scan.number (c == '.') (taken ++ old)).1 = taken.length) (new : List Char) :
    c.isDigit = true ∨ c = '.' ∧ (taken ++ new).head?.any Char.isDigit = true := by
  refine numeric.imp_right fun ⟨point, digit⟩ => ⟨point, head?_append_any new digit ?_⟩
  rintro rfl
  have stops : old.head?.any (Scan.continuesNumber (c == '.')) = false :=
    Scan.not_continues_of_number whole
  cases old with
  | nil => simp at digit
  | cons d rest =>
    have digit : d.isDigit = true := by simpa using digit
    simp [Scan.continuesNumber, Char.isAlphanum, digit] at stops

theorem named_replace
    (named : isNameStart c = true ∨ c = '\\' ∧ (taken ++ old).head?.any isNameStart = true)
    (whole : Scan.name (taken ++ old) = taken.length) (new : List Char) :
    isNameStart c = true ∨ c = '\\' ∧ (taken ++ new).head?.any isNameStart = true := by
  refine named.imp_right fun ⟨backslash, named⟩ => ⟨backslash, head?_append_any new named ?_⟩
  rintro rfl
  have notName : old.head?.any isNameChar = false := (Scan.name_eq_zero.mp whole).1
  simpa [notName] using head?_isNameChar named

/-- A lexeme of PHP is found again before a text that brings nothing new for it. -/
theorem PhpStep.replace (begins : PhpStep c rest found) (split : rest = taken ++ old)
    (whole : found.tail = taken.length)
    (nothingNew : found.mode.isDoc = false → NothingNew found.kind.marks old new)
    (sameFront : found.kind.isTrivia = true → SameFront .php found.mode old new) :
    phpStep c (taken ++ new) = found := by
  have canReplace (outside : found.mode.isDoc = false) : CanReplace old new :=
    (nothingNew outside).mono (Kind.marks_subset _)
  cases begins with
  | newline =>
    obtain rfl := List.length_eq_zero_iff.mp whole.symm
    exact PhpStep.newline.eq_phpStep
  | blanks blank =>
    subst split
    have still := Scan.spacing_replace whole (canReplace rfl)
    rw [(PhpStep.blanks blank).eq_phpStep, still, ← whole]
  | attributeStart =>
    obtain ⟨taken, rfl, rfl⟩ := cons_eq_append split (by simp [← whole])
    obtain rfl := List.length_eq_zero_iff.mp (show taken.length = 0 by simpa using whole)
    exact PhpStep.attributeStart.eq_phpStep
  | hashComment other =>
    subst split
    have still := Scan.lineComment_replace whole (canReplace rfl) (sameFront rfl).sign
    have other := ((canReplace rfl).append taken).head?_ne (by decide) other
    rw [(PhpStep.hashComment other).eq_phpStep, still, ← whole]
  | @slashComment rest =>
    have taken_pos : 0 < taken.length := by
      simp only [← whole, Scan.lineComment]
      simp
    obtain ⟨taken, rfl, rfl⟩ := cons_eq_append split taken_pos
    rw [← cons_append] at whole
    have still := Scan.lineComment_replace whole (canReplace rfl) (sameFront rfl).sign
    rw [cons_append] at still ⊢
    rw [PhpStep.slashComment.eq_phpStep, still, ← whole]
    rfl
  | @docOpen rest space =>
    obtain ⟨taken, rfl, inner⟩ := cons_eq_append split (by simp [← whole])
    obtain ⟨taken, rfl, rfl⟩ := cons_eq_append inner (by simp at whole; omega)
    obtain rfl := List.length_eq_zero_iff.mp (show taken.length = 0 by simpa using whole)
    have space : new.head?.any isUnicodeSpace = true := by
      rw [(sameFront rfl).head? rfl]
      exact space
    exact (PhpStep.docOpen space).eq_phpStep
  | @blockComment rest other =>
    have follows := canReplace (commentStep_isDoc 2 rest)
    simp only [commentStep] at whole
    obtain ⟨taken, rfl, rfl⟩ := cons_eq_append split (by omega)
    simp only [length_cons] at whole
    rw [cons_append, (PhpStep.blockComment (not_opensDoc_replace follows other)).eq_phpStep,
      commentStep_replace (by omega) follows]
  | variableName named =>
    subst split
    have taken_ne : taken ≠ [] := by
      rintro rfl
      simpa [(Scan.run_append_eq.mp whole).2] using head?_isNameChar named
    have still := Scan.run_replace whole (by decide) (canReplace rfl)
    rw [(PhpStep.variableName (head?_append_any new named taken_ne)).eq_phpStep, still, ← whole]
  | singleQuoted =>
    subst split
    have still := Scan.quoted_replace whole (canReplace rfl)
    rw [PhpStep.singleQuoted.eq_phpStep, still, ← whole]
  | doubleQuoted quote =>
    subst split
    have still := Scan.quoted_replace whole (canReplace rfl)
    rw [(PhpStep.doubleQuoted quote).eq_phpStep, still, ← whole]
  | @heredoc rest =>
    have follows := canReplace (congrArg Mode.isDoc (heredocStep_mode rest))
    have two_le := two_le_heredocStep_tail rest
    obtain ⟨taken, rfl, inner⟩ := cons_eq_append split (by omega)
    obtain ⟨taken, rfl, rfl⟩ := cons_eq_append inner (by simp at whole; omega)
    simp only [length_cons] at whole
    rw [cons_append, cons_append, PhpStep.heredoc.eq_phpStep,
      heredocStep_replace (by omega) follows]
  | @closeTag rest =>
    obtain ⟨taken, rfl, rfl⟩ := cons_eq_append split (by rw [← whole]; simp only; split <;> omega)
    have same := newline_replace (canReplace rfl) whole
    rw [cons_append, PhpStep.closeTag.eq_phpStep]
    simp only [same]
  | number numeric =>
    subst split
    have still := Scan.number_replace (Prod.ext whole rfl) (canReplace rfl)
    simp only at whole
    rw [(PhpStep.number (numeric_replace numeric whole new)).eq_phpStep, still, whole]
  | name named =>
    subst split
    have still := Scan.name_replace whole (canReplace rfl)
    simp only at whole
    rw [(PhpStep.name (named_replace named whole new)).eq_phpStep, still, whole, take_left,
      take_left]
  | operator begins =>
    subst split
    have outside := congrArg Mode.isDoc (operatorStep_mode c (taken ++ old))
    have nothingNew := nothingNew outside
    rw [Kind.marks, isLead_operatorStep] at nothingNew
    rw [(PhpStep.operator (begins.replace (canReplace outside))).eq_phpStep,
      operatorStep_replace whole nothingNew]

/-- Kinds of lexemes that depend on the front of the text behind them. -/
def seesFront (kind : Kind) : Bool :=
  kind.isTrivia || kind == .inlineHtml

/-- Outside doc comments a lexeme stays if what follows it can be replaced. -/
theorem step_replace {mode after : Mode} {kind : Kind} (outside : mode.isDoc = false)
    (announced : step mode c (taken ++ old) = ⟨kind, taken.length, after⟩)
    (nothingNew : after.isDoc = false → NothingNew kind.marks old new)
    (sameFront : seesFront kind = true → SameFront mode after old new) :
    step mode c (taken ++ new) = ⟨kind, taken.length, after⟩ := by
  have canReplace (outside : after.isDoc = false) : CanReplace old new :=
    (nothingNew outside).mono (Kind.marks_subset _)
  cases mode with
  | html =>
    simp only [step] at announced ⊢
    have begins := announced ▸ htmlStep_spec c (taken ++ old)
    refine begins.replace rfl rfl (canReplace begins.isDoc) ?_
    rintro rfl
    exact (sameFront rfl).sign
  | php =>
    simp only [step] at announced ⊢
    have begins := announced ▸ phpStep_spec c (taken ++ old)
    exact begins.replace rfl rfl nothingNew fun trivia => sameFront (by simp_all [seesFront])
  | blockComment =>
    simp only [step] at announced ⊢
    have isDoc : after.isDoc = false := by
      rw [← show _ = after from congrArg Step.mode announced]
      exact commentStep_isDoc 0 _
    have reaches := congrArg Step.tail announced
    simp only [commentStep, Nat.zero_add] at reaches
    have := Scan.blockComment_pos c (taken ++ old)
    have reaches : (Scan.blockComment (c :: taken ++ old)).1 = (c :: taken).length := by
      rw [cons_append, length_cons]
      omega
    rw [← announced]
    exact commentStep_replace reaches (canReplace isDoc)
  | docComment starAllowed tagAllowed => simp [Mode.isDoc] at outside

end Lexeme

end PhpStyle
