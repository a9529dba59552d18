import Mathlib.Computability.Language
import PhpStyle.Proofs.Delimiters

/-!
# Regions of PHP code and of text outside

A file is text outside PHP and regions of PHP code in turn. The kinds of its lexemes are
words of a regular language, which is written here with the operations that Mathlib has for
languages. The last region need not be closed.

The lexer changes between both worlds by its mode. Outside of PHP it takes all text up to
the next `<?` at once, so two pieces of text outside never follow each other; inside it
stays until a closing tag, which is a lexeme of its own and never a part of another one.
-/

namespace PhpStyle

open Text List
open scoped Computability

namespace Kind

/-- The tags that begin PHP code. -/
def opensPhp : Kind → Bool
  | openTag | openTagWithEcho => true
  | _ => false

/-- The kinds of the lexemes of PHP code. -/
def isCode : Kind → Bool
  | inlineHtml | openTag | openTagWithEcho | closeTag => false
  | _ => true

theorem opensPhp_of_isCode {kind : Kind} (code : kind.isCode = true) : kind.opensPhp = false := by
  revert code
  cases kind <;> decide

/-- The words of one kind that is wanted. -/
def oneOf (wanted : Kind → Bool) : Language Kind :=
  {word | ∃ kind, wanted kind = true ∧ word = [kind]}

/-- Text outside PHP, which may be missing. -/
def outside : Language Kind :=
  1 + oneOf (· == inlineHtml)

/-- A region of PHP code with the text before it, from its opening tag to the end of the code. -/
def unclosedRegion : Language Kind :=
  outside * oneOf opensPhp * (oneOf isCode)∗

/-- A region of PHP code with the text before it and its closing tag. -/
def region : Language Kind :=
  unclosedRegion * oneOf (· == closeTag)

/-- The kinds of the lexemes of a file: regions, and then text outside or a region that is not
closed. -/
def file : Language Kind :=
  region∗ * (outside + unclosedRegion)

variable {kind : Kind} {kinds code rest : List Kind}

theorem singleton_mem_oneOf {wanted : Kind → Bool} (isWanted : wanted kind = true) :
    [kind] ∈ oneOf wanted :=
  ⟨kind, isWanted, rfl⟩

theorem mem_kstar_oneOf {wanted : Kind → Bool} (all : ∀ kind ∈ kinds, wanted kind = true) :
    kinds ∈ (oneOf wanted)∗ := by
  refine ⟨kinds.map fun kind => [kind], ?_, ?_⟩
  · rw [← flatMap_def, flatMap_singleton']
  intro word listed
  rcases List.mem_map.mp listed with ⟨kind, inside, rfl⟩
  exact singleton_mem_oneOf (all kind inside)

theorem outside_subset_file (member : kinds ∈ outside) : kinds ∈ file :=
  Language.append_mem_mul (Language.nil_mem_kstar region) (.inl member)

theorem unclosedRegion_subset_file (member : kinds ∈ unclosedRegion) : kinds ∈ file :=
  Language.append_mem_mul (Language.nil_mem_kstar region) (.inr member)

theorem append_mem_file (first : kinds ∈ region) (following : rest ∈ file) :
    kinds ++ rest ∈ file := by
  rcases Language.mem_mul.mp following with ⟨regions, starred, last, ends, rfl⟩
  rcases Language.mem_kstar.mp starred with ⟨words, rfl, all⟩
  rw [← List.append_assoc, ← flatten_cons]
  exact Language.append_mem_mul (Language.join_mem_kstar (List.forall_mem_cons.mpr ⟨first, all⟩))
    ends

/-- What follows an opening tag: code up to the end of the file, or up to a closing tag that a file
follows. -/
inductive Inside : List Kind → Prop where
  | unclosed {code : List Kind} (all : ∀ kind ∈ code, isCode kind = true) : Inside code
  | closed {code rest : List Kind} (all : ∀ kind ∈ code, isCode kind = true)
      (following : rest ∈ file) : Inside (code ++ closeTag :: rest)

theorem Inside.cons (inside : Inside kinds) (isCode : kind.isCode = true) :
    Inside (kind :: kinds) := by
  have longer {code : List Kind} (all : ∀ kind ∈ code, kind.isCode = true) :
      ∀ other ∈ kind :: code, other.isCode = true := List.forall_mem_cons.mpr ⟨isCode, all⟩
  cases inside with
  | unclosed all => exact .unclosed (longer all)
  | closed all following => exact .closed (longer all) following

/-- Where the text outside has ended: at the end of the file or before an opening tag. -/
inductive AtOpening : List Kind → Prop where
  | done : AtOpening []
  | opens {kind : Kind} {rest : List Kind} (opens : kind.opensPhp = true) (inside : Inside rest) :
      AtOpening (kind :: rest)

theorem AtOpening.mem_file (atOpening : AtOpening rest) (before : kinds ∈ outside) :
    kinds ++ rest ∈ file := by
  cases atOpening with
  | done =>
    rw [append_nil]
    exact outside_subset_file before
  | @opens kind rest opens inside =>
    have opened : kinds ++ [kind] ∈ outside * oneOf opensPhp :=
      Language.append_mem_mul before (singleton_mem_oneOf opens)
    rw [append_cons]
    cases inside with
    | unclosed all =>
      exact unclosedRegion_subset_file (Language.append_mem_mul opened (mem_kstar_oneOf all))
    | @closed code rest all following =>
      have region_mem : kinds ++ [kind] ++ code ++ [closeTag] ∈ region :=
        Language.append_mem_mul (Language.append_mem_mul opened (mem_kstar_oneOf all))
          (singleton_mem_oneOf rfl)
      rw [← List.append_assoc, append_cons _ closeTag]
      exact append_mem_file region_mem following

end Kind

section Signs

variable {sign : List Char}

/-- The text before the first sign does not hold it. -/
theorem Scan.not_infix_before (nonempty : sign ≠ []) (text : List Char) :
    ¬sign <:+: text.take (before sign text) := by
  induction text with
  | nil => simpa using nonempty
  | cons c rest ih =>
    rw [before]
    split
    · simpa using nonempty
    · next other =>
        rw [take_succ_cons, infix_cons_iff]
        rintro (begins | inside)
        · have longer := take_prefix (before sign rest) rest
          exact other (begins.trans ((prefix_cons_inj c).mpr longer))
        · exact ih inside

/-- The first sign follows, or there is none. -/
theorem Scan.drop_before (sign text : List Char) :
    text.drop (before sign text) = [] ∨ sign <+: text.drop (before sign text) := by
  induction text with
  | nil => exact .inl rfl
  | cons c rest ih =>
    rw [before]
    split
    · next begins => exact .inr begins
    · exact ih

end Signs

/-- An opening tag in front of the rest of the source. The short form stands only where no longer one
would. -/
inductive IsOpening : Kind → List Char → List Char → Prop where
  | echo {rest : List Char} : IsOpening .openTagWithEcho ['<', '?', '='] rest
  | long {text rest : List Char}
      (same : equalsIgnoringCase text ['<', '?', 'p', 'h', 'p'] = true) :
      IsOpening .openTag text rest
  | short {rest : List Char} (notEcho : rest.head? ≠ some '=')
      (notLong : equalsIgnoringCase (rest.take 3) ['p', 'h', 'p'] = false) :
      IsOpening .openTag ['<', '?'] rest

namespace Lexeme

variable {c : Char} {taken rest : List Char} {kind : Kind} {mode after : Mode}

variable {text : List Char}

/-- Inside of PHP a lexeme is code and code follows, or it closes the region. -/
theorem Joins.staysInside (joins : Joins mode kind after) (inside : mode ≠ .html) :
    kind.isCode = true ∧ after ≠ .html ∨ kind = .closeTag ∧ after = .html := by
  cases joins with
  | closeTag => exact .inr ⟨rfl, rfl⟩
  | plain plain => exact .inl ⟨by revert plain; cases kind <;> decide, by simp⟩
  | comment before behind => exact .inl ⟨rfl, by rcases behind with rfl | rfl <;> simp⟩
  | docOpen => exact .inl ⟨rfl, by simp⟩
  | docClose => exact .inl ⟨rfl, by simp⟩
  | inner inner goesOn => exact .inl ⟨by revert inner; cases kind <;> decide, by simp⟩
  | _ => exact absurd rfl inside

/-- Outside of PHP a lexeme is all text up to the next `<?`, or the opening tag there. -/
theorem HtmlStep.cases_of_step {found : Step} (begins : HtmlStep c text found)
    (split : text = taken ++ rest) (whole : found.tail = taken.length) :
    (found.kind = .inlineHtml ∧ found.mode = .html ∧ ¬['<', '?'] <+: c :: text ∧
        ¬['<', '?'] <:+: c :: taken ∧ (rest = [] ∨ ['<', '?'] <+: rest)) ∨
      (found.kind.opensPhp = true ∧ found.mode = .php ∧ IsOpening found.kind (c :: taken) rest) := by
  cases begins with
  | longTag long =>
    right
    refine ⟨rfl, rfl, .long ?_⟩
    rw [split, show 4 = taken.length from whole, take_left] at long
    simpa [equalsIgnoringCase] using long
  | echoTag =>
    right
    obtain ⟨taken, rfl, inner⟩ := cons_eq_append split (by rw [← whole]; decide)
    obtain ⟨taken, rfl, rfl⟩ := cons_eq_append inner (by
      rw [show taken.length = 1 from (Nat.succ.inj whole).symm]
      decide)
    obtain rfl := List.length_eq_zero_iff.mp (show taken.length = 0 by simpa using whole)
    exact ⟨rfl, rfl, .echo⟩
  | shortTag notLong notEcho =>
    right
    obtain ⟨taken, rfl, rfl⟩ := cons_eq_append split (by rw [← whole]; decide)
    obtain rfl := List.length_eq_zero_iff.mp (show taken.length = 0 by simpa using whole)
    exact ⟨rfl, rfl, .short notEcho (by simpa [equalsIgnoringCase] using notLong)⟩
  | html notOpen =>
    left
    subst split
    simp only at whole
    refine ⟨rfl, rfl, notOpen, ?_, ?_⟩
    · have clear := Scan.not_infix_before (show ['<', '?'] ≠ [] by simp) (taken ++ rest)
      rw [whole, take_left] at clear
      rw [infix_cons_iff]
      rintro (begins | inside)
      · exact notOpen (begins.trans (prefix_append (c :: taken) rest))
      · exact clear inside
    · have follows := Scan.drop_before ['<', '?'] (taken ++ rest)
      rwa [whole, drop_left] at follows

/-- The kinds of lexemes that begin outside of PHP, where an opening tag follows the text, and
inside of it. -/
theorem Cuts.kinds_mem {position : Position} {lexemes : List Lexeme}
    (cuts : Cuts mode position text lexemes) :
    (mode = .html → lexemes.map Lexeme.kind ∈ Kind.file ∧
      (text = [] ∨ ['<', '?'] <+: text → Kind.AtOpening (lexemes.map Lexeme.kind))) ∧
    (mode ≠ .html → Kind.Inside (lexemes.map Lexeme.kind)) := by
  induction cuts with
  | done =>
    refine ⟨fun _ => ⟨Kind.outside_subset_file (.inl rfl), fun _ => .done⟩, fun _ => ?_⟩
    exact .unclosed (by simp)
  | @next mode after position c taken rest kind lexemes announced following ih =>
    rw [map_cons]
    constructor
    · rintro rfl
      have begins : HtmlStep c (taken ++ rest) ⟨kind, taken.length, after⟩ :=
        announced ▸ htmlStep_spec c (taken ++ rest)
      rcases begins.cases_of_step rfl rfl with
        ⟨rfl, rfl, notOpen, -, stops⟩ | ⟨opens, rfl, -⟩
      · have atOpening := (ih.1 rfl).2 stops
        refine ⟨atOpening.mem_file (.inr (Kind.singleton_mem_oneOf rfl)), ?_⟩
        rintro (empty | open_follows)
        · cases empty
        · exact absurd open_follows notOpen
      · have atOpening := Kind.AtOpening.opens opens (ih.2 (by simp))
        exact ⟨atOpening.mem_file (.inl rfl), fun _ => atOpening⟩
    · intro inside
      rcases (joins_of_step announced).staysInside inside with
        ⟨code, stays⟩ | ⟨rfl, rfl⟩
      · exact (ih.2 stays).cons code
      · have closed : Kind.Inside ([] ++ .closeTag :: lexemes.map Lexeme.kind) :=
          .closed (by simp) (ih.1 rfl).1
        exact closed

/-- What the text of a lexeme at the border of a region is. -/
theorem Cuts.border {position : Position} {front back : List Lexeme} {lexeme : Lexeme}
    (cuts : Cuts mode position text (front ++ lexeme :: back)) :
    (lexeme.kind = .inlineHtml → ¬['<', '?'] <:+: lexeme.text) ∧
      (lexeme.kind.opensPhp = true →
        IsOpening lexeme.kind lexeme.text (back.flatMap Lexeme.text)) := by
  rcases cuts.suffix with ⟨mode, position, text, cuts⟩
  cases cuts with
  | @next _ after _ c taken rest kind _ announced following =>
    rw [following.flatMap_text]
    by_cases outside : mode = .html
    · subst outside
      have begins : HtmlStep c (taken ++ rest) ⟨kind, taken.length, after⟩ :=
        announced ▸ htmlStep_spec c (taken ++ rest)
      rcases begins.cases_of_step rfl rfl with ⟨rfl, -, -, clear, -⟩ | ⟨opens, -, opening⟩
      · exact ⟨fun _ => clear, by rintro ⟨⟩⟩
      · refine ⟨?_, fun _ => opening⟩
        rintro rfl
        cases opens
    · rcases (joins_of_step announced).staysInside outside with ⟨code, -⟩ | ⟨rfl, -⟩
      · constructor
        · rintro rfl
          cases code
        · intro opens
          rw [Kind.opensPhp_of_isCode code] at opens
          cases opens
      · exact ⟨by simp, by rintro ⟨⟩⟩

end Lexeme

/-- Text outside and regions of PHP code alternate. The kinds of the lexemes of a source are a word
of `Kind.file`; no text outside holds `<?`; and an opening tag is `<?=`, `<?php` in any case or, only
where neither of these stands in the source, `<?`. -/
theorem regions_alternate (source : List Char) :
    (lex source).map Lexeme.kind ∈ Kind.file ∧
      ∀ front lexeme back, lex source = front ++ lexeme :: back →
        ∃ rest, source = (front ++ [lexeme]).flatMap Lexeme.text ++ rest ∧
          (lexeme.kind = .inlineHtml → ¬['<', '?'] <:+: lexeme.text) ∧
          (lexeme.kind.opensPhp = true → IsOpening lexeme.kind lexeme.text rest) := by
  have cuts := cuts_lex source
  refine ⟨(cuts.kinds_mem.1 rfl).1, ?_⟩
  intro front lexeme back split
  refine ⟨back.flatMap Lexeme.text, ?_, ?_⟩
  · rw [← flatMap_append, ← append_cons, ← split, cuts.flatMap_text]
  · rw [split] at cuts
    exact cuts.border

/-- A short tag before text outside ASCII, and closing tags that end a region from a comment but not
from a string. -/
theorem regions_alternate_short_tag :
    let source := "a<?é'?>'#?><?PHP".toList
    let opening : Lexeme := ⟨.openTag, "<?".toList, 1, 2⟩
    let code : List Lexeme := [⟨.name, ['é'], 1, 4⟩, ⟨.singleQuoted, "'?>'".toList, 1, 5⟩,
      ⟨.comment, ['#'], 1, 9⟩, ⟨.closeTag, "?>".toList, 1, 10⟩, ⟨.openTag, "<?PHP".toList, 1, 12⟩]
    lex source = [⟨.inlineHtml, ['a'], 1, 1⟩] ++ opening :: code ∧
      (lex source).map Lexeme.kind ∈ Kind.file ∧
      ∃ rest, source = "a<?".toList ++ rest ∧ IsOpening .openTag "<?".toList rest := by
  intro source opening code
  have split : lex source = [⟨.inlineHtml, ['a'], 1, 1⟩] ++ opening :: code := by decide +kernel
  rcases regions_alternate source with ⟨member, borders⟩
  rcases borders _ _ _ split with ⟨rest, source_eq, -, opens⟩
  exact ⟨split, member, rest, source_eq, opens rfl⟩

end PhpStyle
