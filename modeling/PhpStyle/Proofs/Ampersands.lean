import PhpStyle.Proofs.Delimiters

/-!
# An ampersand between lexemes

An ampersand is put before a word of PHP code, and the text is lexed anew. Directly before it
stand only whitespace, comments and the word `function`: none of them can take the ampersand in.
All lexemes are found again, and the ampersand is one of its own.

Further in front at least the text of `function` lies between a lexeme and the ampersand, and no
lexeme outside of doc comments looks as far as that. A doc comment ends before the word, so it
does not see the ampersand either.
-/

namespace PhpStyle

open Text List

namespace Kind

/-- Keywords and names. -/
def isWord (kind : Kind) : Bool :=
  kind == .name || kind.isKeyword

theorem isInner_of_isWord {kind : Kind} (word : kind.isWord = true) :
    Lexeme.isInner kind = false := by
  revert word
  cases kind <;> decide

end Kind

namespace Lexeme

variable {taken : List Char}

/-- A word of PHP code begins as a name does, and its text says which word it is. -/
theorem PhpStep.of_isWord {c : Char} {rest : List Char} {found : Step}
    (begins : PhpStep c rest found) (word : found.kind.isWord = true) :
    (isNameStart c = true ∨ c = '\\') ∧
      found.kind = Kind.ofWord (c :: rest.take found.tail) := by
  cases begins with
  | name named => exact ⟨named.imp_right And.left, rfl⟩
  | blockComment other => cases word
  | heredoc =>
    simp only [heredocStep] at word
    split at word <;> cases word
  | number numeric =>
    simp only at word
    split at word <;> cases word
  | operator begins =>
    have other := operatorStep_satisfies (fun kind => kind.isWord = false) (by decide) rfl c rest
    rw [other] at word
    cases word
  | _ => cases word

theorem length_of_ofWord {text : List Char} (word : Kind.ofWord text = .functionKw) :
    text.length = 8 := by
  have keywords : ∀ entry ∈ Kind.keywords, entry.2 = .functionKw → entry.1.length = 8 := by decide
  unfold Kind.ofWord at word
  cases found : Kind.keywords.lookup (String.ofList (text.map Char.toLower)) with
  | none => simp [found] at word
  | some kind =>
    rw [found, Option.getD_some] at word
    rcases List.lookup_eq_some_iff.mp found with ⟨earlier, later, split, -⟩
    have length := keywords (String.ofList (text.map Char.toLower), kind) (by simp [split]) word
    simpa using length

theorem Joins.eq_php_of_isWord {mode after : Mode} {kind : Kind} (joins : Joins mode kind after)
    (word : kind.isWord = true) : mode = .php := by
  cases joins with
  | plain plain => rfl
  | inner inner goesOn =>
    rw [Kind.isInner_of_isWord word] at inner
    cases inner
  | _ => cases word

/-- Before a word an ampersand is a lexeme of its own. -/
theorem cut_ampersand {c : Char} (rest : List Char) (named : isNameStart c = true ∨ c = '\\') :
    cut .php ('&' :: c :: rest) = (.ampersand, ['&']) :: cut .php (c :: rest) := by
  have begins : BeginsOperator '&' (c :: rest) := by
    constructor <;> simp [isBlank, isNameStart]
  have apart : c ≠ '&' ∧ c ≠ '=' := by
    rcases named with starts | rfl
    · exact ⟨ne_of_test starts (by decide), ne_of_test starts (by decide)⟩
    · decide
  have announced : step .php '&' ([] ++ c :: rest) = ⟨.ampersand, 0, .php⟩ := by
    rw [step, nil_append, (PhpStep.operator begins).eq_phpStep]
    simp [operatorStep, Kind.operators, List.isPrefixOf, apart.1.symm, apart.2.symm]
  exact cut_of_step announced

theorem Joins.eq_docClose {mode after : Mode} {kind : Kind} (joins : Joins mode kind after)
    (inside : mode.isDoc = true) (outside : after.isDoc = false) : kind = .docClose := by
  cases joins with
  | docClose => rfl
  | comment before behind => rcases before with rfl | rfl <;> cases inside
  | inner inner goesOn => cases outside
  | _ => cases inside

section Behind

variable {mode after : Mode} {position : Position} {text : List Char} {name : Lexeme}
  {kept back : List Lexeme}

variable {old : List Char}

/-- A text is cut into the lexemes that were cut from it. -/
theorem Cuts.cut_eq {lexemes : List Lexeme} (cuts : Cuts mode position text lexemes) :
    cut mode text = lexemes.map piece := by
  induction cuts with
  | done => exact cut_nil _
  | next announced following ih => rw [cut_of_step announced, ih]; rfl

/-- A doc comment is closed before a lexeme that does not belong to it. -/
theorem Cuts.exists_close (cuts : Cuts mode position text (kept ++ name :: back))
    (inside : mode.isDoc = true) (outer : isInner name.kind = false) :
    ∃ front behind, kept.flatMap Lexeme.text = front ++ '*' :: '/' :: behind := by
  induction kept generalizing mode position text with
  | nil =>
    cases cuts with
    | next announced following =>
      rw [isDoc_eq_isInner announced, outer] at inside
      cases inside
  | cons lexeme kept ih =>
    cases cuts with
    | @next _ after _ c taken rest kind _ announced following =>
      cases still : after.isDoc with
      | true =>
        rcases ih following still with ⟨front, behind, split⟩
        exact ⟨c :: taken ++ front, behind, by simp [split]⟩
      | false =>
        obtain rfl := (joins_of_step announced).eq_docClose inside still
        have closer := (of_step_docClose announced).1
        exact ⟨[], kept.flatMap Lexeme.text, by simp [closer]⟩

/-- What is left of a line of a doc comment that is closed does not depend on what follows it. -/
theorem BlankRest.of_close {front behind : List Char} (new : List Char)
    (blank : BlankRest (front ++ '*' :: '/' :: behind ++ old)) :
    BlankRest (front ++ '*' :: '/' :: behind ++ new) := by
  induction front with
  | nil => exact ⟨[], _, rfl, by simp, .inr (.inr (by simp))⟩
  | cons c front ih =>
    rcases blank with ⟨blanks, stop, split, blank, stops⟩
    cases blanks with
    | nil =>
      rw [nil_append] at split
      rw [← split, cons_append, cons_append, stopsLine_cons] at stops
      refine ⟨[], c :: (front ++ '*' :: '/' :: behind ++ new), rfl, by simp, ?_⟩
      rw [stopsLine_cons]
      cases front <;> simpa using stops
    | cons d blanks =>
      simp only [cons_append, List.cons.injEq] at split
      have rest := ih ⟨blanks, stop, by simpa using split.2,
        fun e listed => blank e (by simp [listed]), stops⟩
      have first : ∀ e ∈ [c], isBlank e = true := by simp [split.1, blank d (by simp)]
      have joined := BlankRest.append first rest
      exact joined

/-- The text of the lexemes that are kept hides what comes behind them. -/
theorem Cuts.docBehind {c : Char} {kind : Kind} {starAllowed tagAllowed : Bool}
    (announced : step (.docComment starAllowed tagAllowed) c
      (taken ++ (kept.flatMap Lexeme.text ++ old)) = ⟨kind, taken.length, after⟩)
    (following : Cuts after position (kept.flatMap Lexeme.text ++ old) (kept ++ name :: back))
    (word : name.kind.isWord = true) (new : List Char) :
    DocBehind kind (kept.flatMap Lexeme.text ++ old) (kept.flatMap Lexeme.text ++ new) := by
  have begins := docStep_of_step announced
  have closes (other : kind ≠ .docClose) :
      ∃ front behind, kept.flatMap Lexeme.text = front ++ '*' :: '/' :: behind := by
    apply following.exists_close _ (Kind.isInner_of_isWord word)
    by_contra outside
    exact other (begins.joins.eq_docClose rfl (by simpa using outside))
  have front (other : kind ≠ .docClose) : (kept.flatMap Lexeme.text ++ new).head? =
      (kept.flatMap Lexeme.text ++ old).head? := by
    rcases closes other with ⟨front, behind, split⟩
    rw [split]
    cases front <;> rfl
  constructor
  · rintro rfl
    rcases begins.of_docStar rfl with ⟨alone, other⟩
    obtain rfl := List.length_eq_zero_iff.mp alone
    rw [front (by decide)]
    exact other
  · rintro rfl
    have reaches := (begins.of_docTag rfl).2
    rw [front (by decide)]
    exact (Scan.run_append_eq.mp reaches.symm).2
  · rintro rfl blank
    rcases closes (by decide) with ⟨front, behind, split⟩
    rw [split] at blank ⊢
    exact blank.of_close new

/-- Two characters at the front are enough. -/
theorem sameFront_append {shared : List Char} (long : 2 ≤ shared.length) (mode after : Mode)
    (old new : List Char) : SameFront mode after (shared ++ old) (shared ++ new) where
  sign begins := by
    have short : mode.sign.length ≤ shared.length := by
      cases mode <;> exact long
    exact (prefix_of_prefix_length_le begins (prefix_append shared old) short).trans
      (prefix_append shared new)
  head? _ := by
    cases shared with
    | nil => simp at long
    | cons c shared => rfl

/-- A word does not begin with the sign, and before it the sign is not cut. -/
theorem Cuts.sign_prefix (cuts : Cuts mode position text (kept ++ name :: back))
    (outside : mode.isDoc = false) (word : name.kind.isWord = true) (sign : mode.sign <+: text)
    (new : List Char) : mode.sign <+: kept.flatMap Lexeme.text ++ new := by
  cases kept with
  | nil =>
    cases cuts with
    | @next _ _ _ c taken rest kind _ announced following =>
      obtain rfl := (joins_of_step announced).eq_php_of_isWord word
      have begins := phpStep_spec c (taken ++ rest)
      rw [← step, announced] at begins
      have apart : c ≠ '?' := by
        rcases (begins.of_isWord word).1 with starts | rfl
        · exact ne_of_test starts (by decide)
        · decide
      rcases sign with ⟨more, split⟩
      exact absurd (List.cons.inj split).1.symm apart
  | cons lexeme kept =>
    cases cuts with
    | next announced following =>
      rw [flatMap_cons, List.append_assoc]
      exact (isPrefix_of_sign outside announced sign).trans (prefix_append _ _)

theorem Cuts.nonempty_behind
    (cuts : Cuts mode position (kept.flatMap Lexeme.text ++ old) (kept ++ name :: back)) :
    old ≠ [] := by
  rintro rfl
  have text_eq := cuts.flatMap_text
  rcases cuts.suffix with ⟨_, _, _, name_cuts⟩
  cases name_cuts with
  | next announced following => simp at text_eq

/-- Outside of doc comments a lexeme before the ampersand is found again. -/
theorem Cuts.step_keep {c : Char} {kind : Kind} (outside : mode.isDoc = false)
    (announced : step mode c (taken ++ (kept.flatMap Lexeme.text ++ old)) =
      ⟨kind, taken.length, after⟩)
    (following : Cuts after position (kept.flatMap Lexeme.text ++ old) (kept ++ name :: back))
    (word : name.kind.isWord = true)
    (leads : 3 ≤ (kept.flatMap Lexeme.text).length ∨ kind.isLead = true) (rest : List Char) :
    step mode c (taken ++ (kept.flatMap Lexeme.text ++ '&' :: rest)) =
      ⟨kind, taken.length, after⟩ := by
  rcases leads with long | lead
  · exact step_replace outside announced (fun _ => .of_long long _ _)
      fun _ => sameFront_append (by omega) mode after _ _
  · have listed : '&' ∈ kind.marks := by simp [Kind.marks, lead]
    refine step_replace outside announced
      (fun _ => (NothingNew.insert listed following.nonempty_behind rest).append _) fun sees => ?_
    cases inside : after.isDoc with
    | true =>
      rcases following.exists_close inside (Kind.isInner_of_isWord word) with
        ⟨front, behind, split⟩
      have long : 2 ≤ (kept.flatMap Lexeme.text).length := by
        rw [split, length_append, length_cons, length_cons]
        omega
      exact sameFront_append long mode after _ _
    | false =>
      refine ⟨fun sign => ?_, fun doc => by simp [inside] at doc⟩
      rw [← (joins_of_step announced).sign_eq sees] at sign ⊢
      exact following.sign_prefix inside word sign _

/-- The word `function` is as long as lexemes look ahead. -/
theorem Cuts.long_of_functionKw {keyword : Lexeme}
    (cuts : Cuts mode position text (kept ++ keyword :: back))
    (declares : keyword.kind = .functionKw) : 3 ≤ keyword.text.length := by
  rcases cuts.suffix with ⟨here, _, _, keyword_cuts⟩
  cases keyword_cuts with
  | @next _ _ _ c taken rest kind _ announced following =>
    have word : kind.isWord = true := by
      rw [show kind = .functionKw from declares]
      rfl
    obtain rfl := (joins_of_step announced).eq_php_of_isWord word
    have begins := phpStep_spec c (taken ++ rest)
    rw [← step, announced] at begins
    have text_eq := (begins.of_isWord word).2
    rw [take_left, show kind = .functionKw from declares] at text_eq
    have := length_of_ofWord text_eq.symm
    simp only [this]
    decide

/-- Lexemes before a declared name: trivia and `function`, and others that a text of three
characters stands behind. -/
def LeadsToName : List Lexeme → Prop
  | [] => True
  | lexeme :: rest =>
    (3 ≤ (rest.flatMap Lexeme.text).length ∨ lexeme.kind.isLead = true) ∧ LeadsToName rest

theorem leadsToName_trivia {gap : List Lexeme}
    (trivia : ∀ lexeme ∈ gap, lexeme.kind.isTrivia = true) : LeadsToName gap := by
  induction gap with
  | nil => trivial
  | cons lexeme gap ih =>
    rw [forall_mem_cons] at trivia
    exact ⟨.inr (by rw [Kind.isLead, trivia.1, Bool.or_true]), ih trivia.2⟩

/-- The name of a function is led to by `function` and trivia. -/
theorem leadsToName_declaration (front : List Lexeme) {keyword : Lexeme} {gap : List Lexeme}
    (declares : keyword.kind = .functionKw) (long : 3 ≤ keyword.text.length)
    (trivia : ∀ lexeme ∈ gap, lexeme.kind.isTrivia = true) :
    LeadsToName (front ++ keyword :: gap) := by
  induction front with
  | nil => exact ⟨.inr (by rw [declares]; rfl), leadsToName_trivia trivia⟩
  | cons lexeme front ih =>
    refine ⟨.inl ?_, ih⟩
    show 3 ≤ ((front ++ keyword :: gap).flatMap Lexeme.text).length
    simp only [flatMap_append, flatMap_cons, length_append]
    omega

/-- An ampersand before a word is found, and so are all lexemes. -/
theorem Cuts.cut_ampersand (cuts : Cuts mode position text (kept ++ name :: back))
    (leads : LeadsToName kept) (word : name.kind.isWord = true) :
    cut mode (kept.flatMap Lexeme.text ++ '&' :: (name :: back).flatMap Lexeme.text) =
      kept.map piece ++ (.ampersand, ['&']) :: (name :: back).map piece := by
  induction kept generalizing mode position text with
  | nil =>
    have text_eq : (name :: back).flatMap Lexeme.text = text := cuts.flatMap_text
    have pieces : cut mode text = (name :: back).map piece := cuts.cut_eq
    rw [flatMap_nil, nil_append, text_eq, map_nil, nil_append, ← pieces]
    cases cuts with
    | @next _ _ _ c taken rest kind _ announced following =>
      obtain rfl := (joins_of_step announced).eq_php_of_isWord word
      have begins := phpStep_spec c (taken ++ rest)
      rw [← step, announced] at begins
      exact Lexeme.cut_ampersand _ (begins.of_isWord word).1
  | cons lexeme kept ih =>
    have whole := cuts
    cases cuts with
    | @next _ after _ c taken rest kind _ announced following =>
      have pieces := ih following leads.2
      obtain rfl : kept.flatMap Lexeme.text ++ (name :: back).flatMap Lexeme.text = rest := by
        rw [← flatMap_append]
        exact following.flatMap_text
      rw [flatMap_cons, List.append_assoc, map_cons, cons_append, cons_append, ← pieces]
      cases inside : mode.isDoc with
      | true =>
        obtain ⟨starAllowed, tagAllowed, rfl⟩ := exists_of_isDoc inside
        rw [cut_docComment announced (following.docBehind announced word _), pieces]
        apply whole.attach_piece
        cases kept with
        | nil => intro joins; cases joins
        | cons next kept => exact id
      | false => exact cut_of_step (following.step_keep inside announced word leads.1 _)

end Behind

end Lexeme

end PhpStyle
