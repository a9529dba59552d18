import PhpStyle.Proofs.Plans

/-!
# Fixing preserves the program

The code of a file is what is left of it without whitespace and comments. A round
of fixing changes the code in one way only: array literals get commas before their
closers. No other token comes or goes or is read in another way, since neither the
lexer nor the readings of words and brackets take notice of such a comma.

The rounds of a fix run add up. A comma that an earlier round has put before a
closer keeps the later rounds from putting another one there, so the whole run adds
at most one comma to an array literal of the original file.
-/

namespace PhpStyle

open PhpStyle.Stream List

/-- Only blanks of doc comments run together. -/
theorem filter_attach (keep : Kind → Bool) (blanks : keep .docWhitespace = false) (piece : Piece)
    (pieces : List Piece) :
    ((Lexeme.attach piece pieces).filter fun piece => keep piece.1) =
      (piece :: pieces).filter fun piece => keep piece.1 := by
  rw [Lexeme.attach]
  split
  · next blank =>
      rw [filter_cons, blank.1, blanks]
      unfold Lexeme.addBlanks
      split <;> simp [blanks]
  · rfl

theorem filter_foldr_attach (keep : Kind → Bool) (blanks : keep .docWhitespace = false)
    (pieces : List Piece) :
    ((pieces.foldr Lexeme.attach []).filter fun piece => keep piece.1) =
      pieces.filter fun piece => keep piece.1 := by
  induction pieces with
  | nil => rfl
  | cons piece pieces ih =>
    rw [foldr_cons, filter_attach keep blanks, filter_cons, filter_cons, ih]

namespace Stream

/-- The kinds and texts of the significant tokens of a stream. -/
def code (stream : Stream) : List Piece :=
  significant (stream.tokens.toList.map fun token => (token.kind, token.text))

/-- The kinds and texts of the tokens of a stream, with marks on those that are chosen. -/
def marked (stream : Stream) (chosen : Nat → Bool) : List (Kind × Bool × List Char) :=
  stream.tokens.toList.mapIdx fun index token => (token.kind, chosen index, token.text)

/-- The code of a stream with a comma before each token that is chosen. -/
def codeWithCommas (stream : Stream) (chosen : Nat → Bool) : List Piece :=
  Kind.withCommas [','] (significant (stream.marked chosen))

/-- The token closes the array literal of an owner: the parentheses behind `array`, or short
brackets. -/
structure ClosesArray (stream : Stream) (owner index : Nat) : Prop where
  scope : ∃ scope, stream.scopeOf? owner = some scope ∧ scope.kind = .arrayLiteral ∧
    scope.closer = index
  kinds : stream.kind? owner = some .arrayKw ∧ stream.kind? index = some .closeParenthesis ∨
    stream.kind? owner = some .openShortArray ∧ stream.kind? index = some .closeShortArray

variable {lexemes : List Lexeme} {index : Nat}

theorem EndsArray.exists_closesArray (ends : EndsArray lexemes index) :
    ∃ owner, (ofLexemes lexemes).ClosesArray owner index := by
  rcases ends with ⟨owner, span, array, rfl⟩
  rcases array.exists_scopeOf? with ⟨scope, found, kind, rfl⟩
  refine ⟨owner, ⟨scope, found, kind, rfl⟩, ?_⟩
  rw [kind?_ofLexemes, kind?_ofLexemes]
  exact array.closer.2

theorem kinds_ofLexemes (lexemes : List Lexeme) :
    ((ofLexemes lexemes).tokens.toList.map fun token => token.kind) = settledKinds lexemes := by
  apply ext_getElem?
  intro index
  simpa [kind?, get?] using kind?_ofLexemes lexemes index

theorem code_ofLexemes (lexemes : List Lexeme) :
    (ofLexemes lexemes).code = significant (Kind.read (lexemes.map Lexeme.piece)) := by
  rw [code, ← zip_map', kinds_ofLexemes, text_ofLexemes, Kind.read_eq, map_map, map_map]
  rfl

theorem marked_ofLexemes (lexemes : List Lexeme) (chosen : Nat → Bool) :
    (ofLexemes lexemes).marked chosen = Kind.read (Repair.markedFrom lexemes chosen 0) := by
  have marks {α : Type} (items : List α) (text : α → List Char) :
      (items.zipIdx.map fun place => (chosen place.2, text place.1)) =
        (items.map text).zipIdx.map fun place => (chosen place.2, place.1) := by
    rw [zipIdx_map, map_map]
    rfl
  have firsts {α β : Type} (items : List α) (f : α → β) :
      (items.zipIdx.map fun place => f place.1) = items.map f := by
    rw [← zipIdx_map_fst 0 items, map_map]
    simp
  rw [marked, mapIdx_eq_zipIdx_map, Kind.read_eq, Repair.markedFrom, drop_zero]
  simp only [map_map, Function.comp_def]
  rw [← zip_map', firsts _ fun token : Token => token.kind,
    marks _ fun token : Token => token.text, firsts lexemes Lexeme.kind,
    marks lexemes Lexeme.text, kinds_ofLexemes, text_ofLexemes]
  rfl

theorem map_unmark_marked (stream : Stream) (chosen : Nat → Bool) :
    (stream.marked chosen).map Kind.unmark =
      stream.tokens.toList.map fun token => (token.kind, token.text) := by
  apply ext_getElem?
  simp [marked, Kind.unmark, Function.comp_def]

theorem map_unmark_significant_marked (stream : Stream) (chosen : Nat → Bool) :
    (significant (stream.marked chosen)).map Kind.unmark = stream.code := by
  rw [code, ← map_unmark_marked _ chosen, significant, significant, filter_map]
  rfl

theorem map_fst_marked (lexemes : List Lexeme) (chosen : Nat → Bool) :
    ((ofLexemes lexemes).marked chosen).map Prod.fst = settledKinds lexemes := by
  rw [← kinds_ofLexemes]
  apply ext_getElem?
  simp [marked, Function.comp_def]

end Stream

namespace Repair

variable {lexemes : List Lexeme} {plan : List Repair} {chosen : Nat → Bool}

theorem texts_piecesFrom (plan : List Repair) (lexemes : List Lexeme) :
    Lexeme.texts (piecesFrom plan lexemes 0) =
      (lexemes.mapIdx fun index lexeme => Lexeme.texts (remains plan lexeme index)).flatten := by
  rw [Lexeme.texts, piecesFrom, drop_zero, flatMap_assoc, mapIdx_eq_zipIdx_map]
  rfl

section

variable (isPlan : IsPlan lexemes plan)

include isPlan

/-- A planned comma comes before a token that closes an array literal and has no comma before it. -/
theorem IsPlan.endsArray {index : Nat} (puts : PutsComma plan (Stream.settledKinds lexemes) index) :
    Stream.EndsArray lexemes index ∧
      lastBefore (Stream.settledKinds lexemes) index ≠ some .comma := by
  rcases puts with ⟨last, planned, neighbours⟩
  rcases isPlan.array last planned with ⟨closer, ends, others, missing⟩
  rw [neighbours.lastBefore_eq]
  exact ⟨neighbours.right_eq others ▸ ends, missing⟩

theorem IsPlan.marksClosers (lexed : ∀ lexeme ∈ lexemes, Lexeme.isContextual lexeme.kind = false)
    (chosen_iff : ∀ index, chosen index = true ↔
      PutsComma plan (Stream.settledKinds lexemes) index) :
    Kind.MarksClosers (significant (markedFrom lexemes chosen 0)) := by
  intro item inside
  rcases List.mem_filter.mp inside with ⟨marked, kept⟩
  refine ⟨kept, fun mark => ?_⟩
  rcases List.mem_map.mp marked with ⟨⟨lexeme, index⟩, place, rfl⟩
  rw [drop_zero, mk_mem_zipIdx_iff_getElem?] at place
  exact (isPlan.endsArray ((chosen_iff index).mp mark)).1.lexed lexed place

/-- The text that a plan leaves is cut into the pieces that the plan leaves. -/
theorem IsPlan.cut_texts {source : List Char} (cuts : Lexeme.Cuts .html {} source lexemes) :
    Lexeme.cut .html (Lexeme.texts (piecesFrom plan lexemes 0)) =
      (piecesFrom plan lexemes 0).foldr Lexeme.attach [] := by
  have start : Boundary plan lexemes 0 false := fun previous next => by omega
  have revision := revision_piecesFrom isPlan.apart isPlan.fits start
  rw [drop_zero] at revision
  exact Lexeme.cut_revision revision cuts (by simp)

/-- The code of the text that a plan leaves. -/
theorem IsPlan.significant_read_cut {source : List Char}
    (cuts : Lexeme.Cuts .html {} source lexemes) (chosen_iff : ∀ index, chosen index = true ↔
      PutsComma plan (Stream.settledKinds lexemes) index) :
    significant (Kind.read (Lexeme.cut .html (Lexeme.texts (piecesFrom plan lexemes 0)))) =
      Kind.withCommas [','] (significant (Kind.read (markedFrom lexemes chosen 0))) := by
  have begins : false = true ↔ Pending plan (Stream.settledKinds lexemes) 0 := by
    simp [Pending]
  have commas := isPlan.withCommas_markedFrom chosen_iff begins
  have closers := isPlan.marksClosers (Standard.isContextual_of_mem cuts) chosen_iff
  calc significant (Kind.read (Lexeme.cut .html (Lexeme.texts (piecesFrom plan lexemes 0))))
      = Kind.read (significant (piecesFrom plan lexemes 0)) := by
        rw [Kind.significant_read, isPlan.cut_texts cuts]
        exact congrArg Kind.read (filter_foldr_attach Kind.isSignificant rfl _)
    _ = Kind.read (Kind.withCommas [','] (significant (markedFrom lexemes chosen 0))) := by
        rw [← commas]
        rfl
    _ = Kind.withCommas [','] (significant (Kind.read (markedFrom lexemes chosen 0))) := by
        rw [Kind.read_withCommas [','] closers, Kind.significant_read]

end

end Repair

namespace Standard

section Pass

variable {lexemes : List Lexeme} {plan : List Repair} {source : List Char}

theorem not_fits_comma {mode : Lexeme.Mode} {position : Position}
    (cuts : Lexeme.Cuts mode position source lexemes) {comment : Comment} {tag : Tag} {last : Nat}
    (holds : Stream.Holds lexemes comment)
    (on_line : Stream.OnTagLine lexemes comment tag.token last) :
    ¬(Repair.comma last).Fits lexemes := by
  rintro ⟨found, takes, -⟩
  simp only [Lexeme.takesComma, Bool.and_eq_true] at takes
  exact not_significantAt_of_onTagLine cuts holds on_line ((significantAt_iff found).mpr takes.1.1)

theorem isPlan_of_origins {mode : Lexeme.Mode} {position : Position}
    (cuts : Lexeme.Cuts mode position source lexemes) (apart : plan.Pairwise Repair.Apart)
    (origins : ∀ repair ∈ plan, ∃ index, Origin lexemes index repair) :
    Repair.IsPlan lexemes plan where
  apart := apart
  fits repair planned := by
    rcases origins repair planned with ⟨index, origin⟩
    exact origin.fits
  trivia repair planned place deleted := by
    rcases origins repair planned with ⟨index, origin⟩
    cases origin with
    | tag declares documented separates search holds inside fits on_line =>
      exact not_significantAt_of_onTagLine cuts holds
        (on_line place (Repair.covers_of_deletes deleted))
    | comma array neighbours missing fits => simp [Repair.deletes] at deleted
  array last planned := by
    rcases origins _ planned with ⟨index, origin⟩
    cases origin with
    | tag declares documented separates search holds inside fits on_line =>
      exact absurd fits (not_fits_comma cuts holds (on_line last rfl))
    | @comma span _ array neighbours missing fits =>
      rw [Stream.kind?_ofLexemes] at missing
      exact ⟨span.closer, ⟨index, span, array, rfl⟩, neighbours, missing⟩

/-- The repairs of a plan turn a source into the text of what the plan leaves. -/
theorem contents_applyAll (isPlan : Repair.IsPlan (lex source) plan) :
    ((Fixer.ofStream (ofSource source) true).applyAll (plan.map Repair.edits)).contents =
      Lexeme.texts (Repair.piecesFrom plan (lex source) 0) := by
  rw [ofSource, Repair.applyAll_edits isPlan.apart isPlan.fits, Repair.texts_piecesFrom,
    Fixer.contents, flatMap_def]
  congr 1
  apply ext_getElem?
  intro index
  have text_at : (Stream.ofLexemes (lex source)).tokens[index]?.map (fun token => token.text) =
      (lex source)[index]?.map Lexeme.text := by
    simpa using congrArg (fun texts : List (List Char) => texts[index]?)
      (Stream.text_ofLexemes (lex source))
  simp only [getElem?_map, Array.getElem?_toList, Fixer.getElem?_foldl_applyEdit,
    Fixer.ofStream, Array.getElem?_map, Option.map_map, Function.comp_def, getElem?_mapIdx]
  simpa only [Option.map_map, Function.comp_def, Repair.revised_eq_texts isPlan.apart isPlan.fits]
    using congrArg (Option.map (Edit.revised (plan.map Repair.edits).flatten index)) text_at

/-- The code of the text that the repairs of a plan leave. -/
theorem code_contents (isPlan : Repair.IsPlan (lex source) plan) {chosen : Nat → Bool}
    (chosen_iff : ∀ index, chosen index = true ↔
      Repair.PutsComma plan (Stream.settledKinds (lex source)) index) :
    (ofSource ((Fixer.ofStream (ofSource source) true).applyAll
      (plan.map Repair.edits)).contents).code = (ofSource source).codeWithCommas chosen := by
  rw [contents_applyAll isPlan, ofSource, Stream.code_ofLexemes, lex, Lexeme.map_piece_scan,
    Stream.codeWithCommas, ofSource, Stream.marked_ofLexemes]
  exact isPlan.significant_read_cut (cuts_lex source) chosen_iff

/-- A round of fixing puts commas before the closers of array literals that have none. -/
theorem exists_code_repaired {ruleset : Ruleset} (builtIn : IsBuiltIn ruleset)
    (source : List Char) :
    ∃ chosen : Nat → Bool,
      (∀ index, chosen index = true → Stream.EndsArray (lex source) index ∧
        lastBefore (Stream.settledKinds (lex source)) index ≠ some .comma) ∧
      (ofSource (repaired ruleset source)).code =
        (ofSource source).codeWithCommas chosen := by
  classical
  rcases exists_plan (cuts_lex source) builtIn with ⟨plan, plan_eq, apart, origins⟩
  have isPlan := isPlan_of_origins (cuts_lex source) apart origins
  let chosen (index : Nat) : Bool :=
    decide (Repair.PutsComma plan (Stream.settledKinds (lex source)) index)
  have chosen_iff (index : Nat) : chosen index = true ↔
      Repair.PutsComma plan (Stream.settledKinds (lex source)) index := decide_eq_true_iff
  refine ⟨chosen, fun index here => isPlan.endsArray ((chosen_iff index).mp here), ?_⟩
  have offered_eq : offered ruleset source = plan.map Repair.edits := plan_eq.symm
  rw [repaired, offered_eq]
  exact code_contents isPlan chosen_iff

/-- In the terms of the marked code, where several rounds can be put together. -/
theorem commasAdded_repaired {ruleset : Ruleset} (builtIn : IsBuiltIn ruleset)
    (source : List Char) :
    Kind.CommasAdded [','] none (Kind.markArrays none [] (ofSource source).code)
      (Kind.markArrays none [] (ofSource (repaired ruleset source)).code) := by
  rcases exists_code_repaired builtIn source with ⟨chosen, allowed, code_eq⟩
  have lexed := isContextual_of_mem (cuts_lex source)
  have admits : Kind.Admits none [] ((ofSource source).marked chosen) := by
    refine admits_of_endsArray lexed (.start _) (Stream.map_fst_marked _ _).symm ?_
    intro offset item found mark
    rw [Stream.marked, getElem?_mapIdx, Option.map_eq_some_iff] at found
    rcases found with ⟨token, -, rfl⟩
    rw [Nat.zero_add]
    exact allowed offset mark
  rw [code_eq, ← Stream.map_unmark_significant_marked (ofSource source) chosen]
  exact Kind.commasAdded_withCommas (fun item inside => (List.mem_filter.mp inside).2)
    (Kind.admits_significant admits)

end Pass

/-- The rounds of a fix run add up. -/
theorem commasAdded_fixPasses {ruleset : Ruleset} (builtIn : IsBuiltIn ruleset) (path : String)
    (passes : Nat) (progress : Runner.Progress) (goesOn : progress.isConverged = false) :
    Kind.CommasAdded [','] none
      (Kind.markArrays none [] (ofSource progress.source).code)
      (Kind.markArrays none []
        (ofSource (Runner.fixPasses path passes ruleset progress).2.source).code) :=
  (fixPasses_keeps builtIn path
    (fun source _ => Kind.CommasAdded [','] none
      (Kind.markArrays none [] (ofSource progress.source).code)
      (Kind.markArrays none [] (ofSource source).code))
    passes goesOn (.refl none _)
    fun source _ _ added => added.trans (commasAdded_repaired builtIn source)).2.1

/-- What commas were added to the code of a source, as the choice of tokens before which they
stand. -/
theorem exists_code_of_commasAdded {source : List Char} {code : List Piece}
    (added : Kind.CommasAdded [','] none (Kind.markArrays none [] (ofSource source).code)
      (Kind.markArrays none [] code)) :
    ∃ chosen : Nat → Bool,
      (∀ index, chosen index = true → Stream.EndsArray (lex source) index) ∧
      code = (ofSource source).codeWithCommas chosen := by
  have lexed := isContextual_of_mem (cuts_lex source)
  let pieces := (ofSource source).tokens.toList.map fun token => (token.kind, token.text)
  have kinds_eq : pieces.map Prod.fst = Stream.settledKinds (lex source) := by
    rw [← Stream.kinds_ofLexemes, map_map]
    rfl
  rw [Stream.code, ← Kind.significant_markArrays] at added
  rcases added.exists_chosen with ⟨chosen, marks, code_eq⟩
  have marked_eq : (pieces.mapIdx fun place item => (item.1, chosen place, item.2)) =
      (ofSource source).marked chosen := by
    apply ext_getElem?
    simp [pieces, Stream.marked, Function.comp_def]
  refine ⟨chosen, fun index here => ?_, ?_⟩
  · rcases marks index here with ⟨item, found, mark⟩
    have ends := endsArray_of_mark lexed (.start _) kinds_eq.symm found mark
    rwa [Nat.zero_add] at ends
  · rw [Kind.map_unmark_markArrays, Kind.map_unmark_markArrays, marked_eq] at code_eq
    exact code_eq

/-- Fixing preserves the program: the code of the fixed text is the code of the source, with commas
before some of the tokens that close its array literals. No literal gets two of them. -/
theorem fix_preserves_code (runner : Runner)
    (builtIn : (runner.ruleset.listeners.map Listener.rule).Sublist rules) (path : String)
    (source : List Char) :
    ∃ chosen : Nat → Bool,
      (∀ index, chosen index = true → ∃ owner, (Stream.ofSource source).ClosesArray owner index) ∧
      (∀ owner first second, chosen first = true → chosen second = true →
        (Stream.ofSource source).ClosesArray owner first →
        (Stream.ofSource source).ClosesArray owner second → first = second) ∧
      (Stream.ofSource (runner.fix path source).1.source).code =
        (Stream.ofSource source).codeWithCommas chosen := by
  have added := commasAdded_fixPasses builtIn path runner.maxPasses { source } rfl
  rcases exists_code_of_commasAdded added with ⟨chosen, ends, code_eq⟩
  refine ⟨chosen, fun index here => (ends index here).exists_closesArray, ?_, code_eq⟩
  intro owner first second _ _ closes also
  rcases closes.scope with ⟨scope, found, -, rfl⟩
  rcases also.scope with ⟨other, other_found, -, rfl⟩
  rw [Option.some.inj (found.symm.trans other_found)]

theorem fix_preserves_code_nested_arrays :
    let runner := Runner.ofRuleset (ruleset fun _ => true)
    let source := "<?php\narray(\n[\n1\n]\n);".toList
    let fixed := (runner.fix "a.php" source).1.source
    fixed = "<?php\narray(\n[\n1,\n],\n);".toList ∧
      ∃ chosen : Nat → Bool,
        (∀ index, chosen index = true → ∃ owner, (Stream.ofSource source).ClosesArray owner index) ∧
        (Stream.ofSource fixed).code = (Stream.ofSource source).codeWithCommas chosen := by
  intro runner source fixed
  rcases fix_preserves_code runner (isBuiltIn_ruleset _) "a.php" source with
    ⟨chosen, closes, -, code_eq⟩
  exact ⟨by decide +kernel, chosen, closes, code_eq⟩

end Standard

end PhpStyle
