import Mathlib.Data.List.SplitBy
import PhpStyle.Proofs.Plans
import PhpStyle.Proofs.Segmentation
import PhpStyle.Proofs.SourceLines

/-!
# Deleting a line

The tokens on the line of a token are found by going from it to its neighbours. As
lines never decrease along a file, the tokens that are reached in this way are all
tokens on the line.

Whether their texts join to the line itself is another matter. A token that goes on
over the end of a line hides where lines begin and end. Where no such token has a
character on the line, the token before it ends with a newline, the tokens on it
have no newline but the last one, and that one ends the line or the file. Deleting
the tokens then takes out one physical line and leaves all other lines as they are.
-/

namespace PhpStyle

open Text List

/-- The lines of a text, each with the newline that ends it. -/
def physicalLines (text : List Char) : List (List Char) :=
  text.splitBy fun c _ => c != '\n'

/-- The text `front ++ (line ++ rest)` is cut before and behind one of its lines. -/
structure CutsLine (front line rest : List Char) : Prop where
  starts : ∀ c ∈ front.getLast?, c = '\n'
  nonempty : line ≠ []
  oneLine : IsOneLine line
  ends : line.getLast? = some '\n' ∨ rest = []

section PhysicalLines

variable {front line rest : List Char}

theorem flatten_physicalLines (text : List Char) : (physicalLines text).flatten = text :=
  flatten_splitBy _ text

theorem physicalLines_append (starts : ∀ c ∈ front.getLast?, c = '\n') (rest : List Char) :
    physicalLines (front ++ rest) = physicalLines front ++ physicalLines rest := by
  apply splitBy_append
  intro c last _ _
  simp [starts c last]

theorem isChain_of_isOneLine (oneLine : IsOneLine line) :
    line.IsChain fun c _ => (c != '\n') = true := by
  induction line with
  | nil => exact .nil
  | cons c line ih =>
    cases line with
    | nil => exact .singleton c
    | cons d line =>
      rw [IsOneLine, dropLast_cons_cons, mem_cons, not_or] at oneLine
      rw [isChain_cons_cons]
      exact ⟨by simpa using Ne.symm oneLine.1, ih oneLine.2⟩

theorem physicalLines_of_isOneLine (oneLine : IsOneLine line) (nonempty : line ≠ []) :
    physicalLines line = [line] :=
  splitBy_of_isChain nonempty (isChain_of_isOneLine oneLine)

theorem CutsLine.physicalLines_eq (cuts : CutsLine front line rest) :
    physicalLines (front ++ (line ++ rest)) =
      physicalLines front ++ line :: physicalLines rest := by
  have alone := physicalLines_of_isOneLine cuts.oneLine cuts.nonempty
  rw [physicalLines_append cuts.starts]
  rcases cuts.ends with newline | rfl
  · rw [physicalLines_append (by simp [newline]), alone]
    rfl
  · rw [append_nil, alone]
    rfl

/-- Where all lines are ended there are as many of them as newlines. -/
theorem length_physicalLines (starts : ∀ c ∈ front.getLast?, c = '\n') :
    (physicalLines front).length = front.count '\n' := by
  induction newlines : front.count '\n' generalizing front with
  | zero =>
    rcases eq_nil_or_concat' front with rfl | ⟨init, last, rfl⟩
    · rfl
    · obtain rfl := starts last (by simp)
      simp at newlines
  | succ count ih =>
    have inside : '\n' ∈ front := List.count_pos_iff.mp (by omega)
    rcases eq_append_cons_of_mem inside with ⟨first, others, rfl, within⟩
    have cuts : CutsLine [] (first ++ ['\n']) others := by
      refine ⟨by simp, by simp, ?_, .inl (by simp)⟩
      rwa [IsOneLine, dropLast_concat]
    have later : ∀ c ∈ others.getLast?, c = '\n' := by
      intro c last
      apply starts
      rw [Option.mem_def] at last ⊢
      simp [getLast?_append, getLast?_cons, last]
    rw [count_append, count_cons_self, List.count_eq_zero.mpr within] at newlines
    have split := cuts.physicalLines_eq
    rw [nil_append, List.append_assoc, singleton_append] at split
    rw [split, length_append, length_cons, ih later (by omega)]
    exact Nat.zero_add _

/-- What is left of a text has all its lines but one. -/
theorem CutsLine.eraseIdx (cuts : CutsLine front line rest) :
    physicalLines (front ++ rest) =
      (physicalLines (front ++ (line ++ rest))).eraseIdx (front.count '\n') := by
  have count := length_physicalLines cuts.starts
  rw [physicalLines_append cuts.starts, cuts.physicalLines_eq, ← count,
    eraseIdx_append_of_length_le (Nat.le_refl _), Nat.sub_self]
  rfl

end PhysicalLines

/-- A character of the lexeme stands on the line: the lexeme starts there or extends onto it. -/
def Lexeme.IsOn (lexeme : Lexeme) (line : Nat) : Prop :=
  lexeme.line ≤ line ∧ line ≤ lexeme.line + lexeme.text.dropLast.count '\n'

instance (lexeme : Lexeme) (line : Nat) : Decidable (lexeme.IsOn line) :=
  inferInstanceAs (Decidable (_ ∧ _))

namespace Fixer

variable {stream : Stream} {first last : Nat}

theorem takes_deletions (ordered : first ≤ last) (inside : last < stream.size) :
    Takes (ofStream stream true) (deletions first last) where
  nonempty := by
    intro empty
    have touched := (Repair.touches_deletions first last last).mpr ⟨ordered, Nat.le_refl last⟩
    simp [empty, Edit.touches] at touched
  fresh edit member := by
    have touched : Edit.touches (deletions first last) edit.index = true := by
      simpa [Edit.touches] using ⟨edit, member, rfl⟩
    have bounds := (Repair.touches_deletions _ _ _).mp touched
    have bound : edit.index < (ofStream stream true).slots.size := by
      rw [ofStream, Array.size_map]
      exact Nat.lt_of_le_of_lt bounds.2 inside
    exact ⟨_, Array.getElem?_eq_getElem bound, by simp [ofStream]⟩

theorem flatten_mapIdx_of_cut (texts : List (List Char)) {stop : Nat} (ordered : first ≤ stop) :
    (texts.mapIdx fun index text => if first ≤ index ∧ index < stop then [] else text).flatten =
      (texts.take first).flatten ++ (texts.drop stop).flatten := by
  induction texts generalizing first stop with
  | nil => simp
  | cons text texts ih =>
    rw [mapIdx_cons, flatten_cons]
    cases stop with
    | zero =>
      obtain rfl := Nat.le_zero.mp ordered
      simpa using ih (Nat.le_refl 0)
    | succ stop =>
      cases first with
      | zero => simpa using ih (Nat.zero_le stop)
      | succ first => simpa using ih (Nat.le_of_succ_le_succ ordered)

theorem contents_deleteRange (ordered : first ≤ last) (inside : last < stream.size) :
    ((ofStream stream true).deleteRange first last).2.contents =
      (stream.tokens.toList.take first).flatMap (fun token => token.text) ++
        (stream.tokens.toList.drop (last + 1)).flatMap fun token => token.text := by
  have texts : (((deletions first last).foldl applyEdit (ofStream stream true).slots).toList.map
      Slot.text) = (stream.tokens.toList.map fun token => token.text).mapIdx
        fun index text => if first ≤ index ∧ index < last + 1 then [] else text := by
    apply ext_getElem?
    intro index
    simp [getElem?_foldl_applyEdit, ofStream, Repair.revised_deletions, Function.comp_def]
  rw [deleteRange, (takes_deletions ordered inside).apply_eq rfl rfl, contents, flatMap_def,
    texts, flatten_mapIdx_of_cut _ (by omega), ← map_take, ← map_drop,
    ← flatMap_def, ← flatMap_def]

theorem deleteLine_of_lineSpan? {anchor : Nat} (span : stream.lineSpan? anchor = some (first, last))
    (fixer : Fixer) : fixer.deleteLine stream anchor = fixer.deleteRange first last := by
  rw [deleteLine, span]

end Fixer

namespace Stream

variable {source : List Char} {anchor line first last : Nat}

variable {index : Nat}

theorem line?_of_getElem? {lexeme : Lexeme} (found : (lex source)[index]? = some lexeme) :
    (ofSource source).line? index = some lexeme.line := by
  rw [ofSource, line?_ofLexemes, found]
  rfl

theorem exists_of_line? (found : (ofSource source).line? index = some line) :
    ∃ lexeme, (lex source)[index]? = some lexeme ∧ lexeme.line = line := by
  rwa [ofSource, line?_ofLexemes, Option.map_eq_some_iff] at found

/-- Between two tokens on a line there are only tokens on the line. -/
theorem line?_of_between {low high : Nat} (low_on : (ofSource source).line? low = some line)
    (high_on : (ofSource source).line? high = some line) (lower : low ≤ index)
    (upper : index ≤ high) : (ofSource source).line? index = some line := by
  rcases exists_of_line? low_on with ⟨start, start_found, start_line⟩
  rcases exists_of_line? high_on with ⟨stop, stop_found, stop_line⟩
  have bound := (List.getElem?_eq_some_iff.mp stop_found).1
  have found := getElem?_eq_getElem (show index < (lex source).length by omega)
  have from_start := (cuts_lex source).line_le start_found found lower
  have to_stop := (cuts_lex source).line_le found stop_found upper
  rw [line?_of_getElem? found]
  exact congrArg some (by omega)

/-- The lexemes of a file, cut before and behind those from one place to another. -/
structure Parts (lexemes : List Lexeme) (first last : Nat) (before body : List Lexeme)
    (final : Lexeme) (behind : List Lexeme) : Prop where
  split : lexemes = before ++ (body ++ final :: behind)
  first_eq : before.length = first
  last_eq : first + body.length = last

namespace Parts

variable {lexemes before body behind : List Lexeme} {final : Lexeme}
  (parts : Parts lexemes first last before body final behind)

include parts

theorem getElem?_body {offset : Nat} (bound : offset < body.length) :
    lexemes[first + offset]? = body[offset]? := by
  rw [parts.split, getElem?_append_right (by rw [parts.first_eq]; omega), ← parts.first_eq,
    Nat.add_sub_cancel_left, getElem?_append_left bound]

theorem getElem?_final : lexemes[last]? = some final := by
  rw [parts.split, ← List.append_assoc, getElem?_append_right, length_append,
    parts.first_eq, parts.last_eq, Nat.sub_self]
  · rfl
  · rw [length_append, parts.first_eq, parts.last_eq]

theorem take_eq : lexemes.take first = before := by
  rw [parts.split, ← parts.first_eq, take_left]

theorem drop_eq : lexemes.drop (last + 1) = behind := by
  have length_eq : (before ++ (body ++ [final])).length = last + 1 := by
    rw [← parts.last_eq, ← parts.first_eq]
    simp
    omega
  have regrouped : lexemes = (before ++ (body ++ [final])) ++ behind := by
    rw [parts.split]
    simp
  rw [regrouped, ← length_eq, drop_left]

end Parts

theorem Parts.flatMap_text {before body behind : List Lexeme} {final : Lexeme}
    (parts : Parts (lex source) first last before body final behind) :
    before.flatMap Lexeme.text ++
      ((body ++ [final]).flatMap Lexeme.text ++ behind.flatMap Lexeme.text) = source := by
  have whole := (cuts_lex source).flatMap_text
  rw [parts.split] at whole
  simpa using whole

theorem exists_parts {lexemes : List Lexeme} (ordered : first ≤ last)
    (inside : last < lexemes.length) :
    ∃ before body final behind, Parts lexemes first last before body final behind := by
  refine ⟨lexemes.take first, (lexemes.drop first).take (last - first), lexemes[last],
    lexemes.drop (last + 1), ?_, ?_, ?_⟩
  · have rest : (lexemes.drop first).drop (last - first) =
        lexemes[last] :: lexemes.drop (last + 1) := by
      rw [drop_drop, Nat.add_sub_cancel' ordered, drop_eq_getElem_cons inside]
    rw [← rest, take_append_drop, take_append_drop]
  · rw [length_take]
    omega
  · rw [length_take, length_drop]
    omega

theorem flatMap_text_drop (lexemes : List Lexeme) (count : Nat) :
    ((ofLexemes lexemes).tokens.toList.drop count).flatMap (fun token => token.text) =
      (lexemes.drop count).flatMap Lexeme.text := by
  rw [flatMap_def, flatMap_def, map_drop, text_ofLexemes, map_drop]

namespace LineRun

variable (run : LineRun (ofSource source) anchor line first last)

include run

/-- The run around a token takes in all tokens on its line. -/
theorem line?_iff (index : Nat) :
    (ofSource source).line? index = some line ↔ first ≤ index ∧ index ≤ last := by
  have first_le := run.first_le
  have le_last := run.le_last
  have at_anchor := run.on_line anchor first_le le_last
  constructor
  · intro here
    constructor
    · by_contra early
      rcases run.before with start | elsewhere
      · omega
      · exact elsewhere (line?_of_between here at_anchor (by omega) (by omega))
    · by_contra late
      exact run.behind (line?_of_between at_anchor here (by omega) (by omega))
  · rintro ⟨lower, upper⟩
    exact run.on_line index lower upper

theorem ordered : first ≤ last :=
  run.first_le.trans run.le_last

theorem last_lt_length : last < (lex source).length := by
  rcases exists_of_line? (run.on_line last run.ordered (Nat.le_refl last)) with
    ⟨lexeme, found, -⟩
  exact (List.getElem?_eq_some_iff.mp found).1

theorem last_lt_size : last < (ofSource source).size := by
  rw [ofSource, size_ofLexemes]
  exact run.last_lt_length

variable {before body behind : List Lexeme} {final : Lexeme}
  (parts : Parts (lex source) first last before body final behind)

include parts

theorem contents_deleteRange :
    ((Fixer.ofStream (ofSource source) true).deleteRange first last).2.contents =
      before.flatMap Lexeme.text ++ behind.flatMap Lexeme.text := by
  rw [Fixer.contents_deleteRange run.ordered run.last_lt_size, ofSource, flatMap_text_take,
    flatMap_text_drop, parts.take_eq, parts.drop_eq]

theorem count_before : line = 1 + (before.flatMap Lexeme.text).count '\n' := by
  rcases exists_of_line? (run.on_line first (Nat.le_refl first) run.ordered) with
    ⟨start, found, rfl⟩
  rw [← parts.take_eq]
  exact (cuts_lex source).line_at found

theorem line_final : final.line = line := by
  have here := run.on_line last run.ordered (Nat.le_refl last)
  rw [line?_of_getElem? parts.getElem?_final] at here
  exact Option.some.inj here

/-- Before the last token on a line no newline comes. -/
theorem newline_not_mem_body : '\n' ∉ body.flatMap Lexeme.text := by
  intro inside
  rcases List.mem_flatMap.mp inside with ⟨lexeme, member, newline⟩
  rcases getElem?_of_mem member with ⟨offset, offset_found⟩
  have bound := (List.getElem?_eq_some_iff.mp offset_found).1
  have last_eq := parts.last_eq
  have found := (parts.getElem?_body bound).trans offset_found
  have here := run.on_line (first + offset) (by omega) (by omega)
  rw [line?_of_getElem? found, Option.some.injEq] at here
  rcases exists_of_line? (run.on_line (first + offset + 1) (by omega) (by omega)) with
    ⟨next, next_found, next_line⟩
  have advances := ((cuts_lex source).adjacent_at found next_found).line
  have counted := List.count_pos_iff.mpr newline
  omega

variable (clear : ∀ lexeme ∈ lex source, '\n' ∈ lexeme.text.dropLast → ¬lexeme.IsOn line)

include clear

/-- The line starts at the beginning of the file or behind a newline. -/
theorem newline_before : ∀ c ∈ (before.flatMap Lexeme.text).getLast?, c = '\n' := by
  rcases eq_nil_or_concat' before with rfl | ⟨init, previous, rfl⟩
  · simp
  have first_eq := parts.first_eq
  rw [length_append, length_singleton] at first_eq
  have found : (lex source)[init.length]? = some previous := by
    rw [parts.split]
    simp
  have member := mem_of_getElem? found
  rcases exists_of_line? (run.on_line first (Nat.le_refl first) run.ordered) with
    ⟨start, start_found, start_line⟩
  rw [← first_eq] at start_found
  have advances := ((cuts_lex source).adjacent_at found start_found).line
  have elsewhere : previous.line ≠ line := by
    intro same
    have away := run.before.resolve_left (by omega)
    rw [← first_eq, Nat.add_sub_cancel, line?_of_getElem? found, same] at away
    exact away rfl
  rcases eq_nil_or_concat' previous.text with empty | ⟨text, c, text_eq⟩
  · exact absurd empty ((cuts_lex source).text_ne_nil previous member)
  have last_char : ((init ++ [previous]).flatMap Lexeme.text).getLast? = some c := by
    simp [text_eq]
  rw [last_char]
  rintro _ ⟨⟩
  by_contra other
  have count_eq : previous.text.count '\n' = text.count '\n' := by
    simp [text_eq, other]
  refine clear previous member ?_ ?_
  · rw [text_eq, dropLast_concat]
    exact List.count_pos_iff.mp (by omega)
  · rw [Lexeme.IsOn, text_eq, dropLast_concat]
    omega

theorem isOneLine_final : IsOneLine final.text := by
  intro spans
  apply clear final (mem_of_getElem? parts.getElem?_final) spans
  rw [Lexeme.IsOn, run.line_final parts]
  omega

/-- The line ends with a newline or with the file. -/
theorem newline_or_end : final.text.getLast? = some '\n' ∨ behind = [] := by
  cases more : behind with
  | nil => exact .inr rfl
  | cons next behind =>
    left
    have next_found : (lex source)[last + 1]? = some next := by
      rw [← head?_drop, parts.drop_eq, more]
      rfl
    have advances := ((cuts_lex source).adjacent_at parts.getElem?_final next_found).line
    have elsewhere := run.behind
    rw [line?_of_getElem? next_found, advances, run.line_final parts] at elsewhere
    have newline : '\n' ∈ final.text := by
      by_contra within
      rw [List.count_eq_zero.mpr within] at elsewhere
      exact elsewhere rfl
    exact (isOneLine_iff.mp (run.isOneLine_final parts clear)).2 newline

/-- The tokens on a line that no token crosses make up the physical line. -/
theorem cutsLine : CutsLine (before.flatMap Lexeme.text) ((body ++ [final]).flatMap Lexeme.text)
    (behind.flatMap Lexeme.text) := by
  have member := mem_of_getElem? parts.getElem?_final
  have nonempty := (cuts_lex source).text_ne_nil final member
  have joined : (body ++ [final]).flatMap Lexeme.text =
      body.flatMap Lexeme.text ++ final.text := by
    simp
  rw [joined]
  refine ⟨run.newline_before parts clear, by simp [nonempty], ?_, ?_⟩
  · rw [IsOneLine, dropLast_append_of_ne_nil nonempty, mem_append, not_or]
    exact ⟨run.newline_not_mem_body parts, run.isOneLine_final parts clear⟩
  · rcases run.newline_or_end parts clear with newline | rfl
    · rw [getLast?_append, newline]
      exact .inl rfl
    · exact .inr rfl

end LineRun

theorem exists_token_of_mem_lex {lexeme : Lexeme} (inside : lexeme ∈ lex source) :
    ∃ token ∈ (ofSource source).tokens, token.text = lexeme.text ∧ token.line = lexeme.line := by
  rcases getElem?_of_mem inside with ⟨index, found⟩
  rcases get?_ofLexemes found with ⟨kind, conditions, -, token_found⟩
  exact ⟨_, Array.mem_of_getElem? token_found, rfl, rfl⟩

/-- Deleting a line deletes that line. The tokens that are found for a token are all tokens on its
line. If no token that spans lines has a character there, deleting them leaves the source without
the physical line of that number, and with all its other lines. -/
theorem line_deletion_is_exact (source : List Char) {anchor line : Nat}
    (found : (ofSource source).line? anchor = some line) :
    let stream := ofSource source
    ∃ first last, stream.lineSpan? anchor = some (first, last) ∧
      (∀ index, stream.line? index = some line ↔ first ≤ index ∧ index ≤ last) ∧
      ((∀ token ∈ stream.tokens, '\n' ∈ token.text.dropLast → ¬token.IsOn line) →
        let deleted := (Fixer.ofStream stream true).deleteLine stream anchor
        deleted.1 = .ok (last + 1 - first) ∧
          0 < line ∧ line ≤ (physicalLines source).length ∧
          deleted.2.contents = ((physicalLines source).eraseIdx (line - 1)).flatten ∧
          physicalLines deleted.2.contents = (physicalLines source).eraseIdx (line - 1)) := by
  intro stream
  rcases lineSpan?_eq_some found with ⟨first, last, span, run⟩
  refine ⟨first, last, span, run.line?_iff, ?_⟩
  intro clear deleted
  have clear_lexemes : ∀ lexeme ∈ lex source,
      '\n' ∈ lexeme.text.dropLast → ¬lexeme.IsOn line := by
    intro lexeme inside spans on
    rcases exists_token_of_mem_lex inside with ⟨token, member, text_eq, line_eq⟩
    rw [Lexeme.IsOn, ← text_eq, ← line_eq] at on
    exact clear token member (text_eq ▸ spans) on
  rcases exists_parts run.ordered run.last_lt_length with ⟨before, body, final, behind, parts⟩
  have cutsLine := run.cutsLine parts clear_lexemes
  have count := run.count_before parts
  have source_eq := parts.flatMap_text
  have deleted_eq : deleted = (Fixer.ofStream stream true).deleteRange first last :=
    Fixer.deleteLine_of_lineSpan? span _
  have contents_eq : deleted.2.contents =
      before.flatMap Lexeme.text ++ behind.flatMap Lexeme.text := by
    rw [deleted_eq]
    exact run.contents_deleteRange parts
  have lines := cutsLine.eraseIdx
  have line_eq : line - 1 = (before.flatMap Lexeme.text).count '\n' := by omega
  rw [source_eq, ← contents_eq, ← line_eq] at lines
  refine ⟨?_, by omega, ?_, ?_, lines⟩
  · have takes := Fixer.takes_deletions run.ordered run.last_lt_size
    rw [deleted_eq, Fixer.deleteRange, takes.fst_apply rfl rfl]
    simp [Fixer.deletions]
  · have split := cutsLine.physicalLines_eq
    rw [source_eq] at split
    rw [split, length_append, length_cons, length_physicalLines cutsLine.starts]
    omega
  · rw [← lines, flatten_physicalLines]

/-- A string spans the second and the third of five lines, and the last one has no newline. On a
line of the string itself the string goes as a whole. -/
theorem line_deletion_is_exact_around_string :
    let source := "<?php\n$a = 'x\ny';\n?>\n<b>".toList
    let stream := ofSource source
    let without (anchor : Nat) : List Char :=
      ((Fixer.ofStream stream true).deleteLine stream anchor).2.contents
    (stream.line? 9 = some 4 ∧ physicalLines (without 9) = (physicalLines source).eraseIdx 3 ∧
        without 9 = "<?php\n$a = 'x\ny';\n<b>".toList) ∧
      stream.line? 10 = some 5 ∧ physicalLines (without 10) = (physicalLines source).eraseIdx 4 ∧
        without 10 = "<?php\n$a = 'x\ny';\n?>\n".toList := by
  intro source stream without
  have fourth : stream.line? 9 = some 4 := by decide +kernel
  have fifth : stream.line? 10 = some 5 := by decide +kernel
  rcases line_deletion_is_exact source fourth with ⟨_, _, -, -, deletes⟩
  rcases line_deletion_is_exact source fifth with ⟨_, _, -, -, deletes_last⟩
  rcases deletes (by decide +kernel) with ⟨-, -, -, -, lines⟩
  rcases deletes_last (by decide +kernel) with ⟨-, -, -, -, last_lines⟩
  exact ⟨⟨fourth, lines, by decide +kernel⟩, fifth, last_lines, by decide +kernel⟩

example :
    let stream := ofSource "<?php\n$a = 'x\ny';\n".toList
    ((Fixer.ofStream stream true).deleteLine stream 2).2.contents = "<?php\n;\n".toList := by
  decide +kernel

end Stream

end PhpStyle
