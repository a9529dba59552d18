import PhpStyle.Proofs.Navigation
import PhpStyle.TagTable

/-!
# Doc comments and the removal of their tags

A closed doc comment reaches from its opener to the first closer behind it. Its
tags stand in between, each on a line of its own.

The removal of a tag is a `Repair` of one of two kinds: a whole line goes, from
behind the newline before it up to its own newline, or the tag goes with the text
behind it, and the newline or the closer that ends the text stays. Either way all
that it needs lies on the line of the tag, so the removals of two tags never
meet.
-/

namespace PhpStyle

open List

/-- A place that a doc comment has reached, with its opener and its tags so far. -/
structure Enclosed (kinds : List Kind) (opener reached : Nat) (tags : List Nat) : Prop where
  opens : kinds[opener]? = some .docOpen
  lt : opener < reached
  goesOn : ∀ index, opener < index → index < reached → kinds[index]? ≠ some .docClose
  tag : ∀ tag ∈ tags, opener < tag ∧ tag < reached ∧ kinds[tag]? = some .docTag
  sorted : tags.Pairwise (· < ·)

namespace Enclosed

variable {kinds : List Kind} {opener index : Nat} {tags : List Nat}

theorem start (opens : kinds[index]? = some .docOpen) : Enclosed kinds index (index + 1) [] where
  opens := opens
  lt := by omega
  goesOn other lower upper := by omega
  tag := by simp
  sorted := .nil

theorem next (enclosed : Enclosed kinds opener index tags)
    (stays : kinds[index]? ≠ some .docClose) : Enclosed kinds opener (index + 1) tags where
  opens := enclosed.opens
  lt := by have := enclosed.lt; omega
  goesOn other lower upper := by
    rcases Nat.eq_or_lt_of_le (Nat.le_of_lt_succ upper) with rfl | earlier
    · exact stays
    · exact enclosed.goesOn other lower earlier
  tag tag inside := by
    rcases enclosed.tag tag inside with ⟨lower, upper, tagged⟩
    exact ⟨lower, by omega, tagged⟩
  sorted := enclosed.sorted

theorem addTag (enclosed : Enclosed kinds opener index tags)
    (tagged : kinds[index]? = some .docTag) :
    Enclosed kinds opener (index + 1) (tags ++ [index]) where
  opens := enclosed.opens
  lt := (enclosed.next (by simp [tagged])).lt
  goesOn := (enclosed.next (by simp [tagged])).goesOn
  tag := by
    intro tag inside
    rcases List.mem_append.mp inside with earlier | last
    · exact (enclosed.next (by simp [tagged])).tag tag earlier
    · obtain rfl := List.mem_singleton.mp last
      exact ⟨enclosed.lt, by omega, tagged⟩
  sorted := by
    refine List.pairwise_append.mpr ⟨enclosed.sorted, by simp, fun tag inside last same => ?_⟩
    obtain rfl := List.mem_singleton.mp same
    exact (enclosed.tag tag inside).2.1

end Enclosed

/-- A block that is closed is enclosed by its opener and closer. -/
theorem DocBlock.enclosed_of_mem_collect {kinds rest : List Kind} {index closer : Nat}
    {stillOpen : Option (Nat × List Nat)} {block : DocBlock} (suffix : kinds.drop index = rest)
    (reached : ∀ opener tags, stillOpen = some (opener, tags) → Enclosed kinds opener index tags)
    (found : block ∈ collect stillOpen (rest.zipIdx index)) (closes : block.closer = some closer) :
    Enclosed kinds block.opener closer block.tags ∧ kinds[closer]? = some .docClose := by
  induction rest generalizing index stillOpen with
  | nil =>
    cases stillOpen with
    | none => simp [collect] at found
    | some start =>
      simp only [zipIdx_nil, collect, mem_singleton] at found
      simp [found] at closes
  | cons kind rest ih =>
    rcases getElem?_of_drop suffix with ⟨at_index, later⟩
    rw [zipIdx_cons] at found
    cases stillOpen with
    | none =>
      simp only [collect] at found
      split at found
      · next opens =>
          refine ih later (fun opener tags same => ?_) found
          obtain ⟨rfl, rfl⟩ : index = opener ∧ [] = tags := by simpa using same
          exact .start (opens ▸ at_index)
      · exact ih later (by simp) found
    | some start =>
      rcases start with ⟨opener, tags⟩
      have enclosed := reached opener tags rfl
      simp only [collect] at found
      split at found
      · next tagged =>
          refine ih later (fun other others same => ?_) found
          obtain ⟨rfl, rfl⟩ : opener = other ∧ tags ++ [index] = others := by simpa using same
          exact enclosed.addTag (tagged ▸ at_index)
      · split at found
        · next ends =>
            rcases List.mem_cons.mp found with rfl | found
            · obtain rfl := Option.some.inj closes
              exact ⟨enclosed, ends ▸ at_index⟩
            · exact ih later (by simp) found
        · next goesOn =>
            split at found
            · refine ih later (fun other others same => ?_) found
              obtain ⟨rfl, rfl⟩ : opener = other ∧ tags = others := by simpa using same
              exact enclosed.next (by simpa [at_index] using goesOn)
            · rcases List.mem_cons.mp found with rfl | found
              · simp at closes
              · exact ih later (by simp) found

namespace Stream

variable {lexemes : List Lexeme} {index : Nat} {comment : Comment}

theorem getElem?_settledKinds_iff {kind : Kind} (trivia : kind.isSignificant = false) :
    (settledKinds lexemes)[index]? = some kind ↔ (lexemes.map Lexeme.kind)[index]? = some kind := by
  rw [← kind?_ofLexemes]
  constructor
  · intro found
    rcases reading_of_kind? found with ⟨lexeme, word, lexeme_found, -⟩
    have same := isSignificant_of_kind? found lexeme_found
    have := kind?_of_isTrivia lexeme_found (same ▸ trivia)
    simp [lexeme_found, Option.some.inj (found.symm.trans this)]
  · intro found
    simp only [getElem?_map, Option.map_eq_some_iff] at found
    rcases found with ⟨lexeme, lexeme_found, rfl⟩
    exact kind?_of_isTrivia lexeme_found trivia

/-- The place of a doc comment in a file. -/
structure Holds (lexemes : List Lexeme) (comment : Comment) : Prop where
  enclosed : Enclosed (lexemes.map Lexeme.kind) comment.opener comment.closer
    (comment.tags.map Tag.token)
  closes : (lexemes.map Lexeme.kind)[comment.closer]? = some .docClose

/-- The end of a doc comment knows its comment: the block closes there, since another kind of token
opens it. -/
theorem holds_of_commentAt? (found : (ofLexemes lexemes).commentAt? index = some comment)
    (closes : (ofLexemes lexemes).kind? index = some .docClose) :
    comment.closer = index ∧ Holds lexemes comment := by
  simp only [commentAt?, Option.bind_eq_bind, Option.bind_eq_some_iff, Option.pure_def,
    Option.some.injEq] at found
  rcases found with ⟨token, at_index, block, block_found, closer, block_closer, rfl⟩
  rcases of_get? at_index with ⟨lexeme, kind, conditions, -, rfl⟩
  have collected : block ∈ DocBlock.collect none ((settledKinds lexemes).zipIdx 0) :=
    mem_of_find?_eq_some block_found
  have bounds := find?_some block_found
  rcases DocBlock.enclosed_of_mem_collect (drop_zero (l := settledKinds lexemes))
    (by simp) collected block_closer with ⟨enclosed, closer_kind⟩
  rw [kind?_ofLexemes] at closes
  obtain rfl : closer = index := by
    simp only [block_closer, Bool.or_eq_true, beq_iff_eq, Option.some.injEq] at bounds
    rcases bounds with rfl | same
    · simp [enclosed.opens] at closes
    · exact same
  have tokens : (block.tags.mapIdx fun position tag => (ofLexemes lexemes).tagAt tag position).map
      Tag.token = block.tags := by
    apply ext_getElem?
    intro place
    simp [Function.comp_def, tagAt]
  refine ⟨rfl, ?_, (getElem?_settledKinds_iff (by rfl)).mp closer_kind⟩
  rw [tokens]
  exact {
    opens := (getElem?_settledKinds_iff (by rfl)).mp enclosed.opens
    lt := enclosed.lt
    goesOn := fun place lower upper ends =>
      enclosed.goesOn place lower upper ((getElem?_settledKinds_iff (by rfl)).mpr ends)
    tag := fun tag inside =>
      ⟨(enclosed.tag tag inside).1, (enclosed.tag tag inside).2.1,
        (getElem?_settledKinds_iff (by rfl)).mp (enclosed.tag tag inside).2.2⟩
    sorted := enclosed.sorted }

/-- The line of a tag within its comment. -/
structure OnTagLine (lexemes : List Lexeme) (comment : Comment) (tag index : Nat) : Prop where
  opener_lt : comment.opener < index
  le_closer : index ≤ comment.closer
  line : lexemes[index]?.map Lexeme.line = lexemes[tag]?.map Lexeme.line

theorem Holds.tag_at (holds : Holds lexemes comment) {tag : Tag} (inside : tag ∈ comment.tags) :
    comment.opener < tag.token ∧ tag.token < comment.closer ∧
      ∃ lexeme, lexemes[tag.token]? = some lexeme ∧ lexeme.kind = .docTag := by
  rcases holds.enclosed.tag tag.token (mem_map_of_mem inside) with ⟨lower, upper, tagged⟩
  simp only [getElem?_map, Option.map_eq_some_iff] at tagged
  exact ⟨lower, upper, tagged⟩

/-- A doc comment around a place ends with the first closer behind the place. -/
theorem Holds.closer_le {other : Comment} (holds : Holds lexemes comment)
    (other_holds : Holds lexemes other) (upper : index ≤ comment.closer)
    (other_lower : other.opener < index) : other.closer ≤ comment.closer := by
  by_contra later
  exact other_holds.enclosed.goesOn comment.closer (by omega) (by omega) holds.closes

section Lines

variable {mode : Lexeme.Mode} {position : Position} {text : List Char}
  (cuts : Lexeme.Cuts mode position text lexemes)

include cuts

section

variable (holds : Holds lexemes comment)

include holds

theorem Holds.isInner {lexeme : Lexeme}
    (found : lexemes[index]? = some lexeme) (lower : comment.opener < index)
    (upper : index ≤ comment.closer) : Lexeme.isInner lexeme.kind = true := by
  have opens := holds.enclosed.opens
  simp only [getElem?_map, Option.map_eq_some_iff] at opens
  rcases opens with ⟨opener, opener_found, opens⟩
  refine cuts.isInner_of_docOpen opener_found opens found lower ?_
  intro place other place_lower place_upper other_found closes
  exact holds.enclosed.goesOn place place_lower (by omega) (by simp [other_found, closes])

theorem Holds.goesOn {lexeme : Lexeme} (found : lexemes[index]? = some lexeme)
    (lower : comment.opener < index) (upper : index < comment.closer) :
    Lexeme.isInner lexeme.kind = true ∧ lexeme.kind ≠ .docClose := by
  refine ⟨holds.isInner cuts found lower (by omega), fun closes => ?_⟩
  exact holds.enclosed.goesOn index lower upper (by simp [found, closes])

/-- Two tags of a comment are on different lines. -/
theorem Holds.le_of_line_eq {first second : Nat}
    {tag other : Lexeme} (found : lexemes[first]? = some tag) (tagged : tag.kind = .docTag)
    (other_found : lexemes[second]? = some other) (other_tagged : other.kind = .docTag)
    (lower : comment.opener < first) (upper : second < comment.closer)
    (line : tag.line = other.line) : second ≤ first := by
  by_contra ordered
  have := cuts.line_lt_of_docTag found tagged other_found other_tagged (by omega)
    fun place lexeme place_lower place_upper place_found =>
      holds.goesOn cuts place_found (by omega) (by omega)
  omega

/-- A line of a doc comment has one tag at most, and a place belongs to one comment at most. -/
theorem eq_of_onTagLine {other : Comment}
    (other_holds : Holds lexemes other) {tag other_tag : Tag} (inside : tag ∈ comment.tags)
    (other_inside : other_tag ∈ other.tags) (on : OnTagLine lexemes comment tag.token index)
    (other_on : OnTagLine lexemes other other_tag.token index) :
    comment.closer = other.closer ∧ tag.token = other_tag.token := by
  have closer_eq : comment.closer = other.closer :=
    Nat.le_antisymm
      (other_holds.closer_le holds other_on.le_closer on.opener_lt)
      (holds.closer_le other_holds on.le_closer other_on.opener_lt)
  rcases holds.tag_at inside with ⟨lower, upper, lexeme, found, tagged⟩
  rcases other_holds.tag_at other_inside with ⟨other_lower, other_upper, other_lexeme, other_found,
    other_tagged⟩
  have line : lexeme.line = other_lexeme.line := by
    have := on.line.symm.trans other_on.line
    simpa [found, other_found] using this
  refine ⟨closer_eq, Nat.le_antisymm ?_ ?_⟩
  · exact other_holds.le_of_line_eq cuts other_found other_tagged found tagged other_lower
      (by omega) line.symm
  · exact holds.le_of_line_eq cuts found tagged other_found other_tagged lower (by omega) line

end

end Lines

end Stream

/-- An edit that the built-in rules make. -/
inductive Repair where
  /-- A comma after a token. -/
  | comma (last : Nat)
  /-- The tokens behind one end of a line up to another one go. -/
  | line (previous last : Nat)
  /-- The tokens from a tag on go up to a token that stays. -/
  | tail (tag stop : Nat)
deriving DecidableEq, Repr, Inhabited

namespace Repair

/-- The changeset of a repair. -/
def edits : Repair → List Edit
  | comma last => [.append last [',']]
  | line previous last => Fixer.deletions (previous + 1) last
  | tail tag stop => Fixer.deletions tag (stop - 1)

/-- The tokens that a repair changes or that have to stay for it. -/
def covers : Repair → Nat → Prop
  | comma last, index => index = last
  | line previous last, index => previous < index ∧ index ≤ last
  | tail tag stop, index => tag ≤ index ∧ index ≤ stop

/-- What the file has to be like where a repair is made. -/
inductive Fits (lexemes : List Lexeme) : Repair → Prop where
  | comma {last : Nat} {lexeme : Lexeme} (found : lexemes[last]? = some lexeme)
      (takes : Lexeme.takesComma lexeme.kind = true) (more : last + 1 < lexemes.length) :
      Fits lexemes (comma last)
  | line {previous last : Nat} {before lexeme : Lexeme} (ordered : previous < last)
      (previous_found : lexemes[previous]? = some before) (starts : before.endsDocLine = true)
      (last_found : lexemes[last]? = some lexeme) (ends : lexeme.endsDocLine = true) :
      Fits lexemes (line previous last)
  | tail {tag stop : Nat} {lexeme behind : Lexeme} (ordered : tag < stop)
      (tag_found : lexemes[tag]? = some lexeme) (tagged : lexeme.kind = .docTag)
      (stop_found : lexemes[stop]? = some behind)
      (stops : behind.kind = .docClose ∨ behind.endsDocLine = true) :
      Fits lexemes (tail tag stop)

end Repair

namespace Stream

variable {lexemes : List Lexeme} {comment : Comment} {mode : Lexeme.Mode} {position : Position}
  {text : List Char}

variable {index : Nat} {lexeme : Lexeme}

theorem get?_of_isTrivia (found : lexemes[index]? = some lexeme)
    (trivia : lexeme.kind.isSignificant = false) :
    ∃ token, (ofLexemes lexemes).get? index = some token ∧ token.kind = lexeme.kind ∧
      token.text = lexeme.text ∧ token.line = lexeme.line := by
  rcases get?_ofLexemes found with ⟨kind, conditions, kind_found, token_found⟩
  have same := kind?_of_isTrivia found trivia
  rw [kind?_ofLexemes, kind_found, Option.some.injEq] at same
  exact ⟨_, token_found, same, rfl, rfl⟩

theorem isSignificant_of_isInner {kind : Kind} (inner : Lexeme.isInner kind = true) :
    kind.isSignificant = false := by
  revert inner
  cases kind <;> decide

theorem Holds.lt_length (holds : Holds lexemes comment) : comment.closer < lexemes.length := by
  have closes := (List.getElem?_eq_some_iff.mp holds.closes).1
  simpa using closes

section

variable (cuts : Lexeme.Cuts mode position text lexemes)

include cuts

/-- Inside a doc comment a line ends only with a newline of the comment. -/
theorem Holds.endsDocLine_of_line_ne (holds : Holds lexemes comment) {first second : Lexeme}
    (found : lexemes[index]? = some first) (next : lexemes[index + 1]? = some second)
    (lower : comment.opener ≤ index) (upper : index < comment.closer)
    (differ : first.line ≠ second.line) : first.endsDocLine = true := by
  have line := (cuts.adjacent_at found next).line
  have newline : '\n' ∈ first.text := by
    by_contra none
    rw [List.count_eq_zero.mpr none] at line
    omega
  have lexed := cuts.lexed (mem_of_getElem? found)
  rcases Nat.eq_or_lt_of_le lower with rfl | inside
  · have opens := holds.enclosed.opens
    simp only [getElem?_map, found, Option.map_some, Option.some.injEq] at opens
    exact absurd newline (lexed.opener opens)
  · exact lexed.newline (holds.isInner cuts found inside (by omega)) newline

/-- Where the line of a tag lies inside its comment, it can be taken out as a whole. -/
theorem fits_line (holds : Holds lexemes comment) {tag line first last : Nat}
    (run : LineRun (ofLexemes lexemes) tag line first last) (lower : comment.opener < first)
    (upper : last < comment.closer) : (Repair.line (first - 1) last).Fits lexemes := by
  have length := holds.lt_length
  have ordered : first ≤ last := Nat.le_trans run.first_le run.le_last
  have at_index (index : Nat) (inside : index ≤ comment.closer) :
      lexemes[index]? = some (lexemes[index]) := getElem?_eq_getElem (by omega)
  have on_line := run.on_line
  have before := run.before.resolve_left (by omega)
  have behind := run.behind
  simp only [line?_ofLexemes] at on_line before behind
  have first_at : lexemes[first - 1 + 1]? = some (lexemes[first]) := by
    rw [show first - 1 + 1 = first by omega]
    exact at_index first (by omega)
  have first_line := on_line first (Nat.le_refl _) ordered
  have last_line := on_line last ordered (Nat.le_refl _)
  rw [at_index first (by omega), Option.map_some, Option.some.injEq] at first_line
  rw [at_index last (by omega), Option.map_some, Option.some.injEq] at last_line
  rw [at_index (first - 1) (by omega), Option.map_some, ne_eq, Option.some.injEq] at before
  rw [at_index (last + 1) (by omega), Option.map_some, ne_eq, Option.some.injEq] at behind
  refine .line (by omega) (at_index (first - 1) (by omega)) ?_ (at_index last (by omega)) ?_
  · exact holds.endsDocLine_of_line_ne cuts (at_index _ (by omega)) first_at (by omega) (by omega)
      (by omega)
  · exact holds.endsDocLine_of_line_ne cuts (at_index _ (by omega)) (at_index _ (by omega))
      (by omega) upper (by omega)

/-- The text behind a tag ends with the line or the comment. -/
theorem fits_tail (holds : Holds lexemes comment) {tag : Tag} (inside : tag ∈ comment.tags)
    {stop : Nat} (ordered : tag.token < stop) (upper : stop ≤ comment.closer)
    (between : ∀ index lexeme, tag.token < index → index < stop → lexemes[index]? = some lexeme →
      '\n' ∉ lexeme.text) (stops : stop < comment.closer → ∀ lexeme, lexemes[stop]? = some lexeme →
      lexemes[stop]?.map Lexeme.line = lexemes[tag.token]?.map Lexeme.line →
      lexeme.kind ≠ .docTag → '\n' ∈ lexeme.text) :
    (Repair.tail tag.token stop).Fits lexemes ∧
      ∀ index, tag.token ≤ index → index ≤ stop → OnTagLine lexemes comment tag.token index := by
  have length := holds.lt_length
  rcases holds.tag_at inside with ⟨lower, -, lexeme, found, tagged⟩
  have lexed := cuts.lexed (mem_of_getElem? found)
  have tag_line : '\n' ∉ lexeme.text := by
    intro newline
    have ends := lexed.newline (by rw [tagged]; rfl) newline
    simp [Lexeme.endsDocLine, tagged] at ends
  have on (index : Nat) (index_lower : tag.token ≤ index) (index_upper : index ≤ stop) :
      OnTagLine lexemes comment tag.token index := by
    refine ⟨by omega, by omega, ?_⟩
    have at_index := getElem?_eq_getElem (show index < lexemes.length by omega)
    have line := cuts.line_eq found at_index index_lower fun place other place_lower place_upper
        other_found => by
      rcases Nat.eq_or_lt_of_le place_lower with rfl | later
      · obtain rfl := Option.some.inj (found.symm.trans other_found)
        exact tag_line
      · exact between place other later (by omega) other_found
    simp [at_index, found, line]
  have stop_found := getElem?_eq_getElem (show stop < lexemes.length by omega)
  refine ⟨.tail ordered found tagged stop_found ?_, on⟩
  rcases Nat.eq_or_lt_of_le upper with rfl | earlier
  · have closes := holds.closes
    simp only [getElem?_map, stop_found, Option.map_some, Option.some.injEq] at closes
    exact .inl closes
  · right
    have line := (on stop (by omega) (Nat.le_refl _)).line
    have inner := holds.isInner cuts stop_found (by omega) upper
    refine (cuts.lexed (mem_of_getElem? stop_found)).newline inner ?_
    refine stops earlier _ stop_found line fun stop_tagged => ?_
    have same : lexeme.line = (lexemes[stop]).line := by
      simpa [stop_found, found] using line.symm
    have := holds.le_of_line_eq cuts found tagged stop_found stop_tagged lower earlier same
    omega

end

/-- Whether a token stays when a tag on the given line goes with its text. -/
def stays (stream : Stream) (line : Option Nat) (index : Nat) : Bool :=
  !((stream.get? index).any fun token =>
    some token.line == line && token.kind != .docTag && !token.hasNewline)

theorem newline_not_mem_of_stays {line : Option Nat} (found : lexemes[index]? = some lexeme)
    (goes : (ofLexemes lexemes).stays line index = false) : '\n' ∉ lexeme.text := by
  rcases get?_ofLexemes found with ⟨kind, conditions, -, token_found⟩
  simp only [stays, token_found, Option.any_some, Structure.token, Token.hasNewline,
    Bool.not_eq_false', Bool.and_eq_true, Bool.not_eq_true', contains_eq_mem,
    decide_eq_false_iff_not] at goes
  exact goes.2

theorem newline_mem_of_stays (found : lexemes[index]? = some lexeme)
    (inner : Lexeme.isInner lexeme.kind = true) (other : lexeme.kind ≠ .docTag)
    (stays : (ofLexemes lexemes).stays (some lexeme.line) index = true) : '\n' ∈ lexeme.text := by
  rcases get?_of_isTrivia found (isSignificant_of_isInner inner) with
    ⟨token, token_found, kind, text, line⟩
  simpa [Stream.stays, token_found, Token.hasNewline, kind, text, line, other] using stays

/-- The deletion of a tag is a repair on the line of the tag. The line goes as a whole unless the
opener or the closer of the comment is on it. Then the text goes up to the first token that stays.
-/
theorem tagDeletion_cases (cuts : Lexeme.Cuts mode position text lexemes)
    (holds : Holds lexemes comment) {tag : Tag} (inside : tag ∈ comment.tags) :
    ∃ repair : Repair, (ofLexemes lexemes).tagDeletion comment tag = repair.edits ∧
      repair.Fits lexemes ∧
      (∀ index, repair.covers index → OnTagLine lexemes comment tag.token index) ∧
      ((∃ previous last, repair = .line previous last) ∨
        ∃ stop line first last, repair = .tail tag.token stop ∧
          LineRun (ofLexemes lexemes) tag.token line first last ∧
          ¬(comment.opener < first ∧ last < comment.closer)) := by
  rcases holds.tag_at inside with ⟨lower, upper, lexeme, found, tagged⟩
  have tag_line : (ofLexemes lexemes).line? tag.token = some lexeme.line := by
    simp [line?_ofLexemes, found]
  rcases lineSpan?_eq_some tag_line with ⟨first, last, span, run⟩
  simp only [tagDeletion, span]
  split
  · next within =>
      refine ⟨.line (first - 1) last, ?_, fits_line cuts holds run within.1 within.2, ?_,
        .inl ⟨_, _, rfl⟩⟩
      · rw [Repair.edits, show first - 1 + 1 = first by omega]
      · rintro index ⟨index_lower, index_upper⟩
        have on_line := run.on_line index (by omega) index_upper
        rw [← tag_line, line?_ofLexemes, line?_ofLexemes] at on_line
        exact ⟨by omega, by omega, on_line⟩
  · next shared =>
      let staying := (ofLexemes lexemes).stays ((ofLexemes lexemes).line? tag.token)
      obtain ⟨stop, stop_eq, stop_lower, stop_upper, goes, stop_stays⟩ :
          ∃ stop, (firstIndex staying (tag.token + 1) (comment.closer - (tag.token + 1))).getD
              comment.closer = stop ∧ tag.token < stop ∧ stop ≤ comment.closer ∧
            (∀ index, tag.token < index → index < stop → staying index = false) ∧
            (stop < comment.closer → staying stop = true) := by
        cases search : firstIndex staying (tag.token + 1) (comment.closer - (tag.token + 1)) with
        | none =>
          have all := (firstIndex_eq_none_iff _ _ _).mp search
          exact ⟨comment.closer, rfl, upper, Nat.le_refl _,
            fun index index_lower index_upper => all index index_lower (by omega), by omega⟩
        | some stop =>
          rcases (firstIndex_eq_some_iff _ _ _ _).mp search with
            ⟨stop_lower, stop_upper, stays, all⟩
          exact ⟨stop, rfl, stop_lower, by omega,
            fun index index_lower index_upper => all index index_lower index_upper,
            fun _ => stays⟩
      have tail := fits_tail cuts holds inside stop_lower stop_upper
        (fun index other index_lower index_upper other_found =>
          newline_not_mem_of_stays other_found (goes index index_lower index_upper))
        (fun earlier other other_found line notTag => by
          have inner := holds.isInner cuts other_found (by omega) stop_upper
          refine newline_mem_of_stays other_found inner notTag ?_
          have stays := stop_stays earlier
          simp only [staying, line?_ofLexemes, ← line, other_found, Option.map_some] at stays
          exact stays)
      refine ⟨.tail tag.token stop, ?_, tail.1,
        fun index covered => tail.2 index covered.1 covered.2, .inr ⟨stop, _, first, last, rfl, run, shared⟩⟩
      rw [Repair.edits, ← stop_eq]
      rfl

theorem exists_repair_of_tagDeletion (cuts : Lexeme.Cuts mode position text lexemes)
    (holds : Holds lexemes comment) {tag : Tag} (inside : tag ∈ comment.tags) :
    ∃ repair : Repair, (ofLexemes lexemes).tagDeletion comment tag = repair.edits ∧
      repair.Fits lexemes ∧
      ∀ index, repair.covers index → OnTagLine lexemes comment tag.token index := by
  rcases tagDeletion_cases cuts holds inside with ⟨repair, edits_eq, fits, on_line, -⟩
  exact ⟨repair, edits_eq, fits, on_line⟩

end Stream

end PhpStyle
