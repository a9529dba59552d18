import PhpStyle.Proofs.RevisedComments

/-!
# Return tags in a pass

A pass deletes one return tag of a function comment at most: the second one, or the last
one that is left if the function returns nothing. What it deletes elsewhere is in the
comments of other declarations, so the rule reads the comment again after the pass.
-/

namespace PhpStyle.Standard

open PhpStyle.Stream List

section Lists

variable {α β : Type}

/-- The return tag that a pass deletes, given whether the function may keep one. -/
def surplusReturn? (keeps : Bool) : List α → Option α
  | [] => none
  | [tag] => if keeps then none else some tag
  | _ :: second :: _ => some second

/-- The return tags after a pass. -/
def trimmed (keeps : Bool) : List α → List α
  | [] => []
  | [tag] => if keeps then [tag] else []
  | first :: _ :: rest => first :: rest

/-- The return tags after the last pass. -/
def settled (keeps : Bool) (tags : List α) : List α :=
  if keeps then tags.take 1 else []

variable {keeps : Bool} {tags : List α}

theorem map_trimmed (f : α → β) (keeps : Bool) (tags : List α) :
    (trimmed keeps tags).map f = trimmed keeps (tags.map f) := by
  match tags, keeps with
  | [], _ => rfl
  | [_], true => rfl
  | [_], false => rfl
  | _ :: _ :: _, _ => rfl

theorem settled_trimmed (keeps : Bool) (tags : List α) :
    settled keeps (trimmed keeps tags) = settled keeps tags := by
  match tags, keeps with
  | [], _ => rfl
  | [_], true => rfl
  | [_], false => rfl
  | _ :: _ :: _, true => rfl
  | _ :: _ :: _, false => rfl

theorem mem_of_surplusReturn? {tag : α} (surplus : surplusReturn? keeps tags = some tag) :
    tag ∈ tags := by
  match tags, keeps, surplus with
  | [_], false, rfl => exact mem_singleton_self _
  | _ :: second :: rest, _, rfl => exact mem_cons_of_mem _ mem_cons_self

theorem map_settled (f : α → β) (keeps : Bool) (tags : List α) :
    (settled keeps tags).map f = settled keeps (tags.map f) := by
  cases keeps
  · rfl
  · exact map_take

theorem eq_settled_of_surplusReturn? (nothing : surplusReturn? keeps tags = none) :
    tags = settled keeps tags := by
  match tags, keeps, nothing with
  | [], true, _ => rfl
  | [], false, _ => rfl
  | [_], true, _ => rfl

theorem trimmed_of_surplusReturn?_eq_none (nothing : surplusReturn? keeps tags = none) :
    trimmed keeps tags = tags := by
  match tags, keeps, nothing with
  | [], _, _ => rfl
  | [_], true, _ => rfl

/-- The deleted tag is the one that is missing afterwards. -/
theorem trimmed_append_cons {before behind : List α} {tag : α}
    (different : (before ++ tag :: behind).Nodup)
    (surplus : surplusReturn? keeps (before ++ tag :: behind) = some tag) :
    trimmed keeps (before ++ tag :: behind) = before ++ behind := by
  match before, behind, keeps with
  | [], [], false => rfl
  | [], second :: behind, _ =>
    obtain rfl : second = tag := Option.some.inj surplus
    simp at different
  | [first], behind, _ => rfl
  | first :: second :: before, behind, _ =>
    obtain rfl : second = tag := Option.some.inj surplus
    simp at different

end Lists

section Origins

variable {lexemes : List Lexeme} {mode : Lexeme.Mode} {position : Position} {text : List Char}
  (cuts : Lexeme.Cuts mode position text lexemes)

include cuts

/-- Repairs delete insides of doc comments only. -/
theorem Origin.isFrame_eq_false {index place : Nat} {repair : Repair} {lexeme : Lexeme}
    (origin : Origin lexemes index repair) (deleted : repair.deletes place = true)
    (found : lexemes[place]? = some lexeme) : lexeme.kind.isFrame = false := by
  cases origin with
  | comma array neighbours missing fits => cases deleted
  | @tag kind skipped comment tag repair declares documented separates search holds inside fits
      on_line =>
      have lower := (on_line place (Repair.covers_of_deletes deleted)).opener_lt
      have upper : place < comment.closer := by
        cases fits with
        | comma => cases deleted
        | @line previous last before ending ordered previous_found starts last_found ends =>
          simp only [Repair.deletes, Bool.and_eq_true, decide_eq_true_eq] at deleted
          have last_le := (on_line last ⟨ordered, le_rfl⟩).le_closer
          have apart : last ≠ comment.closer := by
            rintro rfl
            have closes := holds.closes
            rw [getElem?_map, last_found, Option.map_some, Option.some.injEq] at closes
            rw [Lexeme.endsDocLine, closes] at ends
            cases ends
          omega
        | @tail tag stop first behind ordered tag_found tagged stop_found stops =>
          simp only [Repair.deletes, Bool.and_eq_true, decide_eq_true_eq] at deleted
          have stop_le := (on_line stop ⟨ordered.le, le_rfl⟩).le_closer
          omega
      rcases holds.goesOn cuts found lower upper with ⟨inner, goesOn⟩
      revert inner goesOn
      cases lexeme.kind <;> decide

end Origins

/-- The repairs of a pass over a source, as a plan. -/
structure Plans (ruleset : Ruleset) (source : List Char) (plan : List Repair) : Prop where
  offers : plan.map Repair.edits = offered ruleset source
  revises : Stream.Revises source (repaired ruleset source) plan
  origins : ∀ repair ∈ plan, ∃ index kind, (ofSource source).kind? index = some kind ∧
    repair.edits ∈ Ruleset.repairsAt repairs (ruleset.listeners.map Listener.rule)
      (ofSource source) index kind ∧ Origin (lex source) index repair

theorem exists_plans {ruleset : Ruleset} (builtIn : IsBuiltIn ruleset) (source : List Char) :
    ∃ plan, Plans ruleset source plan := by
  have cuts := cuts_lex source
  rcases exists_placed_plan cuts builtIn with ⟨plan, plan_eq, apart, origins⟩
  have isPlan : Repair.IsPlan (lex source) plan := by
    apply isPlan_of_origins cuts apart
    intro repair planned
    rcases origins repair planned with ⟨index, -, -, -, origin⟩
    exact ⟨index, origin⟩
  refine ⟨plan, plan_eq, ⟨isPlan, ?_, ?_⟩, origins⟩
  · intro repair planned place lexeme deleted found
    rcases origins repair planned with ⟨index, -, -, -, origin⟩
    exact origin.isFrame_eq_false cuts deleted found
  · have pieces := map_piece_lex_contents isPlan
    rw [plan_eq] at pieces
    exact pieces

namespace Plans

variable {ruleset : Ruleset} {source : List Char} {plan : List Repair}
  (plans : Plans ruleset source plan)

include plans

/-- What is deleted in a doc comment is deleted for the declaration below it. -/
theorem exists_declaration {comment : Comment} (holds : Stream.Holds (lex source) comment)
    {repair : Repair} (planned : repair ∈ plan) {place : Nat}
    (deleted : repair.deletes place = true) (lower : comment.opener < place)
    (upper : place ≤ comment.closer) :
    ∃ index kind skipped, (ofSource source).kind? index = some kind ∧
      isDocumented kind = true ∧ Stream.Separates skipped ∧
      (ofSource source).commentEnd? index skipped = some comment.closer ∧
      repair.edits ∈ Ruleset.repairsAt repairs (ruleset.listeners.map Listener.rule)
        (ofSource source) index kind := by
  rcases plans.origins repair planned with ⟨index, kind, at_index, listed, origin⟩
  cases origin with
  | comma array neighbours missing fits => cases deleted
  | @tag declared skipped other tag _ declares documented separates search other_holds inside fits
      on_line =>
      obtain rfl : kind = declared := Option.some.inj (at_index.symm.trans declares)
      have on_line := on_line place (Repair.covers_of_deletes deleted)
      have same : other.closer = comment.closer :=
        Nat.le_antisymm (holds.closer_le other_holds upper on_line.opener_lt)
          (other_holds.closer_le holds on_line.le_closer lower)
      rw [same] at search
      exact ⟨index, kind, skipped, at_index, documented, separates, search, listed⟩

end Plans

namespace FunctionComment

/-- A function may keep a return tag if it has no body or returns a value. -/
def keepsReturn (stream : Stream) (index : Nat) : Bool :=
  (stream.scopeOf? index).isNone || returnsValue stream index

theorem keepsReturn_eq_true_iff {lexemes : List Lexeme} {index : Nat} :
    keepsReturn (ofLexemes lexemes) index = true ↔
      (ofLexemes lexemes).scopeOf? index = none ∨ ReturnsValue lexemes index := by
  rw [keepsReturn, Bool.or_eq_true, Option.isNone_iff_eq_none, returnsValue_eq_true_iff]

/-- The return tag that is deleted. -/
theorem repairsOf_onReturn_eq {stream : Stream} {index : Nat}
    (declares : stream.kind? index = some .functionKw) (named : isLifecycle stream index = false)
    (comment : Comment) :
    repairsOf (onReturn stream index comment) =
      ((surplusReturn? (keepsReturn stream index) (comment.tagsNamed "@return")).map
        (stream.tagDeletion comment)).toList := by
  have bodiless : ((stream.get? index).bind fun token => token.braces).isNone =
      (stream.scopeOf? index).isNone := by
    rw [Bool.eq_iff_iff, ← scopeOf?_eq_none_iff declares, Option.isNone_iff_eq_none]
  rw [onReturn, named, bodiless, keepsReturn]
  rcases comment.tagsNamed "@return" with _ | ⟨first, _ | ⟨second, rest⟩⟩
  · cases (stream.scopeOf? index).isNone <;> cases returnsValue stream index <;> rfl
  · cases (stream.scopeOf? index).isNone
    · cases returnsValue stream index
      · rfl
      · simp only [Bool.false_eq_true, if_false]
        split <;> rfl
    · rfl
  · rfl

section Offered

variable {ruleset : Ruleset} {source : List Char} {index : Nat} {edits : List Edit}

theorem mem_offered_of_mem_find (chosen : rule ∈ ruleset.listeners.map Listener.rule)
    (declares : (ofSource source).kind? index = some .functionKw)
    (listed : edits ∈ repairsOf (find (ofSource source) index)) :
    edits ∈ offered ruleset source := by
  rcases Option.map_eq_some_iff.mp declares with ⟨token, found, kind_eq⟩
  apply List.mem_flatMap.mpr
  refine ⟨(token, index), ?_, List.mem_flatMap.mpr ⟨rule, chosen, ?_⟩⟩
  · rw [mk_mem_zipIdx_iff_getElem?]
    simpa [get?] using found
  · rw [if_pos (by rw [kind_eq]; rfl)]
    exact (congrFun (congrFun repairs_functionComment _) _) ▸ listed

theorem mem_find_of_mem_repairsAt (builtIn : IsBuiltIn ruleset)
    (listed : edits ∈ Ruleset.repairsAt repairs (ruleset.listeners.map Listener.rule)
      (ofSource source) index .functionKw) : edits ∈ repairsOf (find (ofSource source) index) := by
  have listed := (List.Sublist.flatMap builtIn _).subset listed
  have all := repairsAt_rules (ofSource source) index .functionKw
  rw [if_neg (by simp), if_pos rfl] at all
  rw [← all]
  exact listed

end Offered

theorem map_spelling_tagsNamed (comment : Comment) :
    (comment.tagsNamed "@return").map Tag.spelling =
      (comment.tags.map Tag.spelling).filter fun spelling => isReturn spelling.name := by
  rw [filter_map]
  rfl

/-- The return tags of a comment without the one that a pass deletes. -/
theorem trimmed_of_eraseIdx {comment : Comment} {tag : Tag} {keeps : Bool}
    (different : comment.tags.Nodup) (at_position : comment.tags[tag.position]? = some tag)
    (surplus : surplusReturn? keeps (comment.tagsNamed "@return") = some tag)
    (named : tag.isNamed "@return" = true) :
    ((comment.tags.map Tag.spelling).eraseIdx tag.position).filter
        (fun spelling => isReturn spelling.name) =
      trimmed keeps ((comment.tagsNamed "@return").map Tag.spelling) := by
  rcases List.getElem?_eq_some_iff.mp at_position with ⟨inside, at_eq⟩
  have tags_eq := take_append_drop tag.position comment.tags
  rw [← getElem_cons_drop inside, at_eq] at tags_eq
  have named_eq : comment.tagsNamed "@return" =
      (comment.tags.take tag.position).filter (fun tag => tag.isNamed "@return") ++
        tag :: (comment.tags.drop (tag.position + 1)).filter fun tag => tag.isNamed "@return" := by
    nth_rewrite 1 [Comment.tagsNamed, ← tags_eq]
    rw [filter_append, filter_cons, if_pos named]
  have once : (comment.tagsNamed "@return").Nodup := different.filter _
  rw [named_eq] at surplus once
  rw [← map_trimmed, named_eq, trimmed_append_cons once surplus, ← filter_append,
    ← eraseIdx_eq_take_drop_succ, eraseIdx_map, filter_map]
  rfl

theorem endsSearch_of_isDocumented {kind : Kind} (documented : isDocumented kind = true) :
    endsSearch kind = true := by
  revert documented
  cases kind <;> decide

section Passes

variable {ruleset : Ruleset} {source : List Char} {plan : List Repair} {index : Nat}
  {comment : Comment} (obtains : Obtains (ofSource source) index comment)

include obtains

theorem Obtains.repairsOf_find (named : isLifecycle (ofSource source) index = false) :
    repairsOf (find (ofSource source) index) =
      ((surplusReturn? (keepsReturn (ofSource source) index)
        (comment.tagsNamed "@return")).map ((ofSource source).tagDeletion comment)).toList := by
  rcases obtains.find_eq with ⟨⟨declaration, below⟩, reads⟩
  refine (congrArg repairsOf reads).trans ?_
  rw [repairsOf_onComment below obtains.found]
  exact repairsOf_onReturn_eq obtains.declares named comment

theorem Obtains.mem_repairsOf_find_iff
    (named : isLifecycle (ofSource source) index = false) {edits : List Edit} :
    edits ∈ repairsOf (find (ofSource source) index) ↔
      ∃ tag, surplusReturn? (keepsReturn (ofSource source) index)
          (comment.tagsNamed "@return") = some tag ∧
        (ofSource source).tagDeletion comment tag = edits := by
  rw [obtains.repairsOf_find named, Option.mem_toList, Option.map_eq_some_iff]

/-- The comment of a function loses the tokens of the surplus return tag. -/
theorem Obtains.deleted_iff (builtIn : IsBuiltIn ruleset)
    (chosen : rule ∈ ruleset.listeners.map Listener.rule) (plans : Plans ruleset source plan)
    (named : isLifecycle (ofSource source) index = false) {place : Nat}
    (lower : comment.opener < place) (upper : place ≤ comment.closer) :
    (∃ repair ∈ plan, repair.deletes place = true) ↔
      ∃ tag, surplusReturn? (keepsReturn (ofSource source) index)
          (comment.tagsNamed "@return") = some tag ∧
        Edit.touches ((ofSource source).tagDeletion comment tag) place = true := by
  have cuts := cuts_lex source
  constructor
  · rintro ⟨repair, planned, deleted⟩
    rcases plans.exists_declaration obtains.holds planned deleted lower upper with
      ⟨other, kind, skipped, declares, documented, other_separates, search, listed⟩
    obtain rfl : index = other :=
      eq_of_commentEnd?_eq separates other_separates obtains.declares rfl
        declares documented obtains.search search
    obtain rfl : Kind.functionKw = kind := Option.some.inj (obtains.declares.symm.trans declares)
    rcases (obtains.mem_repairsOf_find_iff named).mp (mem_find_of_mem_repairsAt builtIn listed) with
      ⟨tag, surplus, edits_eq⟩
    refine ⟨tag, surplus, ?_⟩
    rw [edits_eq]
    exact (plans.revises.isPlan.fits repair planned).touches_iff.mpr (.inl deleted)
  · rintro ⟨tag, surplus, touched⟩
    have listed := mem_offered_of_mem_find chosen obtains.declares
      ((obtains.mem_repairsOf_find_iff named).mpr ⟨tag, surplus, rfl⟩)
    rw [← plans.offers] at listed
    rcases List.mem_map.mp listed with ⟨repair, planned, edits_eq⟩
    rw [← edits_eq, (plans.revises.isPlan.fits repair planned).touches_iff] at touched
    rcases touched with deleted | rfl
    · exact ⟨repair, planned, deleted⟩
    · have found := getElem?_eq_getElem (Nat.lt_of_le_of_lt upper obtains.holds.lt_length)
      have inner := obtains.holds.isInner cuts found lower upper
      exact absurd planned (plans.revises.comma_not_mem found (isSignificant_of_isInner inner))

/-- If the comment before a function is the comment of a declaration, then of the function. In an
attribute with the function, the comment would be inside of it too. -/
theorem Obtains.eq_of_boundary {boundary other : Nat} {kind : Kind} {skipped : Kind → Bool}
    (above : boundary? (ofSource source) index = some boundary)
    (declares : (ofSource source).kind? other = some kind) (documented : isDocumented kind = true)
    (other_separates : Stream.Separates skipped)
    (search : (ofSource source).commentEnd? other skipped = some boundary) : other = index := by
  have passes := passesOver_of_lastUnskipped? search
  have positive : index ≠ 0 := by
    rintro rfl
    cases above
  rw [boundary?, if_neg positive] at above
  rcases findPrevious_eq_some_iff.mp above with ⟨-, before, -, last⟩
  rcases Nat.lt_trichotomy other index with earlier | same | later
  · have ends := last other passes.lt (by omega)
    rw [hasKind, declares, Option.any_some, endsSearch_of_isDocumented documented] at ends
    cases ends
  · exact same
  · have inside : index < (lex source).length := by
      have := lt_size_of_kind? obtains.declares
      rwa [ofSource, size_ofLexemes] at this
    rcases passes.between index (by omega) later inside with
      skips | ⟨span, group, opener_lt, opener_le, le_closer, -⟩
    · change Option.any skipped ((ofSource source).kind? index) = true at skips
      rw [obtains.declares, Option.any_some, other_separates.declaration _ rfl] at skips
      cases skips
    · have not_opener : span.opener ≠ index := by
        intro same
        have opens := group.opener
        rw [same] at opens
        cases obtains.declares.symm.trans opens
      have opener_le_comment := opener_le_of_lastUnskipped? obtains.search
        separates.group group (by omega) le_closer
      have comment_before := (passesOver_of_lastUnskipped? obtains.search).lt
      have ends := last comment.closer (by omega) (by omega)
      rw [hasKind, obtains.closes] at ends
      cases ends

/-- Another comment before the function stays as it is: what is deleted is in its own comment. -/
theorem Obtains.not_deletes_boundary (builtIn : IsBuiltIn ruleset)
    (plans : Plans ruleset source plan) (named : isLifecycle (ofSource source) index = false)
    {boundary : Comment} (above : boundary? (ofSource source) index = some boundary.closer)
    (holds : Stream.Holds (lex source) boundary) (different : boundary.closer ≠ comment.closer)
    {repair : Repair} (planned : repair ∈ plan) {place : Nat} (lower : boundary.opener < place)
    (upper : place ≤ boundary.closer) : repair.deletes place = false := by
  by_contra deleted
  rw [Bool.not_eq_false] at deleted
  rcases plans.exists_declaration holds planned deleted lower upper with
    ⟨other, kind, skipped, declares, documented, other_separates, search, listed⟩
  obtain rfl := obtains.eq_of_boundary above declares documented other_separates search
  obtain rfl : Kind.functionKw = kind := Option.some.inj (obtains.declares.symm.trans declares)
  rcases (obtains.mem_repairsOf_find_iff named).mp (mem_find_of_mem_repairsAt builtIn listed) with
    ⟨tag, surplus, edits_eq⟩
  have tag_inside : tag ∈ comment.tags := (List.mem_filter.mp (mem_of_surplusReturn? surplus)).1
  rcases exists_repair_of_tagDeletion (cuts_lex source) obtains.holds tag_inside with
    ⟨deletion, deletion_eq, -, on_line⟩
  have touched := (plans.revises.isPlan.fits repair planned).touches_iff.mpr (.inl deleted)
  rw [← edits_eq] at touched
  have on_line := on_line place (Repair.covers_of_touches (deletion_eq ▸ touched))
  exact different (Nat.le_antisymm (obtains.holds.closer_le holds on_line.le_closer lower)
    (holds.closer_le obtains.holds upper on_line.opener_lt))

end Passes

section Comments

variable {ruleset : Ruleset} {source : List Char} {plan : List Repair} {index : Nat}
  {comment : Comment} {block : DocBlock} {front body rest : List Lexeme} {opener closer : Lexeme}

/-- A doc comment that ends at an index, with its place in the source and what its text says. -/
theorem exists_block_of_docClose {place : Nat}
    (closes : (ofSource source).kind? place = some .docClose) :
    ∃ block front opener body closer rest,
      DocBlock.Stretch (lex source) block front opener body (closer :: rest) ∧
      closer.kind = .docClose ∧ block.closer = some place ∧
      (ofSource source).commentAt? place =
        some ((ofSource source).commentOf block place) ∧
      ((ofSource source).commentOf block place).tags.map Tag.spelling =
        DocLine.tags (body.flatMap Lexeme.text) ∧
      inheritsAt (ofSource source) place =
        inherits (['/', '*', '*'] ++ (body.flatMap Lexeme.text ++ ['*', '/'])) := by
  rcases exists_stretch_of_docClose closes with
    ⟨blocks, segments, block, member, closer_eq, front, opener, body, closer, rest, kind, stretch⟩
  rcases commentAt?_of_stretch segments member closer_eq stretch kind with ⟨found, spelled⟩
  exact ⟨block, front, opener, body, closer, rest, stretch, kind, closer_eq, found, spelled,
    inheritsAt_eq segments member stretch closer_eq⟩

section Revised

variable (obtains : Obtains (ofSource source) index comment) (builtIn : IsBuiltIn ruleset)
  (chosen : rule ∈ ruleset.listeners.map Listener.rule) (plans : Plans ruleset source plan)
  (named : isLifecycle (ofSource source) index = false)

include obtains builtIn chosen plans named

theorem Obtains.text_of_settled (opener_eq : comment.opener = block.opener)
    (closer_eq : block.closer = some comment.closer)
    (stretch : DocBlock.Stretch (lex source) block front opener body (closer :: rest))
    (nothing : surplusReturn? (keepsReturn (ofSource source) index)
      (comment.tagsNamed "@return") = none) :
    Lexeme.texts (Repair.remainder plan body (block.opener + 1)) = body.flatMap Lexeme.text := by
  apply plans.revises.texts_remainder_of_untouched stretch
  intro place encloses repair planned
  by_contra deleted
  rcases (obtains.deleted_iff builtIn chosen plans named (opener_eq ▸ encloses.1)
    (encloses.2 comment.closer closer_eq).le).mp
      ⟨repair, planned, Bool.eq_true_of_not_eq_false deleted⟩ with ⟨tag, surplus, -⟩
  cases nothing.symm.trans surplus

theorem Obtains.text_of_surplus (opener_eq : comment.opener = block.opener)
    (closer_eq : block.closer = some comment.closer) {before gone behind : List Lexeme}
    (stretch : DocBlock.Stretch (lex source) block front opener (before ++ (gone ++ behind))
      (closer :: rest)) {tag : Tag} (surplus : surplusReturn? (keepsReturn (ofSource source) index)
      (comment.tagsNamed "@return") = some tag) {repair : Repair}
    (cutsTag : Stream.CutsTag source block comment tag repair before gone behind) :
    Lexeme.texts (Repair.remainder plan (before ++ (gone ++ behind)) (block.opener + 1)) =
      before.flatMap Lexeme.text ++ behind.flatMap Lexeme.text := by
  apply plans.revises.texts_remainder stretch
  intro place encloses
  rw [obtains.deleted_iff builtIn chosen plans named (opener_eq ▸ encloses.1)
    (encloses.2 comment.closer closer_eq).le, ← cutsTag.deletes_iff]
  constructor
  · rintro ⟨other, other_surplus, touched⟩
    rcases surplus.symm.trans other_surplus with ⟨⟩
    rw [cutsTag.edits_eq, cutsTag.fits.touches_iff] at touched
    exact touched.resolve_right (cutsTag.no_comma place)
  · intro deleted
    refine ⟨tag, surplus, ?_⟩
    rw [cutsTag.edits_eq, cutsTag.fits.touches_iff]
    exact .inl deleted

/-- The comment of a function after a pass: its return tags are trimmed, and it inherits its text
only if it did so before. -/
theorem Obtains.revised_text
    (stretch : DocBlock.Stretch (lex source) block front opener body (closer :: rest))
    (closes : closer.kind = .docClose) (closer_eq : block.closer = some comment.closer)
    (comment_eq : (ofSource source).commentOf block comment.closer = comment)
    (spelled : comment.tags.map Tag.spelling = DocLine.tags (body.flatMap Lexeme.text)) :
    let text := Lexeme.texts (Repair.remainder plan body (block.opener + 1))
    (DocLine.tags text).filter (fun spelling => isReturn spelling.name) =
        trimmed (keepsReturn (ofSource source) index)
          ((comment.tagsNamed "@return").map Tag.spelling) ∧
      (inherits (['/', '*', '*'] ++ (text ++ ['*', '/'])) = true →
        inherits (['/', '*', '*'] ++ (body.flatMap Lexeme.text ++ ['*', '/'])) = true) := by
  intro text
  have opener_eq : comment.opener = block.opener := (congrArg Comment.opener comment_eq).symm
  cases surplus : surplusReturn? (keepsReturn (ofSource source) index)
      (comment.tagsNamed "@return") with
  | none =>
    have text_eq : text = body.flatMap Lexeme.text :=
      obtains.text_of_settled builtIn chosen plans named opener_eq closer_eq stretch surplus
    rw [text_eq, ← map_trimmed, trimmed_of_surplusReturn?_eq_none surplus, map_spelling_tagsNamed,
      spelled]
    exact ⟨rfl, id⟩
  | some tag =>
    have closer_place : comment.closer = block.opener + body.length + 1 := by
      rcases stretch.ends with ⟨nothing, -⟩ | ⟨_, _, -, -, -, place⟩
      · cases nothing
      · exact Option.some.inj (closer_eq.symm.trans place)
    rcases List.mem_filter.mp (mem_of_surplusReturn? surplus) with ⟨inside, tag_named⟩
    rcases exists_cutsTag stretch closes obtains.holds opener_eq closer_place inside with
      ⟨repair, before, gone, behind, rfl, cutsTag⟩
    have text_eq : text = before.flatMap Lexeme.text ++ behind.flatMap Lexeme.text :=
      obtains.text_of_surplus builtIn chosen plans named opener_eq closer_eq stretch surplus cutsTag
    have either : LineCut before gone ∨ TailCut gone behind := cutsTag.cut.imp_right And.left
    have only := cutsTag.tagsFrom_gone obtains.holds inside stretch
    rw [← comment_eq] at inside
    rcases spelling_of_commentOf stretch inside only with ⟨at_position, erased⟩
    rw [comment_eq] at at_position erased
    have different : comment.tags.Nodup :=
      ((List.pairwise_map.mp obtains.holds.enclosed.sorted).imp Nat.ne_of_lt).imp
        fun apart same => apart (congrArg Tag.token same)
    rw [text_eq]
    constructor
    · rw [tags_of_tagCut stretch closes either, ← erased]
      exact trimmed_of_eraseIdx different at_position surplus tag_named
    · exact inherits_of_cut stretch either

/-- The comment of a function is there after a pass, with trimmed return tags. -/
theorem Obtains.exists_revised {place : Nat}
    (closer_eq : comment.closer = framePlace (lex source) place) :
    let result := repaired ruleset source
    ∃ revised : Comment, revised.closer = revisedPlace source result plan place ∧
      (ofSource result).commentAt? revised.closer = some revised ∧
      (revised.tagsNamed "@return").map Tag.spelling =
        trimmed (keepsReturn (ofSource source) index)
          ((comment.tagsNamed "@return").map Tag.spelling) := by
  intro result
  rcases exists_block_of_docClose obtains.closes with
    ⟨block, front, opener, body, closer, rest, stretch, closes, closer_place, found, spelled, -⟩
  have comment_eq := Option.some.inj (found.symm.trans obtains.found)
  rw [comment_eq] at spelled
  have trims := (obtains.revised_text builtIn chosen plans named stretch closes closer_place
    comment_eq spelled).1
  rw [closer_eq] at closer_place
  rcases (plans.revises.exists_comment stretch closes closer_place).1 with
    ⟨revised, revised_found, revised_closer, revised_spelled⟩
  refine ⟨revised, revised_closer, revised_closer ▸ revised_found, ?_⟩
  rw [map_spelling_tagsNamed, revised_spelled, trims]

/-- A pass does not make the comment before a function inherit its text. -/
theorem Obtains.inheritsAt_of_revised {place : Nat} (above : boundary? (ofSource source) index =
      some (framePlace (lex source) place))
    (closes : (ofSource source).kind? (framePlace (lex source) place) =
      some .docClose) (marked : inheritsAt (ofSource (repaired ruleset source))
      (revisedPlace source (repaired ruleset source) plan place) = true) :
    inheritsAt (ofSource source) (framePlace (lex source) place) = true := by
  rcases exists_block_of_docClose closes with
    ⟨block, front, opener, body, closer, rest, stretch, kind, closer_place, found, spelled,
      inherited⟩
  rw [inherited]
  rw [(plans.revises.exists_comment stretch kind closer_place).2] at marked
  by_cases own : framePlace (lex source) place = comment.closer
  · rw [own] at found closer_place spelled
    have comment_eq := Option.some.inj (found.symm.trans obtains.found)
    rw [comment_eq] at spelled
    exact (obtains.revised_text builtIn chosen plans named stretch kind closer_place comment_eq
      spelled).2 marked
  · have holds := (holds_of_commentAt? found closes).2
    rwa [plans.revises.texts_remainder_of_untouched stretch] at marked
    intro between encloses repair planned
    exact obtains.not_deletes_boundary builtIn plans named above holds own planned encloses.1
      (encloses.2 _ closer_place).le

/-- After a pass the rule reads the comment of the function again: its search ends at the same
token. -/
theorem Obtains.revised {origin : Nat} (index_eq : index = framePlace (lex source) origin) :
    let result := repaired ruleset source
    ∃ revised : Comment,
      Obtains (ofSource result) (revisedPlace source result plan origin) revised ∧
      (revised.tagsNamed "@return").map Tag.spelling =
        trimmed (keepsReturn (ofSource source) index)
          ((comment.tagsNamed "@return").map Tag.spelling) := by
  intro result
  have embeds := embeds_skeleton source
  have revised_embeds := plans.revises.embeds
  subst index_eq
  have declares : (ofLexemes (Stream.skeleton (lex source))).kind? origin =
      some .functionKw := (embeds.kind?_place origin).symm.trans obtains.declares
  have settled := declares
  rw [kind?_ofLexemes] at settled
  have passes : Stream.PassesPadding (!maySeparate ·) := fun _ _ _ => ⟨rfl, rfl, rfl⟩
  have search := obtains.search
  rw [commentEnd?, ofSource, embeds.lastUnskipped?_place passes settled rfl,
    Option.map_eq_some_iff] at search
  rcases search with ⟨stop, search, stop_eq⟩
  rcases obtains.exists_revised builtIn chosen plans named stop_eq.symm with
    ⟨revised, revised_closer, revised_found, trims⟩
  refine ⟨revised, ⟨?_, ?_, ?_, ?_, revised_found⟩, trims⟩
  · exact (revised_embeds.kind?_place origin).trans declares
  · rcases obtains.wanted with ⟨boundary, above, wanted, fresh⟩
    have core_above := above
    rw [ofSource, embeds.boundary?_place declares, Option.map_eq_some_iff] at core_above
    rcases core_above with ⟨boundary, core_above, rfl⟩
    have same_kind : (ofSource result).kind?
        (revisedPlace source result plan boundary) =
          (ofSource source).kind? (framePlace (lex source) boundary) :=
      (revised_embeds.kind?_place boundary).trans (embeds.kind?_place boundary).symm
    refine ⟨revisedPlace source result plan boundary, ?_, ?_, ?_⟩
    · rw [ofSource, revised_embeds.boundary?_place declares, core_above, Option.map_some]
    · have same : isPublic (ofSource result) (revisedPlace source result plan origin) =
          isPublic (ofSource source) (framePlace (lex source) origin) :=
        (revised_embeds.isPublic_place declares).trans (embeds.isPublic_place declares).symm
      rw [same, same_kind]
      exact wanted
    · rintro ⟨closes, marked⟩
      rw [same_kind] at closes
      exact fresh ⟨closes, obtains.inheritsAt_of_revised builtIn chosen plans named above closes
        marked⟩
  · rw [commentEnd?, ofSource,
      revised_embeds.lastUnskipped?_place passes settled rfl, search, revised_closer]
    rfl
  · rw [revised_closer]
    refine (revised_embeds.kind?_place stop).trans ((embeds.kind?_place stop).symm.trans ?_)
    rw [stop_eq]
    exact obtains.closes

end Revised

end Comments

end FunctionComment

end PhpStyle.Standard
