import Mathlib.Data.List.Flatten
import PhpStyle.Proofs.ArrayLiterals
import PhpStyle.Proofs.Passes
import PhpStyle.Proofs.Recording
import PhpStyle.Standard

/-!
# The repairs of the built-in rules

What the rules of the standard repair in a file: a comment on a declaration loses
tags, and an array literal gets a comma. The repairs of one pass are laid out in
a plan, and no two of them meet: a comment belongs to one declaration, a line of
it to one tag, and a last token to one array literal. Hence every repair takes
effect, a pass commits as many changesets as it reports diagnostics that can be
fixed, and a fix run that has converged leaves none of them.
-/

namespace PhpStyle

open PhpStyle.Stream

section Findings

theorem repairsOf_append (first second : List Finding) :
    repairsOf (first ++ second) = repairsOf first ++ repairsOf second :=
  List.filterMap_append

theorem repairsOf_flatMap {α : Type} (items : List α) (find : α → List Finding) :
    repairsOf (items.flatMap find) = items.flatMap fun item => repairsOf (find item) := by
  induction items with
  | nil => rfl
  | cons item items ih => rw [List.flatMap_cons, repairsOf_append, ih, List.flatMap_cons]

namespace TagTable

variable (table : TagTable) (takes : String → Bool) (onTaken : Tag → List Finding)
  (onFinished : List Finding)

/-- The repairs of the answer to a verdict. -/
def verdictRepairs : Verdict → List (List Edit)
  | .taken tag => repairsOf (onTaken tag)
  | .violation violation => violation.repair.toList
  | .finished => repairsOf onFinished

theorem flatMap_emptySee (tag : Tag) :
    (table.emptySee tag).flatMap (verdictRepairs onTaken onFinished) = [] := by
  rw [emptySee]
  split <;> rfl

theorem flatMap_duplicate (spec : TagSpec) (tag : Tag) (seen : List String) :
    (table.duplicate spec tag seen).flatMap (verdictRepairs onTaken onFinished) = [] := by
  rw [duplicate]
  split <;> rfl

theorem flatMap_missing (comment : Comment) :
    (table.missing comment).flatMap (verdictRepairs onTaken onFinished) = [] := by
  simp [missing, List.flatMap_map, verdictRepairs]

theorem flatMap_judge (seen : List String) (furthest : Option (Nat × String)) (tags : List Tag) :
    (table.judge takes seen furthest tags).flatMap (verdictRepairs onTaken onFinished) =
      (tags.filter fun tag => takes tag.name).flatMap fun tag => repairsOf (onTaken tag) := by
  induction tags generalizing seen furthest with
  | nil => rfl
  | cons tag tags ih =>
    by_cases taken : takes tag.name = true
    · simp [judge, taken, ih, verdictRepairs]
    · simp only [judge, taken, Bool.false_eq_true, if_false, List.flatMap_append,
        flatMap_emptySee,
        List.nil_append, not_false_eq_true, List.filter_cons_of_neg]
      split
      · exact ih seen furthest
      · rw [List.flatMap_append, flatMap_duplicate, List.nil_append]
        split
        · split
          · rw [List.flatMap_cons, ih]
            rfl
          · exact ih _ _
        · exact ih _ _

theorem repairsOf_findings (comment : Comment) :
    repairsOf (table.findings takes onTaken onFinished comment) =
      ((comment.tags.filter fun tag => takes tag.name).flatMap fun tag =>
          repairsOf (onTaken tag)) ++
        repairsOf onFinished := by
  have answers : repairsOf (table.findings takes onTaken onFinished comment) =
      (table.validate takes comment).flatMap (verdictRepairs onTaken onFinished) := by
    rw [findings, repairsOf_flatMap]
    congr 1
    funext verdict
    cases verdict with
    | violation violation =>
      cases found : violation.repair <;> simp [repairsOf, Finding.repair?, verdictRepairs, found]
    | _ => rfl
  rw [answers, validate, List.flatMap_append, List.flatMap_append, flatMap_judge, flatMap_missing,
    List.append_nil]
  simp [verdictRepairs]

end TagTable

end Findings

namespace Standard

/-- The repairs at a declaration delete tags of the comment on it. -/
inductive DeletesTags (stream : Stream) (index : Nat) (skipped : Kind → Bool) :
    List (List Edit) → Prop where
  | none : DeletesTags stream index skipped []
  | tags {closer : Nat} {comment : Comment} {tags : List Tag}
      (search : stream.commentEnd? index skipped = some closer)
      (closes : stream.kind? closer = some .docClose)
      (found : stream.commentAt? closer = some comment) (inside : tags.Sublist comment.tags) :
      DeletesTags stream index skipped (tags.map (stream.tagDeletion comment))

theorem ClassComment.deletesTags (stream : Stream) (index : Nat) :
    DeletesTags stream index maySeparate (repairsOf (find stream index)) := by
  simp only [find]
  cases search : stream.commentEnd? index maySeparate with
  | none => exact .none
  | some closer =>
    simp only [Option.bind_some]
    split
    · next closes =>
        cases found : stream.commentAt? closer with
        | none => exact .none
        | some comment =>
          have repaired : repairsOf (documented index "yes" ::
              table.findings isUnused (unusedTag stream comment) [] comment) =
                (comment.tags.filter fun tag => isUnused tag.name).map
                  (stream.tagDeletion comment) := by
            rw [List.map_eq_flatMap]
            exact (table.repairsOf_findings isUnused _ [] comment).trans (List.append_nil _)
          rw [repaired]
          exact .tags search closes found List.filter_sublist
    · exact .none
    · exact .none

/-- At most one `@return` tag is deleted. -/
theorem FunctionComment.repairsOf_onReturn (stream : Stream) (index : Nat) (comment : Comment) :
    ∃ tags : List Tag, tags.Sublist comment.tags ∧
      repairsOf (onReturn stream index comment) = tags.map (stream.tagDeletion comment) := by
  have none : ∃ tags : List Tag, tags.Sublist comment.tags ∧
      [] = tags.map (stream.tagDeletion comment) := ⟨[], List.nil_sublist _, rfl⟩
  have one {tag : Tag} (named : tag ∈ comment.tagsNamed "@return") :
      ∃ tags : List Tag, tags.Sublist comment.tags ∧
        [stream.tagDeletion comment tag] = tags.map (stream.tagDeletion comment) :=
    ⟨[tag], List.singleton_sublist.mpr (List.mem_filter.mp named).1, rfl⟩
  rw [onReturn]
  split
  · exact none
  · split
    · next second rest named => exact one (by rw [named]; simp)
    · split
      · exact none
      · split
        · split <;> exact none
        · exact one (by simp_all)
        · exact none
        · exact none

theorem FunctionComment.repairsOf_spaced (stream : Stream) (index closer declaration : Nat)
    (rest : List Finding) :
    repairsOf (documented index "yes" :: (spacing stream closer declaration ++ rest)) =
      repairsOf rest := by
  have unrepaired : repairsOf (spacing stream closer declaration) = [] := by
    rw [spacing]
    split <;> rfl
  exact (repairsOf_append _ rest).trans (by rw [unrepaired, List.nil_append])

/-- Of what is said about a comment only what is said about its `@return` tags has repairs. -/
theorem FunctionComment.repairsOf_onComment {stream : Stream} {index closer declaration : Nat}
    {comment : Comment}
    (below : stream.nextSignificant (closer + 1) (some index) = some declaration)
    (found : stream.commentAt? closer = some comment) :
    repairsOf (onComment stream index closer) = repairsOf (onReturn stream index comment) := by
  have others : ((comment.tags.filter fun tag => isReturn tag.name).flatMap fun _ =>
      repairsOf []) = [] := List.flatMap_eq_nil_iff.mpr fun _ _ => rfl
  simp only [onComment, below, found]
  rw [repairsOf_spaced, TagTable.repairsOf_findings, others, List.nil_append]

theorem FunctionComment.deletesTags_onComment {stream : Stream} {index closer : Nat}
    (search : stream.commentEnd? index maySeparate = some closer)
    (closes : stream.kind? closer = some .docClose) :
    DeletesTags stream index maySeparate (repairsOf (onComment stream index closer)) := by
  cases below : stream.nextSignificant (closer + 1) (some index) with
  | none =>
    simp only [onComment, below]
    exact .none
  | some declaration =>
    cases found : stream.commentAt? closer with
    | none =>
      simp only [onComment, below, found]
      rw [repairsOf_spaced]
      exact .none
    | some comment =>
      rcases repairsOf_onReturn stream index comment with ⟨tags, inside, repaired⟩
      rw [repairsOf_onComment below found, repaired]
      exact .tags search closes found inside

theorem FunctionComment.deletesTags (stream : Stream) (index : Nat) :
    DeletesTags stream index maySeparate (repairsOf (find stream index)) := by
  rw [find]
  split
  · exact .none
  · simp only
    split
    · exact .none
    · split
      · exact .none
      · simp only [onPreceding]
        split
        · next closes =>
            rcases Option.bind_eq_some_iff.mp closes with ⟨closer, search, closes⟩
            rw [search]
            exact deletesTags_onComment search closes
        · split
          · exact .none
          · split <;> exact .none

/-- The repairs of a built-in rule at a token. -/
def repairs (rule : RuleInfo) (stream : Stream) (index : Nat) : List (List Edit) :=
  if rule = ClassComment.info then repairsOf (ClassComment.find stream index)
  else if rule = FunctionComment.info then repairsOf (FunctionComment.find stream index)
  else if rule = ArrayComma.info then repairsOf (ArrayComma.find stream index)
  else []

theorem repairs_methodOrder : repairs MethodOrder.info = fun _ _ => [] := by
  funext stream index
  simp [repairs, MethodOrder.info, ClassComment.info, FunctionComment.info, ArrayComma.info]

theorem repairs_propertyOrder : repairs PropertyOrder.info = fun _ _ => [] := by
  funext stream index
  simp [repairs, PropertyOrder.info, ClassComment.info, FunctionComment.info, ArrayComma.info]

theorem repairs_functionComment : repairs FunctionComment.info =
    fun stream index => repairsOf (FunctionComment.find stream index) := by
  funext stream index
  simp [repairs, ClassComment.info, FunctionComment.info]

theorem repairs_arrayComma : repairs ArrayComma.info =
    fun stream index => repairsOf (ArrayComma.find stream index) := by
  funext stream index
  simp [repairs, ClassComment.info, FunctionComment.info, ArrayComma.info]

/-- The built-in rules only record what they find. -/
theorem records_of_mem {rule : Rule} (builtIn : rule ∈ rules) :
    rule.Records (repairs rule.toRuleInfo) := by
  simp only [rules, List.mem_cons, List.not_mem_nil, or_false] at builtIn
  rcases builtIn with rfl | rfl | rfl | rfl | rfl
  · exact Rule.records_ofFindings _ _ _
  · exact repairs_functionComment ▸ Rule.records_ofFindings _ _ _
  · refine repairs_methodOrder ▸ ScopedRule.records_toRule _ _ _ _ _ fun stream index state => ?_
    simp only [MethodOrder.find]
    split <;> rfl
  · refine repairs_propertyOrder ▸ ScopedRule.records_toRule _ _ _ _ _ fun stream index state => ?_
    simp only [PropertyOrder.find]
    split
    · rfl
    · split <;> rfl
  · exact repairs_arrayComma ▸ Rule.records_ofFindings _ _ _

/-- At each token at most one rule has something to repair. -/
theorem repairsAt_rules (stream : Stream) (index : Nat) (kind : Kind) :
    Ruleset.repairsAt repairs rules stream index kind =
      if kind = .classKw ∨ kind = .interfaceKw ∨ kind = .traitKw then
        repairsOf (ClassComment.find stream index)
      else if kind = .functionKw then repairsOf (FunctionComment.find stream index)
      else if kind = .arrayKw ∨ kind = .openShortArray then repairsOf (ArrayComma.find stream index)
      else [] := by
  have unfold_rules : Ruleset.repairsAt repairs rules stream index kind =
      (if [Kind.classKw, .interfaceKw, .traitKw].contains kind then
        repairsOf (ClassComment.find stream index) else []) ++
      ((if [Kind.functionKw].contains kind then repairs FunctionComment.info stream index
          else []) ++
      ((if [Kind.functionKw].contains kind then repairs MethodOrder.info stream index else []) ++
      ((if [Kind.functionKw, .variableName].contains kind then
        repairs PropertyOrder.info stream index else []) ++
      ((if [Kind.arrayKw, .openShortArray].contains kind then
        repairs ArrayComma.info stream index else []) ++ [])))) := rfl
  rw [unfold_rules, repairs_functionComment, repairs_methodOrder, repairs_propertyOrder,
    repairs_arrayComma]
  simp only [List.contains_cons, List.contains_nil, Bool.or_false, Bool.or_eq_true, beq_iff_eq,
    ite_self, List.nil_append, List.append_nil]
  by_cases classLike : kind = .classKw ∨ kind = .interfaceKw ∨ kind = .traitKw
  · rcases classLike with rfl | rfl | rfl <;> simp
  · by_cases function : kind = .functionKw
    · subst function
      simp
    · simp [classLike, function]

end Standard

/-- Two repairs have no token in common. -/
def Repair.Apart (first second : Repair) : Prop :=
  ∀ index, first.covers index → ¬second.covers index

namespace Standard

variable {lexemes : List Lexeme}

/-- Where a repair comes from: the declaration whose comment loses a tag, or the array literal that
gets a comma. -/
inductive Origin (lexemes : List Lexeme) (index : Nat) : Repair → Prop where
  | tag {kind : Kind} {skipped : Kind → Bool} {comment : Comment} {tag : Tag} {repair : Repair}
      (declares : (ofLexemes lexemes).kind? index = some kind)
      (documented : isDocumented kind = true) (separates : Stream.Separates skipped)
      (search : (ofLexemes lexemes).commentEnd? index skipped = some comment.closer)
      (holds : Stream.Holds lexemes comment) (inside : tag ∈ comment.tags)
      (fits : repair.Fits lexemes)
      (on_line : ∀ place, repair.covers place →
        Stream.OnTagLine lexemes comment tag.token place) : Origin lexemes index repair
  | comma {span : Span} {last : Nat} (array : Stream.IsArray lexemes index span)
      (neighbours : Neighbours (settledKinds lexemes) last span.closer)
      (missing : (ofLexemes lexemes).kind? last ≠ some .comma)
      (fits : (Repair.comma last).Fits lexemes) : Origin lexemes index (.comma last)

/-- Some repairs at a token, laid out so that they do not meet. -/
def Planned (lexemes : List Lexeme) (index : Nat) (changesets : List (List Edit)) : Prop :=
  ∃ plan : List Repair, plan.map Repair.edits = changesets ∧ plan.Pairwise Repair.Apart ∧
    ∀ repair ∈ plan, Origin lexemes index repair

theorem planned_nil (index : Nat) : Planned lexemes index [] :=
  ⟨[], rfl, .nil, by simp⟩

theorem Planned.sublist {index : Nat} {changesets fewer : List (List Edit)}
    (planned : Planned lexemes index changesets) (sublist : fewer.Sublist changesets) :
    Planned lexemes index fewer := by
  rcases planned with ⟨plan, rfl, apart, origins⟩
  rcases List.sublist_map_iff.mp sublist with ⟨part, part_sublist, rfl⟩
  exact ⟨part, rfl, apart.sublist part_sublist, fun repair inside =>
    origins repair (part_sublist.subset inside)⟩

theorem ClassComment.separates : Stream.Separates maySeparate where
  declaration kind documented := by
    revert documented
    cases kind <;> decide
  group := rfl

theorem FunctionComment.separates : Stream.Separates maySeparate where
  declaration kind documented := by
    revert documented
    cases kind <;> decide
  group := rfl

theorem Origin.fits {index : Nat} {repair : Repair} (origin : Origin lexemes index repair) :
    repair.Fits lexemes := by
  cases origin with
  | tag declares documented separates search holds inside fits on_line => exact fits
  | comma array neighbours missing fits => exact fits

section Cuts

variable {mode : Lexeme.Mode} {position : Position} {text : List Char}
  (cuts : Lexeme.Cuts mode position text lexemes)

include cuts

variable {index : Nat}

theorem isContextual_of_mem : ∀ lexeme ∈ lexemes, Lexeme.isContextual lexeme.kind = false :=
  fun _ inside => (cuts.lexed inside).isContextual

/-- A tag is deleted among trivia. -/
theorem not_significantAt_of_onTagLine {comment : Comment} {tag : Tag} {place : Nat}
    (holds : Stream.Holds lexemes comment)
    (on_line : Stream.OnTagLine lexemes comment tag.token place) :
    ¬SignificantAt (settledKinds lexemes) place := by
  have length := holds.lt_length
  have upper := on_line.le_closer
  have at_place := List.getElem?_eq_getElem (show place < lexemes.length by omega)
  have inner := holds.isInner cuts at_place on_line.opener_lt upper
  rw [significantAt_iff at_place, isSignificant_of_isInner inner]
  simp

/-- Repairs of different declarations and array literals do not meet. -/
theorem Origin.apart {first second : Nat} {repair other : Repair}
    (origin : Origin lexemes first repair) (other_origin : Origin lexemes second other)
    (different : first ≠ second) : repair.Apart other := by
  intro place covered other_covered
  cases origin with
  | tag declares documented separates search holds inside fits on_line =>
    cases other_origin with
    | tag other_declares other_documented other_separates other_search other_holds other_inside
        other_fits other_on_line =>
        have same := eq_of_onTagLine cuts holds other_holds inside other_inside
          (on_line place covered) (other_on_line place other_covered)
        rw [← same.1] at other_search
        exact different (eq_of_commentEnd?_eq separates other_separates declares documented
          other_declares other_documented search other_search)
    | comma array neighbours missing fits =>
      obtain rfl : place = _ := other_covered
      exact not_significantAt_of_onTagLine cuts holds (on_line place covered)
        neighbours.left_significant
  | comma array neighbours missing fits =>
    obtain rfl : place = _ := covered
    cases other_origin with
    | tag other_declares other_documented other_separates other_search other_holds other_inside
        other_fits other_on_line =>
        exact not_significantAt_of_onTagLine cuts other_holds (other_on_line place other_covered)
          neighbours.left_significant
    | comma other_array other_neighbours other_missing other_fits =>
      obtain rfl : place = _ := other_covered
      exact different (array.owner_eq other_array (neighbours.right_eq other_neighbours))

/-- The deletions of some tags of a comment are repairs that do not meet. -/
theorem exists_plan_of_tags {comment : Comment} (holds : Stream.Holds lexemes comment)
    {tags : List Tag} (inside : ∀ tag ∈ tags, tag ∈ comment.tags)
    (sorted : tags.Pairwise fun first second => first.token < second.token) :
    ∃ plan : List Repair,
      plan.map Repair.edits = tags.map ((ofLexemes lexemes).tagDeletion comment) ∧
      plan.Pairwise Repair.Apart ∧
      ∀ repair ∈ plan, ∃ tag ∈ tags, repair.Fits lexemes ∧
        ∀ place, repair.covers place → Stream.OnTagLine lexemes comment tag.token place := by
  induction tags with
  | nil => exact ⟨[], rfl, .nil, by simp⟩
  | cons tag tags ih =>
    rw [List.pairwise_cons] at sorted
    have first_inside := inside tag List.mem_cons_self
    rcases exists_repair_of_tagDeletion cuts holds first_inside with
      ⟨repair, edits_eq, fits, on_line⟩
    rcases ih (fun other other_inside => inside other (List.mem_cons_of_mem _ other_inside))
      sorted.2 with ⟨plan, plan_eq, apart, origins⟩
    refine ⟨repair :: plan, ?_, ?_, ?_⟩
    · rw [List.map_cons, List.map_cons, plan_eq, edits_eq]
    · refine List.pairwise_cons.mpr ⟨fun other planned place covered other_covered => ?_, apart⟩
      rcases origins other planned with ⟨other_tag, other_inside, -, other_on_line⟩
      have same := (eq_of_onTagLine cuts holds holds first_inside
        (inside other_tag (List.mem_cons_of_mem _ other_inside)) (on_line place covered)
        (other_on_line place other_covered)).2
      have := sorted.1 other_tag other_inside
      omega
    · intro other planned
      rcases List.mem_cons.mp planned with rfl | planned
      · exact ⟨tag, List.mem_cons_self, fits, on_line⟩
      · rcases origins other planned with ⟨other_tag, other_inside, other_fits⟩
        exact ⟨other_tag, List.mem_cons_of_mem _ other_inside, other_fits⟩

theorem planned_of_deletesTags {kind : Kind} {skipped : Kind → Bool} {changesets : List (List Edit)}
    (declares : (ofLexemes lexemes).kind? index = some kind)
    (documented : isDocumented kind = true) (separates : Stream.Separates skipped)
    (deletes : DeletesTags (ofLexemes lexemes) index skipped changesets) :
    Planned lexemes index changesets := by
  cases deletes with
  | none => exact planned_nil index
  | @tags closer comment tags search closes found inside =>
    rcases holds_of_commentAt? found closes with ⟨rfl, holds⟩
    have sorted : tags.Pairwise fun first second => first.token < second.token :=
      (List.pairwise_map.mp holds.enclosed.sorted).sublist inside
    rcases exists_plan_of_tags cuts holds (fun tag mem => inside.subset mem) sorted with
      ⟨plan, plan_eq, apart, origins⟩
    refine ⟨plan, plan_eq, apart, fun repair planned => ?_⟩
    rcases origins repair planned with ⟨tag, mem, fits, on_line⟩
    exact .tag declares documented separates search holds (inside.subset mem) fits on_line

theorem planned_arrayComma {kind : Kind} (opens : (ofLexemes lexemes).kind? index = some kind)
    (literal : kind = .arrayKw ∨ kind = .openShortArray) :
    Planned lexemes index (repairsOf (ArrayComma.find (ofLexemes lexemes) index)) := by
  rw [ArrayComma.find]
  cases found : ArrayComma.lastToken? (ofLexemes lexemes) index with
  | none => exact planned_nil index
  | some last =>
    simp only
    split
    · exact planned_nil index
    · next missing =>
        rcases neighbours_of_lastToken? (isContextual_of_mem cuts) opens literal found with
          ⟨span, array, neighbours⟩
        have fits := fits_comma cuts array neighbours
        refine ⟨[.comma last], rfl, by simp, fun repair planned => ?_⟩
        obtain rfl := List.mem_singleton.mp planned
        exact .comma array neighbours missing fits

theorem planned_repairsAt {kind : Kind} (at_index : (ofLexemes lexemes).kind? index = some kind) :
    Planned lexemes index
      (Ruleset.repairsAt repairs rules (ofLexemes lexemes) index kind) := by
  rw [repairsAt_rules]
  split
  · next classLike =>
      refine planned_of_deletesTags cuts at_index ?_ ClassComment.separates
        (ClassComment.deletesTags _ index)
      rcases classLike with rfl | rfl | rfl <;> rfl
  · split
    · next function =>
        exact planned_of_deletesTags cuts at_index (by rw [function]; rfl) FunctionComment.separates
          (FunctionComment.deletesTags _ index)
    · split
      · next literal => exact planned_arrayComma cuts at_index literal
      · exact planned_nil index

/-- Plans of different places fit together into one plan. -/
theorem exists_plan_of_places {α : Type} {places : List (α × Nat)}
    {changesets : α × Nat → List (List Edit)}
    (planned : ∀ place ∈ places, Planned lexemes place.2 (changesets place))
    (different : (places.map Prod.snd).Nodup) :
    ∃ plan : List Repair, plan.map Repair.edits = places.flatMap changesets ∧
      plan.Pairwise Repair.Apart ∧
      ∀ repair ∈ plan, ∃ place ∈ places, repair.edits ∈ changesets place ∧
        Origin lexemes place.2 repair := by
  induction places with
  | nil => exact ⟨[], rfl, .nil, by simp⟩
  | cons place places ih =>
    rw [List.map_cons, List.nodup_cons] at different
    rcases planned place List.mem_cons_self with ⟨first, first_eq, first_apart, first_origin⟩
    rcases ih (fun other inside => planned other (List.mem_cons_of_mem _ inside)) different.2 with
      ⟨rest, rest_eq, rest_apart, rest_origin⟩
    refine ⟨first ++ rest, ?_, ?_, fun repair inside => ?_⟩
    · rw [List.map_append, List.flatMap_cons, first_eq, rest_eq]
    · refine List.pairwise_append.mpr ⟨first_apart, rest_apart, ?_⟩
      intro repair inside other other_inside
      rcases rest_origin other other_inside with ⟨later, later_inside, -, other_origin⟩
      refine (first_origin repair inside).apart cuts other_origin fun same => different.1 ?_
      exact same ▸ List.mem_map_of_mem later_inside
    · rcases List.mem_append.mp inside with inside | inside
      · have listed : repair.edits ∈ changesets place := first_eq ▸ List.mem_map_of_mem inside
        exact ⟨place, List.mem_cons_self, listed, first_origin repair inside⟩
      · rcases rest_origin repair inside with ⟨later, later_inside, listed, origin⟩
        exact ⟨later, List.mem_cons_of_mem _ later_inside, listed, origin⟩

/-- The repairs of a pass over a file, laid out so that no two of them meet, each with the token at
which it is offered. -/
theorem exists_placed_plan {chosen : List Rule} (builtIn : chosen.Sublist rules) :
    ∃ plan : List Repair,
      plan.map Repair.edits = Ruleset.repairsIn repairs chosen (ofLexemes lexemes) ∧
      plan.Pairwise Repair.Apart ∧
      ∀ repair ∈ plan, ∃ index kind, (ofLexemes lexemes).kind? index = some kind ∧
        repair.edits ∈ Ruleset.repairsAt repairs chosen (ofLexemes lexemes) index kind ∧
        Origin lexemes index repair := by
  have kind_at : ∀ place ∈ (ofLexemes lexemes).tokens.toList.zipIdx 0,
      (ofLexemes lexemes).kind? place.2 = some place.1.kind := by
    rintro ⟨token, index⟩ inside
    have at_index : (ofLexemes lexemes).get? index = some token := by
      rw [List.mk_mem_zipIdx_iff_getElem?] at inside
      simpa [get?] using inside
    rw [kind?, at_index, Option.map_some]
  have planned : ∀ place ∈ (ofLexemes lexemes).tokens.toList.zipIdx 0,
      Planned lexemes place.2 (Ruleset.repairsAt repairs chosen (ofLexemes lexemes) place.2
        place.1.kind) :=
    fun place inside =>
      (planned_repairsAt cuts (kind_at place inside)).sublist (builtIn.flatMap _)
  have different : (((ofLexemes lexemes).tokens.toList.zipIdx 0).map Prod.snd).Nodup := by
    rw [List.zipIdx_map_snd]
    exact List.nodup_range'
  rcases exists_plan_of_places cuts planned different with ⟨plan, plan_eq, apart, origins⟩
  refine ⟨plan, plan_eq, apart, fun repair inside => ?_⟩
  rcases origins repair inside with ⟨place, listed_place, listed, origin⟩
  exact ⟨place.2, place.1.kind, kind_at place listed_place, listed, origin⟩

/-- The repairs of a pass over a file, laid out so that no two of them meet. -/
theorem exists_plan {chosen : List Rule} (builtIn : chosen.Sublist rules) :
    ∃ plan : List Repair,
      plan.map Repair.edits = Ruleset.repairsIn repairs chosen (ofLexemes lexemes) ∧
      plan.Pairwise Repair.Apart ∧
      ∀ repair ∈ plan, ∃ index, Origin lexemes index repair := by
  rcases exists_placed_plan cuts builtIn with ⟨plan, plan_eq, apart, origins⟩
  refine ⟨plan, plan_eq, apart, fun repair inside => ?_⟩
  rcases origins repair inside with ⟨index, -, -, -, origin⟩
  exact ⟨index, origin⟩

end Cuts

end Standard

namespace Repair

open Edit

variable {lexemes : List Lexeme} {repair : Repair} {index : Nat}

theorem touches_deletions (first last index : Nat) :
    touches (Fixer.deletions first last) index = true ↔ first ≤ index ∧ index ≤ last := by
  simp only [touches, Fixer.deletions, List.any_map, List.any_eq_true, List.mem_range',
    Function.comp_apply, Edit.index, beq_iff_eq]
  constructor
  · rintro ⟨place, ⟨offset, bound, rfl⟩, rfl⟩
    omega
  · rintro ⟨lower, upper⟩
    exact ⟨index, ⟨index - first, by omega, by omega⟩, rfl⟩

theorem covers_of_touches (touched : touches repair.edits index = true) : repair.covers index := by
  cases repair with
  | comma last =>
    simp only [edits, touches, List.any_cons, List.any_nil, Bool.or_false, Edit.index,
      beq_iff_eq] at touched
    exact touched.symm
  | line previous last =>
    rw [edits, touches_deletions] at touched
    exact touched
  | tail tag stop =>
    rw [edits, touches_deletions] at touched
    exact ⟨touched.1, by omega⟩

theorem Apart.disjoint {other : Repair} (apart : repair.Apart other) :
    Disjoint repair.edits other.edits := by
  intro index touched
  by_contra also
  exact apart index (covers_of_touches touched) (covers_of_touches (by simpa using also))

theorem Fits.edits_ne_nil (fits : repair.Fits lexemes) : repair.edits ≠ [] := by
  have nonempty {index : Nat} (touched : touches repair.edits index = true) :
      repair.edits ≠ [] := by
    rintro empty
    simp [empty, touches] at touched
  cases fits with
  | comma found takes more => simp [edits]
  | @line previous last before lexeme ordered =>
    exact nonempty ((touches_deletions _ _ last).mpr ⟨ordered, Nat.le_refl _⟩)
  | @tail tag stop lexeme behind ordered =>
    exact nonempty ((touches_deletions _ _ tag).mpr ⟨Nat.le_refl _, by omega⟩)

theorem Fits.lt_length (fits : repair.Fits lexemes) (covered : repair.covers index) :
    index < lexemes.length := by
  cases fits with
  | comma found takes more =>
    obtain rfl : index = _ := covered
    omega
  | line ordered previous_found starts last_found ends =>
    have := (List.getElem?_eq_some_iff.mp last_found).1
    have := covered.2
    omega
  | tail ordered tag_found tagged stop_found stops =>
    have := (List.getElem?_eq_some_iff.mp stop_found).1
    have := covered.2
    omega

/-- A repair that fits takes effect on a file that has not been changed. -/
theorem Fits.takes (fits : repair.Fits lexemes) :
    Fixer.Takes (.ofStream (ofLexemes lexemes) true) repair.edits where
  nonempty := fits.edits_ne_nil
  fresh edit inside := by
    have touched : touches repair.edits edit.index = true := by
      simpa [touches] using ⟨edit, inside, rfl⟩
    have bound := fits.lt_length (covers_of_touches touched)
    rw [← size_ofLexemes] at bound
    exact ⟨_, Array.getElem?_eq_getElem (by simpa [Fixer.ofStream, size] using bound), by
      simp [Fixer.ofStream]⟩

/-- All repairs that fit and do not meet take effect. -/
theorem applyAll_edits {plan : List Repair} (apart : plan.Pairwise Apart)
    (fits : ∀ repair ∈ plan, repair.Fits lexemes) :
    (Fixer.ofStream (ofLexemes lexemes) true).applyAll (plan.map edits) =
      { Fixer.ofStream (ofLexemes lexemes) true with
        slots := (plan.map edits).flatten.foldl Fixer.applyEdit
          (Fixer.ofStream (ofLexemes lexemes) true).slots
        fixCount := plan.length } := by
  have takes : ∀ changeset ∈ plan.map edits,
      Fixer.Takes (.ofStream (ofLexemes lexemes) true) changeset := by
    intro changeset inside
    rcases List.mem_map.mp inside with ⟨repair, planned, rfl⟩
    exact (fits repair planned).takes
  have disjoint : (plan.map edits).Pairwise Disjoint :=
    List.pairwise_map.mpr (apart.imp Apart.disjoint)
  rw [Fixer.applyAll_eq takes disjoint rfl rfl]
  simp [Fixer.ofStream]

end Repair

namespace Standard

/-- A ruleset of built-in rules, whatever they have seen so far. -/
def IsBuiltIn (ruleset : Ruleset) : Prop :=
  (ruleset.listeners.map Listener.rule).Sublist rules

/-- The repairs that a ruleset of built-in rules offers in a source. -/
def offered (ruleset : Ruleset) (source : List Char) : List (List Edit) :=
  Ruleset.repairsIn repairs (ruleset.listeners.map Listener.rule) (ofSource source)

/-- The pass over a source with which a check or a round of fixing begins. -/
def firstPass (source : List Char) (isEnabled : Bool) : Pass where
  fixer := .ofStream (ofSource source) isEnabled

/-- The text of a source after one round of fixing. -/
def repaired (ruleset : Ruleset) (source : List Char) : List Char :=
  ((firstPass source true).fixer.applyAll (offered ruleset source)).contents

theorem isBuiltIn_ruleset (isEnabled : String → Bool) : IsBuiltIn (ruleset isEnabled) := by
  rw [IsBuiltIn, ruleset, Ruleset.rules_ofRules]
  exact List.filter_sublist

section Process

variable {ruleset : Ruleset} (builtIn : IsBuiltIn ruleset) (path : String) (source : List Char)

include builtIn

theorem records_of_isBuiltIn :
    ∀ rule ∈ ruleset.listeners.map Listener.rule, rule.Records (repairs rule.toRuleInfo) :=
  fun _ inside => records_of_mem (builtIn.subset inside)

/-- One pass, with or without fixing: the same rules and the same report, and the fixer has been
offered the same repairs. -/
theorem process_firstPass :
    ∃ (after : Ruleset) (report : Report),
      after.listeners.map Listener.rule = ruleset.listeners.map Listener.rule ∧
      report.fixableCount = (offered ruleset source).length ∧
      ∀ isEnabled, ∃ pass, ruleset.process path (ofSource source)
          (firstPass source isEnabled) = (after, pass) ∧ pass.report = report ∧
        pass.fixer =
          if isEnabled then (firstPass source true).fixer.applyAll (offered ruleset source)
          else (firstPass source false).fixer := by
  rcases Ruleset.process_eq (records_of_isBuiltIn builtIn) path (ofSource source) with
    ⟨after, file, entries, file_stream, rules_eq, repaired, processed⟩
  refine ⟨after, entries.enter file.stream {}, rules_eq, ?_, fun isEnabled => ?_⟩
  · rw [Entries.fixableCount_enter, repaired]
    exact Nat.zero_add _
  · refine ⟨_, processed _ rfl, Entries.report_record file entries _, ?_⟩
    rw [Entries.fixer_record, repaired]
    cases isEnabled <;> rfl

/-- All repairs that are offered take effect. -/
theorem applyAll_offered :
    (firstPass source true).fixer.applyAll (offered ruleset source) =
      { (firstPass source true).fixer with
        slots := (offered ruleset source).flatten.foldl Fixer.applyEdit
          (firstPass source true).fixer.slots
        fixCount := (offered ruleset source).length } := by
  rcases exists_plan (cuts_lex source) builtIn with ⟨plan, plan_eq, apart, origins⟩
  have fits : ∀ repair ∈ plan, repair.Fits (lex source) := by
    intro repair planned
    rcases origins repair planned with ⟨index, origin⟩
    exact origin.fits
  have offered_eq : offered ruleset source = plan.map Repair.edits := plan_eq.symm
  rw [offered_eq, List.length_map]
  exact Repair.applyAll_edits apart fits

/-- What a pass of a fix run does: the same rules stay, and all repairs that are offered are
made. -/
theorem fixingPass_eq :
    (Runner.fixingPass path source ruleset).1.listeners.map Listener.rule =
        ruleset.listeners.map Listener.rule ∧
      (Runner.fixingPass path source ruleset).2.fixer =
        (firstPass source true).fixer.applyAll (offered ruleset source) ∧
      (Runner.fixingPass path source ruleset).2.fixer.fixCount =
        (offered ruleset source).length := by
  rcases process_firstPass builtIn path source with ⟨after, report, rules_eq, -, processed⟩
  rcases processed true with ⟨pass, pass_eq, -, fixer_eq⟩
  rw [if_pos rfl] at fixer_eq
  have result : Runner.fixingPass path source ruleset = (after, pass) := pass_eq
  rw [result]
  refine ⟨rules_eq, fixer_eq, ?_⟩
  rw [fixer_eq, applyAll_offered builtIn]

/-- What every round of repairs keeps, a whole fix run keeps. It also keeps the rules, and when it
has converged, nothing is offered. -/
theorem fixPasses_keeps (holds : List Char → Nat → Prop) (passes : Nat) {progress : Runner.Progress}
    (goesOn : progress.isConverged = false) (start : holds progress.source progress.fixesApplied)
    (round : ∀ source fixes, offered ruleset source ≠ [] → holds source fixes →
      holds (repaired ruleset source) (fixes + (offered ruleset source).length)) :
    let ended := Runner.fixPasses path passes ruleset progress
    ended.1.listeners.map Listener.rule = ruleset.listeners.map Listener.rule ∧
      holds ended.2.source ended.2.fixesApplied ∧
      (ended.2.isConverged = true → offered ruleset ended.2.source = []) := by
  induction passes generalizing ruleset progress with
  | zero => exact ⟨rfl, start, fun converged => by simp [Runner.fixPasses, goesOn] at converged⟩
  | succ passes ih =>
    rcases fixingPass_eq builtIn path progress.source with ⟨rules_eq, fixer_eq, count⟩
    rcases Runner.fixPasses_cases path passes ruleset goesOn with
      ⟨nothing, -, result⟩ | ⟨fixes, next_goesOn, result⟩
    · rcases progress.afterPass_of_nothing nothing path with ⟨source_eq, -, fixes_eq, -⟩
      rw [count, List.length_eq_zero_iff] at nothing
      simp only [result, source_eq, fixes_eq]
      exact ⟨rules_eq, start, fun _ => nothing⟩
    · rcases progress.afterPass_of_fixes fixes path with ⟨source_eq, -, fixes_eq, -⟩
      rw [count, ne_eq, List.length_eq_zero_iff] at fixes
      have next := round _ _ fixes start
      rw [repaired, ← fixer_eq, ← source_eq, ← count, ← fixes_eq] at next
      have offered_eq : offered (Runner.fixingPass path progress.source ruleset).1 =
          offered ruleset := by
        funext source
        rw [offered, rules_eq, offered]
      rw [result, ← rules_eq, ← offered_eq]
      refine ih (by rwa [IsBuiltIn, rules_eq]) next_goesOn next fun source => ?_
      rw [repaired, offered_eq]
      exact round source

end Process

theorem fixableCount_sorted (report : Report) : report.sorted.fixableCount = report.fixableCount :=
  (List.mergeSort_perm _ _).countP_eq _

theorem fixableCount_check {runner : Runner} (builtIn : IsBuiltIn runner.ruleset) (path : String)
    (source : List Char) :
    (runner.check path source).1.report.fixableCount = (offered runner.ruleset source).length := by
  rcases process_firstPass builtIn path source with ⟨after, report, -, count, processed⟩
  rcases processed false with ⟨pass, pass_eq, report_eq, -⟩
  have checked : (runner.check path source).1.report = (runner.ruleset.process path
      (ofSource source) (firstPass source false)).2.report.sorted := rfl
  rw [checked, fixableCount_sorted, pass_eq, report_eq, count]

/-- Built-in fixes never conflict, and convergence means that nothing fixable is left: a pass that
fixes reports what a check reports, rejects nothing and commits one changeset for each diagnostic
that can be fixed. -/
theorem fixes_never_conflict (runner : Runner)
    (builtIn : (runner.ruleset.listeners.map Listener.rule).Sublist rules) (path : String)
    (source : List Char) :
    let stream := Stream.ofSource source
    let fixing := (runner.ruleset.process path stream { fixer := .ofStream stream true }).2
    let checking := (runner.ruleset.process path stream { fixer := .ofStream stream false }).2
    fixing.report = checking.report ∧
      fixing.fixer.rejectedCount = 0 ∧
      fixing.fixer.fixCount = fixing.report.fixableCount ∧
      ((runner.fix path source).1.isConverged = true →
        (runner.fix path source).1.remaining.fixableCount = 0) := by
  intro stream fixing checking
  rcases process_firstPass builtIn path source with ⟨after, report, -, count, processed⟩
  rcases processed true with ⟨pass, pass_eq, report_eq, fixer_eq⟩
  rcases processed false with ⟨other, other_eq, other_report, -⟩
  rw [if_pos rfl, applyAll_offered builtIn] at fixer_eq
  have fixing_eq : fixing = pass := congrArg Prod.snd pass_eq
  have checking_eq : checking = other := congrArg Prod.snd other_eq
  rw [fixing_eq, checking_eq]
  refine ⟨report_eq.trans other_report.symm, ?_, ?_, fun converged => ?_⟩
  · rw [fixer_eq]
    rfl
  · rw [fixer_eq, report_eq, count]
  · rcases fixPasses_keeps builtIn path (fun _ _ => True) runner.maxPasses
      (show ({ source } : Runner.Progress).isConverged = false from rfl) trivial
      (fun _ _ _ _ => trivial) with ⟨still, -, settled⟩
    let final := Runner.fixPasses path runner.maxPasses runner.ruleset { source }
    have after_builtIn : IsBuiltIn final.1 := by
      rw [IsBuiltIn, still]
      exact builtIn
    have remaining : (runner.fix path source).1.remaining =
        ({ runner with ruleset := final.1 }.check path final.2.source).1.report := rfl
    have left : offered final.1 final.2.source = [] := by
      rw [offered, still]
      exact settled converged
    rw [remaining, fixableCount_check after_builtIn, left, List.length_nil]

theorem fixes_never_conflict_nested_arrays :
    let runner := Runner.ofRuleset (ruleset fun _ => true)
    let source := "<?php\narray(\n[\n1\n]\n);".toList
    let stream := Stream.ofSource source
    let fixing := (runner.ruleset.process "a.php" stream { fixer := .ofStream stream true }).2
    fixing.fixer.fixCount = 2 ∧ fixing.report.fixableCount = 2 ∧ fixing.fixer.rejectedCount = 0 ∧
      (runner.fix "a.php" source).1.isConverged = true ∧
      (runner.fix "a.php" source).1.remaining.fixableCount = 0 := by
  intro runner source stream fixing
  have general := fixes_never_conflict runner (isBuiltIn_ruleset _) "a.php" source
  have fixed : fixing.fixer.fixCount = 2 := by decide +kernel
  have converged : (runner.fix "a.php" source).1.isConverged = true := by decide +kernel
  exact ⟨fixed, general.2.2.1.symm.trans fixed, general.2.1, converged, general.2.2.2 converged⟩

end Standard

end PhpStyle
