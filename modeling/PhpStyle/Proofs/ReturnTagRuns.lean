import PhpStyle.Proofs.ReturnTagPasses

/-!
# Return tags over a run of passes

Each pass trims the return tags of a function comment. The functions, their names and what
they return stay the same meanwhile. So a run that ends because nothing is left to fix leaves
the first return tag of a function that returns a value or has no body, and none of a
function that returns nothing.
-/

namespace PhpStyle.Standard.FunctionComment

open PhpStyle.Stream

section Embeddings

variable {core whole : List Lexeme} {place : Nat → Nat} (embeds : Stream.Embeds core whole place)
  {index : Nat} (declares : (ofLexemes core).kind? index = some .functionKw)

include embeds declares

theorem isLifecycle_place : isLifecycle (ofLexemes whole) (place index) =
    isLifecycle (ofLexemes core) index := by
  rw [isLifecycle, isLifecycle, embeds.declarationName?_place declares]

theorem keepsReturn_place : keepsReturn (ofLexemes whole) (place index) =
    keepsReturn (ofLexemes core) index := by
  rw [Bool.eq_iff_iff, keepsReturn_eq_true_iff, keepsReturn_eq_true_iff,
    embeds.scopeOf?_place declares rfl, Option.map_eq_none_iff, embeds.returnsValue_place_iff declares]

end Embeddings

/-- The names of the functions of a file, in source order. -/
def functionNames (stream : Stream) : List (Option (List Char)) :=
  (stream.places [.functionKw]).map stream.declarationName?

theorem functionNames_of_embeds {core whole : List Lexeme} {place : Nat → Nat}
    (embeds : Stream.Embeds core whole place) :
    functionNames (ofLexemes whole) = functionNames (ofLexemes core) := by
  rw [functionNames, functionNames, embeds.places_eq (by decide), List.map_map]
  apply List.map_congr_left
  intro index listed
  rcases mem_places_iff.mp listed with ⟨kind, function, declares⟩
  rcases List.mem_singleton.mp function with rfl
  exact embeds.declarationName?_place declares

/-- The function of the given rank in a source, neither a constructor nor a destructor, with the
return tags of its comment. -/
structure ReadsReturns (source : List Char) (rank : Nat) (keeps : Bool) (tags : List TagSpelling)
    (index : Nat) (comment : Comment) : Prop where
  ranked : ((ofSource source).places [.functionKw])[rank]? = some index
  obtains : Obtains (ofSource source) index comment
  named : isLifecycle (ofSource source) index = false
  keeps_eq : keepsReturn (ofSource source) index = keeps
  tags_eq : (comment.tagsNamed "@return").map Tag.spelling = tags

/-- Where nothing is offered, only the settled return tags are left. -/
theorem ReadsReturns.tags_eq_settled {ruleset : Ruleset} {source : List Char} {rank : Nat}
    {keeps : Bool} {tags : List TagSpelling} {index : Nat} {comment : Comment}
    (reads : ReadsReturns source rank keeps tags index comment)
    (chosen : rule ∈ ruleset.listeners.map Listener.rule)
    (nothing : offered ruleset source = []) : tags = settled keeps tags := by
  rcases reads with ⟨ranked, obtains, named, rfl, rfl⟩
  rw [← map_settled]
  apply congrArg
  apply eq_settled_of_surplusReturn?
  by_contra some_surplus
  rcases Option.ne_none_iff_exists'.mp some_surplus with ⟨tag, surplus⟩
  have listed := mem_offered_of_mem_find chosen obtains.declares
    ((obtains.mem_repairsOf_find_iff named).mpr ⟨tag, surplus, rfl⟩)
  rw [nothing] at listed
  cases listed

section Runs

variable {ruleset : Ruleset} (builtIn : IsBuiltIn ruleset) {source : List Char} {rank : Nat}
  {keeps : Bool} {tags : List TagSpelling}

include builtIn

theorem functionNames_repaired (source : List Char) :
    functionNames (ofSource (repaired ruleset source)) =
      functionNames (ofSource source) := by
  rcases exists_plans builtIn source with ⟨plan, plans⟩
  exact (functionNames_of_embeds plans.revises.embeds).trans
    (functionNames_of_embeds (embeds_skeleton source)).symm

/-- What a pass does to the return tags of a function. -/
theorem ReadsReturns.repaired {index : Nat} {comment : Comment}
    (reads : ReadsReturns source rank keeps tags index comment)
    (chosen : rule ∈ ruleset.listeners.map Listener.rule) :
    ∃ place revised, ReadsReturns (Standard.repaired ruleset source) rank keeps (trimmed keeps tags)
      place revised := by
  rcases reads with ⟨ranked, obtains, named, rfl, rfl⟩
  rcases exists_plans builtIn source with ⟨plan, plans⟩
  have embeds := embeds_skeleton source
  have revised_embeds := plans.revises.embeds
  have counted : ∀ kind ∈ [Kind.functionKw], Places.isIdle kind = false := by decide
  rw [ofSource, embeds.places_eq counted, List.getElem?_map, Option.map_eq_some_iff] at ranked
  rcases ranked with ⟨origin, ranked, index_eq⟩
  have declares : (ofLexemes (skeleton (lex source))).kind? origin =
      some .functionKw := by
    rw [← embeds.kind?_place, index_eq]
    exact obtains.declares
  rcases obtains.revised builtIn chosen plans named index_eq.symm with ⟨revised, again, trims⟩
  subst index_eq
  refine ⟨_, revised, ?_, again, ?_, ?_, trims⟩
  · rw [ofSource, revised_embeds.places_eq counted, List.getElem?_map, ranked]
    rfl
  · exact (isLifecycle_place revised_embeds declares).trans
      ((isLifecycle_place embeds declares).symm.trans named)
  · exact (keepsReturn_place revised_embeds declares).trans (keepsReturn_place embeds declares).symm

end Runs

/-- Repeated fixing of return tags keeps the right one: when a fix run has nothing left to fix, the
comment of a function that had return tags has the first of them if the function has no body or
returns a value, and none otherwise. -/
theorem fix_keeps_first_return_tag (runner : Runner)
    (builtIn : (runner.ruleset.listeners.map Listener.rule).Sublist rules)
    (chosen : rule ∈ runner.ruleset.listeners.map Listener.rule) (path : String)
    (source : List Char) (converged : (runner.fix path source).1.isConverged = true)
    {rank index : Nat} {comment : Comment} {first : Tag} {others : List Tag}
    (ranked : ((Stream.ofSource source).places [.functionKw])[rank]? = some index)
    (obtains : Obtains (Stream.ofSource source) index comment)
    (named : (Stream.ofSource source).declarationName? index ≠ some "__construct".toList ∧
      (Stream.ofSource source).declarationName? index ≠ some "__destruct".toList)
    (tags : comment.tagsNamed "@return" = first :: others) :
    let stream := Stream.ofSource source
    let fixed := Stream.ofSource (runner.fix path source).1.source
    functionNames fixed = functionNames stream ∧
      ∃ place revised, (fixed.places [.functionKw])[rank]? = some place ∧
        Obtains fixed place revised ∧
        (stream.scopeOf? index = none ∨ ReturnsValue (lex source) index →
          (revised.tagsNamed "@return").map Tag.spelling = [first.spelling]) ∧
        (¬(stream.scopeOf? index = none ∨ ReturnsValue (lex source) index) →
          revised.tagsNamed "@return" = []) := by
  intro stream fixed
  have start : ({ source } : Runner.Progress).isConverged = false := rfl
  have reads : ReadsReturns source rank (keepsReturn stream index) _ index comment :=
    ⟨ranked, obtains, isLifecycle_eq_false named, rfl, rfl⟩
  rcases fixPasses_keeps builtIn path
    (fun text _ => functionNames (Stream.ofSource text) = functionNames stream ∧
      ∃ left, settled (keepsReturn stream index) left = settled (keepsReturn stream index) _ ∧
        ∃ place revised, ReadsReturns text rank (keepsReturn stream index) left place revised)
    runner.maxPasses start ⟨rfl, _, rfl, index, comment, reads⟩
    (by
      rintro text _ - ⟨names_eq, left, same, place, revised, left_reads⟩
      exact ⟨(functionNames_repaired builtIn text).trans names_eq, _,
        (settled_trimmed _ left).trans same, left_reads.repaired builtIn chosen⟩) with
    ⟨-, ⟨names_eq, left, same, place, revised, left_reads⟩, settles⟩
  refine ⟨names_eq, ?_⟩
  have left_eq := left_reads.tags_eq_settled chosen (settles converged)
  rw [same, tags, ← left_reads.tags_eq] at left_eq
  have keeps_iff : keepsReturn stream index = true ↔
      stream.scopeOf? index = none ∨ ReturnsValue (lex source) index := keepsReturn_eq_true_iff
  refine ⟨place, revised, left_reads.ranked, left_reads.obtains, ?_, ?_⟩
  · intro keeps
    rw [left_eq, keeps_iff.mpr keeps]
    rfl
  · intro drops
    rw [← keeps_iff, Bool.not_eq_true] at drops
    rw [drops] at left_eq
    exact List.map_eq_nil_iff.mp left_eq

/-- A function without a body keeps the first of two tags, one that returns nothing loses both. -/
theorem fix_keeps_first_return_tag_two_functions :
    let source := ("<?php /** @return int\n@Return x */ function f(); " ++
      "/** @return\n@return */ function g() \x7b\x7d").toList
    let runner := Runner.ofRuleset (ruleset fun _ => true)
    let fixed := Stream.ofSource (runner.fix "a.php" source).1.source
    (runner.fix "a.php" source).1.isConverged = true ∧
      (∃ place revised, (fixed.places [.functionKw])[0]? = some place ∧
        Obtains fixed place revised ∧
        (revised.tagsNamed "@return").map Tag.spelling = [⟨"@return", some "int"⟩]) ∧
      ∃ place revised, (fixed.places [.functionKw])[1]? = some place ∧
        Obtains fixed place revised ∧ revised.tagsNamed "@return" = [] := by
  intro source runner fixed
  let stream := Stream.ofSource source
  let kept : List Tag := [⟨4, "@return", some "int", 0⟩, ⟨8, "@Return", some "x", 1⟩]
  let dropped : List Tag := [⟨23, "@return", none, 0⟩, ⟨25, "@return", none, 1⟩]
  have builtIn := isBuiltIn_ruleset fun _ => true
  have chosen : rule ∈ runner.ruleset.listeners.map Listener.rule :=
    List.mem_cons_of_mem _ List.mem_cons_self
  have converged : (runner.fix "a.php" source).1.isConverged = true := by decide +kernel
  have facts : stream.places [.functionKw] = [14, 29] ∧
      stream.declarationName? 14 = some ['f'] ∧ stream.declarationName? 29 = some ['g'] ∧
      Obtains stream 14 ⟨2, 12, kept⟩ ∧ Obtains stream 29 ⟨21, 27, dropped⟩ ∧
      stream.scopeOf? 14 = none ∧
      ¬(stream.scopeOf? 29 = none ∨ returnsValue stream 29 = true) := by decide +kernel
  rcases facts with ⟨places, first_name, second_name, first_obtains, second_obtains, bodiless, empty⟩
  have keeps := fix_keeps_first_return_tag runner builtIn chosen "a.php" source converged
    (congrArg (·[0]?) places) first_obtains (by rw [first_name]; decide)
    (show _ = kept from by decide +kernel)
  have drops := fix_keeps_first_return_tag runner builtIn chosen "a.php" source converged
    (congrArg (·[1]?) places) second_obtains (by rw [second_name]; decide)
    (show _ = dropped from by decide +kernel)
  rcases keeps.2 with ⟨place, revised, ranked, obtains, spelled, -⟩
  rcases drops.2 with ⟨later, other, other_ranked, other_obtains, -, none_left⟩
  have returns_nothing : ¬(stream.scopeOf? 29 = none ∨ ReturnsValue (lex source) 29) := by
    rw [← returnsValue_eq_true_iff]
    exact empty
  exact ⟨converged, ⟨place, revised, ranked, obtains, spelled (.inl bodiless)⟩,
    later, other, other_ranked, other_obtains, none_left returns_nothing⟩

end PhpStyle.Standard.FunctionComment
