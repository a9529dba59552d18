import Mathlib.Data.List.MinMax
import PhpStyle.TagTable

/-!
# What a table of tags says about a comment

The validation of a comment goes through its tags once. It remembers the known names so
far and the furthest place of the table that it has reached. This file says what it finds
tag by tag, from the tags before each one: whether one of them has the same name, whether
one of them has a later place in the table, and which of them has the latest.

The two agree because the remembered place is the greatest one so far: a tag that stands
too early does not move it. Tags that a rule takes leave no trace in what is remembered.
-/

namespace PhpStyle

open List

namespace Verdict

/-- The tag that is handed to the rule. -/
def taken? : Verdict → Option Tag
  | taken tag => some tag
  | _ => none

/-- What is wrong. -/
def violation? : Verdict → Option Violation
  | violation found => some found
  | _ => none

end Verdict

namespace TagTable

variable (table : TagTable) (takes : String → Bool)

/-- The entry of a name: the first one with this name. -/
def spec? (name : String) : Option TagSpec :=
  table.specs.find? fun spec => spec.name == name

/-- The place of the entry of a name. -/
def place (name : String) : Nat :=
  table.specs.findIdx fun spec => spec.name == name

/-- The tags that no rule takes and that have an entry. -/
def known (tags : List Tag) : List Tag :=
  tags.filter fun tag => !takes tag.name && (table.spec? tag.name).isSome

def emptySeeError (tag : Tag) : Violation where
  message := s!"Content missing for @see tag in {table.subject} comment"
  anchor := tag.token
  code := "EmptySees"

def duplicateError (tag : Tag) : Violation where
  message := s!"Only one {tag.name} tag is allowed in a {table.subject} comment"
  anchor := tag.token
  code := s!"Duplicate{tagCode tag.name}Tag"

def orderError (tag furthest : Tag) : Violation where
  message := s!"The {tag.name} tag is in the wrong order; the tag precedes {furthest.name}"
  anchor := tag.token
  code := s!"{tagCode tag.name}TagOrder"

def missingError (comment : Comment) (spec : TagSpec) : Violation where
  message := s!"Missing {spec.name} tag in {table.subject} comment"
  anchor := comment.closer
  code := s!"Missing{tagCode spec.name}Tag"

/-- A `@see` tag refers to nothing. -/
def emptySeeErrors (tag : Tag) : List Violation :=
  if tag.name = "@see" ∧ tag.content = none then [table.emptySeeError tag] else []

/-- The entry of a tag forbids repetition, and a tag before it has the same name. -/
def duplicateErrors (earlier : List Tag) (tag : Tag) : List Violation :=
  if (∃ spec, table.spec? tag.name = some spec ∧ spec.allowsMany = false) ∧
      ∃ other ∈ earlier, takes other.name = false ∧ other.name = tag.name then
    [table.duplicateError tag]
  else []

/-- A tag before has a later place in the table. The error names the tag before that has the
latest place. -/
def orderErrors (earlier : List Tag) (tag : Tag) : List Violation :=
  if (table.spec? tag.name).isSome ∧
      ∃ other ∈ table.known takes earlier, table.place tag.name < table.place other.name then
    ((table.known takes earlier).argmax fun other => table.place other.name).toList.map
      (orderError tag)
  else []

/-- What is wrong with a tag that no rule takes, given the tags before it. -/
def wrongWith (earlier : List Tag) (tag : Tag) : List Violation :=
  table.emptySeeErrors tag ++ table.duplicateErrors takes earlier tag ++
    table.orderErrors takes earlier tag

/-- What is wrong with a comment as a whole: required tags that it does not have. -/
def wrongWithout (comment : Comment) : List Violation :=
  (table.specs.filter fun spec =>
    spec.isRequired && comment.tags.all fun tag => tag.name != spec.name).map
      (table.missingError comment)

variable {table takes} {name : String} {tag : Tag} {earlier : List Tag}

theorem place_lt_of_spec? {spec : TagSpec} (listed : table.spec? name = some spec) :
    table.specs[table.place name]? = some spec ∧ spec.name = name := by
  constructor
  · rw [place, ← find?_eq_getElem?_findIdx]
    exact listed
  · have named := find?_some (p := fun spec : TagSpec => spec.name == name) listed
    exact beq_iff_eq.mp named

theorem position?_of_spec? {spec : TagSpec} (listed : table.spec? name = some spec) :
    table.position? name = some (table.place name) := by
  apply List.findIdx?_eq_some_iff_findIdx_eq.mpr
  refine ⟨?_, rfl⟩
  exact (List.getElem?_eq_some_iff.mp (place_lt_of_spec? listed).1).1

theorem position?_eq_none (unlisted : table.spec? name = none) : table.position? name = none := by
  apply List.findIdx?_eq_none_iff.mpr
  intro spec member
  exact Bool.eq_false_iff.mpr (List.find?_eq_none.mp unlisted spec member)

theorem eq_of_place_eq {other : String} (listed : (table.spec? name).isSome)
    (other_listed : (table.spec? other).isSome) (same : table.place name = table.place other) :
    name = other := by
  rcases Option.isSome_iff_exists.mp listed with ⟨spec, found⟩
  rcases Option.isSome_iff_exists.mp other_listed with ⟨other_spec, other_found⟩
  rcases place_lt_of_spec? found with ⟨at_place, rfl⟩
  rcases place_lt_of_spec? other_found with ⟨at_other_place, rfl⟩
  rw [same] at at_place
  rw [Option.some.inj (at_place.symm.trans at_other_place)]

theorem mem_known_iff {other : Tag} : other ∈ table.known takes earlier ↔
    other ∈ earlier ∧ takes other.name = false ∧ (table.spec? other.name).isSome := by
  rw [known, mem_filter, Bool.and_eq_true, Bool.not_eq_true']

theorem known_append_of_unheard (unheard : takes tag.name = true ∨ table.spec? tag.name = none) :
    table.known takes (earlier ++ [tag]) = table.known takes earlier := by
  rw [known, filter_append, filter_cons_of_neg, filter_nil, append_nil, known]
  rcases unheard with taken | unlisted
  · simp [taken]
  · simp [unlisted]

theorem known_append_of_listed (untaken : takes tag.name = false)
    (listed : (table.spec? tag.name).isSome) :
    table.known takes (earlier ++ [tag]) = table.known takes earlier ++ [tag] := by
  rw [known, filter_append, filter_cons_of_pos, filter_nil, known]
  simp [untaken, listed]

/-- The furthest place and its name after one more known name. -/
def advance (furthest : Option (Nat × String)) (place : Nat) (name : String) :
    Option (Nat × String) :=
  if furthest.any (place < ·.1) then furthest else some (place, name)

/-- What the validation remembers of the tags before: the names of the known ones, and the place
and the name of the one with the latest place. -/
structure Remembers (table : TagTable) (takes : String → Bool) (earlier : List Tag)
    (seen : List String) (furthest : Option (Nat × String)) : Prop where
  seen_iff : ∀ name, name ∈ seen ↔ ∃ other ∈ table.known takes earlier, other.name = name
  furthest_eq : furthest =
    ((table.known takes earlier).argmax fun other => table.place other.name).map fun other =>
      (table.place other.name, other.name)

namespace Remembers

variable {seen : List String} {furthest : Option (Nat × String)} {spec : TagSpec}

theorem start (table : TagTable) (takes : String → Bool) : Remembers table takes [] [] none where
  seen_iff name := by simp [known]
  furthest_eq := rfl

variable (remembers : Remembers table takes earlier seen furthest)

include remembers

/-- A tag that is taken or has no entry is not remembered. -/
theorem pass (unheard : takes tag.name = true ∨ table.spec? tag.name = none) :
    Remembers table takes (earlier ++ [tag]) seen furthest := by
  constructor
  · rw [known_append_of_unheard unheard]
    exact remembers.seen_iff
  · rw [known_append_of_unheard unheard]
    exact remembers.furthest_eq

/-- A known tag is remembered. Its place becomes the furthest one unless another one is further.
Names at the same place are one name. -/
theorem next (untaken : takes tag.name = false) (listed : (table.spec? tag.name).isSome) :
    Remembers table takes (earlier ++ [tag]) (tag.name :: seen)
      (advance furthest (table.place tag.name) tag.name) := by
  have known_eq : table.known takes (earlier ++ [tag]) = table.known takes earlier ++ [tag] :=
    known_append_of_listed untaken listed
  constructor
  · intro name
    rw [known_eq, mem_cons, remembers.seen_iff]
    constructor
    · rintro (rfl | ⟨other, member, rfl⟩)
      · exact ⟨tag, mem_append_right _ (mem_singleton_self tag), rfl⟩
      · exact ⟨other, mem_append_left _ member, rfl⟩
    · rintro ⟨other, member, rfl⟩
      rcases List.mem_append.mp member with before | last
      · exact .inr ⟨other, before, rfl⟩
      · rw [List.mem_singleton.mp last]
        exact .inl rfl
  · rw [known_eq, argmax_concat, remembers.furthest_eq]
    cases latest : (table.known takes earlier).argmax fun other => table.place other.name with
    | none => rfl
    | some furthest =>
      have furthest_listed := (mem_known_iff.mp (argmax_mem latest)).2.2
      simp only [advance, Option.map_some, Option.any_some, decide_eq_true_eq]
      rcases Nat.lt_trichotomy (table.place tag.name) (table.place furthest.name) with
        before | same | behind
      · rw [if_pos before, if_neg (Nat.not_lt_of_gt before), Option.map_some]
      · rw [if_neg (by omega), if_neg (by omega), Option.map_some, same,
          eq_of_place_eq listed furthest_listed same]
      · rw [if_neg (Nat.not_lt_of_gt behind), if_pos behind, Option.map_some]

/-- A known name has been seen if a tag before has it and was not taken. -/
theorem mem_seen_iff (listed : (table.spec? tag.name).isSome) : tag.name ∈ seen ↔
    ∃ other ∈ earlier, takes other.name = false ∧ other.name = tag.name := by
  rw [remembers.seen_iff]
  constructor
  · rintro ⟨other, member, same⟩
    rcases mem_known_iff.mp member with ⟨before, untaken, -⟩
    exact ⟨other, before, untaken, same⟩
  · rintro ⟨other, before, untaken, same⟩
    refine ⟨other, mem_known_iff.mpr ⟨before, untaken, ?_⟩, same⟩
    rw [same]
    exact listed

theorem duplicate_eq (listed : table.spec? tag.name = some spec) :
    table.duplicate spec tag seen =
      (table.duplicateErrors takes earlier tag).map Verdict.violation := by
  have name_eq := (place_lt_of_spec? listed).2
  have repeated := remembers.mem_seen_iff (Option.isSome_of_eq_some listed)
  rw [duplicate, name_eq, duplicateErrors]
  have wrong_iff : (seen.contains tag.name && !spec.allowsMany) = true ↔
      tag.name ∈ seen ∧ spec.allowsMany = false := by
    rw [Bool.and_eq_true, contains_iff_mem, Bool.not_eq_true']
  by_cases wrong : tag.name ∈ seen ∧ spec.allowsMany = false
  · rw [if_pos (wrong_iff.mpr wrong), if_pos ⟨⟨spec, listed, wrong.2⟩, repeated.mp wrong.1⟩]
    rfl
  · rw [if_neg (mt wrong_iff.mp wrong), if_neg]
    · rfl
    · rintro ⟨⟨other, also_listed, forbids⟩, before⟩
      rw [Option.some.inj (also_listed.symm.trans listed)] at forbids
      exact wrong ⟨repeated.mpr before, forbids⟩

/-- A tag stands before some tag that should come later if it stands before the latest one. -/
theorem any_furthest_iff : furthest.any (table.place tag.name < ·.1) = true ↔
    ∃ other ∈ table.known takes earlier, table.place tag.name < table.place other.name := by
  rw [remembers.furthest_eq]
  cases latest : (table.known takes earlier).argmax fun other => table.place other.name with
  | none =>
    rw [List.argmax_eq_none.mp latest]
    simp
  | some furthest =>
    simp only [Option.map_some, Option.any_some, decide_eq_true_eq]
    constructor
    · intro before
      exact ⟨furthest, argmax_mem latest, before⟩
    · rintro ⟨other, member, before⟩
      exact before.trans_le
        (le_of_mem_argmax (f := fun other : Tag => table.place other.name) member latest)

theorem misplaced_eq (listed : table.spec? tag.name = some spec) :
    (if furthest.any (table.place tag.name < ·.1) then
      (furthest.map fun other => misplaced tag.name tag other.2).toList else []) =
      (table.orderErrors takes earlier tag).map Verdict.violation := by
  rw [orderErrors]
  by_cases before : furthest.any (table.place tag.name < ·.1) = true
  · have early := remembers.any_furthest_iff.mp before
    rw [if_pos before, if_pos ⟨Option.isSome_of_eq_some listed, early⟩, remembers.furthest_eq]
    cases (table.known takes earlier).argmax fun other => table.place other.name with
    | none => rfl
    | some other => rfl
  · rw [if_neg before, if_neg (fun wrong => before (remembers.any_furthest_iff.mpr wrong.2))]
    rfl

end Remembers

theorem emptySee_eq (table : TagTable) (tag : Tag) :
    table.emptySee tag = (table.emptySeeErrors tag).map Verdict.violation := by
  rw [emptySee, emptySeeErrors]
  split
  · rfl
  · rfl

theorem wrongWith_of_unlisted (unlisted : table.spec? tag.name = none) :
    table.wrongWith takes earlier tag = table.emptySeeErrors tag := by
  rw [wrongWith, duplicateErrors, if_neg, orderErrors, if_neg, append_nil, append_nil]
  · rw [unlisted]
    simp
  · rw [unlisted]
    simp

variable (table takes) in
/-- The verdicts on a tag, given the tags before it. -/
def verdictsOn (earlier : List Tag) (tag : Tag) : List Verdict :=
  if takes tag.name then [.taken tag] else (table.wrongWith takes earlier tag).map .violation

section Judge

variable {seen : List String} {furthest : Option (Nat × String)} {spec : TagSpec} {rest : List Tag}

/-- One step of the validation at a known tag. -/
theorem judge_cons_of_listed (untaken : takes tag.name = false)
    (listed : table.spec? tag.name = some spec) :
    table.judge takes seen furthest (tag :: rest) =
      table.emptySee tag ++ (table.duplicate spec tag seen ++
        ((if furthest.any (table.place tag.name < ·.1) then
          (furthest.map fun other => misplaced tag.name tag other.2).toList else []) ++
        table.judge takes (tag.name :: seen) (advance furthest (table.place tag.name) tag.name)
          rest)) := by
  rcases place_lt_of_spec? listed with ⟨at_place, name_eq⟩
  have spec_eq : table.specs.getD (table.place tag.name) ⟨tag.name, false, true⟩ = spec := by
    rw [getD_eq_getElem?_getD, at_place, Option.getD_some]
  rw [judge, untaken, if_neg Bool.false_ne_true, position?_of_spec? listed]
  simp only [spec_eq, name_eq]
  cases furthest with
  | none => rfl
  | some latest =>
    simp only [advance, Option.any_some, decide_eq_true_eq]
    split
    · rfl
    · rfl

/-- What is remembered before a tag decides on the tag as the tags before it do, and what is
remembered behind it is right again. -/
theorem exists_judge_cons (remembers : Remembers table takes earlier seen furthest)
    (tag : Tag) (rest : List Tag) :
    ∃ seen_after furthest_after,
      Remembers table takes (earlier ++ [tag]) seen_after furthest_after ∧
      table.judge takes seen furthest (tag :: rest) =
        table.verdictsOn takes earlier tag ++
          table.judge takes seen_after furthest_after rest := by
  by_cases taken : takes tag.name = true
  · refine ⟨seen, furthest, remembers.pass (.inl taken), ?_⟩
    rw [judge, verdictsOn, if_pos taken, if_pos taken]
    rfl
  · have untaken := Bool.eq_false_iff.mpr taken
    rw [verdictsOn, if_neg taken]
    cases listed : table.spec? tag.name with
    | none =>
      refine ⟨seen, furthest, remembers.pass (.inr listed), ?_⟩
      rw [judge, if_neg taken, position?_eq_none listed, wrongWith_of_unlisted listed, emptySee_eq]
    | some spec =>
      refine ⟨_, _, remembers.next untaken (Option.isSome_of_eq_some listed), ?_⟩
      rw [judge_cons_of_listed untaken listed, emptySee_eq, remembers.duplicate_eq listed,
        remembers.misplaced_eq listed, wrongWith, map_append, map_append,
        List.append_assoc, List.append_assoc]

/-- The verdicts of a validation, each from the tags before its tag. -/
theorem judge_eq {all : List Tag} (split : all = earlier ++ rest)
    (remembers : Remembers table takes earlier seen furthest) :
    table.judge takes seen furthest rest =
      (rest.zipIdx earlier.length).flatMap fun entry =>
        table.verdictsOn takes (all.take entry.2) entry.1 := by
  induction rest generalizing earlier seen furthest with
  | nil => rfl
  | cons tag rest ih =>
    rcases exists_judge_cons remembers tag rest with
      ⟨seen_after, furthest_after, remembers_after, step⟩
    have before : all.take earlier.length = earlier := by
      rw [split]
      exact take_left
    have later := ih (by rw [split, List.append_assoc]; rfl) remembers_after
    rw [length_append, length_singleton] at later
    rw [step, later, zipIdx_cons, flatMap_cons, before]

end Judge

theorem missing_eq (table : TagTable) (comment : Comment) :
    table.missing comment = (table.wrongWithout comment).map Verdict.violation := by
  have absent_iff (spec : TagSpec) : (!comment.tags.any fun tag => tag.name == spec.name) =
      comment.tags.all fun tag => tag.name != spec.name := by
    rw [not_any_eq_all_not]
    rfl
  rw [missing, wrongWithout, map_map]
  simp only [absent_iff]
  rfl

theorem validate_eq (table : TagTable) (takes : String → Bool) (comment : Comment) :
    table.validate takes comment =
      (comment.tags.zipIdx.flatMap fun entry =>
        table.verdictsOn takes (comment.tags.take entry.2) entry.1) ++
        (table.wrongWithout comment).map .violation ++ [.finished] := by
  rw [validate, judge_eq (nil_append _).symm (Remembers.start table takes), missing_eq]
  rfl

/-- What is selected of the verdicts of a validation is selected tag by tag. -/
theorem flatMap_validate {β : Type} (table : TagTable) (takes : String → Bool) (comment : Comment)
    (select : Verdict → List β) :
    (table.validate takes comment).flatMap select =
      (comment.tags.zipIdx.flatMap fun entry =>
        if takes entry.1.name then select (.taken entry.1)
        else (table.wrongWith takes (comment.tags.take entry.2) entry.1).flatMap fun found =>
          select (.violation found)) ++
        ((table.wrongWithout comment).flatMap fun found => select (.violation found)) ++
        select .finished := by
  rw [validate_eq, flatMap_append, flatMap_append, flatMap_map, flatMap_singleton, flatMap_assoc]
  congr 3
  funext entry
  rw [verdictsOn]
  split
  · rw [flatMap_singleton]
  · rw [flatMap_map]

theorem anchor_of_mem_wrongWith {violation : Violation}
    (found : violation ∈ table.wrongWith takes earlier tag) : violation.anchor = tag.token := by
  rw [wrongWith, mem_append, mem_append] at found
  rcases found with (found | found) | found
  · rw [emptySeeErrors] at found
    split at found
    · rw [List.mem_singleton.mp found]
      rfl
    · cases found
  · rw [duplicateErrors] at found
    split at found
    · rw [List.mem_singleton.mp found]
      rfl
    · cases found
  · rw [orderErrors] at found
    split at found
    · rcases List.mem_map.mp found with ⟨furthest, -, rfl⟩
      rfl
    · cases found

/-- What the table finds is at a tag or at the closer. -/
theorem mem_findings_cases {onTaken : Tag → List Finding} {onFinished : List Finding}
    {comment : Comment} {finding : Finding}
    (said : finding ∈ table.findings takes onTaken onFinished comment) :
    (∃ tag ∈ comment.tags, finding ∈ onTaken tag) ∨ finding ∈ onFinished ∨
      ∃ violation : Violation, finding = .violation violation ∧
        (violation.anchor = comment.closer ∨
          ∃ tag ∈ comment.tags, violation.anchor = tag.token) := by
  rw [findings, flatMap_validate, mem_append, mem_append] at said
  rcases said with (on_tag | missed) | finished
  · rcases List.mem_flatMap.mp on_tag with ⟨⟨tag, index⟩, listed, said⟩
    have inside : tag ∈ comment.tags :=
      mem_of_getElem? (List.mk_mem_zipIdx_iff_getElem?.mp listed)
    split at said
    · exact .inl ⟨tag, inside, said⟩
    · rcases List.mem_flatMap.mp said with ⟨violation, wrong, said⟩
      exact .inr (.inr ⟨violation, List.mem_singleton.mp said,
        .inr ⟨tag, inside, anchor_of_mem_wrongWith wrong⟩⟩)
  · rcases List.mem_flatMap.mp missed with ⟨violation, wrong, said⟩
    refine .inr (.inr ⟨violation, List.mem_singleton.mp said, .inl ?_⟩)
    rcases List.mem_map.mp wrong with ⟨spec, -, rfl⟩
    rfl
  · exact .inr (.inl finished)

theorem finished_notMem_verdictsOn (table : TagTable) (takes : String → Bool) (earlier : List Tag)
    (tag : Tag) : .finished ∉ table.verdictsOn takes earlier tag := by
  rw [verdictsOn]
  split
  · simp
  · simp

theorem flatMap_nothing {α β : Type} (items : List α) :
    (items.flatMap fun _ => ([] : List β)) = [] :=
  List.flatMap_eq_nil_iff.mpr fun _ _ => rfl

theorem flatMap_zipIdx_eq_filter {α : Type} (keep : α → Bool) (items : List α) (start : Nat) :
    ((items.zipIdx start).flatMap fun entry => if keep entry.1 then [entry.1] else []) =
      items.filter keep := by
  induction items generalizing start with
  | nil => rfl
  | cons item items ih =>
    rw [zipIdx_cons, flatMap_cons, ih, filter_cons]
    split
    · rfl
    · rfl

/-- The validation of a comment hands the tags that the rule takes to the rule, in their order, and
ends once. It finds, tag by tag, what is wrong with the tags that are left, and then the required
tags that the comment does not have. -/
theorem validation_follows_table (table : TagTable) (takes : String → Bool)
    (onTaken : Tag → List Finding) (onFinished : List Finding) (comment : Comment) :
    let verdicts := table.validate takes comment
    let wrong (tag : Tag) (index : Nat) := table.wrongWith takes (comment.tags.take index) tag
    verdicts.filterMap Verdict.taken? = comment.tags.filter (fun tag => takes tag.name) ∧
      (∃ before, verdicts = before ++ [.finished] ∧ .finished ∉ before) ∧
      verdicts.filterMap Verdict.violation? =
        (comment.tags.zipIdx.flatMap fun (tag, index) =>
          if takes tag.name then [] else wrong tag index) ++ table.wrongWithout comment ∧
      table.findings takes onTaken onFinished comment =
        (comment.tags.zipIdx.flatMap fun (tag, index) =>
          if takes tag.name then onTaken tag else (wrong tag index).map .violation) ++
          (table.wrongWithout comment).map .violation ++ onFinished := by
  intro verdicts wrong
  refine ⟨?_, ?_, ?_, ?_⟩
  · rw [filterMap_eq_flatMap_toList]
    apply (flatMap_validate table takes comment _).trans
    simp only [Verdict.taken?, Option.toList_some, Option.toList_none, flatMap_nothing,
      append_nil]
    exact flatMap_zipIdx_eq_filter (fun tag : Tag => takes tag.name) comment.tags 0
  · refine ⟨_, validate_eq table takes comment, ?_⟩
    intro member
    rcases List.mem_append.mp member with on_tag | absent
    · rcases List.mem_flatMap.mp on_tag with ⟨entry, -, found⟩
      exact finished_notMem_verdictsOn table takes _ _ found
    · simp at absent
  · rw [filterMap_eq_flatMap_toList]
    apply (flatMap_validate table takes comment _).trans
    simp only [Verdict.violation?, Option.toList_some, Option.toList_none, flatMap_singleton',
      append_nil]
    rfl
  · apply (flatMap_validate table takes comment _).trans
    simp only [← map_eq_flatMap]
    rfl

/-- Both `@category` tags stand behind an `@author` tag, and the second one is a repetition. -/
example :
    let table : TagTable := ⟨"class", [{ name := "@category" },
      { name := "@license", isRequired := true }, { name := "@author", allowsMany := true }]⟩
    let comment : Comment := ⟨0, 9, [⟨1, "@author", some "A", 0⟩, ⟨3, "@category", some "X", 1⟩,
      ⟨5, "@category", some "Y", 2⟩, ⟨7, "@see", none, 3⟩]⟩
    ((table.validate (fun _ => false) comment).filterMap Verdict.violation?).map Violation.code =
      ["CategoryTagOrder", "DuplicateCategoryTag", "CategoryTagOrder", "EmptySees",
        "MissingLicenseTag"] := by
  decide +kernel

end TagTable

end PhpStyle
