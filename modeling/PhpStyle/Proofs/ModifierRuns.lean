import Mathlib.Data.List.DropRight
import PhpStyle.Proofs.EmbeddedFunctions

/-!
# Runs of modifiers

The modifiers of a function are looked for backwards from its keyword. The search passes over
modifiers, whitespace and plain comments, but the parts of a doc comment stop it. What it reads
is the part of the run of modifiers behind the last doc comment, and of this part, for each
aspect of the declaration, the last keyword counts.

So whitespace and plain comments may stand anywhere in the run. A doc comment may stand there
only if the keywords behind it settle all aspects again that the keywords before it settled.
-/

namespace PhpStyle

open List

namespace Modifiers

/-- What a modifier says something about. -/
inductive Aspect where
  | visibility
  | abstraction
  | extension
  | binding
deriving DecidableEq, Repr

/-- The modifiers without what is known of the body. -/
def withoutBody (modifiers : Modifiers) : Modifiers :=
  { modifiers with hasBody := false }

/-- The modifiers that a sequence of kinds gives. -/
def ofKinds (kinds : List Kind) : Modifiers :=
  kinds.foldl add {}

end Modifiers

namespace Kind

/-- The aspect that a keyword settles. -/
def aspect? : Kind → Option Modifiers.Aspect
  | publicKw | protectedKw | privateKw => some .visibility
  | abstractKw => some .abstraction
  | finalKw => some .extension
  | staticKw => some .binding
  | _ => none

/-- Kinds that may stand in a run of modifiers: those that settle an aspect, and trivia. -/
def mayStandAmongModifiers (kind : Kind) : Bool :=
  kind.aspect?.isSome || kind.isTrivia

theorem mayPrecedeDeclaration_eq {kind : Kind} (among : kind.mayStandAmongModifiers = true) :
    kind.mayPrecedeDeclaration = !kind.isDocComment := by
  revert among
  cases kind <;> decide

theorem mayStandAmongModifiers_of_mayPrecedeDeclaration {kind : Kind}
    (precedes : kind.mayPrecedeDeclaration = true) : kind.mayStandAmongModifiers = true := by
  revert precedes
  cases kind <;> decide

theorem aspect?_of_isTrivia {kind : Kind} (trivia : kind.isSignificant = false) :
    kind.aspect? = none := by
  revert trivia
  cases kind <;> decide

end Kind

namespace Modifiers

/-- The last keyword that settles an aspect. -/
def lastOf (aspect : Aspect) (kinds : List Kind) : Option Kind :=
  (kinds.filter fun kind => kind.aspect? == some aspect).getLast?

theorem lastOf_append (aspect : Aspect) (front back : List Kind) :
    lastOf aspect (front ++ back) = (lastOf aspect back).or (lastOf aspect front) := by
  rw [lastOf, filter_append, getLast?_append, lastOf, lastOf]

theorem lastOf_concat (aspect : Aspect) (kinds : List Kind) (kind : Kind) :
    lastOf aspect (kinds ++ [kind]) =
      if kind.aspect? = some aspect then some kind else lastOf aspect kinds := by
  rw [lastOf_append]
  split
  · next settles => simp [lastOf, settles]
  · next other => simp [lastOf, other]

theorem aspect?_of_lastOf {aspect : Aspect} {kinds : List Kind} {kind : Kind}
    (last : lastOf aspect kinds = some kind) : kind.aspect? = some aspect := by
  have listed := mem_of_getLast? last
  simpa using (List.mem_filter.mp listed).2

theorem lastOf_eq_none_iff {aspect : Aspect} {kinds : List Kind} :
    lastOf aspect kinds = none ↔ ∀ kind ∈ kinds, kind.aspect? ≠ some aspect := by
  simp [lastOf]

theorem lastOf_filter_isSignificant (aspect : Aspect) (kinds : List Kind) :
    lastOf aspect (kinds.filter Kind.isSignificant) = lastOf aspect kinds := by
  rw [lastOf, filter_filter, lastOf]
  congr 1
  apply filter_congr
  intro kind _
  cases significant : kind.isSignificant with
  | true => simp
  | false => simp [Kind.aspect?_of_isTrivia significant]

/-- For each aspect the last keyword counts. -/
theorem ofKinds_eq (kinds : List Kind) :
    ofKinds kinds =
      { visibility := ((lastOf .visibility kinds).bind Visibility.ofKind?).getD .publicAccess
        isExplicit := (lastOf .visibility kinds).isSome
        isAbstract := (lastOf .abstraction kinds).isSome
        isFinal := (lastOf .extension kinds).isSome
        isStatic := (lastOf .binding kinds).isSome } := by
  induction kinds using List.reverseRecOn with
  | nil => rfl
  | append_singleton kinds kind ih =>
    rw [ofKinds, foldl_append, foldl_cons, foldl_nil,
      show kinds.foldl add {} = ofKinds kinds from rfl, ih]
    simp only [lastOf_concat]
    cases kind <;> rfl

theorem ofKinds_eq_iff (kinds others : List Kind) :
    ofKinds kinds = ofKinds others ↔ ∀ aspect, lastOf aspect kinds = lastOf aspect others := by
  constructor
  · intro same aspect
    rw [ofKinds_eq, ofKinds_eq, mk.injEq] at same
    rcases same with ⟨visibility, isExplicit, isAbstract, isFinal, isStatic, -⟩
    cases last : lastOf aspect kinds with
    | none => cases other_last : lastOf aspect others <;> cases aspect <;> simp_all
    | some kind =>
      have settles := aspect?_of_lastOf last
      cases other_last : lastOf aspect others with
      | none => cases aspect <;> simp_all
      | some other =>
        have other_settles := aspect?_of_lastOf other_last
        cases aspect <;> cases kind <;> cases settles <;> cases other <;>
          cases other_settles <;> simp_all [Visibility.ofKind?]
  · intro same
    rw [ofKinds_eq, ofKinds_eq]
    simp only [same]

theorem ofKinds_filter_isSignificant (kinds : List Kind) :
    ofKinds (kinds.filter Kind.isSignificant) = ofKinds kinds :=
  (ofKinds_eq_iff _ _).mpr fun aspect => lastOf_filter_isSignificant aspect kinds

/-- The keywords in front say nothing new if those behind settle the same aspects. -/
theorem ofKinds_append_eq_iff (front back : List Kind) :
    ofKinds back = ofKinds (front ++ back) ↔
      ∀ kind ∈ front, ∀ aspect ∈ kind.aspect?, ∃ later ∈ back, aspect ∈ later.aspect? := by
  rw [ofKinds_eq_iff]
  constructor
  · intro same kind member aspect settles
    by_contra none_later
    have none_behind : lastOf aspect back = none := by
      rw [lastOf_eq_none_iff]
      intro later listed settled
      exact none_later ⟨later, listed, settled⟩
    have last := same aspect
    rw [lastOf_append, none_behind, Option.none_or, eq_comm, lastOf_eq_none_iff] at last
    exact last kind member settles
  · intro later aspect
    rw [lastOf_append]
    cases behind : lastOf aspect back with
    | some kind => rfl
    | none =>
      rw [Option.none_or, eq_comm, lastOf_eq_none_iff]
      intro kind member settles
      rcases later kind member aspect settles with ⟨other, listed, settled⟩
      exact lastOf_eq_none_iff.mp behind other listed settled

theorem withoutBody_foldl_add (kinds : List Kind) (modifiers : Modifiers) :
    (kinds.foldl add modifiers).withoutBody = kinds.foldl add modifiers.withoutBody := by
  induction kinds generalizing modifiers with
  | nil => rfl
  | cons kind kinds ih =>
    rw [foldl_cons, ih, foldl_cons]
    congr 1
    cases kind <;> rfl

end Modifiers

theorem rtakeWhile_append_of_stop {α : Type} {test : α → Bool} {front : List α}
    (stops : ∀ last ∈ front.getLast?, test last = false) (back : List α) :
    (front ++ back).rtakeWhile test = back.rtakeWhile test := by
  induction back using List.reverseRecOn with
  | nil =>
    rw [append_nil, rtakeWhile_nil, rtakeWhile_eq_nil_iff]
    intro nonempty
    simpa using stops _ (getLast?_eq_some_getLast nonempty)
  | append_singleton back item ih =>
    rw [← List.append_assoc, rtakeWhile_concat, rtakeWhile_concat, ih]

theorem rtakeWhile_congr {α : Type} {test other : α → Bool} {items : List α}
    (same : ∀ item ∈ items, test item = other item) :
    items.rtakeWhile test = items.rtakeWhile other := by
  induction items using List.reverseRecOn with
  | nil => rfl
  | append_singleton items item ih =>
    rw [rtakeWhile_concat, rtakeWhile_concat, same item (by simp),
      ih fun earlier listed => same earlier (by simp [listed])]

namespace Stream

/-- The kinds of the tokens before an index. -/
def kindsBefore (stream : Stream) (index : Nat) : List Kind :=
  (stream.tokens.toList.map fun token => token.kind).take index

/-- The part of a run of modifiers behind its last doc comment. -/
def behindDocComments (run : List Kind) : List Kind :=
  run.rtakeWhile fun kind => !kind.isDocComment

/-- The part of a run of modifiers up to the end of its last doc comment. -/
def upToDocComments (run : List Kind) : List Kind :=
  run.rdropWhile fun kind => !kind.isDocComment

theorem kind?_eq_getElem? (stream : Stream) (index : Nat) :
    stream.kind? index = (stream.tokens.toList.map fun token => token.kind)[index]? := by
  rw [kind?, get?, getElem?_map, Array.getElem?_toList]

/-- The search for modifiers reads back to the first kind that it does not pass over. -/
theorem extract_runStart (stream : Stream) (index : Nat) :
    (stream.tokens.toList.map fun token => token.kind).extract
        (stream.runStart (!·.mayPrecedeDeclaration) index) index =
      (stream.kindsBefore index).rtakeWhile Kind.mayPrecedeDeclaration := by
  have start_le := runStart_le stream (!·.mayPrecedeDeclaration) index
  have parted : stream.kindsBefore index =
      (stream.tokens.toList.map fun token => token.kind).take
          (stream.runStart (!·.mayPrecedeDeclaration) index) ++
        (stream.tokens.toList.map fun token => token.kind).extract
          (stream.runStart (!·.mayPrecedeDeclaration) index) index := by
    rw [extract_eq_take_drop, ← take_add, Nat.add_sub_cancel' start_le, kindsBefore]
  rw [parted, rtakeWhile_append_of_stop, eq_comm, rtakeWhile_eq_self_iff]
  · intro kind listed
    rcases List.mem_iff_getElem?.mp listed with ⟨offset, found⟩
    rw [extract_eq_take_drop, getElem?_take] at found
    split at found
    · next upper =>
        rw [getElem?_drop, ← kind?_eq_getElem?] at found
        have unwanted := hasKind_eq_false_of_runStart_le
          (Nat.le_add_right (stream.runStart (!·.mayPrecedeDeclaration) index) offset)
          (by omega : _ < index)
        rw [hasKind, found] at unwanted
        simpa using unwanted
    · cases found
  · intro kind last
    rw [runStart] at last
    cases search : stream.findBefore (!·.mayPrecedeDeclaration) index with
    | none => simp [search] at last
    | some place =>
      have wanted := (findBefore_eq_some_iff.mp search).2.1
      rcases hasKind_iff.mp wanted with ⟨stopping, found, stops⟩
      rw [kind?_eq_getElem?] at found
      rw [search, Option.elim_some, take_add_one, found, Option.toList_some,
        getLast?_concat] at last
      cases last
      simpa using stops

/-- A function with a run of modifiers and trivia before it, as long as it can be. -/
structure Declares (stream : Stream) (index : Nat) (front run : List Kind) : Prop where
  keyword : stream.kind? index = some .functionKw
  before : stream.kindsBefore index = front ++ run
  among : ∀ kind ∈ run, kind.mayStandAmongModifiers = true
  longest : ∀ last ∈ front.getLast?, last.mayStandAmongModifiers = false

/-- What is read of a run of modifiers is what stands behind its last doc comment. -/
theorem Declares.exists_modifiers {stream : Stream} {index : Nat} {front run : List Kind}
    (declares : stream.Declares index front run) :
    ∃ modifiers, stream.modifiers? index = some modifiers ∧
      modifiers.withoutBody = Modifiers.ofKinds (behindDocComments run) := by
  have stops : ∀ last ∈ front.getLast?, last.mayPrecedeDeclaration = false := by
    intro last listed
    by_contra precedes
    have among := Kind.mayStandAmongModifiers_of_mayPrecedeDeclaration (by simpa using precedes)
    rw [declares.longest last listed] at among
    cases among
  have inside := (lt_size_of_kind? declares.keyword).le
  refine ⟨_, modifiers?_eq inside, ?_⟩
  rw [Modifiers.withoutBody_foldl_add, extract_runStart, declares.before,
    rtakeWhile_append_of_stop stops,
    rtakeWhile_congr fun kind listed => Kind.mayPrecedeDeclaration_eq (declares.among kind listed)]
  rfl

theorem behindDocComments_eq_self {run : List Kind}
    (plain : ∀ kind ∈ run, kind.isDocComment = false) : behindDocComments run = run := by
  rw [behindDocComments, rtakeWhile_eq_self_iff]
  intro kind listed
  rw [plain kind listed]
  rfl

open Modifiers in
/-- Two functions have the same modifiers before them, with any trivia between and behind them.
They are read alike exactly if, for each aspect, the last keyword behind the doc comments is the
same. This is so without doc comments. Beside a run without doc comments, a run with them is read
alike exactly if each aspect settled before the last doc comment is settled behind it again. -/
theorem modifiers_alike_iff {stream other : Stream} {index place : Nat}
    {front otherFront run otherRun : List Kind} (declares : stream.Declares index front run)
    (other_declares : other.Declares place otherFront otherRun)
    (same_keywords : run.filter Kind.isSignificant = otherRun.filter Kind.isSignificant) :
    ∃ found otherFound, stream.modifiers? index = some found ∧
      other.modifiers? place = some otherFound ∧
      (found.withoutBody = otherFound.withoutBody ↔
        ∀ aspect, lastOf aspect (behindDocComments run) =
          lastOf aspect (behindDocComments otherRun)) ∧
      ((∀ kind ∈ otherRun, kind.isDocComment = false) →
        ((∀ kind ∈ run, kind.isDocComment = false) →
          found.withoutBody = otherFound.withoutBody) ∧
        (found.withoutBody = otherFound.withoutBody ↔
          ∀ kind ∈ upToDocComments run, ∀ aspect ∈ kind.aspect?,
            ∃ later ∈ behindDocComments run, aspect ∈ later.aspect?)) := by
  rcases declares.exists_modifiers with ⟨found, modifiers_eq, found_eq⟩
  rcases other_declares.exists_modifiers with ⟨otherFound, other_modifiers_eq, other_found_eq⟩
  have same : ofKinds run = ofKinds otherRun := by
    rw [← ofKinds_filter_isSignificant, same_keywords, ofKinds_filter_isSignificant]
  refine ⟨found, otherFound, modifiers_eq, other_modifiers_eq, ?_, ?_⟩
  · rw [found_eq, other_found_eq, ofKinds_eq_iff]
  · intro other_plain
    rw [found_eq, other_found_eq, behindDocComments_eq_self other_plain, ← same]
    constructor
    · intro plain
      rw [behindDocComments_eq_self plain]
    · have parted : upToDocComments run ++ behindDocComments run = run :=
        rdropWhile_append_rtakeWhile
      rw [← ofKinds_append_eq_iff, parted]

/-- Behind the doc comment the visibility is written again, so nothing is lost. -/
theorem modifiers_alike_repeated_visibility :
    let stream := ofSource
      "<?php class A \x7b private /** x */ private static function f() \x7b\x7d \x7d".toList
    let other := ofSource "<?php class A \x7b private/**/private static function f(); \x7d".toList
    ∃ found otherFound, stream.modifiers? 20 = some found ∧
      other.modifiers? 14 = some otherFound ∧ found.withoutBody = otherFound.withoutBody := by
  intro stream other
  have read : stream.kind? 20 = some .functionKw ∧ stream.kindsBefore 20 =
      [.openTag, .whitespace, .classKw, .whitespace, .name, .whitespace, .openCurly] ++
        [.whitespace, .privateKw, .whitespace, .docOpen, .docWhitespace, .docString,
          .docWhitespace, .docClose, .whitespace, .privateKw, .whitespace, .staticKw,
          .whitespace] := by
    decide +kernel
  have other_read : other.kind? 14 = some .functionKw ∧ other.kindsBefore 14 =
      [.openTag, .whitespace, .classKw, .whitespace, .name, .whitespace, .openCurly] ++
        [.whitespace, .privateKw, .comment, .privateKw, .whitespace, .staticKw,
          .whitespace] := by
    decide +kernel
  rcases modifiers_alike_iff ⟨read.1, read.2, by decide, by decide⟩
      ⟨other_read.1, other_read.2, by decide, by decide⟩ (by decide) with
    ⟨found, otherFound, modifiers_eq, other_modifiers_eq, -, beside_plain⟩
  exact ⟨found, otherFound, modifiers_eq, other_modifiers_eq,
    (beside_plain (by decide)).2.mpr (by decide)⟩

/-- A doc comment behind the visibility makes a private method public. -/
theorem visibility_hidden_by_doc_comment :
    let plain := ofSource "<?php class A \x7b private function f() \x7b\x7d \x7d".toList
    let documented := ofSource
      "<?php class A \x7b private /** x */ function f() \x7b\x7d \x7d".toList
    plain.kind? 10 = some .functionKw ∧ documented.kind? 16 = some .functionKw ∧
      plain.kindsBefore 10 = documented.kindsBefore 9 ++ [.whitespace] ∧
      documented.kindsBefore 16 = documented.kindsBefore 9 ++
        [.whitespace, .docOpen, .docWhitespace, .docString, .docWhitespace, .docClose,
          .whitespace] ∧
      plain.modifiers? 10 =
        some { visibility := .privateAccess, isExplicit := true, hasBody := true } ∧
      documented.modifiers? 16 =
        some { visibility := .publicAccess, isExplicit := false, hasBody := true } := by
  decide +kernel

end Stream

end PhpStyle
