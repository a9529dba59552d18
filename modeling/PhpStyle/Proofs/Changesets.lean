import Mathlib.Data.List.Intervals
import Mathlib.Data.List.Pairwise
import Mathlib.Data.List.Perm.Basic
import PhpStyle.Fixer.Command
import PhpStyle.Proofs.Navigation

/-!
# Changesets are atomic, disjoint and accounted for

A `Ledger` follows a history of commands to a fixer, and never looks at the fixer. It
keeps the edits that were asked for since a changeset was opened, the changesets
that took effect, and how many were opened, ended without an edit or came to
nothing. A fixer goes along with its ledger: `Ledger.Agrees` is kept by every
command, and says that the texts and marks of the fixer are those of the changesets
in the ledger.

In a ledger, the changesets that took effect touch pairwise disjoint sets of tokens, and
no changeset is unaccounted for. Disjointness makes their order irrelevant: the text
of a token is decided by the one changeset that touches it, if there is one.
-/

namespace PhpStyle

namespace Edit

/-- Whether a changeset changes the token at an index. -/
def touches (edits : List Edit) (index : Nat) : Bool :=
  edits.any fun edit => edit.index == index

/-- The text of the token at an index after the edits of a changeset. A replacement puts a new text
in the place of the token, and an addition more text behind it. -/
def revised : List Edit → Nat → List Char → List Char
  | [], _, text => text
  | .replace place new :: edits, index, text =>
    revised edits index (if place = index then new else text)
  | .append place more :: edits, index, text =>
    revised edits index (if place = index then text ++ more else text)

/-- Two changesets have no token in common. -/
def Disjoint (left right : List Edit) : Prop :=
  ∀ index, touches left index = true → touches right index = false

theorem Disjoint.symm {left right : List Edit} (disjoint : Disjoint left right) :
    Disjoint right left := by
  intro index touched
  by_contra also
  have := disjoint index (by simpa using also)
  simp [this] at touched

@[simp]
theorem touches_append (left right : List Edit) (index : Nat) :
    touches (left ++ right) index = (touches left index || touches right index) := by
  simp [touches]

theorem revised_cons (edit : Edit) (edits : List Edit) (index : Nat) (text : List Char) :
    revised (edit :: edits) index text =
      revised edits index (if edit.index = index then edit.revise text else text) := by
  cases edit <;> rfl

@[simp]
theorem revised_append (left right : List Edit) (index : Nat) (text : List Char) :
    revised (left ++ right) index text = revised right index (revised left index text) := by
  induction left generalizing text with
  | nil => rfl
  | cons edit left ih => rw [List.cons_append, revised_cons, revised_cons, ih]

theorem revised_of_not_touches {edits : List Edit} {index : Nat}
    (untouched : touches edits index = false) (text : List Char) :
    revised edits index text = text := by
  induction edits with
  | nil => rfl
  | cons edit edits ih =>
    rw [touches, List.any_cons, Bool.or_eq_false_iff, beq_eq_false_iff_ne] at untouched
    rw [revised_cons, if_neg untouched.1, ih untouched.2]

theorem touches_flatten (changesets : List (List Edit)) (index : Nat) :
    touches changesets.flatten index = changesets.any fun edits => touches edits index := by
  induction changesets with
  | nil => rfl
  | cons edits rest ih => simp [ih]

/-- Among disjoint changesets the one that touches a token decides its text. -/
theorem revised_flatten_of_mem {changesets : List (List Edit)}
    (disjoint : changesets.Pairwise Disjoint) {edits : List Edit} (member : edits ∈ changesets)
    {index : Nat} (touched : touches edits index = true) (text : List Char) :
    revised changesets.flatten index text = revised edits index text := by
  induction changesets with
  | nil => simp at member
  | cons first rest ih =>
    rw [List.pairwise_cons] at disjoint
    rw [List.flatten_cons, revised_append]
    rcases List.mem_cons.mp member with rfl | later
    · apply revised_of_not_touches
      rw [touches_flatten, List.any_eq_false]
      intro other other_mem
      simpa using disjoint.1 other other_mem index touched
    · have untouched : touches first index = false :=
        (disjoint.1 edits later).symm index touched
      rw [revised_of_not_touches untouched, ih disjoint.2 later]

/-- The order of disjoint changesets does not matter. -/
theorem revised_flatten_perm {changesets order : List (List Edit)}
    (disjoint : changesets.Pairwise Disjoint) (perm : order.Perm changesets) (index : Nat)
    (text : List Char) :
    revised order.flatten index text = revised changesets.flatten index text := by
  by_cases touched : touches changesets.flatten index = true
  · rw [touches_flatten, List.any_eq_true] at touched
    rcases touched with ⟨edits, member, touched⟩
    have disjointOrder : order.Pairwise Disjoint :=
      (perm.pairwise_iff fun disjoint => Disjoint.symm disjoint).mpr disjoint
    rw [revised_flatten_of_mem disjoint member touched,
      revised_flatten_of_mem disjointOrder (perm.mem_iff.mpr member) touched]
  · have untouched : touches order.flatten index = false := by
      simp only [touches_flatten, List.any_eq_true, not_exists, not_and,
        Bool.not_eq_true] at touched
      simp only [touches_flatten, List.any_eq_false, Bool.not_eq_true]
      exact fun edits member => touched edits (perm.mem_iff.mp member)
    rw [revised_of_not_touches untouched, revised_of_not_touches (by simpa using touched)]

end Edit

namespace Fixer

open Edit

/-- A run of edits revises each slot by the edits of its token. -/
theorem getElem?_foldl_applyEdit (edits : List Edit) (slots : Array Slot) (index : Nat) :
    (edits.foldl applyEdit slots)[index]? = slots[index]?.map fun slot =>
      ⟨revised edits index slot.text, slot.isChanged || touches edits index⟩ := by
  induction edits generalizing slots with
  | nil => cases found : slots[index]? <;> simp [revised, touches, found]
  | cons edit rest ih =>
    rw [List.foldl_cons, ih, applyEdit, Array.getElem?_modify]
    by_cases here : edit.index = index
    · cases slots[index]? <;> simp [here, revised_cons, touches]
    · have elsewhere : (edit.index == index) = false := by simpa using here
      cases slots[index]? <;> simp [here, elsewhere, revised_cons, touches]

/-- A changeset is refused and leaves the slots alone, or has no edits, or is within the file and
among unchanged tokens and takes effect as a whole. -/
theorem commit_cases (fixer : Fixer) (edits : List Edit) :
    (∃ error, fixer.commit edits =
      (.error error, { fixer with rejectedCount := fixer.rejectedCount + 1 })) ∨
    (edits = [] ∧ fixer.isEnabled = true ∧ fixer.commit edits = (.ok 0, fixer)) ∨
    (edits ≠ [] ∧ fixer.isEnabled = true ∧
      (∀ edit ∈ edits, ∃ slot, fixer.slots[edit.index]? = some slot ∧ slot.isChanged = false) ∧
      fixer.commit edits = (.ok edits.length,
        { fixer with
          slots := edits.foldl applyEdit fixer.slots
          fixCount := fixer.fixCount + 1 })) := by
  cases refusal : fixer.refusal? edits with
  | some error => exact .inl ⟨error, by simp [commit, refusal]⟩
  | none =>
    right
    have enabled : fixer.isEnabled = true := by
      by_contra disabled
      simp [refusal?, disabled] at refusal
    by_cases empty : edits = []
    · exact .inl ⟨empty, enabled, by simp [commit, empty, refusal?, enabled]⟩
    · refine .inr ⟨empty, enabled, ?_, by simp [commit, refusal, empty]⟩
      intro edit member
      simp only [refusal?, enabled, if_true, List.findSome?_eq_none_iff] at refusal
      have sound := refusal edit member
      cases found : fixer.slots[edit.index]? with
      | none => simp [problem?, found] at sound
      | some slot => exact ⟨slot, rfl, by simpa [problem?, found] using sound⟩

/-- Whether a reply tells of an error. -/
def Reply.isRefused : Reply → Bool
  | .refused _ => true
  | _ => false

theorem isRefused_ofCount (result : Except FixError Nat) :
    (Reply.ofCount result).isRefused = !result.isOk := by
  cases result <;> rfl

/-- The edits that leave nothing of the tokens at some indices. -/
def erasing (indices : List Nat) : List Edit :=
  indices.map fun index => .replace index []

/-- The tokens that no token on another line separates from an anchor. -/
def lineAround (stream : Stream) (anchor : Nat) : List Nat :=
  (List.Ico 0 stream.size).filter fun index =>
    (List.Ico (min index anchor) (max index anchor + 1)).all fun between =>
      stream.line? between == stream.line? anchor

/-- An account of a history of commands. -/
structure Ledger where
  /-- The edits asked for since a changeset was opened. -/
  pending : Option (List Edit) := none
  /-- The number of changesets opened so far. -/
  opened : Nat := 0
  /-- The changesets that took effect, in order. -/
  committed : List (List Edit) := []
  /-- The number of changesets that ended well but had no edits. -/
  emptied : Nat := 0
  /-- The number of changesets that were dropped or refused. -/
  rejected : Nat := 0

namespace Ledger

/-- Whether a changeset may take effect: its tokens are tokens of the file, and no changeset that
took effect touches them. -/
def admits (stream : Stream) (isEnabled : Bool) (ledger : Ledger) (edits : List Edit) : Bool :=
  isEnabled && edits.all fun edit =>
    decide (edit.index < stream.size) && !touches ledger.committed.flatten edit.index

/-- Writes down what becomes of a changeset when it ends, and tells whether it is refused. -/
def settle (stream : Stream) (isEnabled : Bool) (ledger : Ledger) (edits : List Edit) :
    Bool × Ledger :=
  if ledger.admits stream isEnabled edits then
    (false, if edits.isEmpty then { ledger with emptied := ledger.emptied + 1 }
      else { ledger with committed := ledger.committed ++ [edits] })
  else (true, { ledger with rejected := ledger.rejected + 1 })

/-- Gives up the changeset that is open, if there is one. -/
def giveUp (ledger : Ledger) : Ledger :=
  { ledger with pending := none, rejected := ledger.rejected + ledger.pending.toList.length }

/-- Follows a changeset that is opened and ended by one command. -/
def enter (stream : Stream) (isEnabled : Bool) (ledger : Ledger) (edits : List Edit) :
    Bool × Ledger :=
  { ledger with opened := ledger.opened + 1 }.settle stream isEnabled edits

/-- Follows a command, and tells whether it is refused. -/
def follow (stream : Stream) (isEnabled : Bool) (ledger : Ledger) : Command → Bool × Ledger
  | .start => (false, { ledger.giveUp with pending := some [], opened := ledger.opened + 1 })
  | .rollback => (false, ledger.giveUp)
  | .stage edit =>
    match ledger.pending with
    | some edits => (false, { ledger with pending := some (edits ++ [edit]) })
    | none => ledger.enter stream isEnabled [edit]
  | .finish =>
    match ledger.pending with
    | some edits => { ledger with pending := none }.settle stream isEnabled edits
    | none => (true, ledger)
  | .deleteRange first last =>
    ledger.giveUp.enter stream isEnabled (erasing (List.Ico first (last + 1)))
  | .deleteLine anchor =>
    if anchor < stream.size then
      ledger.giveUp.enter stream isEnabled (erasing (lineAround stream anchor))
    else (true, ledger)
  | .read _ => (false, ledger)

/-- Follows a history of commands. -/
def followAll (stream : Stream) (isEnabled : Bool) (ledger : Ledger) (commands : List Command) :
    Ledger :=
  commands.foldl (fun ledger command => (ledger.follow stream isEnabled command).2) ledger

/-- The changesets that took effect are disjoint, every changeset that was opened took effect, was
rejected, had no edits or is still open, and without leave to fix none ended well. -/
structure Sound (isEnabled : Bool) (ledger : Ledger) : Prop where
  disjoint : ledger.committed.Pairwise Disjoint
  total : ledger.opened = ledger.committed.length + ledger.rejected + ledger.emptied +
    ledger.pending.toList.length
  barren : isEnabled = false → ledger.committed = [] ∧ ledger.emptied = 0

section Sound

variable {stream : Stream} {isEnabled : Bool} {ledger : Ledger}

theorem disjoint_of_admits {edits : List Edit} (admits : ledger.admits stream isEnabled edits)
    {earlier : List Edit} (member : earlier ∈ ledger.committed) : Disjoint earlier edits := by
  rw [Ledger.admits, Bool.and_eq_true, List.all_eq_true] at admits
  intro index touched
  by_contra also
  simp only [touches, Bool.not_eq_false, List.any_eq_true, beq_iff_eq] at also
  rcases also with ⟨edit, inside, rfl⟩
  have free := admits.2 edit inside
  rw [Bool.and_eq_true, Bool.not_eq_true', touches_flatten, List.any_eq_false] at free
  exact free.2 earlier member touched

/-- The end of a changeset that is not yet accounted for settles the account. -/
theorem sound_settle (disjoint : ledger.committed.Pairwise Disjoint)
    (total : ledger.opened = ledger.committed.length + ledger.rejected + ledger.emptied +
      ledger.pending.toList.length + 1)
    (barren : isEnabled = false → ledger.committed = [] ∧ ledger.emptied = 0) (edits : List Edit) :
    Sound isEnabled (ledger.settle stream isEnabled edits).2 := by
  unfold settle
  split
  · next admits =>
      have enabled : isEnabled = true := by
        rw [Ledger.admits, Bool.and_eq_true] at admits
        exact admits.1
      simp only
      split
      · exact ⟨disjoint, by simp only; omega, by simp [enabled]⟩
      · refine ⟨?_, ?_, by simp [enabled]⟩
        · simp only [List.pairwise_append, List.pairwise_singleton, List.mem_singleton]
          refine ⟨disjoint, trivial, ?_⟩
          rintro earlier member edits rfl
          exact disjoint_of_admits admits member
        · simp only [List.length_append, List.length_singleton]
          omega
  · exact ⟨disjoint, by simp only; omega, barren⟩

section

variable (sound : Sound isEnabled ledger)

include sound

theorem Sound.giveUp : Sound isEnabled ledger.giveUp := by
  refine ⟨sound.disjoint, ?_, sound.barren⟩
  have total := sound.total
  simp only [Ledger.giveUp, Option.toList_none, List.length_nil]
  omega

theorem Sound.enter (edits : List Edit) : Sound isEnabled (ledger.enter stream isEnabled edits).2 :=
  @sound_settle stream isEnabled { ledger with opened := ledger.opened + 1 } sound.disjoint
    (congrArg (· + 1) sound.total) sound.barren edits

/-- No command upsets the account. -/
theorem Sound.follow (command : Command) :
    Sound isEnabled (ledger.follow stream isEnabled command).2 := by
  have total := sound.total
  cases command with
  | start =>
    refine ⟨sound.disjoint, ?_, sound.barren⟩
    simp only [Ledger.follow, Ledger.giveUp, Option.toList_some, List.length_singleton]
    omega
  | rollback => exact sound.giveUp
  | stage edit =>
    cases pending : ledger.pending with
    | none =>
      simp only [Ledger.follow, pending]
      exact sound.enter _
    | some edits =>
      simp only [Ledger.follow, pending]
      exact ⟨sound.disjoint, by simpa [pending] using total, sound.barren⟩
  | finish =>
    cases pending : ledger.pending with
    | none =>
      simp only [Ledger.follow, pending]
      exact sound
    | some edits =>
      simp only [Ledger.follow, pending]
      exact @sound_settle stream isEnabled { ledger with pending := none } sound.disjoint
        (by simpa [pending] using total) sound.barren edits
  | deleteRange first last => exact sound.giveUp.enter _
  | deleteLine anchor =>
    simp only [Ledger.follow]
    split
    · exact sound.giveUp.enter _
    · exact sound
  | read index => exact sound

/-- A sound ledger stays sound over a run of commands. -/
theorem Sound.followAll (commands : List Command) :
    Sound isEnabled (ledger.followAll stream isEnabled commands) := by
  induction commands generalizing ledger with
  | nil => exact sound
  | cons command rest ih => exact ih (sound.follow command)

end

end Sound

section Hidden

variable {stream : Stream} {isEnabled : Bool} {ledger : Ledger}

theorem committed_settle {edits : List Edit}
    (refused : (ledger.settle stream isEnabled edits).1 = true) :
    (ledger.settle stream isEnabled edits).2.committed = ledger.committed := by
  unfold settle at refused ⊢
  split at refused
  · simp at refused
  · rw [if_neg ‹_›]

/-- A command that is refused, and one that adds to the open changeset, takes no effect. -/
theorem committed_follow {command : Command}
    (hidden : (ledger.follow stream isEnabled command).1 = true ∨
      ledger.pending.isSome = true ∧ ∃ edit, command = .stage edit) :
    (ledger.follow stream isEnabled command).2.committed = ledger.committed := by
  rcases hidden with refused | ⟨opened, edit, rfl⟩
  · cases command with
    | start => rfl
    | rollback => rfl
    | stage edit =>
      simp only [follow] at refused ⊢
      split at refused
      · simp at refused
      · exact committed_settle refused
    | finish =>
      simp only [follow] at refused ⊢
      split at refused
      · exact committed_settle refused
      · rfl
    | deleteRange first last => exact committed_settle refused
    | deleteLine anchor =>
      by_cases inside : anchor < stream.size
      · simp only [follow, if_pos inside] at refused ⊢
        exact committed_settle refused
      · simp only [follow, if_neg inside]
    | read index => rfl
  · rcases Option.isSome_iff_exists.mp opened with ⟨edits, pending⟩
    simp only [follow, pending]

end Hidden

/-- The fixer is where the ledger says: its texts and marks are those of the changesets that took
effect. -/
structure Agrees (stream : Stream) (isEnabled : Bool) (ledger : Ledger) (fixer : Fixer) :
    Prop where
  enabled : fixer.isEnabled = isEnabled
  staged : fixer.staged = ledger.pending
  slot : ∀ index, fixer.slots[index]? = (stream.get? index).map fun token =>
    ⟨revised ledger.committed.flatten index token.text, touches ledger.committed.flatten index⟩
  fixed : fixer.fixCount = ledger.committed.length
  rejected : fixer.rejectedCount = ledger.rejected

theorem agrees_ofStream (stream : Stream) (isEnabled : Bool) :
    Agrees stream isEnabled {} (ofStream stream isEnabled) where
  enabled := rfl
  staged := rfl
  slot index := by simp [ofStream, Stream.get?, revised, touches]
  fixed := rfl
  rejected := rfl

/-- The line of an anchor, as the fixer finds it. -/
theorem erasing_lineAround {stream : Stream} {anchor : Nat} (inside : anchor < stream.size) :
    ∃ first last, stream.lineSpan? anchor = some (first, last) ∧
      deletions first last = erasing (lineAround stream anchor) := by
  have found : stream.line? anchor = some stream.tokens[anchor].line := by
    rw [Stream.line?, Stream.get?, Array.getElem?_eq_getElem inside]
    rfl
  rcases Stream.lineSpan?_eq_some found with ⟨first, last, span, run⟩
  refine ⟨first, last, span, congrArg (List.map _) ?_⟩
  have reached (index : Nat) : ((List.Ico (min index anchor) (max index anchor + 1)).all
      fun between => stream.line? between == stream.line? anchor) =
        (decide (first ≤ index) && decide (index < last + 1)) := by
    rw [Bool.eq_iff_iff, List.all_eq_true, Bool.and_eq_true, decide_eq_true_eq, decide_eq_true_eq]
    have first_le := run.first_le
    have le_last := run.le_last
    constructor
    · intro all
      have on (between : Nat) (lower : min index anchor ≤ between)
          (upper : between ≤ max index anchor) : stream.line? between = some _ :=
        (beq_iff_eq.mp (all between (List.Ico.mem.mpr ⟨lower, by omega⟩))).trans found
      constructor
      · by_contra early
        rcases run.before with start | elsewhere
        · omega
        · exact elsewhere (on _ (by omega) (by omega))
      · by_contra late
        exact run.behind (on _ (by omega) (by omega))
    · rintro ⟨lower, upper⟩ between within
      rw [List.Ico.mem] at within
      rw [found, beq_iff_eq]
      exact run.on_line between (by omega) (by omega)
  have last_lt : last < stream.size := by
    have on_line := run.on_line last (run.first_le.trans run.le_last) (Nat.le_refl last)
    rcases Option.map_eq_some_iff.mp on_line with ⟨token, token_found, -⟩
    exact (Array.getElem?_eq_some_iff.mp token_found).1
  simp only [lineAround, reached]
  rw [← List.filter_filter, List.Ico.filter_lt, List.Ico.filter_le, Nat.zero_max,
    Nat.min_eq_right last_lt]
  rfl

namespace Agrees

variable {stream : Stream} {isEnabled : Bool} {ledger : Ledger} {fixer : Fixer}
  (agrees : Agrees stream isEnabled ledger fixer)

include agrees

theorem textAt?_eq (index : Nat) : fixer.textAt? index = (stream.get? index).map fun token =>
    revised ledger.committed.flatten index token.text := by
  rw [textAt?, agrees.slot]
  simp [Function.comp_def]

theorem refusal?_eq_none_iff (edits : List Edit) :
    fixer.refusal? edits = none ↔ ledger.admits stream isEnabled edits = true := by
  have problem (edit : Edit) : fixer.problem? edit = none ↔
      edit.index < stream.size ∧ touches ledger.committed.flatten edit.index = false := by
    rw [problem?, agrees.slot, Stream.get?, Stream.size]
    by_cases inside : edit.index < stream.tokens.size
    · simp [inside]
    · simp [inside]
  rw [refusal?, agrees.enabled, admits]
  cases isEnabled <;> simp [problem]

/-- A changeset that ends has the same fate in the fixer and in the ledger. -/
theorem commit (edits : List Edit) :
    (!(fixer.commit edits).1.isOk) = (ledger.settle stream isEnabled edits).1 ∧
      Agrees stream isEnabled (ledger.settle stream isEnabled edits).2 (fixer.commit edits).2 := by
  have admitted := agrees.refusal?_eq_none_iff edits
  cases refusal : fixer.refusal? edits with
  | some error =>
    have refused : ¬ledger.admits stream isEnabled edits = true := by simp [← admitted, refusal]
    rw [settle, if_neg refused, Fixer.commit, refusal]
    exact ⟨rfl, agrees.enabled, agrees.staged, agrees.slot, agrees.fixed,
      congrArg (· + 1) agrees.rejected⟩
  | none =>
    rw [settle, if_pos (admitted.mp refusal), Fixer.commit, refusal]
    by_cases empty : edits.isEmpty = true
    · simp only [if_pos empty]
      exact ⟨rfl, agrees.enabled, agrees.staged, agrees.slot, agrees.fixed, agrees.rejected⟩
    · simp only [if_neg empty]
      refine ⟨rfl, agrees.enabled, agrees.staged, ?_, ?_, agrees.rejected⟩
      · intro index
        rw [getElem?_foldl_applyEdit, agrees.slot]
        simp [Function.comp_def]
      · simp [agrees.fixed]

theorem rollback : Agrees stream isEnabled ledger.giveUp fixer.rollback := by
  have staged := agrees.staged
  have rejected := agrees.rejected
  cases pending : ledger.pending with
  | none =>
    rw [pending] at staged
    simp only [Fixer.rollback, isOpen, staged, giveUp, pending]
    exact ⟨agrees.enabled, staged, agrees.slot, agrees.fixed, rejected⟩
  | some edits =>
    rw [pending] at staged
    simp only [Fixer.rollback, isOpen, staged, giveUp, pending]
    exact ⟨agrees.enabled, rfl, agrees.slot, agrees.fixed, congrArg (· + 1) rejected⟩

theorem enter (edits : List Edit) :
    (!(fixer.commit edits).1.isOk) = (ledger.enter stream isEnabled edits).1 ∧
      Agrees stream isEnabled (ledger.enter stream isEnabled edits).2 (fixer.commit edits).2 := by
  have opened : Agrees stream isEnabled { ledger with opened := ledger.opened + 1 } fixer :=
    ⟨agrees.enabled, agrees.staged, agrees.slot, agrees.fixed, agrees.rejected⟩
  exact opened.commit edits

theorem deleteRange (first last : Nat) :
    (fixer.perform stream (.deleteRange first last)).1.isRefused =
        (ledger.giveUp.enter stream isEnabled (deletions first last)).1 ∧
      Agrees stream isEnabled (ledger.giveUp.enter stream isEnabled (deletions first last)).2
        (fixer.perform stream (.deleteRange first last)).2 := by
  simp only [Fixer.perform, Fixer.deleteRange, apply, Prod.map, isRefused_ofCount, id]
  exact agrees.rollback.enter _

/-- The step of the simulation: a command is refused by the fixer if it is in the ledger, and the two
go on in agreement. -/
theorem perform (command : Command) :
    (fixer.perform stream command).1.isRefused = (ledger.follow stream isEnabled command).1 ∧
      Agrees stream isEnabled (ledger.follow stream isEnabled command).2
        (fixer.perform stream command).2 := by
  have staged := agrees.staged
  cases command with
  | start =>
    have dropped := agrees.rollback
    exact ⟨rfl, dropped.enabled, rfl, dropped.slot, dropped.fixed, dropped.rejected⟩
  | rollback => exact ⟨rfl, agrees.rollback⟩
  | stage edit =>
    cases pending : ledger.pending with
    | none =>
      rw [pending] at staged
      simp only [Fixer.perform, stage, staged, follow, pending]
      rcases agrees.enter [edit] with ⟨refused, after⟩
      refine ⟨?_, after⟩
      rw [← refused]
      cases (fixer.commit [edit]).1 <;> rfl
    | some edits =>
      rw [pending] at staged
      simp only [Fixer.perform, stage, staged, follow, pending]
      exact ⟨rfl, agrees.enabled, rfl, agrees.slot, agrees.fixed, agrees.rejected⟩
  | finish =>
    cases pending : ledger.pending with
    | none =>
      rw [pending] at staged
      simp only [Fixer.perform, finish, staged, follow, pending]
      exact ⟨rfl, agrees⟩
    | some edits =>
      rw [pending] at staged
      have closed : Agrees stream isEnabled { ledger with pending := none }
          { fixer with staged := none } :=
        ⟨agrees.enabled, rfl, agrees.slot, agrees.fixed, agrees.rejected⟩
      simp only [Fixer.perform, finish, staged, follow, pending, Prod.map, isRefused_ofCount, id]
      exact closed.commit edits
  | deleteRange first last => exact agrees.deleteRange first last
  | deleteLine anchor =>
    by_cases inside : anchor < stream.size
    · rcases erasing_lineAround inside with ⟨first, last, span, erased⟩
      have deleted := agrees.deleteRange first last
      rw [erased] at deleted
      simpa only [Fixer.perform, deleteLine, span, follow, if_pos inside] using deleted
    · have nowhere : stream.lineSpan? anchor = none := by
        simp [Stream.lineSpan?, Stream.line?, Stream.get?, show stream.tokens.size ≤ anchor by
          simpa [Stream.size] using inside]
      simp only [Fixer.perform, deleteLine, nowhere, follow, if_neg inside]
      exact ⟨rfl, agrees⟩
  | read index => exact ⟨rfl, agrees⟩

/-- Over a run of commands the fixer goes on agreeing with the ledger. -/
theorem performAll (commands : List Command) :
    Agrees stream isEnabled (ledger.followAll stream isEnabled commands)
      (fixer.performAll stream commands) := by
  induction commands generalizing ledger fixer with
  | nil => exact agrees
  | cons command rest ih => exact ih (agrees.perform command).2

end Agrees

end Ledger

/-- Changesets are atomic, touch disjoint sets of tokens and are all accounted for: after any history
of commands, and for any next command.

A command that fails, or that adds to an open changeset, shows nothing, and the ledger tells which
ones fail. The changesets that took effect are disjoint and decide the texts, in whatever order they
are made. Every changeset that was opened is counted once. -/
theorem changesets_atomic_disjoint_accounted (stream : Stream) (isEnabled : Bool)
    (commands : List Command) :
    let ledger := ({} : Ledger).followAll stream isEnabled commands
    let fixer := (ofStream stream isEnabled).performAll stream commands
    (∀ command, (fixer.perform stream command).1.isRefused =
      (ledger.follow stream isEnabled command).1) ∧
    (∀ command, ((fixer.perform stream command).1.isRefused = true ∨
        fixer.isOpen = true ∧ ∃ edit, command = .stage edit) →
      (∀ index, (fixer.perform stream command).2.textAt? index = fixer.textAt? index) ∧
        (fixer.perform stream command).2.fixCount = fixer.fixCount) ∧
    ledger.committed.Pairwise Disjoint ∧
    (∀ order : List (List Edit), order.Perm ledger.committed → ∀ index, fixer.textAt? index =
      (stream.get? index).map fun token => revised order.flatten index token.text) ∧
    (∀ edits ∈ ledger.committed, ∀ index, touches edits index = true → fixer.textAt? index =
      (stream.get? index).map fun token => revised edits index token.text) ∧
    (∀ index, (∀ edits ∈ ledger.committed, touches edits index = false) →
      fixer.textAt? index = (stream.get? index).map fun token => token.text) ∧
    ledger.pending.isSome = fixer.isOpen ∧
    ledger.committed.length = fixer.fixCount ∧
    ledger.rejected = fixer.rejectedCount ∧
    ledger.opened =
      fixer.fixCount + fixer.rejectedCount + ledger.emptied + (if fixer.isOpen then 1 else 0) ∧
    (isEnabled = false → ledger.committed = [] ∧ ledger.emptied = 0) := by
  intro ledger fixer
  have agrees : Ledger.Agrees stream isEnabled ledger fixer :=
    (Ledger.agrees_ofStream stream isEnabled).performAll commands
  have sound : Ledger.Sound isEnabled ledger :=
    Ledger.Sound.followAll ⟨.nil, rfl, fun _ => ⟨rfl, rfl⟩⟩ commands
  have opened : ledger.pending.isSome = fixer.isOpen := by rw [isOpen, agrees.staged]
  refine ⟨fun command => (agrees.perform command).1, ?_, sound.disjoint, ?_, ?_, ?_, opened,
    agrees.fixed.symm, agrees.rejected.symm, ?_, sound.barren⟩
  · intro command hidden
    rcases agrees.perform command with ⟨refused, after⟩
    rw [refused, ← opened] at hidden
    have same := Ledger.committed_follow hidden
    refine ⟨fun index => ?_, ?_⟩
    · rw [after.textAt?_eq, agrees.textAt?_eq, same]
    · rw [after.fixed, agrees.fixed, same]
  · intro order perm index
    rw [agrees.textAt?_eq]
    simp only [revised_flatten_perm sound.disjoint perm]
  · intro edits member index touched
    rw [agrees.textAt?_eq]
    simp only [revised_flatten_of_mem sound.disjoint member touched]
  · intro index untouched
    have none_touches : touches ledger.committed.flatten index = false := by
      rw [touches_flatten, List.any_eq_false]
      exact fun edits member => by simp [untouched edits member]
    rw [agrees.textAt?_eq]
    simp only [revised_of_not_touches none_touches]
  · rw [sound.total, agrees.fixed, agrees.rejected, ← opened]
    cases ledger.pending <;> rfl

theorem isOpen_rollback (fixer : Fixer) : fixer.rollback.isOpen = false := by
  simp only [rollback]
  split
  · rfl
  · simpa using ‹¬fixer.isOpen = true›

theorem isEnabled_rollback (fixer : Fixer) : fixer.rollback.isEnabled = fixer.isEnabled := by
  simp only [rollback]
  split <;> rfl

end Fixer

end PhpStyle
