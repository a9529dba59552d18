import Mathlib.Data.List.Forall2
import PhpStyle.Proofs.DocBlocks

/-!
# Doc comments are segmented exactly

A doc comment reaches from its opener to the first `*/` behind it. The lexer looks
for the end at the beginning of each lexeme only, so no lexeme may run into it. The
blocks are then found once more, from the kinds of the tokens alone. Both readings
are tied together by `Segments`, which cuts the lexemes of a file into those outside
of doc comments and the stretches of the doc comments, with a block for each stretch.
-/

namespace PhpStyle

open Text List

/-- The kinds of the tokens inside a doc comment. -/
def Kind.isDocBody : Kind → Bool
  | .docWhitespace | .docStar | .docTag | .docString => true
  | _ => false

theorem Kind.isDocComment_of_isDocBody {kind : Kind} (inside : kind.isDocBody = true) :
    kind.isDocComment = true := by
  cases kind <;> first | rfl | simp [isDocBody] at inside

/-- No end of a doc comment begins among the first characters of a text. -/
def RunsOn (text : List Char) (count : Nat) : Prop :=
  ∀ place < count, ¬['*', '/'] <+: text.drop place

namespace RunsOn

variable {c : Char} {text rest : List Char} {count : Nat}

theorem zero (text : List Char) : RunsOn text 0 := by
  intro place before
  omega

theorem cons (first : ¬['*', '/'] <+: c :: rest) (later : RunsOn rest count) :
    RunsOn (c :: rest) (count + 1) := by
  intro place before
  cases place with
  | zero => exact first
  | succ place => exact later place (by omega)

theorem cons_of_ne (other : c ≠ '*') (later : RunsOn rest count) :
    RunsOn (c :: rest) (count + 1) := by
  apply cons _ later
  rintro ⟨tail, split⟩
  exact other (List.cons.inj split).1.symm

theorem mono {fewer : Nat} (runs : RunsOn text count) (le : fewer ≤ count) : RunsOn text fewer := by
  intro place before
  exact runs place (by omega)

theorem append {piece : List Char} (runs : RunsOn (piece ++ rest) piece.length)
    (later : RunsOn rest count) : RunsOn (piece ++ rest) (piece.length + count) := by
  intro place before
  by_cases inside : place < piece.length
  · exact runs place inside
  · rw [drop_append, drop_eq_nil_of_le (by omega), nil_append]
    exact later (place - piece.length) (by omega)

theorem spacing (rest : List Char) : RunsOn rest (Scan.spacing rest) := by
  induction rest with
  | nil => exact zero _
  | cons c rest ih =>
    rw [Scan.spacing]
    split
    · next newline => exact cons_of_ne (by simp [newline]) (zero rest)
    · split
      · next blank => exact cons_of_ne (ne_of_test blank (by decide)) ih
      · exact zero _

theorem run {belongs : Char → Bool} (noStar : belongs '*' = false) (rest : List Char) :
    RunsOn rest (Scan.run belongs rest) := by
  induction rest with
  | nil => exact zero _
  | cons c rest ih =>
    rw [Scan.run, takeWhile_cons]
    split
    · next member => exact cons_of_ne (ne_of_test member noStar) ih
    · exact zero _

theorem docLine (text : List Char) : RunsOn text (Scan.docLine text) := by
  induction text with
  | nil => exact zero _
  | cons c rest ih =>
    rw [Scan.docLine]
    split
    · exact zero _
    · split
      · exact zero _
      · next notClose => exact cons notClose ih

end RunsOn

namespace Lexeme

/-- A step inside a doc comment ends it or stays clear of its end. -/
theorem DocStep.runsOn {starAllowed tagAllowed : Bool} {c : Char} {rest : List Char} {found : Step}
    (begins : DocStep starAllowed tagAllowed c rest found) (goesOn : found.kind ≠ .docClose) :
    found.kind.isDocBody = true ∧ RunsOn (c :: rest) (found.tail + 1) := by
  cases begins with
  | close => exact absurd rfl goesOn
  | newline => exact ⟨rfl, .cons_of_ne (by decide) (.zero rest)⟩
  | blanks blank ends => exact ⟨rfl, .cons_of_ne (ne_of_test blank (by decide)) (.spacing rest)⟩
  | star allowed other =>
    refine ⟨rfl, .cons ?_ (.zero rest)⟩
    rintro ⟨tail, split⟩
    exact other (by simp [← (List.cons.inj split).2])
  | tag allowed named => exact ⟨rfl, .cons_of_ne (by decide) (.run (by decide) rest)⟩
  | text notClose notSpace notStar notTag =>
    have stays : ¬StopsLine (c :: rest) := by simp [StopsLine, notClose, notSpace.2]
    have pos := docText_pos notSpace.1 stays
    have text_le := Scan.docText_le_docLine (c :: rest)
    refine ⟨rfl, (RunsOn.docLine (c :: rest)).mono ?_⟩
    show Scan.docText (c :: rest) - 1 + 1 ≤ Scan.docLine (c :: rest)
    omega

end Lexeme

/-- The tags among lexemes that begin at an index. -/
def tagsFrom (start : Nat) (lexemes : List Lexeme) : List Nat :=
  ((lexemes.zipIdx start).filter fun entry => entry.1.kind == .docTag).map fun entry => entry.2

/-- Lexemes that begin at an index, cut into doc comments and lexemes outside, and the blocks of the
doc comments. -/
inductive Segments : Nat → List Lexeme → List DocBlock → Prop where
  | done {start : Nat} : Segments start [] []
  | outside {start : Nat} {lexeme : Lexeme} {lexemes : List Lexeme} {blocks : List DocBlock}
      (plain : lexeme.kind.isDocComment = false)
      (following : Segments (start + 1) lexemes blocks) :
      Segments start (lexeme :: lexemes) blocks
  | closed {start : Nat} {opener closer : Lexeme} {body lexemes : List Lexeme}
      {blocks : List DocBlock} (opens : opener.kind = .docOpen)
      (mark : opener.text = ['/', '*', '*'])
      (inside : ∀ lexeme ∈ body, lexeme.kind.isDocBody = true)
      (closes : closer.kind = .docClose) (ends : closer.text = ['*', '/'])
      (runs : RunsOn ((body ++ closer :: lexemes).flatMap Lexeme.text)
        (body.flatMap Lexeme.text).length)
      (following : Segments (start + body.length + 2) lexemes blocks) :
      Segments start (opener :: (body ++ closer :: lexemes))
        (⟨start, some (start + body.length + 1), tagsFrom (start + 1) body⟩ :: blocks)
  | unclosed {start : Nat} {opener : Lexeme} {body : List Lexeme}
      (opens : opener.kind = .docOpen) (mark : opener.text = ['/', '*', '*'])
      (inside : ∀ lexeme ∈ body, lexeme.kind.isDocBody = true)
      (runs : RunsOn (body.flatMap Lexeme.text) (body.flatMap Lexeme.text).length) :
      Segments start (opener :: body) [⟨start, none, tagsFrom (start + 1) body⟩]

/-- What is left of a doc comment: lexemes up to its end and those behind it, or lexemes up to the
end of the file. -/
inductive Remainder : List Lexeme → Prop where
  | closed {body lexemes : List Lexeme} {closer : Lexeme}
      (inside : ∀ lexeme ∈ body, lexeme.kind.isDocBody = true)
      (closes : closer.kind = .docClose) (ends : closer.text = ['*', '/'])
      (runs : RunsOn ((body ++ closer :: lexemes).flatMap Lexeme.text)
        (body.flatMap Lexeme.text).length)
      (following : ∀ start, ∃ blocks, Segments start lexemes blocks) :
      Remainder (body ++ closer :: lexemes)
  | unclosed {body : List Lexeme} (inside : ∀ lexeme ∈ body, lexeme.kind.isDocBody = true)
      (runs : RunsOn (body.flatMap Lexeme.text) (body.flatMap Lexeme.text).length) :
      Remainder body

theorem Remainder.cons {lexeme : Lexeme} {lexemes : List Lexeme} (remainder : Remainder lexemes)
    (inside : lexeme.kind.isDocBody = true)
    (runs : RunsOn (lexeme.text ++ lexemes.flatMap Lexeme.text) lexeme.text.length) :
    Remainder (lexeme :: lexemes) := by
  cases remainder with
  | @closed body rest closer all_inside closes ends later following =>
    have longer : RunsOn ((lexeme :: body ++ closer :: rest).flatMap Lexeme.text)
        ((lexeme :: body).flatMap Lexeme.text).length := by simpa using runs.append later
    exact .closed (List.forall_mem_cons.mpr ⟨inside, all_inside⟩) closes ends longer following
  | unclosed all_inside later =>
    refine .unclosed (List.forall_mem_cons.mpr ⟨inside, all_inside⟩) ?_
    simpa using runs.append later

namespace Lexeme

theorem isDocComment_eq (kind : Kind) : kind.isDocComment = (kind == .docOpen || isInner kind) := by
  cases kind <;> rfl

/-- Outside of doc comments the lexer leaves segments, inside of one the remainder of it. -/
theorem Cuts.segments {mode : Mode} {position : Position} {text : List Char}
    {lexemes : List Lexeme} (cuts : Cuts mode position text lexemes) :
    (mode.isDoc = false → ∀ start, ∃ blocks, Segments start lexemes blocks) ∧
      (mode.isDoc = true → Remainder lexemes) := by
  induction cuts with
  | done => exact ⟨fun _ start => ⟨[], .done⟩, fun _ => .unclosed (by simp) (.zero _)⟩
  | @next mode after position c taken rest kind lexemes announced following ih =>
    constructor
    · intro outside start
      cases enters : after.isDoc with
      | true =>
        rcases eq_docOpen_of_isDoc outside enters announced with ⟨rfl, mark, -, -⟩
        cases ih.2 enters with
        | @closed body _ _ inside closes ends runs behind =>
          rcases behind (start + body.length + 2) with ⟨blocks, segments⟩
          exact ⟨_, .closed rfl mark inside closes ends runs segments⟩
        | unclosed inside runs => exact ⟨_, .unclosed rfl mark inside runs⟩
      | false =>
        have plain : kind.isDocComment = false := by
          rw [isDocComment_eq, ← isDoc_eq_isInner announced, outside, Bool.or_false,
            beq_eq_false_iff_ne]
          intro opens
          simp [isDoc_of_step announced (.inl opens)] at enters
        rcases ih.1 enters (start + 1) with ⟨blocks, segments⟩
        exact ⟨blocks, .outside plain segments⟩
    · intro inside
      obtain ⟨starAllowed, tagAllowed, rfl⟩ := exists_of_isDoc inside
      have begins := docStep_of_step announced
      by_cases closes : kind = .docClose
      · subst closes
        rcases of_step_docClose announced with ⟨ends, rfl⟩
        have whole : Remainder ([] ++ ⟨.docClose, c :: taken, position.line, position.column⟩ ::
            lexemes) := .closed (by simp) rfl ends (.zero _) (ih.1 rfl)
        exact whole
      · rcases begins.runsOn closes with ⟨body, runs⟩
        have inner := (isDoc_eq_isInner announced).symm
        apply (ih.2 (isDoc_of_step announced (.inr ⟨inner, closes⟩))).cons body
        rw [following.flatMap_text]
        exact runs

end Lexeme

theorem exists_segments_lex (source : List Char) : ∃ blocks, Segments 0 (lex source) blocks :=
  (cuts_lex source).segments.1 rfl 0

/-!
## The blocks of the segments
-/

theorem tagsFrom_cons (start : Nat) (lexeme : Lexeme) (lexemes : List Lexeme) :
    tagsFrom start (lexeme :: lexemes) =
      (if lexeme.kind = .docTag then [start] else []) ++ tagsFrom (start + 1) lexemes := by
  by_cases tagged : lexeme.kind = .docTag <;> simp [tagsFrom, tagged]

namespace DocBlock

variable {start : Nat} {lexemes : List Lexeme} {blocks : List DocBlock}

/-- Inside of a block its tags are collected one by one. -/
theorem collect_body {body : List Lexeme} (inside : ∀ lexeme ∈ body, lexeme.kind.isDocBody = true)
    (opener start : Nat) (tags : List Nat) (rest : Places) :
    collect (some (opener, tags)) ((body.map Lexeme.kind).zipIdx start ++ rest) =
      collect (some (opener, tags ++ tagsFrom start body)) rest := by
  induction body generalizing start tags with
  | nil => simp [tagsFrom]
  | cons lexeme body ih =>
    rcases List.forall_mem_cons.mp inside with ⟨first, others⟩
    rw [map_cons, zipIdx_cons, cons_append, tagsFrom_cons]
    cases kind : lexeme.kind <;> simp only [kind, Kind.isDocBody, Bool.false_eq_true] at first <;>
      simp [collect, Kind.isTrivia, Kind.isDocComment, ih others]

/-- The blocks that are collected are those of the segments. -/
theorem collect_of_segments (segments : Segments start lexemes blocks) :
    collect none ((lexemes.map Lexeme.kind).zipIdx start) = blocks := by
  induction segments with
  | done => rfl
  | @outside start lexeme lexemes blocks plain following ih =>
    have notOpen : lexeme.kind ≠ .docOpen := by
      intro opens
      simp [opens, Kind.isDocComment] at plain
    rw [map_cons, zipIdx_cons, collect, if_neg notOpen, ih]
  | @closed start opener closer body lexemes blocks opens mark inside closes ends runs following
      ih =>
      have place : start + 1 + body.length = start + body.length + 1 := by omega
      rw [map_cons, zipIdx_cons, collect, if_pos opens, map_append,
        zipIdx_append, collect_body inside, map_cons, zipIdx_cons, length_map,
        place, nil_append, closes]
      exact congrArg (List.cons _) ih
  | @unclosed start opener body opens mark inside runs =>
    have collected := collect_body inside start (start + 1) [] []
    rw [append_nil] at collected
    rw [map_cons, zipIdx_cons, collect, if_pos opens, collected]
    rfl

/-- Kinds that stay as they are, or that stay significant. -/
def Agrees (settled lexed : Kind) : Prop :=
  settled = lexed ∨ settled.isSignificant = true ∧ lexed.isSignificant = true

theorem collect_significant {kind : Kind} (significant : kind.isSignificant = true)
    (stillOpen : Option (Nat × List Nat)) (index : Nat) (rest : Places) :
    collect stillOpen ((kind, index) :: rest) =
      (stillOpen.map fun start => ⟨start.1, none, start.2⟩).toList ++ collect none rest := by
  cases kind <;> simp [Kind.isSignificant, Kind.isTrivia, Kind.isDocComment] at significant <;>
    cases stillOpen <;> rfl

theorem collect_congr {settled lexed : List Kind} (agree : List.Forall₂ Agrees settled lexed)
    (stillOpen : Option (Nat × List Nat)) (start : Nat) :
    collect stillOpen (settled.zipIdx start) = collect stillOpen (lexed.zipIdx start) := by
  induction agree generalizing stillOpen start with
  | nil => rfl
  | @cons kind other settled lexed same _ ih =>
    rw [zipIdx_cons, zipIdx_cons]
    rcases same with rfl | ⟨significant, also⟩
    · cases stillOpen with
      | none => simp only [collect, ih]
      | some opened => simp only [collect, ih]
    · rw [collect_significant significant, collect_significant also, ih]

/-- The tokens of a block: its opener, those inside it, and its closer. -/
def Touches (block : DocBlock) (index : Nat) : Prop :=
  block.opener ≤ index ∧ ∀ closer, block.closer = some closer → index ≤ closer

/-- A block ends before another one begins. -/
def Before (first second : DocBlock) : Prop :=
  ∃ closer, first.closer = some closer ∧ closer < second.opener

theorem opener_ge_of_segments (segments : Segments start lexemes blocks) :
    ∀ block ∈ blocks, start ≤ block.opener := by
  induction segments with
  | done => simp
  | outside plain following ih =>
    intro block member
    have := ih block member
    omega
  | closed opens mark inside closes ends runs following ih =>
    rw [forall_mem_cons]
    refine ⟨Nat.le_refl _, ?_⟩
    intro block member
    have := ih block member
    omega
  | unclosed opens mark inside runs => simp

theorem pairwise_before_of_segments (segments : Segments start lexemes blocks) :
    blocks.Pairwise Before := by
  induction segments with
  | done => exact .nil
  | outside plain following ih => exact ih
  | closed opens mark inside closes ends runs following ih =>
    refine .cons ?_ ih
    intro block member
    have := opener_ge_of_segments following block member
    exact ⟨_, rfl, by omega⟩
  | unclosed opens mark inside runs => exact pairwise_singleton _ _

/-- Every lexeme of a doc comment belongs to a block. -/
theorem exists_touches_of_segments (segments : Segments start lexemes blocks) {index : Nat}
    {lexeme : Lexeme} (found : lexemes[index]? = some lexeme)
    (doc : lexeme.kind.isDocComment = true) : ∃ block ∈ blocks, block.Touches (start + index) := by
  induction segments generalizing index with
  | done => simp at found
  | @outside start first lexemes blocks plain following ih =>
    cases index with
    | zero =>
      obtain rfl : first = lexeme := by simpa using found
      simp [plain] at doc
    | succ index =>
      rcases ih found with ⟨block, member, touches⟩
      rw [Nat.add_right_comm] at touches
      exact ⟨block, member, touches⟩
  | @closed start opener closer body lexemes blocks opens mark inside closes ends runs following
      ih =>
      by_cases here : index ≤ body.length + 1
      · refine ⟨_, mem_cons_self, Nat.le_add_right start index, ?_⟩
        intro place place_eq
        have := Option.some.inj place_eq
        omega
      · obtain ⟨place, rfl⟩ := Nat.exists_eq_add_of_le (show body.length + 2 ≤ index by omega)
        have later : lexemes[place]? = some lexeme := by
          rw [← found, show body.length + 2 + place = body.length + (place + 1) + 1 by omega,
            getElem?_cons_succ, getElem?_append_right (Nat.le_add_right _ _),
            Nat.add_sub_cancel_left, getElem?_cons_succ]
        rcases ih later with ⟨block, member, touches⟩
        rw [Nat.add_assoc, Nat.add_assoc, ← Nat.add_assoc body.length] at touches
        exact ⟨block, mem_cons_of_mem _ member, touches⟩
  | @unclosed start opener body opens mark inside runs =>
    refine ⟨_, mem_cons_self, Nat.le_add_right start index, ?_⟩
    intro place place_eq
    simp at place_eq

/-- A token belongs to one block at most. -/
theorem eq_of_touches (ordered : blocks.Pairwise Before) {first second : DocBlock} {index : Nat}
    (first_mem : first ∈ blocks) (second_mem : second ∈ blocks)
    (first_touches : first.Touches index) (second_touches : second.Touches index) :
    first = second := by
  rcases related_of_mem ordered first_mem second_mem with
    same | ⟨closer, closes, before⟩ | ⟨closer, closes, before⟩
  · exact same
  · have := first_touches.2 closer closes
    have := second_touches.1
    omega
  · have := second_touches.2 closer closes
    have := first_touches.1
    omega

/-- A block as a stretch of the lexemes of a file. -/
structure Stretch (lexemes : List Lexeme) (block : DocBlock) (front : List Lexeme)
    (opener : Lexeme) (body behind : List Lexeme) : Prop where
  split : lexemes = front ++ opener :: (body ++ behind)
  front_length : front.length = block.opener
  opens : opener.kind = .docOpen
  mark : opener.text = ['/', '*', '*']
  inside : ∀ lexeme ∈ body, lexeme.kind.isDocBody = true
  tags_eq : block.tags = tagsFrom (block.opener + 1) body
  runs : RunsOn ((body ++ behind).flatMap Lexeme.text) (body.flatMap Lexeme.text).length
  ends : behind = [] ∧ block.closer = none ∨
    ∃ closer rest, behind = closer :: rest ∧ closer.kind = .docClose ∧
      closer.text = ['*', '/'] ∧ block.closer = some (block.opener + body.length + 1)

theorem exists_stretch_of_segments (segments : Segments start lexemes blocks) {before : List Lexeme}
    (before_length : before.length = start) :
    ∀ block ∈ blocks, ∃ front opener body behind,
      Stretch (before ++ lexemes) block front opener body behind := by
  induction segments generalizing before with
  | done => simp
  | @outside start lexeme lexemes blocks plain following ih =>
    have longer : (before ++ [lexeme]).length = start + 1 := by simp [before_length]
    rw [append_cons]
    exact ih longer
  | @closed start opener closer body lexemes blocks opens mark inside closes ends runs following
      ih =>
      have longer : (before ++ opener :: (body ++ [closer])).length = start + body.length + 2 := by
        simp [before_length]
        omega
      have split : before ++ opener :: (body ++ closer :: lexemes) =
          before ++ opener :: (body ++ [closer]) ++ lexemes := by simp
      rw [forall_mem_cons]
      constructor
      · exact ⟨before, opener, body, closer :: lexemes, rfl, before_length, opens, mark, inside,
          rfl, runs, .inr ⟨closer, lexemes, rfl, closes, ends, rfl⟩⟩
      · rw [split]
        exact ih longer
  | @unclosed start opener body opens mark inside runs =>
    rw [forall_mem_singleton]
    exact ⟨before, opener, body, [], by simp, before_length, opens, mark, inside, rfl,
      by simpa using runs, .inl ⟨rfl, rfl⟩⟩

end DocBlock

theorem pairwise_tagsFrom (start : Nat) (lexemes : List Lexeme) :
    (tagsFrom start lexemes).Pairwise (· < ·) := by
  apply List.pairwise_map.mpr
  exact (pairwise_snd_zipIdx lexemes start).sublist filter_sublist

theorem mem_tagsFrom_iff {start tag : Nat} {lexemes : List Lexeme} :
    tag ∈ tagsFrom start lexemes ↔ start ≤ tag ∧
      ∃ lexeme, lexemes[tag - start]? = some lexeme ∧ lexeme.kind = .docTag := by
  simp only [tagsFrom, mem_map, mem_filter, Prod.exists, beq_iff_eq,
    mk_mem_zipIdx_iff_le_and_getElem?_sub]
  constructor
  · rintro ⟨lexeme, place, ⟨⟨le, found⟩, tagged⟩, rfl⟩
    exact ⟨le, lexeme, found, tagged⟩
  · rintro ⟨le, lexeme, found, tagged⟩
    exact ⟨lexeme, tag, ⟨⟨le, found⟩, tagged⟩, rfl⟩

namespace DocBlock

/-- The tokens inside a block. -/
def Encloses (block : DocBlock) (index : Nat) : Prop :=
  block.opener < index ∧ ∀ closer, block.closer = some closer → index < closer

namespace Stretch

variable {lexemes front body behind : List Lexeme} {block : DocBlock} {opener lexeme : Lexeme}
  {index : Nat} (stretch : Stretch lexemes block front opener body behind)

include stretch

theorem getElem?_opener : lexemes[block.opener]? = some opener := by
  rw [stretch.split, ← stretch.front_length]
  simp

theorem getElem?_of_lt (after : block.opener < index) :
    lexemes[index]? = (body ++ behind)[index - (block.opener + 1)]? := by
  have := stretch.front_length
  rw [stretch.split, getElem?_append_right (by omega), this,
    show index - block.opener = index - (block.opener + 1) + 1 by omega, getElem?_cons_succ]

theorem getElem?_body_iff :
    (block.Encloses index ∧ lexemes[index]? = some lexeme) ↔
      block.opener < index ∧ body[index - (block.opener + 1)]? = some lexeme := by
  constructor
  · rintro ⟨⟨after, bounded⟩, found⟩
    rw [stretch.getElem?_of_lt after] at found
    rcases stretch.ends with ⟨rfl, -⟩ | ⟨closer, rest, -, -, -, place⟩
    · rw [append_nil] at found
      exact ⟨after, found⟩
    · have := bounded _ place
      rw [getElem?_append_left (by omega)] at found
      exact ⟨after, found⟩
  · rintro ⟨after, found⟩
    have inside := (List.getElem?_eq_some_iff.mp found).1
    refine ⟨⟨after, ?_⟩, ?_⟩
    · intro closer closes
      rcases stretch.ends with ⟨-, unclosed⟩ | ⟨_, _, -, -, -, place⟩
      · simp [unclosed] at closes
      · have := Option.some.inj (place.symm.trans closes)
        omega
    · rw [stretch.getElem?_of_lt after, getElem?_append_left inside, found]

theorem getElem?_closer {closer : Nat} (closes : block.closer = some closer) :
    block.opener < closer ∧ ∃ lexeme, lexemes[closer]? = some lexeme ∧ lexeme.kind = .docClose := by
  rcases stretch.ends with ⟨-, unclosed⟩ | ⟨ending, rest, rfl, kind, -, place⟩
  · simp [unclosed] at closes
  · obtain rfl := Option.some.inj (place.symm.trans closes)
    refine ⟨by omega, ending, ?_, kind⟩
    rw [stretch.getElem?_of_lt (by omega),
      show block.opener + body.length + 1 - (block.opener + 1) = body.length by omega]
    simp

theorem mem_tags_iff {tag : Nat} :
    tag ∈ block.tags ↔ block.Encloses tag ∧
      ∃ lexeme, lexemes[tag]? = some lexeme ∧ lexeme.kind = .docTag := by
  rw [stretch.tags_eq, mem_tagsFrom_iff]
  constructor
  · rintro ⟨after, lexeme, found, tagged⟩
    rcases stretch.getElem?_body_iff.mpr ⟨after, found⟩ with ⟨encloses, found⟩
    exact ⟨encloses, lexeme, found, tagged⟩
  · rintro ⟨encloses, lexeme, found, tagged⟩
    rcases stretch.getElem?_body_iff.mp ⟨encloses, found⟩ with ⟨after, found⟩
    exact ⟨after, lexeme, found, tagged⟩

/-- A token of a block opens it, is inside it or closes it. -/
theorem kind_cases (touches : block.Touches index) (found : lexemes[index]? = some lexeme) :
    (block.opener = index ∧ lexeme.kind = .docOpen) ∨
      (block.Encloses index ∧ lexeme.kind.isDocBody = true) ∨
      (block.closer = some index ∧ lexeme.kind = .docClose) := by
  rcases Nat.eq_or_lt_of_le touches.1 with rfl | after
  · obtain rfl := Option.some.inj (stretch.getElem?_opener.symm.trans found)
    exact .inl ⟨rfl, stretch.opens⟩
  · right
    by_cases closes : block.closer = some index
    · rcases stretch.getElem?_closer closes with ⟨-, closer, closer_found, kind⟩
      obtain rfl := Option.some.inj (closer_found.symm.trans found)
      exact .inr ⟨closes, kind⟩
    · have encloses : block.Encloses index := by
        refine ⟨after, ?_⟩
        intro closer closer_eq
        have le := touches.2 closer closer_eq
        have : closer ≠ index := by
          rintro rfl
          exact closes closer_eq
        omega
      rcases stretch.getElem?_body_iff.mp ⟨encloses, found⟩ with ⟨-, in_body⟩
      exact .inl ⟨encloses, stretch.inside lexeme (mem_of_getElem? in_body)⟩

end Stretch

theorem at?_eq_some {blocks : List DocBlock} (ordered : blocks.Pairwise Before)
    (valid : ∀ block ∈ blocks, ∀ closer, block.closer = some closer → block.opener < closer)
    {block : DocBlock} {index : Nat} (member : block ∈ blocks)
    (bound : block.opener = index ∨ block.closer = some index) : at? blocks index = some block := by
  have touches : ∀ other ∈ blocks, other.opener = index ∨ other.closer = some index →
      other.Touches index := by
    intro other other_mem other_bound
    have ordered_ends := valid other other_mem
    rcases other_bound with rfl | closes
    · exact ⟨Nat.le_refl _, fun closer closer_eq => Nat.le_of_lt (ordered_ends closer closer_eq)⟩
    · refine ⟨Nat.le_of_lt (ordered_ends index closes), ?_⟩
      intro closer closer_eq
      rw [Option.some.inj (closes.symm.trans closer_eq)]
  cases found : at? blocks index with
  | none =>
    have nowhere := List.find?_eq_none.mp found block member
    rcases bound with same | same <;> simp [same] at nowhere
  | some other =>
    have other_mem := mem_of_find?_eq_some found
    have other_bound : other.opener = index ∨ other.closer = some index := by
      simpa using find?_some found
    rw [eq_of_touches ordered other_mem member (touches other other_mem other_bound)
      (touches block member bound)]

end DocBlock

namespace Stream

section Segments

variable {lexemes : List Lexeme} {blocks : List DocBlock} {index : Nat}

variable {token : Token} {block : DocBlock}

theorem kind?_iff_of_isDocComment {kind : Kind} (doc : kind.isDocComment = true) :
    (ofLexemes lexemes).kind? index = some kind ↔
      ∃ lexeme, lexemes[index]? = some lexeme ∧ lexeme.kind = kind := by
  have trivia : kind.isSignificant = false := by
    cases kind <;> first | rfl | simp [Kind.isDocComment] at doc
  rw [kind?_ofLexemes, getElem?_settledKinds_iff trivia, getElem?_map, Option.map_eq_some_iff]

theorem agrees_settledKinds (lexemes : List Lexeme) :
    List.Forall₂ DocBlock.Agrees (settledKinds lexemes) (lexemes.map Lexeme.kind) := by
  apply List.forall₂_iff_get.mpr
  refine ⟨by rw [length_settledKinds, length_map], ?_⟩
  intro index settled_inside lexed_inside
  have inside : index < lexemes.length := by simpa using lexed_inside
  have found := getElem?_eq_getElem inside
  have kind_found : (ofLexemes lexemes).kind? index = some (settledKinds lexemes)[index] := by
    rw [kind?_ofLexemes, getElem?_eq_getElem settled_inside]
  have same := isSignificant_of_kind? kind_found found
  rw [get_eq_getElem, get_eq_getElem, getElem_map]
  cases significant : lexemes[index].kind.isSignificant with
  | true => exact .inr ⟨same.trans significant, significant⟩
  | false =>
    left
    exact Option.some.inj (kind_found.symm.trans (kind?_of_isTrivia found significant))

theorem flatMap_text_take (lexemes : List Lexeme) (count : Nat) :
    ((ofLexemes lexemes).tokens.toList.take count).flatMap (fun token => token.text) =
      (lexemes.take count).flatMap Lexeme.text := by
  rw [flatMap_def, flatMap_def, map_take, text_ofLexemes, map_take]

theorem content?_ofLexemes {first count : Nat} (inside : first + count < lexemes.length) :
    (ofLexemes lexemes).content? first (first + count) =
      some (((lexemes.drop first).take (count + 1)).flatMap Lexeme.text) := by
  have size := size_ofLexemes lexemes
  have stop : (first + count + 1).min (ofLexemes lexemes).size = first + count + 1 :=
    Nat.min_eq_left (by omega)
  have slice : (ofLexemes lexemes).slice? first (first + count + 1) =
      some ((ofLexemes lexemes).tokens.extract first (first + count + 1)).toList :=
    if_pos ⟨by omega, by omega⟩
  have nonempty : ¬((ofLexemes lexemes).size = 0 ∨ first + count < first) := by omega
  rw [content?, if_neg nonempty, stop, slice, Option.map_some, Array.toList_extract, List.extract,
    flatMap_def, flatMap_def, map_take, map_drop, text_ofLexemes, map_take,
    map_drop, show first + count + 1 - first = count + 1 by omega]

variable (segments : Segments 0 lexemes blocks)

include segments

theorem blocks_of_segments : (structureOf (lexemes.map Lexeme.kind)).blocks = blocks := by
  rw [← DocBlock.collect_of_segments segments]
  exact DocBlock.collect_congr (agrees_settledKinds lexemes) none 0

theorem docBlock_of_get? (found : (ofLexemes lexemes).get? index = some token) :
    token.docBlock = DocBlock.at? blocks index := by
  rcases of_get? found with ⟨lexeme, kind, conditions, -, rfl⟩
  rw [← blocks_of_segments segments]
  rfl

theorem exists_stretch (member : block ∈ blocks) :
    ∃ front opener body behind, DocBlock.Stretch lexemes block front opener body behind :=
  DocBlock.exists_stretch_of_segments segments length_nil block member

/-- The block that opens or closes at a token is the one that the token has. -/
theorem docBlock_of_bound (member : block ∈ blocks)
    (bound : block.opener = index ∨ block.closer = some index)
    (found : (ofLexemes lexemes).get? index = some token) : token.docBlock = some block := by
  rw [docBlock_of_get? segments found]
  refine DocBlock.at?_eq_some (DocBlock.pairwise_before_of_segments segments) ?_ member bound
  intro other other_mem closer closes
  rcases exists_stretch segments other_mem with ⟨front, opener, body, behind, stretch⟩
  exact (stretch.getElem?_closer closes).1

/-- A token of a doc comment belongs to a block: it opens it, is inside it or closes it. -/
theorem exists_block {kind : Kind} (found : (ofLexemes lexemes).kind? index = some kind)
    (doc : kind.isDocComment = true) :
    ∃ block ∈ blocks, block.Touches index ∧
      ((block.opener = index ∧ kind = .docOpen) ∨
        (block.opener < index ∧ kind.isDocBody = true) ∨
        (block.opener < index ∧ block.closer = some index ∧ kind = .docClose)) := by
  rcases (kind?_iff_of_isDocComment doc).mp found with ⟨lexeme, lexeme_found, rfl⟩
  rcases DocBlock.exists_touches_of_segments segments lexeme_found doc with
    ⟨block, member, touches⟩
  rw [Nat.zero_add] at touches
  rcases exists_stretch segments member with ⟨front, opener, body, behind, stretch⟩
  refine ⟨block, member, touches, ?_⟩
  rcases stretch.kind_cases touches lexeme_found with
    opens | ⟨encloses, inside⟩ | ⟨closer_eq, closes⟩
  · exact .inl opens
  · exact .inr (.inl ⟨encloses.1, inside⟩)
  · exact .inr (.inr ⟨(stretch.getElem?_closer closer_eq).1, closer_eq, closes⟩)

theorem exists_opener (member : block ∈ blocks) :
    ∃ opener, (ofLexemes lexemes).get? block.opener = some opener ∧ opener.kind = .docOpen ∧
      opener.docBlock = some block := by
  rcases exists_stretch segments member with ⟨front, opener, body, behind, stretch⟩
  have kind := (kind?_iff_of_isDocComment rfl).mpr ⟨opener, stretch.getElem?_opener, stretch.opens⟩
  rcases Option.map_eq_some_iff.mp kind with ⟨token, found, token_kind⟩
  exact ⟨token, found, token_kind, docBlock_of_bound segments member (.inl rfl) found⟩

section

variable (found : (ofLexemes lexemes).get? index = some token)

include found

theorem mem_of_docBlock (has : token.docBlock = some block) : block ∈ blocks := by
  rw [docBlock_of_get? segments found] at has
  exact mem_of_find?_eq_some has

theorem block_of_docOpen (opens : token.kind = .docOpen) :
    ∃ block ∈ blocks, token.docBlock = some block ∧ block.opener = index := by
  have kind : (ofLexemes lexemes).kind? index = some .docOpen := by simp [kind?, found, opens]
  rcases exists_block segments kind rfl with
    ⟨block, member, -, ⟨opener_eq, -⟩ | ⟨-, inside⟩ | ⟨-, -, closes⟩⟩
  · exact ⟨block, member, docBlock_of_bound segments member (.inl opener_eq) found, opener_eq⟩
  · simp [Kind.isDocBody] at inside
  · simp at closes

theorem block_of_docClose (closes : token.kind = .docClose) :
    ∃ block ∈ blocks, token.docBlock = some block ∧ block.closer = some index ∧
      block.opener < index := by
  have kind : (ofLexemes lexemes).kind? index = some .docClose := by simp [kind?, found, closes]
  rcases exists_block segments kind rfl with
    ⟨block, member, -, ⟨-, opens⟩ | ⟨-, inside⟩ | ⟨after, closer_eq, -⟩⟩
  · simp at opens
  · simp [Kind.isDocBody] at inside
  · exact ⟨block, member, docBlock_of_bound segments member (.inr closer_eq) found, closer_eq,
      after⟩

end

/-- The one block that a token inside a doc comment, or at its end, belongs to. -/
theorem existsUnique_block {kind : Kind} (found : (ofLexemes lexemes).kind? index = some kind)
    (doc : kind.isDocBody = true ∨ kind = .docClose) :
    ∃! block, (∃ opener, (ofLexemes lexemes).get? block.opener = some opener ∧
      opener.kind = .docOpen ∧ opener.docBlock = some block) ∧
        block.opener < index ∧ block.Touches index := by
  have is_doc : kind.isDocComment = true := by
    rcases doc with inside | rfl
    · exact Kind.isDocComment_of_isDocBody inside
    · rfl
  rcases exists_block segments found is_doc with ⟨block, member, touches, role⟩
  have after : block.opener < index := by
    rcases role with ⟨-, rfl⟩ | ⟨after, -⟩ | ⟨after, -⟩
    · simp [Kind.isDocBody] at doc
    · exact after
    · exact after
  refine ⟨block, ⟨exists_opener segments member, after, touches⟩, ?_⟩
  rintro other ⟨⟨token, token_found, -, has⟩, -, other_touches⟩
  exact DocBlock.eq_of_touches (DocBlock.pairwise_before_of_segments segments)
    (mem_of_docBlock segments token_found has) member other_touches touches

end Segments

section Stretch

variable {lexemes front body behind : List Lexeme} {block : DocBlock} {opener : Lexeme}
  (stretch : DocBlock.Stretch lexemes block front opener body behind)

include stretch

theorem isDocBody_of_encloses {index : Nat} {kind : Kind} (encloses : block.Encloses index)
    (found : (ofLexemes lexemes).kind? index = some kind) : kind.isDocBody = true := by
  rcases reading_of_kind? found with ⟨lexeme, -, lexeme_found, -⟩
  rcases stretch.getElem?_body_iff.mp ⟨encloses, lexeme_found⟩ with ⟨-, in_body⟩
  have inside := stretch.inside lexeme (mem_of_getElem? in_body)
  have kind_found := (kind?_iff_of_isDocComment (Kind.isDocComment_of_isDocBody inside)).mpr
    ⟨lexeme, lexeme_found, rfl⟩
  rwa [Option.some.inj (found.symm.trans kind_found)]

theorem flatMap_text_eq :
    lexemes.flatMap Lexeme.text =
      ((ofLexemes lexemes).tokens.toList.take block.opener).flatMap (fun token => token.text) ++
        (['/', '*', '*'] ++ (body ++ behind).flatMap Lexeme.text) := by
  rw [flatMap_text_take, ← stretch.mark, ← flatMap_cons]
  conv_lhs => rw [stretch.split]
  rw [flatMap_append, stretch.split, ← stretch.front_length, take_left]

theorem content?_of_closed {closer : Lexeme} {rest : List Lexeme}
    (behind_eq : behind = closer :: rest) (ends : closer.text = ['*', '/']) :
    (ofLexemes lexemes).content? block.opener (block.opener + body.length + 1) =
      some (['/', '*', '*'] ++ (body.flatMap Lexeme.text ++ ['*', '/'])) := by
  have split := stretch.split
  rw [behind_eq] at split
  have inside : block.opener + (body.length + 1) < lexemes.length := by
    rw [split, ← stretch.front_length]
    simp
  have taken : (opener :: (body ++ closer :: rest)).take (body.length + 1 + 1) =
      opener :: (body ++ [closer]) := by
    rw [take_succ_cons, take_length_add_append]
    rfl
  rw [Nat.add_assoc, content?_ofLexemes inside, ← stretch.mark, ← ends, split,
    ← stretch.front_length, drop_left, taken]
  simp

end Stretch

/-- A doc comment reaches from its opener to the first `*/` behind it, or to the end of the source if
there is none. In between are the tokens of its body, and its tags are the tags among them. Every
token inside a doc comment, or at its end, belongs to one block, which its closer has too. -/
theorem doc_comments_are_segmented (source : List Char) :
    let stream := ofSource source
    (∀ opener token, stream.get? opener = some token → token.kind = .docOpen →
      ∃ block behind, token.docBlock = some block ∧ block.opener = opener ∧
        source = (stream.tokens.toList.take opener).flatMap (fun token => token.text) ++
          (['/', '*', '*'] ++ behind) ∧
        (∀ index kind, block.Encloses index → stream.kind? index = some kind →
          kind.isDocBody = true) ∧
        token.tags.Pairwise (· < ·) ∧
        (∀ tag, tag ∈ token.tags ↔ block.Encloses tag ∧ stream.kind? tag = some .docTag) ∧
        match block.closer with
        | some closer => opener < closer ∧ stream.kind? closer = some .docClose ∧
            ∃ body rest, behind = body ++ (['*', '/'] ++ rest) ∧ RunsOn behind body.length ∧
              stream.content? opener closer = some (['/', '*', '*'] ++ (body ++ ['*', '/']))
        | none => RunsOn behind behind.length) ∧
      (∀ index kind, stream.kind? index = some kind → kind.isDocBody = true ∨ kind = .docClose →
        ∃! block, (∃ opener, stream.get? block.opener = some opener ∧ opener.kind = .docOpen ∧
          opener.docBlock = some block) ∧ block.opener < index ∧ block.Touches index) ∧
      ∀ index token, stream.get? index = some token → token.kind = .docClose →
        ∃ block opener, token.docBlock = some block ∧ block.closer = some index ∧
          block.opener < index ∧ stream.get? block.opener = some opener ∧
          opener.kind = .docOpen ∧ opener.docBlock = some block := by
  intro stream
  rcases exists_segments_lex source with ⟨blocks, segments⟩
  refine ⟨?_, ?_, ?_⟩
  · intro opener token found opens
    rcases block_of_docOpen segments found opens with ⟨block, member, has, rfl⟩
    rcases exists_stretch segments member with ⟨front, first, body, behind, stretch⟩
    have tags_eq : token.tags = block.tags := by simp [Token.tags, opens, has]
    refine ⟨block, (body ++ behind).flatMap Lexeme.text, has, rfl, ?_, ?_, ?_, ?_, ?_⟩
    · exact (cuts_lex source).flatMap_text.symm.trans (flatMap_text_eq stretch)
    · intro index kind encloses kind_found
      exact isDocBody_of_encloses stretch encloses kind_found
    · rw [tags_eq, stretch.tags_eq]
      exact pairwise_tagsFrom _ _
    · intro tag
      rw [tags_eq, stretch.mem_tags_iff]
      exact and_congr_right fun _ => (kind?_iff_of_isDocComment rfl).symm
    · rcases stretch.ends with ⟨rfl, unclosed⟩ | ⟨closer, rest, behind_eq, closes, ends, place⟩
      · rw [unclosed]
        simpa using stretch.runs
      · rw [place]
        have closer_found := stretch.getElem?_closer place
        refine ⟨closer_found.1, (kind?_iff_of_isDocComment rfl).mpr closer_found.2,
          body.flatMap Lexeme.text, rest.flatMap Lexeme.text, ?_, stretch.runs,
          content?_of_closed stretch behind_eq ends⟩
        rw [behind_eq, flatMap_append, flatMap_cons, ends]
  · intro index kind found doc
    exact existsUnique_block segments found doc
  · intro index token found closes
    rcases block_of_docClose segments found closes with ⟨block, member, has, closer_eq, after⟩
    rcases exists_opener segments member with ⟨opener, opener_found, opens, opener_has⟩
    exact ⟨block, opener, has, closer_eq, after, opener_found, opens, opener_has⟩

/-- A star stands right before the end of the first doc comment, and the second one has no end. -/
theorem doc_comments_are_segmented_unclosed :
    let stream := ofSource "<?php /** @a **/ /** @b".toList
    (stream.get? 2).map Token.docBlock = some (some ⟨2, some 7, [4]⟩) ∧
      (stream.get? 9).map Token.docBlock = some (some ⟨9, none, [11]⟩) ∧
      stream.content? 2 7 = some "/** @a **/".toList ∧
      ∃! block, (∃ opener, stream.get? block.opener = some opener ∧ opener.kind = .docOpen ∧
        opener.docBlock = some block) ∧ block.opener < 6 ∧ block.Touches 6 := by
  intro stream
  have star : stream.kind? 6 = some .docString := by decide +kernel
  refine ⟨by decide +kernel, by decide +kernel, by decide +kernel, ?_⟩
  exact (doc_comments_are_segmented "<?php /** @a **/ /** @b".toList).2.1 6 .docString star
    (.inl rfl)

end Stream

end PhpStyle
