import Mathlib.Data.List.Pairwise
import Mathlib.Order.Monotone.Basic
import PhpStyle.Proofs.Readings

/-!
# Pairs of brackets are nested

What the scan for pairs guarantees for any sequence of sides, balanced or not: a
pair has an opener before a closer, no bracket belongs to two pairs, and of two
pairs one lies inside the other or behind it. The readings of square brackets
agree with the pairs: a closer is read as its opener is.

Entries that are no brackets may stand anywhere. The pairs are those of the other
entries, moved to where these stand.
-/

namespace PhpStyle

open List

theorem getElem?_of_drop {α : Type} {all rest : List α} {index : Nat} {first : α}
    (suffix : all.drop index = first :: rest) :
    all[index]? = some first ∧ all.drop (index + 1) = rest := by
  constructor
  · rw [← head?_drop, suffix, head?_cons]
  · rw [← drop_drop, suffix, drop_one, tail_cons]

section Pairs

variable {all sides : List Side} {index : Nat} {stillOpen : List Nat} {span : Span}

/-- The places of openers before a place, the latest first. -/
structure Openers (all : List Side) (index : Nat) (stillOpen : List Nat) : Prop where
  lt : ∀ opener ∈ stillOpen, opener < index
  opens : ∀ opener ∈ stillOpen, all[opener]? = some .opens
  sorted : stillOpen.Pairwise (· > ·)

theorem Openers.nil (all : List Side) (index : Nat) : Openers all index [] := by
  constructor <;> simp

theorem Openers.push (openers : Openers all index stillOpen) (side : all[index]? = some .opens) :
    Openers all (index + 1) (index :: stillOpen) where
  lt := by
    simp only [mem_cons, forall_eq_or_imp]
    exact ⟨by omega, fun opener inside => by have := openers.lt opener inside; omega⟩
  opens := by simpa [side] using openers.opens
  sorted := List.pairwise_cons.mpr ⟨openers.lt, openers.sorted⟩

theorem Openers.stay (openers : Openers all index stillOpen) :
    Openers all (index + 1) stillOpen where
  lt opener inside := by have := openers.lt opener inside; omega
  opens := openers.opens
  sorted := openers.sorted

theorem Openers.pop {opener : Nat} {outer : List Nat}
    (openers : Openers all index (opener :: outer)) : Openers all (index + 1) outer where
  lt other inside := by have := openers.lt other (by simp [inside]); omega
  opens other inside := openers.opens other (by simp [inside])
  sorted := (List.pairwise_cons.mp openers.sorted).2

/-- The openers that are open after one more side. -/
def openersAfter (index : Nat) (stillOpen : List Nat) : Side → List Nat
  | .opens => index :: stillOpen
  | .closes => stillOpen.tail
  | .neither => stillOpen

theorem Openers.after {side : Side} (places : Openers all index stillOpen)
    (found : all[index]? = some side) :
    Openers all (index + 1) (openersAfter index stillOpen side) := by
  cases side with
  | opens => exact places.push found
  | neither => exact places.stay
  | closes =>
    cases stillOpen with
    | nil => exact .nil all (index + 1)
    | cons opener outer => exact places.pop

/-- One step of the scan for pairs finds at most the pair that closes there. -/
theorem mem_pairsFrom_cons {side : Side} :
    span ∈ pairsFrom index stillOpen (side :: sides) ↔
      side = .closes ∧ stillOpen.head? = some span.opener ∧ span.closer = index ∨
        span ∈ pairsFrom (index + 1) (openersAfter index stillOpen side) sides := by
  cases side with
  | opens => simp [pairsFrom, openersAfter]
  | neither => simp [pairsFrom, openersAfter]
  | closes =>
    cases stillOpen with
    | nil => simp [pairsFrom, openersAfter]
    | cons opener outer =>
      rcases span with ⟨other, closer⟩
      simp [pairsFrom, openersAfter, eq_comm]

/-- What holds of each pair found from a place on, given the openers still open there. -/
structure PairFrom (all : List Side) (index : Nat) (stillOpen : List Nat) (span : Span) :
    Prop where
  index_le : index ≤ span.closer
  ordered : span.opener < span.closer
  opener : all[span.opener]? = some .opens
  closer : all[span.closer]? = some .closes
  origin : span.opener ∈ stillOpen ∨ index ≤ span.opener

theorem PairFrom.back {later : List Nat} (pair : PairFrom all (index + 1) later span)
    (origin : span.opener ∈ later → span.opener ∈ stillOpen ∨ index ≤ span.opener) :
    PairFrom all index stillOpen span where
  index_le := by have := pair.index_le; omega
  ordered := pair.ordered
  opener := pair.opener
  closer := pair.closer
  origin := pair.origin.elim origin fun bound => .inr (by omega)

theorem pairFrom_of_mem (suffix : all.drop index = sides) (openers : Openers all index stillOpen)
    (found : span ∈ pairsFrom index stillOpen sides) : PairFrom all index stillOpen span := by
  fun_induction pairsFrom index stillOpen sides with
  | case1 => simp at found
  | case2 index stillOpen rest ih =>
    rcases getElem?_of_drop suffix with ⟨side, later⟩
    refine (ih later (openers.push side) found).back fun inside => ?_
    rcases List.mem_cons.mp inside with same | inside
    · exact .inr (by omega)
    · exact .inl inside
  | case3 index stillOpen rest ih =>
    exact (ih (getElem?_of_drop suffix).2 openers.stay found).back .inl
  | case4 index rest ih => exact (ih (getElem?_of_drop suffix).2 openers.stay found).back .inl
  | case5 index rest opener outer ih =>
    rcases getElem?_of_drop suffix with ⟨side, later⟩
    rcases List.mem_cons.mp found with rfl | found
    · exact ⟨Nat.le_refl _, openers.lt opener (by simp), openers.opens opener (by simp), side,
        .inl (by simp)⟩
    · exact (ih later openers.pop found).back fun inside => .inl (by simp [inside])

/-- Of two pairs the one that closes later opens before the other one or behind it. -/
def Span.Nested (first second : Span) : Prop :=
  first.closer < second.closer ∧ (second.opener < first.opener ∨ first.closer < second.opener)

/-- Pairs are nested or apart, whichever openers a scan starts with. -/
theorem pairwise_nested_pairsFrom (suffix : all.drop index = sides)
    (openers : Openers all index stillOpen) :
    (pairsFrom index stillOpen sides).Pairwise Span.Nested := by
  fun_induction pairsFrom index stillOpen sides with
  | case1 => exact .nil
  | case2 index stillOpen rest ih =>
    rcases getElem?_of_drop suffix with ⟨side, later⟩
    exact ih later (openers.push side)
  | case3 index stillOpen rest ih => exact ih (getElem?_of_drop suffix).2 openers.stay
  | case4 index rest ih => exact ih (getElem?_of_drop suffix).2 openers.stay
  | case5 index rest opener outer ih =>
    rcases getElem?_of_drop suffix with ⟨side, later⟩
    refine List.pairwise_cons.mpr ⟨fun span found => ?_, ih later openers.pop⟩
    have pair := pairFrom_of_mem later openers.pop found
    refine ⟨pair.index_le, pair.origin.imp (fun inside => ?_) id⟩
    exact (List.pairwise_cons.mp openers.sorted).1 _ inside

end Pairs

theorem pair_of_mem {sides : List Side} {span : Span} (found : span ∈ pairs sides) :
    span.opener < span.closer ∧ sides[span.opener]? = some .opens ∧
      sides[span.closer]? = some .closes := by
  have pair := pairFrom_of_mem rfl (Openers.nil sides 0) found
  exact ⟨pair.ordered, pair.opener, pair.closer⟩

theorem related_of_mem {α : Type} {R : α → α → Prop} {items : List α} {first second : α}
    (pairwise : items.Pairwise R) (first_mem : first ∈ items) (second_mem : second ∈ items) :
    first = second ∨ R first second ∨ R second first := by
  induction pairwise with
  | nil => simp at first_mem
  | cons related _ ih =>
    rcases List.mem_cons.mp first_mem with rfl | first_later <;>
      rcases List.mem_cons.mp second_mem with rfl | second_later
    · exact .inl rfl
    · exact .inr (.inl (related second second_later))
    · exact .inr (.inr (related first first_later))
    · exact ih first_later second_later

theorem pairwise_snd_zipIdx.{u} {α : Type u} (items : List α) (start : Nat) :
    (items.zipIdx start).Pairwise fun first second => first.2 < second.2 := by
  rw [← pairwise_map, zipIdx_map_snd]
  exact pairwise_lt_range'

theorem nested_of_mem {sides : List Side} {first second : Span} (first_mem : first ∈ pairs sides)
    (second_mem : second ∈ pairs sides) :
    first = second ∨ first.Nested second ∨ second.Nested first :=
  related_of_mem (pairwise_nested_pairsFrom rfl (Openers.nil sides 0)) first_mem second_mem

section Whole

variable {sides : List Side} {first second span : Span}

variable {index : Nat}

theorem eq_of_opener_eq (first_mem : first ∈ pairs sides) (second_mem : second ∈ pairs sides)
    (same : first.opener = second.opener) : first = second := by
  have first_pair := pair_of_mem first_mem
  have second_pair := pair_of_mem second_mem
  rcases nested_of_mem first_mem second_mem with equal | ⟨-, nested⟩ | ⟨-, nested⟩
  · exact equal
  · omega
  · omega

theorem eq_of_closer_eq (first_mem : first ∈ pairs sides) (second_mem : second ∈ pairs sides)
    (same : first.closer = second.closer) : first = second := by
  rcases nested_of_mem first_mem second_mem with equal | ⟨later, -⟩ | ⟨later, -⟩
  · exact equal
  · omega
  · omega

/-- A pair that closes inside another one opens inside it. -/
theorem opener_lt_of_closer_inside (first_mem : first ∈ pairs sides)
    (second_mem : second ∈ pairs sides) (above : first.opener < second.closer)
    (below : second.closer < first.closer) : first.opener < second.opener := by
  rcases nested_of_mem first_mem second_mem with rfl | ⟨later, -⟩ | ⟨-, nested⟩
  · omega
  · omega
  · omega

theorem pairAt_of_opens (side : sides[index]? = some .opens)
    (found : pairAt (pairs sides) index = some span) :
    span ∈ pairs sides ∧ span.opener = index := by
  have mem := mem_of_find?_eq_some found
  have bounds := find?_some found
  simp only [Span.bounds, Bool.or_eq_true, beq_iff_eq] at bounds
  refine ⟨mem, bounds.resolve_right fun closes => ?_⟩
  have := (pair_of_mem mem).2.2
  rw [closes, side] at this
  simp at this

theorem pairAt_of_closes (side : sides[index]? = some .closes)
    (found : pairAt (pairs sides) index = some span) :
    span ∈ pairs sides ∧ span.closer = index := by
  have mem := mem_of_find?_eq_some found
  have bounds := find?_some found
  simp only [Span.bounds, Bool.or_eq_true, beq_iff_eq] at bounds
  refine ⟨mem, bounds.resolve_left fun opens => ?_⟩
  have := (pair_of_mem mem).2.1
  rw [opens, side] at this
  simp at this

theorem pairAt_eq_none (side : sides[index]? = some .neither) :
    pairAt (pairs sides) index = none := by
  rw [pairAt, find?_eq_none]
  intro span mem bounds
  simp only [Span.bounds, Bool.or_eq_true, beq_iff_eq] at bounds
  have pair := pair_of_mem mem
  rcases bounds with opens | closes
  · simp [← opens, pair.2.1] at side
  · simp [← closes, pair.2.2] at side

theorem pairAt_opener (mem : span ∈ pairs sides) :
    pairAt (pairs sides) span.opener = some span := by
  cases found : pairAt (pairs sides) span.opener with
  | none =>
    have := List.find?_eq_none.mp found span mem
    simp [Span.bounds] at this
  | some other =>
    have other_pair := pairAt_of_opens (pair_of_mem mem).2.1 found
    rw [eq_of_opener_eq other_pair.1 mem other_pair.2]

theorem pairAt_closer (mem : span ∈ pairs sides) :
    pairAt (pairs sides) span.closer = some span := by
  cases found : pairAt (pairs sides) span.closer with
  | none =>
    have := List.find?_eq_none.mp found span mem
    simp [Span.bounds] at this
  | some other =>
    have other_pair := pairAt_of_closes (pair_of_mem mem).2.2 found
    rw [eq_of_closer_eq other_pair.1 mem other_pair.2]

end Whole

namespace Kind

variable {all stillOpen : List Kind} {index : Nat} {openers : List Nat}

/-- The readings of the openers still open after one more token. -/
theorem map_openersAfter {settled : Kind} (opened : openers.map (all[·]?) = stillOpen.map some)
    (at_index : all[index]? = some settled) (kind : Kind) :
    (openersAfter index openers kind.squareSide).map (all[·]?) =
      (openAfter stillOpen settled kind).map some := by
  by_cases opens : kind = openSquare ∨ kind = attributeStart
  · rcases opens with rfl | rfl <;> simp [squareSide, openersAfter, openAfter, at_index, opened]
  by_cases closes : kind = closeSquare
  · subst closes
    simp [squareSide, openersAfter, openAfter, map_tail, opened]
  · have side : squareSide kind = .neither := by
      cases kind <;> first | rfl | simp at opens closes
    have same : openAfter stillOpen settled kind = stillOpen := by
      cases kind <;> first | rfl | simp at opens closes
    rw [side, same]
    exact opened

theorem exists_head?_of_opened {opener : Nat} (opened : openers.map (all[·]?) = stillOpen.map some)
    (first : openers.head? = some opener) :
    ∃ settled, stillOpen.head? = some settled ∧ all[opener]? = some settled := by
  have heads := congrArg List.head? opened
  rw [head?_map, head?_map, first, Option.map_some, eq_comm, Option.map_eq_some_iff] at heads
  rcases heads with ⟨settled, head, same⟩
  exact ⟨settled, head, same.symm⟩

/-- The readings of a closer follow the readings of the openers still open. -/
theorem settled_closer {before : Option Kind} {kinds : List Kind} {span : Span}
    (suffix : all.drop index = settleBrackets before stillOpen kinds)
    (opened : openers.map (all[·]?) = stillOpen.map some)
    (found : span ∈ pairsFrom index openers (kinds.map squareSide)) :
    all[span.closer]? = all[span.opener]?.map settleCloser := by
  induction kinds generalizing index before stillOpen openers with
  | nil => simp [pairsFrom] at found
  | cons kind following ih =>
    rw [settleBrackets_cons] at suffix
    rcases getElem?_of_drop suffix with ⟨at_index, later⟩
    rcases mem_pairsFrom_cons.mp found with ⟨closes, first, rfl⟩ | found
    · obtain rfl : kind = closeSquare := by
        cases kind <;> first | rfl | simp [squareSide] at closes
      rcases exists_head?_of_opened opened first with ⟨settled, head, at_opener⟩
      rw [at_index, at_opener]
      simp [settleBracket, head]
    · exact ih later (map_openersAfter opened at_index kind) found

/-- Only the closer of a pair is read as the end of a short array or of an attribute. -/
theorem exists_pair_of_settled {place : Nat} {before : Option Kind} {kinds : List Kind}
    {kind : Kind} (suffix : all.drop index = settleBrackets before stillOpen kinds)
    (opened : openers.map (all[·]?) = stillOpen.map some) (lexed : kind ∉ kinds)
    (special : kind = .closeShortArray ∨ kind = .attributeEnd) (bound : index ≤ place)
    (found : all[place]? = some kind) :
    ∃ span ∈ pairsFrom index openers (kinds.map squareSide), span.closer = place := by
  induction kinds generalizing index before stillOpen openers with
  | nil =>
    have outside : all.length ≤ index := List.drop_eq_nil_iff.mp suffix
    have inside := (List.getElem?_eq_some_iff.mp found).1
    omega
  | cons word following ih =>
    rw [settleBrackets_cons] at suffix
    rcases getElem?_of_drop suffix with ⟨at_index, later⟩
    rw [mem_cons, not_or] at lexed
    rcases Nat.eq_or_lt_of_le bound with rfl | later_bound
    · have reading := bracketReading_settleBracket before stillOpen word
      have settled : settleBracket before stillOpen word = kind :=
        Option.some.inj (at_index.symm.trans found)
      obtain rfl : word = closeSquare := by
        rw [settled] at reading
        rcases special with rfl | rfl <;> cases reading <;> first | rfl | simp at lexed
      cases openers with
      | nil =>
        obtain rfl : stillOpen = [] := by simpa using opened.symm
        obtain rfl : closeSquare = kind := settled
        simp at special
      | cons opener outer =>
        exact ⟨⟨opener, index⟩, mem_pairsFrom_cons.mpr (.inl ⟨rfl, rfl, rfl⟩), rfl⟩
    · rcases ih later (map_openersAfter opened at_index word) lexed.2 later_bound with
        ⟨span, mem, closes⟩
      exact ⟨span, mem_pairsFrom_cons.mpr (.inr mem), closes⟩

end Kind

section Padding

variable {α : Type} {idle : α → Prop}

/-- A sequence of entries is another one with idle entries among it. -/
inductive Padded (idle : α → Prop) : List (α × Nat) → List (α × Nat) → Prop where
  | nil : Padded idle [] []
  | idle {item : α} {index : Nat} {core whole : List (α × Nat)} (unused : idle item)
      (padded : Padded idle core whole) : Padded idle core ((item, index) :: whole)
  | entry {entry : α × Nat} {core whole : List (α × Nat)} (padded : Padded idle core whole) :
      Padded idle (entry :: core) (entry :: whole)

/-- A sequence stands in another one at the given places, and what is at no place is idle. -/
structure Spread (idle : α → Prop) (core whole : List α) (place : Nat → Nat) : Prop where
  mono : StrictMono place
  at_place : ∀ index, whole[place index]? = core[index]?
  idle : ∀ index item, whole[index]? = some item → (∃ origin, index = place origin) ∨ idle item

variable {core whole : List α} {place : Nat → Nat}

section

variable (spread : Spread idle core whole place)

include spread

theorem Spread.imp {unused : α → Prop}
    (implies : ∀ item, idle item → unused item) : Spread unused core whole place where
  mono := spread.mono
  at_place := spread.at_place
  idle index item found := (spread.idle index item found).imp_right (implies item)

/-- What is left of a spread sequence is what is left of its core, with idle elements between. -/
theorem Spread.padded_drop {rest : List α} :
    ∀ {index origin : Nat}, whole.drop index = rest → index ≤ place origin →
      (∀ between, index ≤ between → between < place origin → ∀ other, between ≠ place other) →
      Padded idle (((core.drop origin).zipIdx origin).map fun entry => (entry.1, place entry.2))
        (rest.zipIdx index) := by
  induction rest with
  | nil =>
    intro index origin suffix lower _
    have outside : core[origin]? = none := by
      rw [← spread.at_place, getElem?_eq_none]
      have ended := List.drop_eq_nil_iff.mp suffix
      omega
    rw [drop_eq_nil_of_le (List.getElem?_eq_none_iff.mp outside)]
    exact .nil
  | cons item rest ih =>
    intro index origin suffix lower gap
    have found : whole[index]? = some item := by
      rw [← head?_drop, suffix]
      rfl
    have suffix_next : whole.drop (index + 1) = rest := by
      rw [← tail_drop, suffix]
      rfl
    rw [zipIdx_cons]
    rcases lower.lt_or_eq with before | rfl
    · have unused : idle item := by
        rcases spread.idle index item found with ⟨other, same⟩ | unused
        · exact absurd same (gap index le_rfl before other)
        · exact unused
      apply Padded.idle unused
      apply ih suffix_next before
      intro between lower_between upper_between
      exact gap between (by omega) upper_between
    · rw [spread.at_place] at found
      rw [drop_eq_getElem?_toList_append, found]
      apply Padded.entry
      apply ih suffix_next (spread.mono (Nat.lt_succ_self origin))
      rintro between lower_between upper_between other rfl
      have above := spread.mono.lt_iff_lt.mp (Nat.lt_of_succ_le lower_between)
      have below := spread.mono.lt_iff_lt.mp upper_between
      omega

theorem Spread.padded :
    Padded idle (core.zipIdx.map fun entry => (entry.1, place entry.2)) whole.zipIdx := by
  apply spread.padded_drop rfl (Nat.zero_le (place 0))
  rintro between - upper other rfl
  exact absurd (spread.mono.lt_iff_lt.mp upper) (Nat.not_lt_zero other)

/-- Where nothing is idle, both sequences run in step. -/
theorem Spread.extract_eq {start first last : Nat}
    (ordered : first ≤ last) (inside : place last ≤ whole.length) (lower : start ≤ place first)
    (gap : ∀ between, start ≤ between → between < place first → ∀ other, between ≠ place other)
    (busy : ∀ index item, start ≤ index → index < place last → whole[index]? = some item →
      ¬idle item) : whole.extract start (place last) = core.extract first last := by
  have image (index : Nat) (index_lower : start ≤ index) (index_upper : index < place last) :
      ∃ origin, index = place origin := by
    rcases spread.idle index whole[index] (getElem?_eq_getElem (by omega)) with there | unused
    · exact there
    · exact absurd unused (busy index _ index_lower index_upper (getElem?_eq_getElem _))
  have in_step (offset : Nat) (bound : first + offset ≤ last) :
      place (first + offset) = start + offset := by
    induction offset with
    | zero =>
      by_contra apart
      have before : start < place first := lower.lt_of_ne (Ne.symm apart)
      rcases image start le_rfl (before.trans_le (spread.mono.monotone ordered)) with
        ⟨origin, same⟩
      exact gap start le_rfl before origin same
    | succ offset ih =>
      have previous := ih (by omega)
      have next : place (first + offset) < place (first + (offset + 1)) :=
        spread.mono (by omega)
      have upper : place (first + (offset + 1)) ≤ place last := spread.mono.monotone bound
      by_contra apart
      rcases image (start + (offset + 1)) (by omega) (by omega) with ⟨origin, same⟩
      have above : first + offset < origin := spread.mono.lt_iff_lt.mp (by omega)
      have below : origin < first + (offset + 1) := spread.mono.lt_iff_lt.mp (by omega)
      omega
  have end_eq := in_step (last - first) (by omega)
  rw [show first + (last - first) = last by omega] at end_eq
  apply ext_getElem?
  intro offset
  rw [extract_eq_take_drop, extract_eq_take_drop, getElem?_take,
    getElem?_take, getElem?_drop, getElem?_drop]
  by_cases bound : offset < last - first
  · rw [if_pos (by omega), if_pos bound, ← in_step offset (by omega), spread.at_place]
  · rw [if_neg (by omega), if_neg bound]

end

end Padding

section Moves

variable {place : Nat → Nat}

/-- A pair with both ends moved. -/
def Span.move (place : Nat → Nat) (span : Span) : Span :=
  ⟨place span.opener, place span.closer⟩

theorem Span.contains_move (mono : StrictMono place) (span : Span) (index : Nat) :
    (span.move place).contains (place index) = span.contains index := by
  simp only [contains, move, mono.lt_iff_lt]

/-- The pairs of entries that carry their own places. -/
def pairsAt (stillOpen : List Nat) : List (Side × Nat) → List Span
  | [] => []
  | (.opens, index) :: rest => pairsAt (index :: stillOpen) rest
  | (.neither, _) :: rest => pairsAt stillOpen rest
  | (.closes, index) :: rest =>
    match stillOpen with
    | [] => pairsAt [] rest
    | opener :: outer => ⟨opener, index⟩ :: pairsAt outer rest

theorem pairsAt_zipIdx (sides : List Side) (index : Nat) (stillOpen : List Nat) :
    pairsAt stillOpen (sides.zipIdx index) = pairsFrom index stillOpen sides := by
  induction sides generalizing index stillOpen with
  | nil => rfl
  | cons side sides ih =>
    rw [zipIdx_cons]
    cases side with
    | opens => exact ih (index + 1) (index :: stillOpen)
    | neither => exact ih (index + 1) stillOpen
    | closes =>
      cases stillOpen with
      | nil => exact ih (index + 1) []
      | cons opener outer => exact congrArg (List.cons _) (ih (index + 1) outer)

/-- Idle elements make no pairs. -/
theorem pairsAt_of_padded {core whole : List (Side × Nat)}
    (padded : Padded (· = .neither) core whole) (stillOpen : List Nat) :
    pairsAt stillOpen whole = pairsAt stillOpen core := by
  induction padded generalizing stillOpen with
  | nil => rfl
  | idle unused padded ih =>
    subst unused
    exact ih stillOpen
  | @entry entry core whole padded ih =>
    rcases entry with ⟨side, index⟩
    cases side with
    | opens => exact ih (index :: stillOpen)
    | neither => exact ih stillOpen
    | closes =>
      cases stillOpen with
      | nil => exact ih []
      | cons opener outer => exact congrArg (List.cons _) (ih outer)

theorem pairsAt_move (place : Nat → Nat) (entries : List (Side × Nat)) (stillOpen : List Nat) :
    pairsAt (stillOpen.map place) (entries.map fun entry => (entry.1, place entry.2)) =
      (pairsAt stillOpen entries).map (Span.move place) := by
  induction entries generalizing stillOpen with
  | nil => rfl
  | cons entry entries ih =>
    rcases entry with ⟨side, index⟩
    cases side with
    | opens => exact ih (index :: stillOpen)
    | neither => exact ih stillOpen
    | closes =>
      cases stillOpen with
      | nil => exact ih []
      | cons opener outer => exact congrArg (List.cons _) (ih outer)

theorem Spread.pairs_eq {core whole : List Side} (spread : Spread (· = .neither) core whole place) :
    pairs whole = (pairs core).map (Span.move place) := by
  calc pairs whole
      _ = pairsAt [] whole.zipIdx := (pairsAt_zipIdx whole 0 []).symm
      _ = pairsAt [] (core.zipIdx.map fun entry => (entry.1, place entry.2)) :=
          pairsAt_of_padded spread.padded []
      _ = (pairsAt [] core.zipIdx).map (Span.move place) := pairsAt_move place core.zipIdx []
      _ = (pairs core).map (Span.move place) := by rw [pairsAt_zipIdx core 0 [], pairs]

theorem pairAt_move (mono : StrictMono place) (spans : List Span) (index : Nat) :
    pairAt (spans.map (Span.move place)) (place index) =
      (pairAt spans index).map (Span.move place) := by
  rw [pairAt, find?_map, pairAt]
  congr 2
  funext span
  simp only [Function.comp_apply, Span.bounds, Span.move, mono.injective.beq_eq]

end Moves

end PhpStyle
