import PhpStyle.Proofs.FunctionPresence

/-!
# The search for the comment on a declaration

The search goes back from a declaration. It takes the last token that is not skipped; if that
token ends an attribute, it goes on before the bracket that opens the attribute. Here the turns
of this loop are a relation, which says nothing about how many of them there are.

The loop ends because the brackets of an attribute are a pair: the opener comes before the
closer, so each turn starts further in front. The same pairs are what the search passes over
beside the skipped tokens. In a stream that was not lexed, the end of an attribute may stand
alone, and there the search gives up.
-/

namespace PhpStyle.Stream

/-- The turns of the search before a bound, with the answer that they end with. -/
inductive Searches (stream : Stream) (skipped : Kind → Bool) : Nat → Option Nat → Prop where
  /-- Every token before the bound is skipped. -/
  | exhausted {bound : Nat} (nothing : stream.findBefore (!skipped ·) bound = none) :
      Searches stream skipped bound none
  /-- The last token that is not skipped is the answer. -/
  | ends {bound last : Nat} (before : stream.findBefore (!skipped ·) bound = some last)
      (other : stream.kind? last ≠ some .attributeEnd) :
      Searches stream skipped bound (some last)
  /-- An end of an attribute that nothing opens. -/
  | unopened {bound last : Nat} {token : Token}
      (before : stream.findBefore (!skipped ·) bound = some last)
      (at_last : stream.get? last = some token) (closes : token.kind = .attributeEnd)
      (alone : token.brackets = none) : Searches stream skipped bound none
  /-- The search goes on before an attribute. -/
  | goesOn {bound last : Nat} {token : Token} {span : Span} {answer : Option Nat}
      (before : stream.findBefore (!skipped ·) bound = some last)
      (at_last : stream.get? last = some token) (closes : token.kind = .attributeEnd)
      (opened : token.brackets = some span)
      (further : Searches stream skipped span.opener answer) :
      Searches stream skipped bound answer

section Turns

variable {lexemes : List Lexeme} {skipped : Kind → Bool} {bound last : Nat} {token : Token}

/-- A turn that goes on starts further in front. -/
theorem opener_lt_of_turn {span : Span} (upper : last < bound)
    (at_last : (ofLexemes lexemes).get? last = some token) (closes : token.kind = .attributeEnd)
    (opened : token.brackets = some span) : span.opener < bound := by
  rcases isAttribute_of_attributeEnd at_last closes opened with ⟨rfl, group⟩
  exact (pair_of_mem group.paired).1.trans upper

theorem lastUnskipped?_of_attributeEnd
    (before : (ofLexemes lexemes).findBefore (!skipped ·) bound = some last)
    (at_last : (ofLexemes lexemes).get? last = some token) (closes : token.kind = .attributeEnd) :
    (ofLexemes lexemes).lastUnskipped? skipped bound =
      token.brackets.bind fun span => (ofLexemes lexemes).lastUnskipped? skipped span.opener := by
  have kind : (ofLexemes lexemes).kind? last = some .attributeEnd := by
    rw [kind?, at_last, Option.map_some, closes]
  rw [lastUnskipped?_eq, before, Option.bind_some, if_pos kind, ← brackets_of_get? at_last]
  apply Option.bind_congr
  intro span opened
  exact if_pos (opener_lt_of_turn (findBefore_eq_some_iff.mp before).1 at_last closes opened)

theorem lastUnskipped?_of_other
    (before : (ofLexemes lexemes).findBefore (!skipped ·) bound = some last)
    (other : (ofLexemes lexemes).kind? last ≠ some .attributeEnd) :
    (ofLexemes lexemes).lastUnskipped? skipped bound = some last := by
  rw [lastUnskipped?_eq, before, Option.bind_some, if_neg other]

/-- A search that ends has the answer that is computed. -/
theorem Searches.eq {answer : Option Nat}
    (search : Searches (ofLexemes lexemes) skipped bound answer) :
    (ofLexemes lexemes).lastUnskipped? skipped bound = answer := by
  induction search with
  | exhausted nothing =>
    rw [lastUnskipped?_eq, nothing]
    rfl
  | ends before other => exact lastUnskipped?_of_other before other
  | unopened before at_last closes alone =>
    rw [lastUnskipped?_of_attributeEnd before at_last closes, alone]
    rfl
  | goesOn before at_last closes opened _ ih =>
    rw [lastUnskipped?_of_attributeEnd before at_last closes, opened]
    exact ih

end Turns

end PhpStyle.Stream
