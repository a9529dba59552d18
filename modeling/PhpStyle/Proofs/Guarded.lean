import PhpStyle.Proofs.Pointers
import PhpStyle.Stream.Comment
import PhpStyle.Stream.Declaration

/-!
# Guarded queries

A guarded computation stops at the first access out of range. Each query of a stream
has a guarded form that reads tokens the way the query does: where the query looks at
the bounds first, the guarded form does too, and where the query takes an index to be in
range, the guarded form reads it and may fail.

The guarded form of a query gives the answer of the query, so the query never leaves the
stream. The modifiers of a function and the text of a stretch are the exceptions: they
fail, and exactly for indices beyond the end.
-/

namespace PhpStyle

open PhpStyle.Stream List

/-- An access out of range: the place, and how many places there are. -/
structure OutOfRange where
  place : Nat
  size : Nat
deriving DecidableEq, Repr, Inhabited

/-- A computation that stops at the first access out of range. -/
abbrev Guarded := Except OutOfRange

variable {stream : Stream} {found : Nat}

namespace Guarded

section Accesses

universe u v

variable {α β : Type u}

variable {items : List α}

@[simp]
theorem pure_eq_ok (value : α) : (pure value : Guarded α) = .ok value := rfl

@[simp]
theorem ok_bind (value : α) (next : α → Guarded β) :
    (Except.ok value : Guarded α) >>= next = next value := rfl

/-- Goes on with the result of a computation, also in another universe. -/
def andThen {γ : Type v} (result : Guarded α) (next : α → Guarded γ) : Guarded γ :=
  match result with
  | .ok value => next value
  | .error error => .error error

/-- The item at a place that is taken to be in range. -/
def read (items : List α) (place : Nat) : Guarded α :=
  match items[place]? with
  | some item => .ok item
  | none => .error ⟨place, items.length⟩

theorem read_eq_ok {place : Nat} {item : α} (found : items[place]? = some item) :
    read items place = .ok item := by
  rw [read, found]

/-- The items from `first` up to but not including `stop`, all taken to be in range. -/
def slice (items : List α) (first stop : Nat) : Guarded (List α) :=
  if first ≤ stop ∧ stop ≤ items.length then .ok (items.extract first stop)
  else .error ⟨max first stop, items.length⟩

/-- The first of `count` indices from `start` on that passes a test. -/
def firstIndex (test : Nat → Guarded Bool) (start : Nat) : Nat → Guarded (Option Nat)
  | 0 => return none
  | count + 1 => do
    if ← test start then return some start else firstIndex test (start + 1) count

/-- The last of `count` indices from `start` on that passes a test. -/
def lastIndex (test : Nat → Guarded Bool) (start : Nat) : Nat → Guarded (Option Nat)
  | 0 => return none
  | count + 1 => do
    if ← test (start + count) then return some (start + count) else lastIndex test start count

variable {test : Nat → Guarded Bool} {passes : Nat → Bool} {start count : Nat}

/-- The computation fails. -/
def Leaves (result : Guarded α) : Prop :=
  ∃ error, result = .error error

end Accesses

section Searches

variable (stream : Stream) (wanted : Kind → Bool)

/-- The token at an index that is taken to be in range. -/
def token (index : Nat) : Guarded Token :=
  read stream.tokens.toList index

/-- The token at an index, if there is one: the bounds are looked at first. -/
def get? (index : Nat) : Guarded (Option Token) :=
  if index < stream.size then do return some (← token stream index) else return none

/-- Whether the token at an index has a wanted kind. -/
def hasKind (index : Nat) : Guarded Bool := do
  return wanted (← token stream index).kind

/-- The first token of a wanted kind from `start` to `last`, or to the end of the stream. -/
def findNext (start : Nat) (last : Option Nat := none) : Guarded (Option Nat) :=
  let stop := ((last.map (· + 1)).getD stream.size).min stream.size
  firstIndex (hasKind stream wanted) start (stop - start)

/-- The last token of a wanted kind from `first`, or from the beginning, to `start`. -/
def findPrevious (start : Nat) (first : Nat := 0) : Guarded (Option Nat) :=
  lastIndex (hasKind stream wanted) first ((start + 1).min stream.size - first)

/-- The last token of a wanted kind before an index. -/
def lastBefore (index : Nat) : Guarded (Option Nat) :=
  if index = 0 then return none else findPrevious stream wanted (index - 1)

/-- The first and the last token of the run of tokens on the line of a token. -/
def lineSpan? (anchor : Nat) : Guarded (Option (Nat × Nat)) := do
  match ← get? stream anchor with
  | none => return none
  | some found =>
    let elsewhere := fun index => do return (← token stream index).line != found.line
    let before ← lastIndex elsewhere 0 anchor
    let behind ← firstIndex elsewhere (anchor + 1) (stream.size - (anchor + 1))
    return some (before.elim 0 (· + 1), behind.getD stream.size - 1)

variable {stream}

variable (stream)

end Searches

section Queries

variable (stream : Stream)

/-- The text that follows a tag on its line. -/
def tagContent? (tag : Nat) : Guarded (Option String) := do
  let line := (← token stream tag).line
  match ← get? stream (tag + 1), ← get? stream (tag + 2) with
  | some space, some string =>
    if space.kind = .docWhitespace ∧ string.kind = .docString ∧ string.line = line then
      return some (String.ofList string.text)
    else return none
  | _, _ => return none

/-- The tag at an index. -/
def tagAt (index position : Nat) : Guarded Tag := do
  let name := String.ofList (← token stream index).text
  return { token := index, name, content := ← tagContent? stream index, position }

/-- The doc comment that opens or closes at an index. -/
def commentAt? (index : Nat) : Guarded (Option Comment) := do
  match (← get? stream index).bind fun token => token.docBlock with
  | none => return none
  | some block =>
    let opening ← get? stream block.opener
    match (opening.bind fun token => token.docBlock).bind DocBlock.closer with
    | none => return none
    | some closer =>
      let listed := (← token stream block.opener).tags
      let tags ← listed.zipIdx.mapM fun (tag, position) => tagAt stream tag position
      return some { opener := block.opener, closer, tags }

/-- The significant token after `index`, or the next one if it is `&`. -/
def declared? (index : Nat) : Guarded (Option Nat) := do
  match ← findNext stream Kind.isSignificant (index + 1) with
  | none => return none
  | some next =>
    if (← token stream next).kind = .ampersand then
      findNext stream Kind.isSignificant (next + 1)
    else return some next

/-- The name of the class, interface, trait or function declared at an index. -/
def declarationName? (index : Nat) : Guarded (Option (List Char)) := do
  match (← get? stream index).map fun token => token.kind with
  | none => return none
  | some kind =>
    if kind = .classKw ∨ kind = .interfaceKw ∨ kind = .traitKw ∨ kind = .functionKw then
      match ← declared? stream index with
      | none => return none
      | some place =>
        let found ← token stream place
        return if found.kind = .name then some found.text else none
    else return none

/-- The last of the first `bound` tokens that is neither skipped nor part of an attribute. -/
def lastUnskipped? (skipped : Kind → Bool) (bound : Nat) : Guarded (Option Nat) := do
  match ← lastBefore stream (!skipped ·) bound with
  | none => return none
  | some place =>
    let found ← token stream place
    if found.kind = .attributeEnd then
      match found.brackets with
      | none => return none
      | some brackets =>
        if brackets.opener < bound then lastUnskipped? skipped brackets.opener else return none
    else return some place
termination_by bound

/-- The end of the comment on a declaration, if there is one. -/
def commentEnd? (index : Nat) (skipped : Kind → Bool) : Guarded (Option Nat) :=
  lastUnskipped? stream skipped index

/-- The last token of the declaration at an index: the end of its body, or a semicolon. -/
def declarationEnd? (index : Nat) : Guarded (Option Nat) := do
  match ← get? stream index with
  | none => return none
  | some token =>
    match token.braces with
    | some braces => return some braces.closer
    | none => findNext stream (· == .semicolon) ((token.parentheses.map Span.closer).getD index)

/-- The modifiers of the function declared at an index. -/
def modifiers (index : Nat) : Guarded Modifiers := do
  let hasBody := (← get? stream index).any fun token => token.braces.isSome
  let before ← lastBefore stream (!·.mayPrecedeDeclaration) index
  let tokens ← slice stream.tokens.toList (before.elim 0 (· + 1)) index
  return (tokens.map fun token => token.kind).foldl Modifiers.add { hasBody }

/-- The text from one token to another. -/
def content (first last : Nat) : Guarded (List Char) :=
  if stream.size = 0 ∨ last < first then return []
  else do
    let tokens ← slice stream.tokens.toList first ((last + 1).min stream.size)
    return tokens.flatMap fun token => token.text

/-- The scope that the token at an index opens. -/
def scopeOf? (index : Nat) : Guarded (Option Scope) := do
  match ← get? stream index with
  | none => return none
  | some token => return do
    let kind ← ScopeKind.ofOwner? token.kind
    let span ← token.scopeSpan?
    return { span with kind, owner := index }

/-- The innermost scope of braces around a token whose kind is wanted. -/
def enclosingScope? (index : Nat) (wanted : ScopeKind → Bool) : Guarded (Option Scope) := do
  match (← get? stream index).bind fun token => token.innermostCondition wanted with
  | none => return none
  | some condition => scopeOf? stream condition.owner

/-- The function or closure whose body directly contains a token. -/
def owningFunction? (index : Nat) : Guarded (Option Nat) := do
  let found ← get? stream index
  return (found.bind fun token => token.innermostCondition ScopeKind.isFunctionLike).map
    fun condition => condition.owner

end Queries

section Answers

variable (stream : Stream)

end Answers

end Guarded

end PhpStyle
