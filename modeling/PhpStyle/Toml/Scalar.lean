import PhpStyle.Toml.Value

/-!
# TOML numbers, truth values, dates and times

Scalars without quotes are runs of letters, digits and a few signs. A run is read
as a whole, so that what follows it never matters.
-/

namespace PhpStyle.Toml

/-- The value of a digit in a base up to sixteen. -/
def digitValue? (base : Nat) (c : Char) : Option Nat :=
  let value :=
    if '0' ≤ c ∧ c ≤ '9' then c.toNat - '0'.toNat
    else if 'a' ≤ c ∧ c ≤ 'f' then c.toNat - 'a'.toNat + 10
    else if 'A' ≤ c ∧ c ≤ 'F' then c.toNat - 'A'.toNat + 10
    else base
  if value < base then some value else none

namespace Scalar

/-- The number that digits in a base write, after the digits of `value`. Between two digits there
may be an underscore; `needsDigit` says that a digit has to follow. -/
def digitsFrom? (base value : Nat) (needsDigit : Bool) : List Char → Option Nat
  | [] => if needsDigit then none else some value
  | '_' :: rest => if needsDigit then none else digitsFrom? base value true rest
  | c :: rest => do
    let digit ← digitValue? base c
    digitsFrom? base (value * base + digit) false rest

/-- The number that digits in a base write. -/
def digits? (base : Nat) (text : List Char) : Option Nat :=
  digitsFrom? base 0 true text

/-- The number that decimal digits write, without zeros in front. -/
def decimal? : List Char → Option Nat
  | ['0'] => some 0
  | '0' :: _ => none
  | text => digits? 10 text

/-- The largest integer. -/
def largest : Nat := 9223372036854775807

/-- Reads an integer of 64 bits. -/
def integer? : List Char → Option Int
  | '0' :: 'x' :: digits => bounded largest (digits? 16 digits)
  | '0' :: 'o' :: digits => bounded largest (digits? 8 digits)
  | '0' :: 'b' :: digits => bounded largest (digits? 2 digits)
  | '-' :: digits => (bounded (largest + 1) (decimal? digits)).map (- ·)
  | '+' :: digits => bounded largest (decimal? digits)
  | digits => bounded largest (decimal? digits)
where
  /-- A number that is not above a limit. -/
  bounded (limit : Nat) (number : Option Nat) : Option Int :=
    (number.filter (· ≤ limit)).map Int.ofNat

/-- Drops a sign. -/
def unsigned : List Char → List Char
  | '+' :: rest => rest
  | '-' :: rest => rest
  | text => text

/-- Whether a character starts the exponent of a float. -/
def startsExponent (c : Char) : Bool :=
  c == 'e' || c == 'E'

/-- The number `digits * 10 ^ exponent`. -/
structure Decimal where
  digits : Nat
  exponent : Int
deriving DecidableEq, Repr, Inhabited

/-- Whether the float of 64 bits that is nearest to a number is finite. The first number that is
not lies halfway between the largest float and the next power of two. Numbers with fewer than 309
digits before the point are below it, and numbers with more are above. -/
def Decimal.isFinite (number : Decimal) : Bool :=
  let places := (Nat.toDigits 10 number.digits).length + number.exponent
  let bound := (Nat.pow 2 54 - 1) * Nat.pow 2 970
  number.digits == 0 || places < 309 || (places == 309 &&
    number.digits * Nat.pow 10 number.exponent.toNat
      < bound * Nat.pow 10 (-number.exponent).toNat)

/-- Reads the exponent of a float. -/
def exponent? : List Char → Option Int
  | [] => some 0
  | mark :: rest =>
    if startsExponent mark then
      (digits? 10 (unsigned rest)).map fun (size : Nat) =>
        if rest.head? = some '-' then -(size : Int) else size
    else none

/-- Reads a float without its sign: an exponent, or a point and digits, or both have to follow the
whole part. -/
def fraction? (body : List Char) : Option Decimal := do
  let whole := body.takeWhile fun c => !(c == '.' || startsExponent c)
  let wholeValue ← decimal? whole
  match body.drop whole.length with
  | [] => none
  | '.' :: rest =>
    let places := rest.takeWhile fun c => !startsExponent c
    let placesValue ← digits? 10 places
    let exponent ← exponent? (rest.drop places.length)
    let count := places.countP Char.isDigit
    some ⟨wholeValue * Nat.pow 10 count + placesValue, exponent - count⟩
  | rest => (exponent? rest).map (⟨wholeValue, ·⟩)

/-- Whether a text is a float. A number above all floats is none, one below them all counts as
negative infinity. -/
def isFloat (text : List Char) : Bool :=
  let body := unsigned text
  body == "inf".toList || body == "nan".toList ||
    (fraction? body).any fun number => text.head? == some '-' || number.isFinite

/-- Whether two characters write a number between two limits. -/
def isTwoDigits (least greatest : Nat) (tens ones : Char) : Bool :=
  tens.isDigit && ones.isDigit &&
    match digits? 10 [tens, ones] with
    | some value => least ≤ value && value ≤ greatest
    | none => false

/-- The number of days of a month. -/
def daysInMonth (year month : Nat) : Nat :=
  if month = 2 then if year % 4 = 0 ∧ (year % 100 ≠ 0 ∨ year % 400 = 0) then 29 else 28
  else if month = 4 ∨ month = 6 ∨ month = 9 ∨ month = 11 then 30
  else 31

/-- What follows a date at the start of a text. -/
def afterDate? : List Char → Option (List Char)
  | y₁ :: y₂ :: y₃ :: y₄ :: '-' :: m₁ :: m₂ :: '-' :: d₁ :: d₂ :: rest => do
    if !([y₁, y₂, y₃, y₄].all Char.isDigit && isTwoDigits 1 12 m₁ m₂) then none
    let year ← digits? 10 [y₁, y₂, y₃, y₄]
    let month ← digits? 10 [m₁, m₂]
    if isTwoDigits 1 (daysInMonth year month) d₁ d₂ then some rest else none
  | _ => none

/-- What follows a time of day at the start of a text. -/
def afterTime? : List Char → Option (List Char)
  | h₁ :: h₂ :: ':' :: m₁ :: m₂ :: ':' :: s₁ :: s₂ :: rest =>
    if isTwoDigits 0 23 h₁ h₂ && isTwoDigits 0 59 m₁ m₂ && isTwoDigits 0 60 s₁ s₂ then
      match rest with
      | '.' :: digit :: fraction =>
        if digit.isDigit then some (fraction.dropWhile Char.isDigit) else none
      | ['.'] => none
      | _ => some rest
    else none
  | _ => none

/-- Whether a text is a distance from universal time, or empty. -/
def isOffset : List Char → Bool
  | [] | ['Z'] | ['z'] => true
  | [sign, h₁, h₂, ':', m₁, m₂] =>
    (sign == '+' || sign == '-') && isTwoDigits 0 23 h₁ h₂ && isTwoDigits 0 59 m₁ m₂
  | _ => false

/-- Whether a text is a date. -/
def isDate (text : List Char) : Bool :=
  afterDate? text == some []

/-- Whether a text is a time of day, with or without the distance from universal time. -/
def isTimeOfDate (text : List Char) : Bool :=
  match afterTime? text with
  | some rest => isOffset rest
  | none => false

/-- Whether a text is a date, a time or both. -/
def isMoment (text : List Char) : Bool :=
  match afterDate? text with
  | some [] => true
  | some (mark :: time) => (mark == 'T' || mark == 't') && isTimeOfDate time
  | none => afterTime? text == some []

/-- Whether a character may stand in a scalar without quotes. -/
def isScalarChar (c : Char) : Bool :=
  c.isAlphanum || c == '_' || c == '+' || c == '-' || c == '.' || c == ':'

/-- Reads a run of characters as a scalar. -/
def ofRun? (run : List Char) : Option Value :=
  if run = "true".toList then some (.boolean true)
  else if run = "false".toList then some (.boolean false)
  else if isMoment run then some (.moment (String.ofList run))
  else
    match integer? run with
    | some value => some (.integer value)
    | none => if isFloat run then some (.float (String.ofList run)) else none

/-- Reads a scalar without quotes; the rest follows it. A time may follow its date after a
space. -/
def read? (text : List Char) : Option (Value × List Char) :=
  let run := text.takeWhile isScalarChar
  let rest := text.dropWhile isScalarChar
  match rest with
  | ' ' :: next :: more =>
    if isDate run && next.isDigit then
      let time := (next :: more).takeWhile isScalarChar
      if isTimeOfDate time then
        some (.moment (String.ofList (run ++ ' ' :: time)), (next :: more).dropWhile isScalarChar)
      else none
    else (ofRun? run).map (·, rest)
  | _ => (ofRun? run).map (·, rest)

end Scalar

end PhpStyle.Toml
