import PlcTags.Json.Basic
import PlcTags.Text.Hex
import PlcTags.Text.Split

/-!
# Reading JSON

A strict reader: no comments, no trailing commas, no control characters in texts, no marks before
the first value, and only the four JSON blanks between tokens. Each step reads one thing from the
front of the text and gives what remains.
-/

namespace PlcTags.Json

/-- The characters allowed between tokens. -/
def isSpace (c : Char) : Bool :=
  c == ' ' || c == '\t' || c == '\n' || c == '\r'

/-- The text from its first token on. -/
def skipSpace (text : List Char) : List Char :=
  text.dropWhile isSpace

/-- The digits at the front of a text. -/
def takeDigits (text : List Char) : List Char × List Char :=
  text.span Text.isDigit

/-- The fraction after a point, which needs a digit; no point, no fraction. -/
def readFraction? (text : List Char) : Option (List Char × List Char) :=
  match text with
  | '.' :: rest =>
    let (digits, after) := takeDigits rest
    if digits.isEmpty then none else some (digits, after)
  | _ => some ([], text)

/-- The exponent after its mark, which needs a digit; no mark, no exponent. -/
def readExponent? (text : List Char) : Option (Option (Bool × List Char) × List Char) :=
  match text with
  | [] => some (none, [])
  | mark :: rest =>
    if mark = 'e' ∨ mark = 'E' then
      let (below, unsigned) := match rest with
        | '-' :: after => (true, after)
        | '+' :: after => (false, after)
        | _ => (false, rest)
      let (digits, after) := takeDigits unsigned
      if digits.isEmpty then none else some (some (below, digits), after)
    else some (none, text)

/-- A number: no leading zero before another digit. -/
def readNumber? (text : List Char) : Option (Number × List Char) := do
  let (negative, unsigned) := match text with
    | '-' :: rest => (true, rest)
    | _ => (false, text)
  let (whole, afterWhole) := takeDigits unsigned
  if whole.isEmpty || (whole.head? == some '0' && 1 < whole.length) then none
  else
    let (fraction, afterFraction) ← readFraction? afterWhole
    let (exponent, rest) ← readExponent? afterFraction
    pure (⟨negative, whole, fraction, exponent⟩, rest)

/-- One piece of a text: a character, or a code unit written by its number. -/
inductive Piece
  | char (c : Char)
  | unit (n : Nat)
  deriving DecidableEq, Repr

/-- The character of a short escape. -/
def shortEscape? (c : Char) : Option Char :=
  if c = '"' ∨ c = '\\' ∨ c = '/' then some c
  else if c = 'b' then some '\x08'
  else if c = 'f' then some '\x0c'
  else if c = 'n' then some '\n'
  else if c = 'r' then some '\r'
  else if c = 't' then some '\t'
  else none

/-- The pieces of a text up to its closing quote. -/
def readPieces? : List Char → Option (List Piece × List Char)
  | [] => none
  | '"' :: rest => some ([], rest)
  | '\\' :: 'u' :: a :: b :: c :: d :: rest => do
    let n ← Text.Hex.number? [a, b, c, d]
    let (pieces, after) ← readPieces? rest
    pure (.unit n :: pieces, after)
  | '\\' :: c :: rest => do
    let char ← shortEscape? c
    let (pieces, after) ← readPieces? rest
    pure (.char char :: pieces, after)
  | c :: rest =>
    if c.toNat < 0x20 ∨ c = '\\' then none
    else (readPieces? rest).map fun r => (.char c :: r.1, r.2)

/-- The characters of pieces: two surrogates in a row make one character, a surrogate alone makes
none. -/
def charsOfPieces? : List Piece → Option (List Char)
  | [] => some []
  | .char c :: rest => (charsOfPieces? rest).map (c :: ·)
  | [.unit n] => if 0xD800 ≤ n ∧ n ≤ 0xDFFF then none else some [Char.ofNat n]
  | .unit n :: .unit m :: rest =>
    if 0xD800 ≤ n ∧ n ≤ 0xDBFF then
      if 0xDC00 ≤ m ∧ m ≤ 0xDFFF then
        (charsOfPieces? rest).map
          (Char.ofNat (0x10000 + 0x400 * (n - 0xD800) + (m - 0xDC00)) :: ·)
      else none
    else if 0xDC00 ≤ n ∧ n ≤ 0xDFFF then none
    else (charsOfPieces? (.unit m :: rest)).map (Char.ofNat n :: ·)
  | .unit n :: .char c :: rest =>
    if 0xD800 ≤ n ∧ n ≤ 0xDFFF then none
    else (charsOfPieces? (.char c :: rest)).map (Char.ofNat n :: ·)

/-- The string of pieces, if it has characters. -/
def stringOfPieces? (pieces : List Piece) : Option String :=
  (charsOfPieces? pieces).map String.ofList

mutual

/-- A value at the front of a text. The fuel bounds the steps; twice the length of the text and two
more always suffice. -/
def readValue? : Nat → List Char → Option (Json × List Char)
  | 0, _ => none
  | fuel + 1, text =>
    match skipSpace text with
    | 'n' :: 'u' :: 'l' :: 'l' :: rest => some (.null, rest)
    | 't' :: 'r' :: 'u' :: 'e' :: rest => some (.bool true, rest)
    | 'f' :: 'a' :: 'l' :: 's' :: 'e' :: rest => some (.bool false, rest)
    | '"' :: rest => do
      let (pieces, after) ← readPieces? rest
      pure (((stringOfPieces? pieces).map Json.string).getD .unpaired, after)
    | '[' :: rest =>
      match skipSpace rest with
      | ']' :: after => some (.array [], after)
      | inner => (readItems? fuel inner).map fun r => (.array r.1, r.2)
    | '{' :: rest =>
      match skipSpace rest with
      | '}' :: after => some (.object [], after)
      | inner => (readFields? fuel inner).map fun r => (.object r.1, r.2)
    | start => (readNumber? start).map fun r => (.number r.1, r.2)

/-- The items of an array up to its closing bracket, at least one. -/
def readItems? : Nat → List Char → Option (List Json × List Char)
  | 0, _ => none
  | fuel + 1, text => do
    let (item, rest) ← readValue? fuel text
    match skipSpace rest with
    | ',' :: more => (readItems? fuel more).map fun r => (item :: r.1, r.2)
    | ']' :: after => some ([item], after)
    | _ => none

/-- The fields of an object up to its closing brace, at least one. -/
def readFields? : Nat → List Char → Option (List (Option String × Json) × List Char)
  | 0, _ => none
  | fuel + 1, text =>
    match skipSpace text with
    | '"' :: opened => do
      let (pieces, afterKey) ← readPieces? opened
      match skipSpace afterKey with
      | ':' :: start => do
        let (value, rest) ← readValue? fuel start
        let field := (stringOfPieces? pieces, value)
        match skipSpace rest with
        | ',' :: more => (readFields? fuel more).map fun r => (field :: r.1, r.2)
        | '}' :: after => some ([field], after)
        | _ => none
      | _ => none
    | _ => none

end

/-- The value that a whole text writes. -/
def parse? (text : String) : Option Json :=
  let chars := text.toList
  match readValue? (2 * chars.length + 2) chars with
  | some (value, rest) => if (skipSpace rest).isEmpty then some value else none
  | none => none

end PlcTags.Json
