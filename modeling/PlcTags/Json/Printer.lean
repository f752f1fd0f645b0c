import PlcTags.Json.Basic
import PlcTags.Text.Hex

/-!
# Writing JSON

The compact form: no blanks, fields in their order, and in texts only what must be escaped.
-/

namespace PlcTags.Json

/-- A character inside a text: quotes, backslashes and controls are escaped. -/
def escape (c : Char) : List Char :=
  if c = '"' then ['\\', '"']
  else if c = '\\' then ['\\', '\\']
  else if c = '\x08' then ['\\', 'b']
  else if c = '\x0c' then ['\\', 'f']
  else if c = '\n' then ['\\', 'n']
  else if c = '\r' then ['\\', 'r']
  else if c = '\t' then ['\\', 't']
  else if c.toNat < 0x20 then '\\' :: 'u' :: Text.Hex.padded 4 c.toNat
  else [c]

/-- A text in quotes. -/
def quote (text : String) : List Char :=
  '"' :: (text.toList.flatMap escape ++ ['"'])

/-- A text that has no characters is written as its replacement. -/
def quoteReplacement : List Char :=
  quote "\uFFFD"

mutual

/-- The compact form of a value. -/
def chars : Json → List Char
  | .null => ['n', 'u', 'l', 'l']
  | .bool true => ['t', 'r', 'u', 'e']
  | .bool false => ['f', 'a', 'l', 's', 'e']
  | .number n => n.text
  | .string value => quote value
  | .unpaired => quoteReplacement
  | .array items => '[' :: itemChars items
  | .object fields => '\x7b' :: fieldChars fields

/-- The items of an array and its closing bracket. -/
def itemChars : List Json → List Char
  | [] => [']']
  | [item] => chars item ++ [']']
  | item :: rest => chars item ++ ',' :: itemChars rest

/-- The fields of an object and its closing brace. -/
def fieldChars : List (Option String × Json) → List Char
  | [] => ['\x7d']
  | [(key, value)] => (key.map quote).getD quoteReplacement ++ ':' :: (chars value ++ ['\x7d'])
  | (key, value) :: rest =>
    (key.map quote).getD quoteReplacement ++ ':' :: (chars value ++ ',' :: fieldChars rest)

end

/-- The compact text of a value. -/
def compact (value : Json) : String :=
  String.ofList (chars value)

end PlcTags.Json
