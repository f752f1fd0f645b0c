import PlcTags.Descriptor.Error
import PlcTags.Text.Numeral
import PlcTags.Text.Split

/-!
# Offset sources

Where in its buffer a value lies: not told, at a literal byte, or at a leaf of a structure, written
`name[i][j]…`.
-/

namespace PlcTags

open PlcTags.Text

/-- Where a value lies in its buffer. -/
inductive OffsetSource
  | unspecified
  | literal (offset : Nat)
  | leaf (structName : String) (path : List Nat)
  deriving DecidableEq, Repr

namespace OffsetSource

/-- The indices of groups `[n]` up to the end of a text. -/
def indices (text : List Char) : Except OffsetFault (List Nat) :=
  match text with
  | [] => .ok []
  | '[' :: opened =>
    match _ : cut? ']' opened with
    | none => .error .notBracketed
    | some (digits, rest) =>
      match unsigned? wordLimit digits with
      | none => .error .notInteger
      | some index => (indices rest).map (index :: ·)
  | _ => .error .notBracketed
termination_by text.length
decreasing_by
  obtain ⟨hcut, -⟩ := cut?_eq_some_iff.1 (by assumption)
  simp only [hcut, List.length_cons, List.length_append]
  omega

/-- A source that begins like a number. -/
def startsNumeral (text : List Char) : Bool :=
  match text with
  | c :: _ => isDigit c || c == '-' || c == '+'
  | [] => false

/-- The parts of a source that is not a literal: the name before the first bracket, and the
indices. -/
def parseLeaf (text : List Char) : Except OffsetFault OffsetSource :=
  match cut? '[' text with
  | none => .error .noIndex
  | some (name, rest) =>
    if name.isEmpty || name.contains ']' then .error .noName
    else (indices ('[' :: rest)).map (.leaf (String.ofList name))

/-- The source that a text gives, or what is wrong with it. -/
def parseChars (text : List Char) : Except OffsetFault OffsetSource :=
  if text = "none".toList then .ok .unspecified
  else if startsNumeral text then
    match unsigned? halfWordLimit text with
    | some offset => .ok (.literal offset)
    | none => .error .notLiteral
  else parseLeaf text

/-- The source that a text gives. -/
def parse (raw : String) : Except DescriptorError OffsetSource :=
  match parseChars raw.toList with
  | .ok source => .ok source
  | .error fault => .error (.invalidOffset raw fault)

end OffsetSource

end PlcTags
