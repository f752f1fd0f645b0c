import PlcTags.Layout.Primitive

/-!
# Layout tokens

An expanded structure as a flat list: its primitives in order, with marks where arrays and embedded
structures begin and end.
-/

namespace PlcTags.Layout

/-- What a mark bounds. -/
inductive Boundary
  | array
  | struct (name : String)
  deriving DecidableEq, Repr

/-- Is it the boundary of an array? -/
def Boundary.isArray : Boundary → Bool
  | .array => true
  | .struct _ => false

/-- One item of an expanded structure. -/
inductive Token
  | primitive (kind : Primitive)
  | enter (boundary : Boundary)
  | leave (boundary : Boundary)
  deriving DecidableEq, Repr

namespace Token

/-- Is it a primitive? -/
def isPrimitive : Token → Bool
  | .primitive _ => true
  | _ => false

/-- The text of a token. -/
def text : Token → String
  | .primitive kind => kind.keyword
  | .enter .array => "array_start"
  | .leave .array => "array_end"
  | .enter (.struct name) => name ++ "_start"
  | .leave (.struct name) => name ++ "_end"

end Token

/-- How many primitives there are. -/
def primitiveCount (tokens : List Token) : Nat :=
  tokens.countP Token.isPrimitive

/-- The tokens in one line. -/
def layoutText (tokens : List Token) : String :=
  String.intercalate " " (tokens.map Token.text)

end PlcTags.Layout
