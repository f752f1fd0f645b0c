/-!
# Blank characters

The characters with the Unicode property `White_Space`, and texts without blank ends. Texts are
lists of characters here: every reader of this library works on them, and strings are made only
where a name is stored or printed.

* `dropWhile_eq_of_head`: dropping a class from the front changes nothing if the first character is
  not in the class.
* `trim_eq_self`: a text whose ends are not blank is its own trimming.
-/

namespace PlcTags.Text

/-- The code points with the property `White_Space`: the five controls from tab to carriage return,
the space, next line, and the spaces and separators above Latin-1. -/
def isBlank (c : Char) : Bool :=
  let n := c.toNat
  (9 ≤ n && n ≤ 13) || n == 0x20 || n == 0x85 || n == 0xA0 || n == 0x1680 ||
    (0x2000 ≤ n && n ≤ 0x200A) || n == 0x2028 || n == 0x2029 || n == 0x202F || n == 0x205F ||
    n == 0x3000

/-- The text without the characters of a class at its end. -/
def dropEnd (p : Char → Bool) (text : List Char) : List Char :=
  (text.reverse.dropWhile p).reverse

/-- The text without the characters of a class at its two ends. -/
def dropEnds (p : Char → Bool) (text : List Char) : List Char :=
  dropEnd p (text.dropWhile p)

/-- The text without blanks at its two ends. -/
def trim (text : List Char) : List Char :=
  dropEnds isBlank text

theorem dropWhile_eq_of_head {p : Char → Bool} {text : List Char}
    (h : ∀ c ∈ text.head?, p c = false) : text.dropWhile p = text := by
  cases text with
  | nil => rfl
  | cons c rest => simp [List.dropWhile, h c (by simp)]

theorem dropEnd_eq_of_last {p : Char → Bool} {text : List Char}
    (h : ∀ c ∈ text.getLast?, p c = false) : dropEnd p text = text := by
  unfold dropEnd
  rw [dropWhile_eq_of_head (by simpa using h), List.reverse_reverse]

/-- A text whose two end characters are not blank is its own trimming. -/
theorem trim_eq_self {text : List Char} (hhead : ∀ c ∈ text.head?, isBlank c = false)
    (hlast : ∀ c ∈ text.getLast?, isBlank c = false) : trim text = text := by
  unfold trim dropEnds
  rw [dropWhile_eq_of_head hhead, dropEnd_eq_of_last hlast]

end PlcTags.Text
