/-
  Blank characters and the removal of blanks at the ends of a text.
-/
namespace GaussianIntegrals.Text

/-- The inclusive code point ranges of the blank characters of all scripts. -/
def blankRanges : List (Nat × Nat) :=
  [(9, 13), (28, 32), (0x85, 0x85), (0xA0, 0xA0), (0x1680, 0x1680), (0x2000, 0x200A),
   (0x2028, 0x2029), (0x202F, 0x202F), (0x205F, 0x205F), (0x3000, 0x3000)]

/-- A blank: a space, a tabulator, a line end or another separator of that kind. -/
def isBlank (c : Char) : Bool :=
  blankRanges.any fun r => r.1 ≤ c.toNat && c.toNat ≤ r.2

/-- The text from its first character that is not blank on. -/
def dropBlank (cs : List Char) : List Char := cs.dropWhile isBlank

/-- The text up to its last character that is not blank. -/
def dropBlankEnd (cs : List Char) : List Char := (cs.reverse.dropWhile isBlank).reverse

/-- The text without the blanks at its two ends. -/
def strip (cs : List Char) : List Char := dropBlankEnd (dropBlank cs)

/-- `strip` on strings. -/
def stripped (s : String) : String := String.ofList (strip s.toList)

/-- `dropBlankEnd` on strings. -/
def strippedEnd (s : String) : String := String.ofList (dropBlankEnd s.toList)

theorem isBlank_space : isBlank ' ' = true := by decide

end GaussianIntegrals.Text
