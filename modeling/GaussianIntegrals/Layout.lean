/-
  The layout of generated code: long lines broken by continuation markers and joined again,
  and the chain of branches of an artifact.
-/
import GaussianIntegrals.Dialect
import GaussianIntegrals.Text.Split

namespace GaussianIntegrals

namespace Layout

/-- Breaks a text by inserting `joint` after every `width` characters; `room` characters are
left before the next break. -/
def breakEvery (width : Nat) (joint : List Char) : (room : Nat) → List Char → List Char
  | _, [] => []
  | 0, c :: cs => c :: (joint ++ breakEvery width joint (width - 1) cs)
  | room + 1, c :: cs => c :: breakEvery width joint room cs

/-- Removes every occurrence of a pattern that is not empty, from the left and without
overlap. -/
def removeAll (pattern : List Char) (cs : List Char) : List Char :=
  match cs with
  | [] => []
  | c :: rest =>
    if pattern ≠ [] ∧ pattern.isPrefixOf (c :: rest) then
      removeAll pattern (rest.drop (pattern.length - 1))
    else c :: removeAll pattern rest
termination_by cs.length
decreasing_by all_goals (simp only [List.length_cons, List.length_drop]; omega)

end Layout

namespace Dialect

/-- A line break inside a line: the marker, a new line and the marker again. -/
def joint (d : Dialect) : List Char := d.continuation.toList ++ '\n' :: d.continuation.toList

/-- Wraps a line: after every `width` characters, also at the end, comes a line break. -/
def wrap (d : Dialect) (text : String) : String :=
  String.ofList (Layout.breakEvery d.width d.joint (d.width - 1) text.toList)

/-- Joins wrapped lines. -/
def unwrap (d : Dialect) (text : String) : String :=
  String.ofList (Layout.removeAll d.joint text.toList)

/-- The physical lines of a wrapped line. -/
def wrappedLines (d : Dialect) (text : String) : List String :=
  (Text.splitAt '\n' (d.wrap text).toList).map String.ofList

end Dialect

/-- The content of a branch: its switch code, the raw entries and the re-based lines. -/
structure Branch where
  code : Int
  raw : List String
  rebased : List String
  deriving DecidableEq, Repr

namespace Dialect

/-- What stands in a branch: each raw entry and a blank line, then each re-based line. -/
def bodyText (b : Branch) : String :=
  String.join (b.raw.map (· ++ "\n\n")) ++ String.join (b.rebased.map (· ++ "\n"))

/-- The branches from a position on; a blank line separates them. -/
def branchTexts (d : Dialect) (count : Nat) : (position : Nat) → List Branch →
    Except Template.TemplateError String
  | _, [] => .ok ""
  | position, b :: bs => do
    let header ← d.branch b.code position count
    let after ← branchTexts d count (position + 1) bs
    .ok (header ++ "\n\n" ++ bodyText b ++ (if bs.isEmpty then "" else "\n") ++ after)

/-- The chain of branches with its closing line. -/
def chainText (d : Dialect) (bs : List Branch) : Except Template.TemplateError String := do
  .ok ((← d.branchTexts bs.length 0 bs) ++ d.endBranch)

end Dialect

end GaussianIntegrals
