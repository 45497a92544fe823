/-
  Upper and lower case of whole texts, by the full letter tables: one letter may become
  several, and a capital sigma becomes the final small one at the end of a word.
-/
import GaussianIntegrals.Text.CaseMap

namespace GaussianIntegrals.Text

/-- The partner of a letter in a table of runs. -/
def partner? (table : List (Nat × Nat × Nat × Int)) (c : Char) : Option Char :=
  (table.find? fun t => (CaseRun.ofTuple t).holds c.toNat).map fun t =>
    Char.ofNat ((c.toNat : Int) + (CaseRun.ofTuple t).offset).toNat

/-- One letter in the other case: a sequence if it has one, else its partner, else itself. -/
def convert (sequences : List (Nat × List Nat)) (table : List (Nat × Nat × Nat × Int))
    (c : Char) : List Char :=
  match sequences.lookup c.toNat with
  | some codes => codes.map Char.ofNat
  | none => [(partner? table c).getD c]

/-- The upper case of one character. -/
def upperChar (c : Char) : List Char :=
  if c.toNat < 128 then [c.toUpper] else convert upperSequences upperTable c

/-- The lower case of one character, whatever stands around it. -/
def lowerChar (c : Char) : List Char :=
  if c.toNat < 128 then [c.toLower] else convert lowerSequences lowerTable c

/-- `n` lies in one of the ranges. -/
def inRanges (ranges : List (Nat × Nat)) (n : Nat) : Bool :=
  ranges.any fun r => r.1 ≤ n && n ≤ r.2

/-- Looking outward over transparent marks, the first character has a case. -/
def meetsCased (cs : List Char) : Bool :=
  match cs.dropWhile fun c => inRanges transparentRanges c.toNat with
  | [] => false
  | c :: _ => inRanges casedRanges c.toNat

/-- Lower case of a text whose characters `before` it, nearest first, are given. -/
def lowerAfter (before : List Char) : List Char → List Char
  | [] => []
  | c :: rest =>
    let here :=
      if c = 'Σ' then (if meetsCased before && !meetsCased rest then ['ς'] else ['σ'])
      else lowerChar c
    here ++ lowerAfter (c :: before) rest

/-- The text in lower case. -/
def lower (cs : List Char) : List Char := lowerAfter [] cs

/-- The text in upper case. -/
def upper (cs : List Char) : List Char := cs.flatMap upperChar

/-- `lower` on strings. -/
def lowered (s : String) : String := String.ofList (lower s.toList)

/-- `upper` on strings. -/
def uppered (s : String) : String := String.ofList (upper s.toList)

end GaussianIntegrals.Text
