/-
  Rectangular arrays of machine floats of any dimension. Two arrays combine entry by entry
  after lengths of one, and missing leading dimensions, have been stretched.
-/
import GaussianIntegrals.Expr.Value
import GaussianIntegrals.Number.Binary

namespace GaussianIntegrals.Number

/-- An array: its lengths, outermost first, and its entries, the last index running fastest.
A single number has no lengths. -/
structure FloatGrid where
  shape : List Nat
  entries : Array Float
  deriving Repr

namespace FloatGrid

/-- A single number. -/
def single (x : Float) : FloatGrid := ⟨[], #[x]⟩

/-- The number of entries that lengths make room for. -/
def sizeOf (shape : List Nat) : Nat := shape.foldl (· * ·) 1

/-- The rows and columns of the matrices that an array is made of; one with fewer dimensions has
none. -/
def matrixSides (a : FloatGrid) : Nat × Nat :=
  match a.shape.drop (a.shape.length - 2) with
  | [rows, cols] => (rows, cols)
  | _ => (0, 0)

/-- Lengths with leading ones up to a dimension. -/
def padShape (dimension : Nat) (shape : List Nat) : List Nat :=
  List.replicate (dimension - shape.length) 1 ++ shape

/-- The common lengths of two arrays of one dimension, if equal but for ones. -/
def commonShape? : List Nat → List Nat → Option (List Nat)
  | [], [] => some []
  | a :: as, b :: bs =>
    if a = b ∨ b = 1 then (commonShape? as bs).map (a :: ·)
    else if a = 1 then (commonShape? as bs).map (b :: ·)
    else none
  | _, _ => none

/-- The position in an array of lengths `shape` of the entry that stands at position `i` of
its stretched form. Lengths are given innermost first. -/
def stretchedIndex : (full shape : List Nat) → Nat → Nat
  | n :: full, m :: shape, i =>
    (if m = 1 then 0 else i % n) + m * stretchedIndex full shape (i / n)
  | _, _, _ => 0

/-- Entry by entry combination of two arrays. -/
def combine (f : Float → Float → Float) (a b : FloatGrid) : Except EvalError FloatGrid :=
  match a.shape, b.shape with
  | [], [] => .ok (single (f (a.entries.getD 0 0) (b.entries.getD 0 0)))
  | _, _ =>
    let dimension := max a.shape.length b.shape.length
    let sa := padShape dimension a.shape
    let sb := padShape dimension b.shape
    match commonShape? sa sb with
    | none => .error (.shapes a.shape b.shape)
    | some shape =>
      let entry := fun i =>
        f (a.entries.getD (stretchedIndex shape.reverse sa.reverse i) 0)
          (b.entries.getD (stretchedIndex shape.reverse sb.reverse i) 0)
      .ok ⟨shape, (Array.range (sizeOf shape)).map entry⟩

/-- Every entry to an integer power. -/
def power (a : FloatGrid) (k : Int) : FloatGrid :=
  ⟨a.shape, a.entries.map fun x => Float.pow x (Float.ofInt k)⟩

/-- The arithmetic of arrays. -/
def arithmetic : Arithmetic FloatGrid where
  zero := single 0
  one := single 1
  ofRat v :=
    match floatOfRat? v with
    | some x => .ok (single x)
    | none => .error .tooLarge
  add := combine (· + ·)
  mul := combine (· * ·)
  power a k := .ok (a.power k)

end FloatGrid

/-- The value of an expression in machine arithmetic. -/
def floatValue (values : String → Option FloatGrid) (e : Expr) : Except EvalError FloatGrid :=
  e.eval FloatGrid.arithmetic values

end GaussianIntegrals.Number
