/-
  Cartesian Gaussian orbitals: the exponents of x, y and z, the twenty orbitals of the
  s, p, d and f shells in their fixed order, and the four shells with their sizes.
-/
import GaussianIntegrals.Text.Integer

namespace GaussianIntegrals

/-- A Cartesian axis. -/
inductive Axis where
  | x
  | y
  | z
  deriving DecidableEq, Repr

namespace Axis

/-- The axes in order. -/
def all : List Axis := [.x, .y, .z]

/-- The number of an axis in symbol names, from 1. -/
def number : Axis → Nat
  | .x => 1
  | .y => 2
  | .z => 3

end Axis

/-- The exponents of `x ^ l · y ^ m · z ^ n`; they may be negative while formulas shift
them. -/
structure Triad where
  l : Int
  m : Int
  n : Int
  deriving DecidableEq, Repr

namespace Triad

/-- The exponent on an axis. -/
def on (t : Triad) : Axis → Int
  | .x => t.l
  | .y => t.m
  | .z => t.n

/-- The triad with the exponent on one axis changed by `delta`. -/
def shift (t : Triad) (delta : Int) : Axis → Triad
  | .x => { t with l := t.l + delta }
  | .y => { t with m := t.m + delta }
  | .z => { t with n := t.n + delta }

/-- The sum of the exponents. -/
def degree (t : Triad) : Int := t.l + t.m + t.n

theorem on_shift_self (t : Triad) (delta : Int) (a : Axis) :
    (t.shift delta a).on a = t.on a + delta := by
  cases a <;> rfl

theorem on_shift_of_ne (t : Triad) (delta : Int) {a b : Axis} (h : a ≠ b) :
    (t.shift delta a).on b = t.on b := by
  cases a <;> cases b <;> first | rfl | exact absurd rfl h

/-- The triads of the twenty orbitals, with their labels. Re-basing tables refer to the
orbitals by their position here. -/
def labelled : List (String × Triad) := [
  ("s", ⟨0, 0, 0⟩),
  ("x", ⟨1, 0, 0⟩), ("y", ⟨0, 1, 0⟩), ("z", ⟨0, 0, 1⟩),
  ("xx", ⟨2, 0, 0⟩), ("yy", ⟨0, 2, 0⟩), ("zz", ⟨0, 0, 2⟩),
  ("xy", ⟨1, 1, 0⟩), ("xz", ⟨1, 0, 1⟩), ("yz", ⟨0, 1, 1⟩),
  ("xyz", ⟨1, 1, 1⟩),
  ("xxy", ⟨2, 1, 0⟩), ("xxz", ⟨2, 0, 1⟩), ("yyz", ⟨0, 2, 1⟩),
  ("yyx", ⟨1, 2, 0⟩), ("zzx", ⟨1, 0, 2⟩), ("zzy", ⟨0, 1, 2⟩),
  ("xxx", ⟨3, 0, 0⟩), ("yyy", ⟨0, 3, 0⟩), ("zzz", ⟨0, 0, 3⟩)]

/-- The twenty triads. -/
def table : List Triad := labelled.map (·.2)

/-- The twenty labels. -/
def labels : List String := labelled.map (·.1)

end Triad

/-- An orbital index lies outside the table. -/
structure OrbitalOutside where
  index : Int
  deriving DecidableEq, Repr

/-- The wording of that error. -/
def OrbitalOutside.message (e : OrbitalOutside) : String :=
  Text.showInt e.index fun index => s!"Orbital index {index} outside 1..{Triad.table.length}"

/-- The triad of an orbital, counted from 1. -/
def Triad.ofOrbital (index : Int) : Except OrbitalOutside Triad :=
  if index < 1 then .error ⟨index⟩
  else
    match Triad.table[index.toNat - 1]? with
    | some t => .ok t
    | none => .error ⟨index⟩

end GaussianIntegrals
