/-
  The three families of integrals: how each one is expanded, simplified, labelled and
  re-based.
-/
import GaussianIntegrals.Expansion.Nuclear
import GaussianIntegrals.Expansion.Operators
import GaussianIntegrals.Index
import GaussianIntegrals.Rebasing.Tables
import GaussianIntegrals.Simplify.Rules
import GaussianIntegrals.Text.Quoted

namespace GaussianIntegrals

/-- Why a pair of orbitals has no expression. -/
inductive ExpansionError where
  /-- An orbital lies outside the table. -/
  | orbital (cause : OrbitalOutside)
  /-- A vector integral was asked for without an axis. -/
  | missingAxis
  /-- An index selects no axis. -/
  | axisOutside
  deriving DecidableEq, Repr

/-- The wording of an expansion error. -/
def ExpansionError.message : ExpansionError → String
  | .orbital cause => cause.message
  | .missingAxis => "Momentum integrals need an axis (0, 1 or 2)"
  | .axisOutside => "tuple index out of range"

/-- A family of integrals. -/
structure Family where
  name : String
  /-- The name of the generated artifact. -/
  outputName : String
  /-- The unsimplified expression of two orbitals, along an axis if there is one. -/
  expander : Triad → Triad → Option Int → Except ExpansionError Expr
  /-- The simplification, rule by rule. -/
  rules : List Rule
  /-- The table of the basis block. -/
  table : RebasingTable
  /-- No axis for a scalar family, the three axes 0, 1 and 2 for a vector family. -/
  axes : List (Option Int) := [none]
  /-- The raw matrix in the generated code. -/
  rawName : String := "wo"
  /-- The basis matrix in the generated code. -/
  basisName : String := "g"

/-- Momentum along the axis at an index; negative indices count from the end. -/
def momentumAt (t1 t2 : Triad) (index : Option Int) : Except ExpansionError Expr :=
  match index with
  | none => .error .missingAxis
  | some i =>
    match pick? Axis.all i with
    | some a => .ok (momentum t1 t2 a "preFactor")
    | none => .error .axisOutside

namespace Family

/-- Nuclear attraction integrals. -/
def nuclear : Family where
  name := "nuclear"
  outputName := "NucIntg"
  expander t1 t2 _ := .ok (nuclearAttraction t1 t2 "preFactor")
  rules := Rule.standard .nuclear
  table := .nuclear

/-- Kinetic energy integrals. -/
def kinetic : Family where
  name := "kinetic"
  outputName := "KE_Intg"
  expander t1 t2 _ := .ok (kineticEnergy t1 t2 "coef")
  rules := Rule.standard .kinetic
  table := .kineticMomentum

/-- Momentum integrals. -/
def momentum : Family where
  name := "momentum"
  outputName := "momIntg"
  expander := momentumAt
  rules := Rule.standard .momentum
  table := .kineticMomentum
  axes := [some 0, some 1, some 2]

/-- The family has a component for each axis. -/
def isVector (f : Family) : Bool := f.axes != [none]

/-- The unsimplified expression of a raw entry. -/
def expandRaw (f : Family) (o1 o2 : Int) (axis : Option Int) : Except ExpansionError Expr := do
  let t1 ← (Triad.ofOrbital o1).mapError .orbital
  let t2 ← (Triad.ofOrbital o2).mapError .orbital
  f.expander t1 t2 axis

/-- The simplified expression of a raw entry. -/
def expand (f : Family) (o1 o2 : Int) (axis : Option Int) : Except ExpansionError Expr := do
  .ok (simplifyWith f.rules (← f.expandRaw o1 o2 axis))

/-- The raw entry in the generated code; an axis is a leading index, counted from 1. -/
def rawLabel (f : Family) (o1 o2 : Int) (axis : Option Int) : Except Text.IntegerError String :=
  match axis with
  | none => entryText f.rawName "" o1 o2
  | some i => do entryText f.rawName (← Text.writeInt (i + 1)) o1 o2

end Family

/-- The families by name. -/
inductive FamilyName where
  | nuclear
  | kinetic
  | momentum
  deriving DecidableEq, Repr

namespace FamilyName

/-- The names in order. -/
def all : List FamilyName := [.nuclear, .kinetic, .momentum]

/-- The family of a name. -/
def family : FamilyName → Family
  | .nuclear => .nuclear
  | .kinetic => .kinetic
  | .momentum => .momentum

/-- The name as text. -/
def text (n : FamilyName) : String := n.family.name

/-- The name that a text spells. -/
def ofText? (s : String) : Option FamilyName := all.find? fun n => n.text == s

/-- The list of names in messages. -/
def listing : String := Text.quoteList (all.map text)

end FamilyName

/-- No family has this name. -/
structure UnknownFamily where
  name : String
  deriving DecidableEq, Repr

/-- The wording of that error. -/
def UnknownFamily.message (e : UnknownFamily) : String :=
  s!"Integral family '{e.name}' not found. Available families: {FamilyName.listing}"

/-- The family of a name given as text. -/
def FamilyName.ofText (s : String) : Except UnknownFamily FamilyName :=
  match ofText? s with
  | some n => .ok n
  | none => .error ⟨s⟩

end GaussianIntegrals
