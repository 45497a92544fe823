/-
  The two tables in use. They differ in the f functions, in which orbitals 14 and 15 take
  each other's place.
-/
import GaussianIntegrals.Rebasing.Basic
import GaussianIntegrals.Rebasing.KineticRows
import GaussianIntegrals.Rebasing.NuclearRows

namespace GaussianIntegrals.RebasingTable

/-- The table of nuclear attraction integrals. -/
def nuclear : RebasingTable := .ofRows "nuclear" "1" nuclearRows

/-- The table of kinetic energy and momentum integrals. -/
def kineticMomentum : RebasingTable := .ofRows "kinetic-momentum" "1" kineticRows

end GaussianIntegrals.RebasingTable
