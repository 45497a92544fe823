import GaussianIntegrals.Boys.Value
import GaussianIntegrals.Expansion.BoysOrders
import GaussianIntegrals.Main
import GaussianIntegrals.Workspace
import GaussianIntegrals.Proofs.Combinatorics
import GaussianIntegrals.Proofs.ExactValue
import GaussianIntegrals.Proofs.Moments
import GaussianIntegrals.Proofs.OverlapRecurrence
import GaussianIntegrals.Proofs.NuclearMoments
import GaussianIntegrals.Proofs.NuclearRecurrence
import GaussianIntegrals.Proofs.SimplifyValue
import GaussianIntegrals.Proofs.Code.Numeral
import GaussianIntegrals.Proofs.Code.Arith
import GaussianIntegrals.Proofs.Code.Reader
import GaussianIntegrals.Proofs.Code.Denotes
import GaussianIntegrals.Proofs.Parts
import GaussianIntegrals.Proofs.RenderedValue
import GaussianIntegrals.Proofs.Code.Program
import GaussianIntegrals.Proofs.FamilyParts
import GaussianIntegrals.Proofs.MatrixLabels
import GaussianIntegrals.Proofs.EmittedProgram
import GaussianIntegrals.Proofs.MomentumOperator
import GaussianIntegrals.Proofs.SimplifyStable
import GaussianIntegrals.Proofs.LineBreaks
import GaussianIntegrals.Proofs.TemplateLines
import GaussianIntegrals.Proofs.ArtifactLines
import GaussianIntegrals.Proofs.Assignments
import GaussianIntegrals.Proofs.ChangeOfBasis
import GaussianIntegrals.Proofs.KineticBasis
import GaussianIntegrals.Proofs.SphericalBasis
import GaussianIntegrals.Proofs.ArtifactTexts
import GaussianIntegrals.Proofs.Surroundings
import GaussianIntegrals.Proofs.WorkspaceLaws
import GaussianIntegrals.Proofs.GenerationRuns
import GaussianIntegrals.Proofs.Code.Strict
import GaussianIntegrals.Proofs.LeadingSigns
import GaussianIntegrals.Proofs.StrictTexts
import GaussianIntegrals.Proofs.FormulaTexts
import GaussianIntegrals.Proofs.BoysRemainder
import GaussianIntegrals.Proofs.NormalForm
import GaussianIntegrals.Proofs.SimplifiedFormulas
import GaussianIntegrals.Proofs.UsableSettings
import GaussianIntegrals.Proofs.NuclearEnumeration
import GaussianIntegrals.Proofs.LiveLeaves
import GaussianIntegrals.Proofs.FormulaLeaves
import GaussianIntegrals.Proofs.Lists
import GaussianIntegrals.Proofs.ShortNames
import GaussianIntegrals.Proofs.IntegerTexts
import GaussianIntegrals.Proofs.BoysOrders
import GaussianIntegrals.Proofs.TermSymmetries
import GaussianIntegrals.Proofs.NegativeExponents
import GaussianIntegrals.Proofs.Code.Multiples
import GaussianIntegrals.Proofs.CellLines
import GaussianIntegrals.Proofs.BlockLines
import GaussianIntegrals.Proofs.Code.Chain
import GaussianIntegrals.Proofs.BranchChain
import GaussianIntegrals.Proofs.LetterCase
import GaussianIntegrals.Proofs.StrippedTexts
import GaussianIntegrals.Proofs.SettingsValues
import GaussianIntegrals.Proofs.SettingsLayout
import GaussianIntegrals.Proofs.SettingsChanges
import GaussianIntegrals.Proofs.WrittenSettings
import GaussianIntegrals.Proofs.QuotientRounding
import GaussianIntegrals.Proofs.LiteralDigits
import GaussianIntegrals.Proofs.Code.Formula
import GaussianIntegrals.Proofs.BoysTexts
import GaussianIntegrals.Proofs.RawFootprint
import GaussianIntegrals.Proofs.BlockAgreement
