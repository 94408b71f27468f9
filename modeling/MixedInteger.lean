import MixedInteger.Scalar
import MixedInteger.Scalar.Double
import MixedInteger.Text.Decimal
import MixedInteger.Expression.Arithmetic
import MixedInteger.Problem.Posting
import MixedInteger.Problem.Passes
import MixedInteger.Solver.Session
import MixedInteger.Text.Message
import MixedInteger.Solver.Search
import MixedInteger.Proofs.Soundness
import MixedInteger.Proofs.Auxiliaries
import MixedInteger.Proofs.Completeness
import MixedInteger.Proofs.Convergence
import MixedInteger.Proofs.Widening
import MixedInteger.Proofs.WellFormed
import MixedInteger.Proofs.Optimum
import MixedInteger.Proofs.ColumnRange
import MixedInteger.Proofs.FixedPoint
import MixedInteger.Proofs.Batches
import MixedInteger.Problem.Change
import MixedInteger.Proofs.Atomicity
import MixedInteger.Proofs.Runs
import MixedInteger.Proofs.Outline
import MixedInteger.Proofs.FirstDefinitions
import MixedInteger.Expression.InPlace
import MixedInteger.Proofs.DeclaredDegree
import MixedInteger.Proofs.LoweredSize
import MixedInteger.Proofs.LateChanges
import MixedInteger.Proofs.PassFlags
import MixedInteger.Proofs.DeferredSets
import MixedInteger.Proofs.SessionHistory
import MixedInteger.Proofs.RelationExactness
import MixedInteger.Proofs.DisjunctionExactness
import MixedInteger.Proofs.SetExactness
import MixedInteger.Proofs.Levels
import MixedInteger.Proofs.Formulas
import MixedInteger.Proofs.FaithfulModel
import MixedInteger.Proofs.StatedRelation
import MixedInteger.Solver.InPlace
import MixedInteger.Proofs.BuildFrame
import MixedInteger.Proofs.Buildable
import MixedInteger.Proofs.LoweredOrder
import MixedInteger.Proofs.Doubles
import MixedInteger.Proofs.DuplicateWeights
import MixedInteger.Proofs.LinkExactness
import MixedInteger.Proofs.PartialWriteBack
import MixedInteger.Proofs.Bookkeeping
