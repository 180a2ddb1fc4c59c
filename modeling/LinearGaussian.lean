import LinearGaussian.Scalar.Float
import LinearGaussian.Graph.Joint
import LinearGaussian.BayesNet.Joint
import LinearGaussian.BayesNet.Conditioning
import LinearGaussian.Elimination.Sequence
import LinearGaussian.Proofs.Combine
import LinearGaussian.Proofs.Householder
import LinearGaussian.Proofs.Weighted
import LinearGaussian.Proofs.PivotRow
import LinearGaussian.Proofs.Reduction
import LinearGaussian.Proofs.Split
import LinearGaussian.Proofs.Elimination
import LinearGaussian.Proofs.Sequence
import LinearGaussian.Proofs.Run
import LinearGaussian.Proofs.Triangular
import LinearGaussian.Proofs.Solve
import LinearGaussian.Proofs.BackSubstitution
import LinearGaussian.Proofs.Optimum
import LinearGaussian.Proofs.Structure
import LinearGaussian.Proofs.Success
import LinearGaussian.Proofs.Marginal
import LinearGaussian.Proofs.JointMatrix
import LinearGaussian.Proofs.Chain
import LinearGaussian.Proofs.OneShot
import LinearGaussian.Proofs.Stages
import LinearGaussian.Proofs.Columns
import LinearGaussian.Proofs.Restriction
import LinearGaussian.Proofs.Conditioning
import LinearGaussian.Proofs.ConditionedNet
import LinearGaussian.Proofs.Coordinates
import LinearGaussian.Proofs.JointSystem
import LinearGaussian.Proofs.Transposed
import LinearGaussian.Proofs.Substitution
import LinearGaussian.Proofs.Gradient
import LinearGaussian.Proofs.NetSystem
import LinearGaussian.Proofs.Determinant
import LinearGaussian.Proofs.Construction
import LinearGaussian.Proofs.NetMatrix
import LinearGaussian.Proofs.QuadraticForm
import LinearGaussian.Proofs.JointInformation
import LinearGaussian.Proofs.Derivative
import LinearGaussian.Proofs.Pivots
import LinearGaussian.Proofs.Assembly
import LinearGaussian.Proofs.Echelon
import LinearGaussian.Proofs.Agreement
import LinearGaussian.Proofs.SquareRoot
import LinearGaussian.Proofs.InformationRoot
import LinearGaussian.Proofs.Stack
import LinearGaussian.Proofs.Refusal
import LinearGaussian.Proofs.Removal
import LinearGaussian.Proofs.Independence
import LinearGaussian.Proofs.Interruption
import LinearGaussian.Proofs.Adjoint
import LinearGaussian.Proofs.Conversion
import LinearGaussian.Proofs.Descent
import LinearGaussian.Proofs.UpperPart
import LinearGaussian.Proofs.Storage
import LinearGaussian.Proofs.Copies
import LinearGaussian.Proofs.Whitening
