import LeastSquares.Numeric.Double
import LeastSquares.Numeric.Traced
import LeastSquares.Numeric.Decimal
import LeastSquares.Array.Block
import LeastSquares.Array.Listing
import LeastSquares.Failure
import LeastSquares.Noise
import LeastSquares.Catalogue
import LeastSquares.Value.Comparison
import LeastSquares.Factor.Comparison
import LeastSquares.Factor.Derivative
import LeastSquares.Buffer.Pullback
import LeastSquares.Graph.Derivative
import LeastSquares.Solver.GradientDescent
import LeastSquares.Solver.LevenbergMarquardt
import LeastSquares.Script.Run
import LeastSquares.Proofs.Buffer.Table
import LeastSquares.Proofs.Numeric.Exact
import LeastSquares.Proofs.Array.Block
import LeastSquares.Proofs.Buffer.Coordinates
import LeastSquares.Proofs.Buffer.Arithmetic
import LeastSquares.Proofs.Graph.Chosen
import LeastSquares.Proofs.Graph.Labels
import LeastSquares.Proofs.Graph.Listed
import LeastSquares.Proofs.Graph.Stack
import LeastSquares.Proofs.Graph.FactorRow
import LeastSquares.Proofs.Graph.LinearStack
import LeastSquares.Proofs.Graph.DesignMatrix
import LeastSquares.Proofs.Graph.Adjoint
import LeastSquares.Proofs.Solver.ConjugateGradients
import LeastSquares.Proofs.Solver.Cgls
import LeastSquares.Proofs.Solver.Descent
import LeastSquares.Proofs.Solver.Solution
import LeastSquares.Proofs.Solver.Rollback
import LeastSquares.Proofs.Solver.History
import LeastSquares.Proofs.Array.Rows
import LeastSquares.Proofs.Buffer.Store
import LeastSquares.Proofs.Factor.Affine
import LeastSquares.Proofs.Factor.Linearized
import LeastSquares.Proofs.Graph.Damping
import LeastSquares.Proofs.Solver.DampedStep
import LeastSquares.Proofs.Factor.Displacement
import LeastSquares.Proofs.Graph.Affine
import LeastSquares.Proofs.Solver.Fidelity
import LeastSquares.Proofs.Graph.Exactness
import LeastSquares.Proofs.Buffer.Interpretation
import LeastSquares.Proofs.Buffer.Refinement
import LeastSquares.Proofs.Array.Plain
import LeastSquares.Proofs.Factor.Plain
import LeastSquares.Proofs.Factor.Constant
import LeastSquares.Proofs.Graph.Residuals
import LeastSquares.Proofs.Graph.Damped
import LeastSquares.Proofs.Graph.Handles
import LeastSquares.Proofs.Graph.Collision
import LeastSquares.Proofs.Factor.Growth
import LeastSquares.Proofs.Graph.Growth
import LeastSquares.Proofs.Graph.Evaluable
import LeastSquares.Proofs.Solver.Completion
import LeastSquares.Proofs.Solver.Stationary
import LeastSquares.Proofs.Graph.Gauge
import LeastSquares.Proofs.Solver.Frame
import LeastSquares.Proofs.Buffer.Contents
import LeastSquares.Proofs.Script.Command
import LeastSquares.Proofs.Script.Isolation
import LeastSquares.Proofs.Solver.Schedule
import LeastSquares.Proofs.Solver.Stopping
import LeastSquares.Proofs.Solver.Representatives
import LeastSquares.Proofs.Solver.GradientDescent
import LeastSquares.Proofs.Graph.Settled
import LeastSquares.Proofs.Graph.Switched
import LeastSquares.Proofs.Graph.Switching
import LeastSquares.Proofs.Buffer.Guard
import LeastSquares.Proofs.Script.Snapshot
import LeastSquares.Proofs.Buffer.InPlace
import LeastSquares.Proofs.Script.Accumulation
import LeastSquares.Proofs.Value.Motion
import LeastSquares.Proofs.Buffer.Moving
import LeastSquares.Proofs.Script.Movement
import LeastSquares.Proofs.Factor.Batched
import LeastSquares.Proofs.Factor.Scatter
import LeastSquares.Proofs.Graph.Alone
import LeastSquares.Proofs.Graph.Shuffle
import LeastSquares.Proofs.Graph.Rearranged
import LeastSquares.Proofs.Solver.Reports
import LeastSquares.Proofs.Buffer.Pullback
import LeastSquares.Proofs.Graph.Buckets
import LeastSquares.Proofs.Factor.Whitened
import LeastSquares.Proofs.Buffer.Reading
import LeastSquares.Proofs.Buffer.Scatter
import LeastSquares.Proofs.Value.Euclidean
