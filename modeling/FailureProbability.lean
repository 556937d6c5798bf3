import FailureProbability.Settings.Json
import FailureProbability.Estimate.Text
import FailureProbability.Error.Message
import FailureProbability.Random.Replay
import FailureProbability.Proofs.Execution
import FailureProbability.Proofs.Evaluation
import FailureProbability.Proofs.Sampling.Stream
import FailureProbability.Proofs.Sampling.Step
import FailureProbability.Proofs.Sampling.Ledger
import FailureProbability.Proofs.Sampling.Lockstep
import FailureProbability.Proofs.Agreement
import FailureProbability.Proofs.Sampling.Adaptive
import FailureProbability.Proofs.Sampling.Circular
import FailureProbability.Proofs.Contract
import FailureProbability.Proofs.Root.Search
import FailureProbability.Proofs.Root.Asked
import FailureProbability.Proofs.Form
import FailureProbability.Proofs.Sampling.Work
import FailureProbability.Proofs.Directional
import FailureProbability.Proofs.Grid
import FailureProbability.Proofs.Estimator.Tree
import FailureProbability.Proofs.Directional.Walk
import FailureProbability.Proofs.Batching
import FailureProbability.Proofs.Batching.Methods
import FailureProbability.Proofs.Batching.Settings
import FailureProbability.Proofs.Setup
import FailureProbability.Proofs.Setup.Acyclic
import FailureProbability.Proofs.Setup.Exchange
import FailureProbability.Proofs.Draw
import FailureProbability.Proofs.Cancellation
import FailureProbability.Proofs.Cancellation.Sampling
import FailureProbability.Proofs.Cancellation.Tree
import FailureProbability.Proofs.Cancellation.Methods
import FailureProbability.Scalar.Exact
import FailureProbability.Proofs.Coordinates
import FailureProbability.Proofs.Correlation.Cholesky
import FailureProbability.Proofs.Correlation.Map
import FailureProbability.Proofs.Correlation.Pair
import FailureProbability.Proofs.Correlation.Groups
import FailureProbability.Proofs.Correlation.Forest
import FailureProbability.Proofs.Correlation.Table
import FailureProbability.Proofs.Correlation.Assembly
import FailureProbability.Proofs.Correlation.Direct
import FailureProbability.Proofs.Correlation.Realisation
import FailureProbability.Proofs.Correlation.Active
import FailureProbability.Proofs.Correlation.Chains
import FailureProbability.Proofs.Correlation.Resolution
import FailureProbability.Proofs.Correlation.Representatives
import FailureProbability.Proofs.Correlation.Agreement
import FailureProbability.Proofs.Normal
import FailureProbability.Proofs.Special.ErrorIntegral
import FailureProbability.Proofs.Special.GammaShare
import FailureProbability.Proofs.Radius
import FailureProbability.Proofs.Combination.Probability
import FailureProbability.Proofs.Combination.List
import FailureProbability.Proofs.Binary64.Word
import FailureProbability.Proofs.Binary64.Rounding
import FailureProbability.Proofs.Decimal.Digits
import FailureProbability.Proofs.Decimal.Text
import FailureProbability.Proofs.Text
import FailureProbability.Proofs.Estimate.Text
import FailureProbability.Proofs.Coherence
import FailureProbability.Proofs.Coherence.Tree
import FailureProbability.Proofs.Root.Bracket
import FailureProbability.Proofs.Root.Narrowing
import FailureProbability.Proofs.Root.Bisection
import FailureProbability.Proofs.Root.March
import FailureProbability.Proofs.Root.Crossing
import FailureProbability.Proofs.Directional.Stopping
import FailureProbability.Proofs.Directional.Ray
import FailureProbability.Proofs.Directional.Side
import FailureProbability.Proofs.Directional.Policies
import FailureProbability.Proofs.Gradient
import FailureProbability.Proofs.Form.Course
import FailureProbability.Proofs.Form.Trials
import FailureProbability.Proofs.Form.Affine
import FailureProbability.Proofs.Form.Restart
import FailureProbability.Proofs.Nearest
import FailureProbability.Proofs.Grid.Cells
import FailureProbability.Proofs.Grid.Partition
import FailureProbability.Proofs.Form.Extrapolation
import FailureProbability.Proofs.Sampling.Statistics
import FailureProbability.Proofs.Sampling.ControlLoop
import FailureProbability.Proofs.Correlation.Components
import FailureProbability.Proofs.Estimate.Grammar
import FailureProbability.Proofs.Draw.History
import FailureProbability.Proofs.Combination.Symmetry
import FailureProbability.Proofs.Estimator.Chain
import FailureProbability.Proofs.Marginal
import FailureProbability.Proofs.Scalar.Partial
import FailureProbability.Proofs.Gradient.Exactness
