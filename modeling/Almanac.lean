import Almanac.Outcome
import Almanac.Scalar
import Almanac.Decimal.Text
import Almanac.Instant.Unit
import Almanac.Instant.Text
import Almanac.Vec.Transfer
import Almanac.Vec.Norm
import Almanac.Vec.Extreme
import Almanac.Vec.Cursor
import Almanac.Vec.Text
import Almanac.Mat.Basic
import Almanac.Mat.Block
import Almanac.Mat.Region
import Almanac.Mat.Product
import Almanac.Mat.Norm
import Almanac.Mat.Text
import Almanac.Factor.Block
import Almanac.Factor.Lu
import Almanac.Factor.Cholesky
import Almanac.Factor.Singular
import Almanac.Library.Triangular
import Almanac.Library.Elimination
import Almanac.Library.Cholesky
import Almanac.Library.Rotation
import Almanac.Statistics.Optional
import Almanac.Statistics.Dependence
import Almanac.Series.Text
import Almanac.Series.Update
import Almanac.Series.Crossing
import Almanac.Series.Return
import Almanac.Series.Window
import Almanac.Series.Resampling
import Almanac.Series.Summary
import Almanac.Panel
import Almanac.Proofs.Order
import Almanac.Proofs.Position
import Almanac.Proofs.Calendar
import Almanac.Proofs.Grid
import Almanac.Proofs.Edit
import Almanac.Proofs.Refusal
import Almanac.Proofs.Double
import Almanac.Proofs.Hash
import Almanac.Proofs.Series.Action
import Almanac.Proofs.Series.Index
import Almanac.Proofs.Series.Ledger
import Almanac.Proofs.Series.Refinement
import Almanac.Proofs.Series.Repeats
import Almanac.Proofs.Series.Lookup
import Almanac.Proofs.Series.Census
import Almanac.Proofs.Series.Register
import Almanac.Proofs.Series.Neighbour
import Almanac.Proofs.Series.Sorting
import Almanac.Proofs.Series.RoundTrip
import Almanac.Proofs.Series.Crossing
import Almanac.Proofs.Series.Synchronization
import Almanac.Proofs.Series.Window
import Almanac.Proofs.Series.Resampling
import Almanac.Proofs.Series.Transform
import Almanac.Proofs.Series.Ties
import Almanac.Proofs.Series.Thinning
import Almanac.Proofs.Series.Shift
import Almanac.Proofs.Mat.Placement
import Almanac.Proofs.Mat.Product
import Almanac.Proofs.Mat.Entry
import Almanac.Proofs.Mat.Storage
import Almanac.Proofs.Mat.Isolation
import Almanac.Proofs.Mat.Duality
import Almanac.Proofs.Mat.Algebra
import Almanac.Proofs.Mat.Access
import Almanac.Proofs.Mat.Layout
import Almanac.Proofs.Mat.Partition
import Almanac.Proofs.Mat.Setter
import Almanac.Proofs.Panel.Action
import Almanac.Proofs.Panel.Level
import Almanac.Proofs.Panel.Fitting
import Almanac.Proofs.Series.MonthEnd
import Almanac.Proofs.Series.Template
import Almanac.Proofs.Gapped
import Almanac.Proofs.Series.Movement
import Almanac.Proofs.Series.Offset
import Almanac.Proofs.Series.TotalReturn
import Almanac.Proofs.Series.Dividend
import Almanac.Proofs.Series.Compounding
import Almanac.Proofs.Series.Volatility
import Almanac.Proofs.Statistics.Moments
import Almanac.Proofs.Statistics.Covariance
import Almanac.Proofs.Statistics.Direction
import Almanac.Proofs.Statistics.Mirror
import Almanac.Proofs.Statistics.Order
import Almanac.Proofs.Mat.Conversion
import Almanac.Proofs.Mat.Range
import Almanac.Proofs.Panel.Directory
import Almanac.Proofs.Factor.Block
import Almanac.Proofs.Factor.Exact
import Almanac.Proofs.Library.Triangular
import Almanac.Proofs.Library.Elimination
import Almanac.Proofs.Library.Pivoting
import Almanac.Proofs.Library.Cholesky
import Almanac.Proofs.Factor.Agreement
import Almanac.Proofs.Factor.Singular
import Almanac.Proofs.Vec.Cursor
import Almanac.Proofs.Vec.Extreme
import Almanac.Proofs.Truncation
