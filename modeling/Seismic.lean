import Seismic.Json.Format
import Seismic.Proofs.Anchor
import Seismic.Proofs.Exact.Coverage
import Seismic.Proofs.Exact.Recorded
import Seismic.Proofs.Volume.Ordered
import Seismic.Proofs.Volume.Slice
import Seismic.Sample.ByteSize
import Seismic.Volume.Attributes
import Seismic.Volume.Fence
import Seismic.Proofs.Lookup
import Seismic.Proofs.Volume.Within
import Seismic.Proofs.Annotation
import Seismic.Proofs.Exact.Fence
import Seismic.Proofs.Volume.Addressing
import Seismic.Proofs.Subvolume.Faults
import Seismic.Proofs.Volume.Nearest
import Seismic.Proofs.Json.Format
import Seismic.Proofs.Crossing
import Seismic.Proofs.Exact.Listing
import Seismic.Proofs.Exact.Step
import Seismic.Proofs.Locality
import Seismic.Proofs.Double.Spline
import Seismic.Proofs.Exact.Line
import Seismic.Proofs.Buffers
import Seismic.Proofs.Column.Sums
import Seismic.Proofs.Exact.Moments
import Seismic.Proofs.Volume.InPlace
import Seismic.Proofs.Exact.Bilinear
import Seismic.Proofs.Exact.Coordinates
import Seismic.Proofs.Exact.Grid
import Seismic.Proofs.Depths
import Seismic.Proofs.Outputs
import Seismic.Proofs.Bytes
import Seismic.Proofs.Double.Rounding
import Seismic.Proofs.Subvolume.Bench
