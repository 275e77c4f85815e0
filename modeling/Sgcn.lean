import Sgcn.Model.Controller
import Sgcn.Model.Main
import Sgcn.Graph.Stream
import Sgcn.Layout.Regions
import Sgcn.Partition.Lac
import Sgcn.Partition.Tiling
import Sgcn.Partition.Work
import Sgcn.Layout.Slices
import Sgcn.Layout.Features
import Sgcn.Layout.Prepared
import Sgcn.Layout.CsrLines
import Sgcn.Layout.InPlace
import Sgcn.Graph.IndexSafety
import Sgcn.Graph.Prefetch
import Sgcn.Output.Simd
import Sgcn.Feature.Stream
import Sgcn.System.Completion
import Sgcn.Feature.Misses
import Sgcn.Layout.Packed
import Sgcn.Layout.FeatureRegion
import Sgcn.Feature.Lookups
import Sgcn.Feature.MatReads
import Sgcn.Feature.HeadedReads
import Sgcn.Feature.Lru
import Sgcn.Feature.Reads
import Sgcn.System.Misses
import Sgcn.System.Outputs
import Sgcn.Process.Lock
import Sgcn.Layout.SharedHeaders
import Sgcn.Process.ResultDir
import Sgcn.Output.Addresses
import Sgcn.System.Queue
import Sgcn.Base.Backlog
import Sgcn.System.WarmUp
import Sgcn.Graph.ReservedLines
import Sgcn.Base.Run
import Sgcn.System.Arrivals
import Sgcn.System.Progress
import Sgcn.System.Fairness
import Sgcn.System.Termination
import Sgcn.System.Traffic
import Sgcn.System.Cycles
import Sgcn.Base.Text
import Sgcn.Base.Ranking
import Sgcn.Files.Data
import Sgcn.Files.Davc
import Sgcn.Files.Ini
import Sgcn.Files.Load
import Sgcn.System.GraphTraffic
