import Ipnetx.Machine.Word
import Ipnetx.Machine.Slice
import Ipnetx.Machine.Text
import Ipnetx.Machine.Simulation
import Ipnetx.Machine.Loop
import Ipnetx.Segment.Canonical
import Ipnetx.Segment.Overlap
import Ipnetx.Segment.Coalesce
import Ipnetx.Segment.Subtract
import Ipnetx.Segment.Queries
import Ipnetx.Segment.Length
import Ipnetx.Segment.Starts
import Ipnetx.Dyadic.Block
import Ipnetx.Dyadic.Tiling
import Ipnetx.Dyadic.Staircase
import Ipnetx.Dyadic.Siblings
import Ipnetx.Dyadic.Levels
import Ipnetx.Model.Address
import Ipnetx.Model.Decompose
import Ipnetx.Model.Builder
import Ipnetx.Model.AddressText
import Ipnetx.Model.Parsing
import Ipnetx.Model.Walks
import Ipnetx.Model.Client
import Ipnetx.Model.Fuzz
import Ipnetx.Refinement.View
import Ipnetx.Refinement.SetOps
import Ipnetx.Refinement.Represents
import Ipnetx.Refinement.Queries
import Ipnetx.Refinement.Prefixes
import Ipnetx.Refinement.Decompose
import Ipnetx.Refinement.Build
import Ipnetx.Refinement.AddressText
import Ipnetx.Properties.Runs
import Ipnetx.Properties.Normalization
import Ipnetx.Properties.Algebra
import Ipnetx.Properties.SetOperations
import Ipnetx.Properties.Queries
import Ipnetx.Properties.PrefixCover
import Ipnetx.Properties.Prefixes
import Ipnetx.Properties.Fragmentation
import Ipnetx.Properties.Infallible
import Ipnetx.Properties.Parsing
import Ipnetx.Properties.Families
import Ipnetx.Properties.PrefixLists
import Ipnetx.Properties.PrefixAlgebra
import Ipnetx.Properties.PrefixCounts
import Ipnetx.Properties.Aggregation
import Ipnetx.Properties.IdealClient
import Ipnetx.Properties.Client
import Ipnetx.Properties.PowerSet
import Ipnetx.Properties.Counting
import Ipnetx.Properties.Seams
import Ipnetx.Properties.CallOrder
import Ipnetx.Properties.Fuzz
import Ipnetx.Properties.Costs
