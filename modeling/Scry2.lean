import Scry2.Lib.Bytes
import Scry2.Lib.Sorted
import Scry2.Lib.Maps
import Scry2.Lib.SeekFile
import Scry2.Text
import Scry2.Names
import Scry2.Format
import Scry2.Lib.Search
import Scry2.Builder
import Scry2.Facts
import Scry2.Trigram
import Scry2.Reader
import Scry2.Writer
import Scry2.Layout
import Scry2.Tables
import Scry2.Finish
import Scry2.ReadBack
import Scry2.Merge
import Scry2.Produced
import Scry2.Agree
import Scry2.Query
import Scry2.MergeOrder
import Scry2.Remap
import Scry2.Coalesce
import Scry2.Substring
import Scry2.Postings
import Scry2.Probe
import Scry2.SubstringExact
import Scry2.Alloc
import Scry2.Provenance
import Scry2.Run
import Scry2.Snapshot
import Scry2.Resume
import Scry2.Sound
import Scry2.RoundTrip
import Scry2.Lookup
import Scry2.Proto
import Scry2.Peek
import Scry2.JsonPeek
import Scry2.JsonText
import Scry2.JsonScan
import Scry2.Archive
import Scry2.Digest
import Scry2.FileIds
import Scry2.FileIdRuns
import Scry2.Gauge
import Scry2.JsonUnit
import Scry2.Sparse
import Scry2.Recovery
import Scry2.Fresh
import Scry2.Cleanup
import Scry2.Entry
import Scry2.MarkedSource
import Scry2.TypeRender
import Scry2.LinearScan
import Scry2.Server
import Scry2.Walk
import Scry2.XrefQuery
import Scry2.Lib.Reach
import Scry2.Answers
import Scry2.Forest
import Scry2.WalkRun
import Scry2.Coverage
import Scry2.TextQuery
import Scry2.Normalize
import Scry2.Wire
import Scry2.Extract
import Scry2.CacheKey
import Scry2.Stream
import Scry2.Anchors
import Scry2.Buffers
import Scry2.Bodies
import Scry2.Innermost
import Scry2.Noted
import Scry2.Finalize
import Scry2.Calls
import Scry2.Order
import Scry2.Bridge
import Scry2.Plans
import Scry2.DisplayName
import Scry2.Fields
import Scry2.NameParts
import Scry2.Tickets
import Scry2.Signature
import Scry2.TypeText
import Scry2.Regions
import Scry2.Galloping
import Scry2.Landing
import Scry2.PathFilters
import Scry2.LogicalKey
import Scry2.Absorb
import Scry2.Whole
import Scry2.Outcome
import Scry2.CachedOutcome
import Scry2.Lib.Threads
import Scry2.Gate
import Scry2.Checkpoint
import Scry2.Nearest
import Scry2.Lib.Groups
import Scry2.Inherited
import Scry2.Lines
import Scry2.Daemon
import Scry2.Callers
import Scry2.ShardCache
