import BitLSM.Lib.Segments
import BitLSM.Lib.Bytes
import BitLSM.Lib.Binary64
import BitLSM.Schema
import BitLSM.Row
import BitLSM.Query
import BitLSM.CompiledQuery
import BitLSM.Okey
import BitLSM.SabiQuery
import BitLSM.Lib.Search
import BitLSM.Coding
import BitLSM.BytesList
import BitLSM.Lib.Probing
import BitLSM.Runtime
import BitLSM.Builder.Intern
import BitLSM.Builder.RangeBuf
import BitLSM.Builder.RangePolicy
import BitLSM.Builder.EqualityPolicy
import BitLSM.Builder.Columns
import BitLSM.Builder.Build
import BitLSM.Builder.Finish
import BitLSM.Reader.Parse
import BitLSM.RoundTrip
import BitLSM.Reader.Bins
import BitLSM.Reader.OnDemand
import BitLSM.Wrapped
import BitLSM.Reader.Select
import BitLSM.Index
import BitLSM.QueryBitmap
import BitLSM.Partition
import BitLSM.TableIndex
import BitLSM.RowLayout
import BitLSM.RowSlot
import BitLSM.RowEncode
import BitLSM.RowRoundTrip
import BitLSM.Write
import BitLSM.Scan.DataBlock
import BitLSM.Lib.Cursor
import BitLSM.Scan.TableIterator
import BitLSM.Scan.TableRows
import BitLSM.Scan.Candidates
import BitLSM.AbortIO
import BitLSM.Lib.Transition
import BitLSM.Listener
import BitLSM.Estimator.Worker
import BitLSM.RangeBins
import BitLSM.Builder.FairBudget
import BitLSM.Builder.EqualMass
import BitLSM.Selection
import BitLSM.Builder.Balance
import BitLSM.OkeyOrder
import BitLSM.Checked
import BitLSM.Validated
import BitLSM.Lib.Intervals
import BitLSM.Reader.SpanPrefetch
import BitLSM.Estimator.ByteAxis
import BitLSM.Scan.BlockPrefetchQueue
import BitLSM.Estimator.RangeStats
import BitLSM.Estimator.AxisOrder
import BitLSM.Estimator.OkeyAxis
import BitLSM.Estimator.Estimate
import BitLSM.Estimator.Unsat
import BitLSM.Reader.CacheKeys
import BitLSM.Scan.LsmState
import BitLSM.Scan.ShadowCheck
import BitLSM.Lib.Fallible
import BitLSM.Lib.SortedMerge
import BitLSM.Scan.MemTableIterator
import BitLSM.Scan.MergingIterator
import BitLSM.Scan.LevelIterator
import BitLSM.Scan.TableLeaf
import BitLSM.Scan.BatchIterator
import BitLSM.Scan.OpenScan
import BitLSM.Scan.MergedRows
import BitLSM.Scan.ReferenceScan
import BitLSM.Engine.ReferenceDB
import BitLSM.Scan.Stability
import BitLSM.Engine.Database
import BitLSM.Engine.Session
import BitLSM.Reader.Factory
