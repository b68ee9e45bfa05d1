import Firebird.Lib.Bytes
import Firebird.Lib.CommonPrefix
import Firebird.Lib.Crumbs
import Firebird.Lib.CycleSearch
import Firebird.Lib.Delta
import Firebird.Lib.Lex
import Firebird.Lib.LinkedTree
import Firebird.Lib.Memory
import Firebird.Lib.Outcome
import Firebird.Lib.Ranked
import Firebird.Lib.Ring
import Firebird.Lib.RunLength
import Firebird.Lib.Runs
import Firebird.Lib.Transition
import Firebird.Jrd.Sqz
import Firebird.Jrd.Differences
import Firebird.Jrd.BigRecord
import Firebird.Jrd.Pag
import Firebird.Jrd.Cch
import Firebird.Jrd.CarefulWrite
import Firebird.Jrd.WriteOrder
import Firebird.Jrd.DirtyTree
import Firebird.Jrd.BtcFlush
import Firebird.Jrd.BlobPages
import Firebird.Jrd.BlobCollect
import Firebird.Lock.Lbl
import Firebird.Lock.Queue
import Firebird.Lock.Consistent
import Firebird.Lock.Effect
import Firebird.Lock.Table
import Firebird.Lock.Linked
import Firebird.Lock.Safety
import Firebird.Lock.Series
import Firebird.Lock.Grantable
import Firebird.Lock.Deadlock
import Firebird.Lock.Downgrade
import Firebird.Lock.Que
import Firebird.Lock.Recover
import Firebird.Tra.Tip
import Firebird.Tra.Tpc
import Firebird.Tra.Start
import Firebird.Tra.Moves
import Firebird.Tra.Settled
import Firebird.Tra.Horizon
import Firebird.Tra.Interesting
import Firebird.Tra.TipCache
import Firebird.Vio.Version
import Firebird.Vio.Savepoint
import Firebird.Vio.Undo
import Firebird.Vio.Rollback
import Firebird.Vio.Entries
import Firebird.Vio.Indexed
import Firebird.Vio.Kept
import Firebird.Sort.Quick
import Firebird.Sort.Sorted
import Firebird.Sort.Guards
import Firebird.Sort.Mangle
import Firebird.Sort.KeyOrder
import Firebird.Sort.Order
import Firebird.Sort.Space
import Firebird.Sort.Scratch
import Firebird.Btr.Compress
import Firebird.Btr.Node
import Firebird.Btr.Find
import Firebird.Btr.Level
import Firebird.Btr.Delete
import Firebird.Btr.Insert
import Firebird.Btr.Ascending
import Firebird.Btr.Unique
import Firebird.Btr.Split
import Firebird.Btr.Merge
import Firebird.Btr.PrefixTotal
import Firebird.Lib.Extent
import Firebird.Lib.Tiling
import Firebird.Lib.Tlv
import Firebird.Lib.Search
import Firebird.Btr.Int64Key
import Firebird.Btr.Compound
import Firebird.Jrd.Fragment
import Firebird.Jrd.DataPage
import Firebird.Jrd.PageLayout
import Firebird.Jrd.PageUpdate
import Firebird.Jrd.PointerPage
import Firebird.Jrd.Clump
import Firebird.Sbm.Bitmap
import Firebird.Sbm.Sets
import Firebird.Sbm.Combine
import Firebird.Sbm.Levels
import Firebird.Sbm.Next
import Firebird.Sbm.Successor
import Firebird.Sbm.Runs
import Firebird.Tree.Add
import Firebird.Tree.Valid
import Firebird.Tree.Failure
import Firebird.Tree.Remove
import Firebird.Tree.Pages
import Firebird.Tree.Locate
import Firebird.Alloc.Pool
import Firebird.Alloc.Spare
import Firebird.Alloc.LowMemory
import Firebird.Lib.Truncated
import Firebird.Evl.Arithmetic
import Firebird.Evl.Divide
import Firebird.Lib.Wrap
import Firebird.Evl.Calendar
import Firebird.Evl.Dates
import Firebird.Cvt.Numeral
import Firebird.Cvt.Decompose
import Firebird.Cvt.Integer
import Firebird.Lib.Pattern
import Firebird.Evl.Like
import Firebird.Lib.Backtrack
import Firebird.Evl.Sleuth
import Firebird.Evl.BlobString
import Firebird.Sort.Sizes
import Firebird.Sort.SortMem
import Firebird.Lib.HalfAway
import Firebird.Cvt.Rescale
import Firebird.Cvt.IntegerText
import Firebird.Evl.Gregorian
import Firebird.Cvt.DatetimeText
import Firebird.Lib.Longs
import Firebird.Lib.Coalesce
import Firebird.Jrd.EventRegion
import Firebird.Jrd.EventFree
import Firebird.Jrd.EventHeap
import Firebird.Remote.Xdr
import Firebird.Remote.Slice
import Firebird.Remote.Bounds
import Firebird.Remote.SliceBounds
import Firebird.Lib.Padded
import Firebird.Lib.Piecewise
import Firebird.Cvt.Compare
import Firebird.Cvt.BlobCompare
import Firebird.Btr.StringKey
import Firebird.Intl.UnicodeFss
import Firebird.Lib.Layout
import Firebird.Remote.Messages
import Firebird.Lib.Cursor
import Firebird.Jrd.Next
import Firebird.Jrd.Sequential
import Firebird.Burp.Compress
import Firebird.Remote.Merge
import Firebird.Lib.Transcode
import Firebird.Intl.Jis
import Firebird.Lib.Block
import Firebird.Classes.Array
import Firebird.Classes.Contents
import Firebird.Classes.ArrayRuns
import Firebird.Classes.SortedArray
import Firebird.Jrd.IndexRoot
import Firebird.Jrd.ReserveSlot
import Firebird.Jrd.CompressRoot
import Firebird.Burp.Mvol
import Firebird.Burp.Volumes
import Firebird.Burp.VolumeRuns
import Firebird.Lib.RowMajor
import Firebird.Burp.ArraySlice
import Firebird.Burp.ArrayBoxes
import Firebird.Burp.ArrayRestore
import Firebird.Jrd.CompareKeys
import Firebird.Jrd.NavWalk
import Firebird.Jrd.NavItems
import Firebird.Jrd.NavDistinct
import Firebird.Btr.SearchKey
import Firebird.Jrd.WalkLimit
import Firebird.Lib.Settles
import Firebird.Rse.Rsb
import Firebird.Rse.Rows
import Firebird.Rse.Cursor
import Firebird.Rse.Streams
import Firebird.Rse.Booleans
import Firebird.Rse.Outer
import Firebird.Rse.OuterJoin
import Firebird.Rse.Scopes
import Firebird.Rse.Plan
