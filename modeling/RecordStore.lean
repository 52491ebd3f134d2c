import RecordStore.Reopening
import RecordStore.WriteThrough
import RecordStore.HeapContents
import RecordStore.RecordMap
import RecordStore.FreeSpace
import RecordStore.RecordIterator
import RecordStore.IteratorScan
import RecordStore.Scanning
import RecordStore.DirectoryBounds
import RecordStore.KMerge
import RecordStore.RecordFile
import RecordStore.MergePasses
import RecordStore.RunIterator
import RecordStore.KwayMerge
import RecordStore.PassLoop
import RecordStore.PassArithmetic
import RecordStore.RecordSchema
import RecordStore.Msort
import RecordStore.ExternalSort
import RecordStore.SilentLoss
import RecordStore.CStrings
import RecordStore.RecordComparator
import RecordStore.ProbeOrder
import RecordStore.RecordLayout
import RecordStore.ScratchCompare
import RecordStore.SortComparators
import RecordStore.BlockTiling
import RecordStore.PackedPages
import RecordStore.BulkLoad
import RecordStore.PageFiles
import RecordStore.RunMerging
import RecordStore.ComparatorOrder
import RecordStore.OrderedMap
import RecordStore.BtreeSort
import RecordStore.StableTree
import RecordStore.KeyCollisions
import RecordStore.SortAgreement
import RecordStore.ColumnStore
import RecordStore.PackedScan
import RecordStore.ColumnLoad
import RecordStore.ColumnSelect
import RecordStore.TupleJoin
import RecordStore.SlotFrame
import RecordStore.FlagSets
import RecordStore.AllocatedRuns
import RecordStore.PageCapacity
import RecordStore.RecordCodec
import RecordStore.OutOfRange
import RecordStore.UpdateProgram
import RecordStore.UpdateFrame
import RecordStore.SlotReads
import RecordStore.LeftoverMemory
import RecordStore.CsvRoundTrip
import RecordStore.RunPartition
import RecordStore.SharedFile
import RecordStore.OpeningFiles
import RecordStore.StoredOffsets
import RecordStore.RowPrograms
import RecordStore.RowTables
import RecordStore.PrefixCode
import RecordStore.Coding
import RecordStore.CrcBits
import RecordStore.Crc32c
import RecordStore.LogFormat
import RecordStore.LogFragments
import RecordStore.LogReading
import RecordStore.LogSoundness
import RecordStore.SkipLists
import RecordStore.Cursors
import RecordStore.SkipListLevels
import RecordStore.SkipListRuns
import RecordStore.SkipListReaders
import RecordStore.DbFormat
import RecordStore.KeySeparators
import RecordStore.MemTables
import RecordStore.Merging
import RecordStore.Versions
import RecordStore.DbIterators
import RecordStore.Snapshots
import RecordStore.WriteBatches
import RecordStore.Blocks
import RecordStore.BlockReading
import RecordStore.BlockIterators
import RecordStore.WriteQueue
import RecordStore.Recovery
import RecordStore.DbReads
