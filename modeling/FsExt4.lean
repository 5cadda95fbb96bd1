import FsExt4.Lib.Bytes
import FsExt4.Lib.Image
import FsExt4.Lib.Io
import FsExt4.Lib.Crash
import FsExt4.Lib.Checked
import FsExt4.Lib.Chunks
import FsExt4.Lib.Bitmap
import FsExt4.Lib.SortedMap
import FsExt4.Lib.Seal
import FsExt4.Error
import FsExt4.Jbd2
import FsExt4.Inode
import FsExt4.Extent
import FsExt4.Lib.LevelTree
import FsExt4.Lib.PointerTree
import FsExt4.Lib.Refusal
import FsExt4.ExtentNode
import FsExt4.ExtentTree
import FsExt4.ExtentWalk
import FsExt4.ExtentRepack
import FsExt4.ExtentInsert
import FsExt4.ExtentGraft
import FsExt4.DeepInsert
import FsExt4.Fallocate
import FsExt4.ExtentInitialize
import FsExt4.ExtentPromote
import FsExt4.Indirect
import FsExt4.Filesystem
import FsExt4.Transaction
import FsExt4.Journal
import FsExt4.JournalApply
import FsExt4.JournalWriter
import FsExt4.JournalReads
import FsExt4.JournalWalk
import FsExt4.JournalLog
import FsExt4.JournalRevoke
import FsExt4.TransactionBlocks
import FsExt4.JournalRoundTrip
import FsExt4.JournalBounds
import FsExt4.JournalReplay
import FsExt4.JournalCommit
import FsExt4.JournalRecoverable
import FsExt4.JournalRuns
import FsExt4.JournalTorn
import FsExt4.BlockCache
import FsExt4.BlockPlanner
import FsExt4.CacheCoherence
import FsExt4.CacheTransparency
import FsExt4.CacheInterleaving
import FsExt4.ReadOnlyReplay
import FsExt4.GroupDescriptors
import FsExt4.Alloc
import FsExt4.AllocScan
import FsExt4.BitmapSearch
import FsExt4.BlockBuffer
import FsExt4.BufferView
import FsExt4.DirectCommit
import FsExt4.CommitEffect
import FsExt4.UsedSlots
import FsExt4.AllocationRuns
import FsExt4.MountRuns
import FsExt4.AllocationSafety
import FsExt4.FreeSpace
import FsExt4.Hash
import FsExt4.Htree
import FsExt4.DirEntry
import FsExt4.Xattr
import FsExt4.XattrEdit
import FsExt4.XattrSafety
import FsExt4.XattrPacked
import FsExt4.XattrNames
import FsExt4.XattrAreas
import FsExt4.InlineData
import FsExt4.Path
import FsExt4.DirLookup
import FsExt4.DirListing
import FsExt4.InodeAddress
import FsExt4.DirEdit
import FsExt4.StagedInode
import FsExt4.InodePatch
import FsExt4.DescriptorPlacement
import FsExt4.InodePlanner
import FsExt4.WritePaths
import FsExt4.FileReplace
import FsExt4.Timestamps
import FsExt4.DirStaging
import FsExt4.DirRecords
import FsExt4.DirBlockEdits
import FsExt4.IndirectLookup
import FsExt4.IndirectPlan
import FsExt4.IndirectFree
import FsExt4.PackedLeaf
import FsExt4.LeafSplit
import FsExt4.HtreeDrop
import FsExt4.Checksums
import FsExt4.FileIo
import FsExt4.FileReads
import FsExt4.Mkfs
import FsExt4.MkfsRefusal
import FsExt4.Truncate
import FsExt4.TruncateTree
import FsExt4.TruncateWalk
import FsExt4.DeepTruncate
import FsExt4.Verify
import FsExt4.VerifyClaims
import FsExt4.VerifyOwnership
import FsExt4.DescentBounds
import FsExt4.InlineMut
import FsExt4.InlineStore
import FsExt4.InlineDirs
import FsExt4.InlineConvert
import FsExt4.InlineGrow
import FsExt4.TreeNodes
import FsExt4.DirRuns
import FsExt4.HtreeRuns
