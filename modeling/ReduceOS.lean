import ReduceOS.InitialRamdisk
import ReduceOS.StringSearch
import ReduceOS.TwoWay
import ReduceOS.CriticalFactorization
import ReduceOS.Strstr
import ReduceOS.KernelHeap
import ReduceOS.DriverLoading
import ReduceOS.Precedence
import ReduceOS.DriverOrder
import ReduceOS.SharedFrames
import ReduceOS.SharedBuffer
import ReduceOS.LockedSections
import ReduceOS.LibcHeap
import ReduceOS.LiballocRuns
import ReduceOS.LiballocCalls
import ReduceOS.BlockStore
import ReduceOS.TraceRefinement
import ReduceOS.LiballocFree
import ReduceOS.LiballocHeap
import ReduceOS.LiballocMalloc
import ReduceOS.Liballoc
import ReduceOS.Packing
import ReduceOS.Outcome
import ReduceOS.TableTree
import ReduceOS.Machine
import ReduceOS.Pmm
import ReduceOS.Page
import ReduceOS.Physical
import ReduceOS.Paging
import ReduceOS.PmmAllocator
import ReduceOS.PageMap
import ReduceOS.MapAddress
import ReduceOS.Sharing
import ReduceOS.AddressSpace
import ReduceOS.SharedPages
import ReduceOS.Views
import ReduceOS.Clone
import ReduceOS.Destroy
import ReduceOS.UserAccess
import ReduceOS.CopyOnWrite
import ReduceOS.WellBuilt
import ReduceOS.Isolation
import ReduceOS.Balance
import ReduceOS.UserHeap
import ReduceOS.References
import ReduceOS.HeapPages
import ReduceOS.SyscallStores
import ReduceOS.PointerCheck
import ReduceOS.KernelMappings
import ReduceOS.LibcBreak
import ReduceOS.LinkedTree
import ReduceOS.ProcessTree
import ReduceOS.Scheduler
import ReduceOS.Lifecycle
import ReduceOS.WakeUps
import ReduceOS.Orphans
import ReduceOS.Reaping
import ReduceOS.WaitReports
import ReduceOS.LbaEncoding
import ReduceOS.BlockIo
import ReduceOS.LinkedSequence
import ReduceOS.KernelList
import ReduceOS.CString
import ReduceOS.Hashmap
import ReduceOS.Bitmap
import ReduceOS.ChunkPool
import ReduceOS.Pids
import ReduceOS.FdTable
import ReduceOS.FdSharing
import ReduceOS.Trie
import ReduceOS.MountTree
import ReduceOS.PciScan
import ReduceOS.RingIndex
import ReduceOS.KeyboardStream
import ReduceOS.TransmitRing
import ReduceOS.LinkWalk
import ReduceOS.ChunkLedger
import ReduceOS.UsbTransfer
import ReduceOS.UhciSchedule
import ReduceOS.EhciLifecycle
import ReduceOS.Inet
import ReduceOS.NetworkStack
import ReduceOS.FrameBounds
import ReduceOS.Loopback
import ReduceOS.Multiboot
import ReduceOS.BootTags
import ReduceOS.BootProtocols
import ReduceOS.Halting
import ReduceOS.ElfRelocation
import ReduceOS.DriverRelocation
import ReduceOS.Overlay
import ReduceOS.MemoryMap
import ReduceOS.MemoryMarking
import ReduceOS.Canonicalize
import ReduceOS.Kopen
import ReduceOS.MountFrame
import ReduceOS.Numerals
import ReduceOS.Ramdev
import ReduceOS.Ustar
import ReduceOS.FileSlice
import ReduceOS.UstarScan
import ReduceOS.UstarHeader
import ReduceOS.UstarArchive
import ReduceOS.UstarLookup
import ReduceOS.UstarEntries
import ReduceOS.UstarListing
import ReduceOS.HeapBreak
import ReduceOS.FileOffset
import ReduceOS.FrameSearch
import ReduceOS.InitialFrames
import ReduceOS.FrameAddress
import ReduceOS.ReferenceBounds
import ReduceOS.AddressAliases
import ReduceOS.WakePass
import ReduceOS.DownwardStack
import ReduceOS.InitialStack
import ReduceOS.RegionAllocation
import ReduceOS.RegionFree
import ReduceOS.ElfImage
import ReduceOS.ElfBounds
import ReduceOS.ElfPlan
import ReduceOS.ElfConfinement
import ReduceOS.ExecFailure
import ReduceOS.ImageLayers
import ReduceOS.ElfContents
import ReduceOS.ReaperPass
import ReduceOS.PositionalList
import ReduceOS.RunQueue
import ReduceOS.LockBalance
import ReduceOS.PoolSearch
import ReduceOS.PoolFree
import ReduceOS.RegionRoundTrip
import ReduceOS.RelocationValues
import ReduceOS.HeapLocation
import ReduceOS.Semaphores
import ReduceOS.CircularBuffer
import ReduceOS.Clock
import ReduceOS.CivilDate
import ReduceOS.LocalTime
import ReduceOS.CmosClock
import ReduceOS.Terminal
import ReduceOS.UsbConfiguration
import ReduceOS.UhciControl
import ReduceOS.PciBar
import ReduceOS.OnesComplement
import ReduceOS.Checksums
import ReduceOS.Printf
import ReduceOS.AddressText
import ReduceOS.LongKeys
import ReduceOS.BoundedScan
import ReduceOS.Ksym
import ReduceOS.Kargs
import ReduceOS.OrderedForest
import ReduceOS.KernelTree
import ReduceOS.TreeRemoval
import ReduceOS.AddressRange
import ReduceOS.MemoryMove
import ReduceOS.NearestSymbol
import ReduceOS.MaximalRuns
import ReduceOS.Tokenizer
import ReduceOS.LineEditing
import ReduceOS.ShellCommand
import ReduceOS.PrdTable
import ReduceOS.OutputStream
import ReduceOS.IntegerNumerals
import ReduceOS.IntegerParsing
import ReduceOS.FirstDifference
import ReduceOS.CaseOrder
import ReduceOS.StringCopy
