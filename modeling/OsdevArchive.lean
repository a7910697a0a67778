import OsdevArchive.Cheapos.Coda
import OsdevArchive.Cheapos.Consoles
import OsdevArchive.Cheapos.Exec
import OsdevArchive.Cheapos.Fat12Exits
import OsdevArchive.Cheapos.Fat12Find
import OsdevArchive.Cheapos.Fat12Listing
import OsdevArchive.Cheapos.Fat12Load
import OsdevArchive.Cheapos.Fat12Mount
import OsdevArchive.Cheapos.Fat12Open
import OsdevArchive.Cheapos.FileTable
import OsdevArchive.Cheapos.FloppyCache
import OsdevArchive.Cheapos.Kill
import OsdevArchive.Cheapos.Mem
import OsdevArchive.Cheapos.MemMove
import OsdevArchive.Cheapos.MemResize
import OsdevArchive.Cheapos.Semaphoro
import OsdevArchive.Cheapos.Sessions
import OsdevArchive.Cheapos.TaskCorrente
import OsdevArchive.Cheapos.Tasks
import OsdevArchive.Cheapos.Waitpid
import OsdevArchive.DreamOS.Fismem
import OsdevArchive.DreamOS.FismemRecord
import OsdevArchive.DreamOS.FismemSearch
import OsdevArchive.ItaliOs.Ppp
import OsdevArchive.ItaliOs.PppExchange
import OsdevArchive.ItaliOs.PppFraming
import OsdevArchive.ItaliOs.PppOptions
import OsdevArchive.ItaliOs.Socket
import OsdevArchive.ItaliOs.SocketRuns
import OsdevArchive.ItaliOs.Tcp
import OsdevArchive.ItaliOs.TcpStream
import OsdevArchive.ItaliOs3.Allocation
import OsdevArchive.ItaliOs3.Exec
import OsdevArchive.ItaliOs3.Fat
import OsdevArchive.ItaliOs3.FatLoading
import OsdevArchive.ItaliOs3.FatPaths
import OsdevArchive.ItaliOs3.FatVolume
import OsdevArchive.ItaliOs3.Floppy
import OsdevArchive.ItaliOs3.Loading
import OsdevArchive.ItaliOs3.Memory
import OsdevArchive.ItaliOs3.MemoryInit
import OsdevArchive.ItaliOs3.MemoryRuns
import OsdevArchive.ItaliOs3.Messaggi
import OsdevArchive.ItaliOs3.Myfloat
import OsdevArchive.ItaliOs3.MyfloatCompare
import OsdevArchive.ItaliOs3.MyfloatProduct
import OsdevArchive.ItaliOs3.MyfloatQuotient
import OsdevArchive.ItaliOs3.MyfloatSum
import OsdevArchive.ItaliOs3.MyfloatValues
import OsdevArchive.ItaliOs3.Paging
import OsdevArchive.ItaliOs3.Relocation
import OsdevArchive.ItaliOs3.Spaces
import OsdevArchive.Lib.Bitmap
import OsdevArchive.Lib.ByteBuffer
import OsdevArchive.Lib.Calendar
import OsdevArchive.Lib.Chained
import OsdevArchive.Lib.CircList
import OsdevArchive.Lib.Counting
import OsdevArchive.Lib.Cursor
import OsdevArchive.Lib.Emptying
import OsdevArchive.Lib.Fifo
import OsdevArchive.Lib.LinkedList
import OsdevArchive.Lib.OnesComplement
import OsdevArchive.Lib.Options
import OsdevArchive.Lib.Overlay
import OsdevArchive.Lib.Owners
import OsdevArchive.Lib.PackedBits
import OsdevArchive.Lib.Partial
import OsdevArchive.Lib.Paths
import OsdevArchive.Lib.Prefixes
import OsdevArchive.Lib.References
import OsdevArchive.Lib.RingBuffer
import OsdevArchive.Lib.Runs
import OsdevArchive.Lib.Searches
import OsdevArchive.Lib.Spans
import OsdevArchive.Lib.Stores
import OsdevArchive.Lib.Stretches
import OsdevArchive.Lib.Sweep
import OsdevArchive.Lib.Texts
import OsdevArchive.Lib.Tiling
import OsdevArchive.Lib.Truncation
import OsdevArchive.Lib.UndoLog
import OsdevArchive.Minirighi.Arp
import OsdevArchive.Minirighi.Checksums
import OsdevArchive.Minirighi.Consoles
import OsdevArchive.Minirighi.Cow
import OsdevArchive.Minirighi.CowQueue
import OsdevArchive.Minirighi.DirPasses
import OsdevArchive.Minirighi.Dma
import OsdevArchive.Minirighi.Elf32
import OsdevArchive.Minirighi.EthRing
import OsdevArchive.Minirighi.Ext2Cwd
import OsdevArchive.Minirighi.Ext2Dates
import OsdevArchive.Minirighi.Ext2Dir
import OsdevArchive.Minirighi.Ext2File
import OsdevArchive.Minirighi.Ext2Geometry
import OsdevArchive.Minirighi.Ext2Inode
import OsdevArchive.Minirighi.Fat12
import OsdevArchive.Minirighi.Fat12Chains
import OsdevArchive.Minirighi.Fat12Delete
import OsdevArchive.Minirighi.Fat12Locate
import OsdevArchive.Minirighi.Fat12Lookup
import OsdevArchive.Minirighi.Fat12Names
import OsdevArchive.Minirighi.Fat12Sectors
import OsdevArchive.Minirighi.Fat12WriteBack
import OsdevArchive.Minirighi.FloppyCache
import OsdevArchive.Minirighi.FreeFrames
import OsdevArchive.Minirighi.HeaderLayout
import OsdevArchive.Minirighi.Inet
import OsdevArchive.Minirighi.InetAton
import OsdevArchive.Minirighi.Ip
import OsdevArchive.Minirighi.IpBounds
import OsdevArchive.Minirighi.IpQueue
import OsdevArchive.Minirighi.IpStore
import OsdevArchive.Minirighi.KillForest
import OsdevArchive.Minirighi.Kmalloc
import OsdevArchive.Minirighi.KmallocPages
import OsdevArchive.Minirighi.KmallocRefine
import OsdevArchive.Minirighi.KmallocRuns
import OsdevArchive.Minirighi.Machine
import OsdevArchive.Minirighi.PageFaults
import OsdevArchive.Minirighi.PageRefs
import OsdevArchive.Minirighi.PageRefsRuns
import OsdevArchive.Minirighi.PageViews
import OsdevArchive.Minirighi.Paging
import OsdevArchive.Minirighi.PhysRead
import OsdevArchive.Minirighi.PrivateMemory
import OsdevArchive.Minirighi.Queue
import OsdevArchive.Minirighi.QueueAgreement
import OsdevArchive.Minirighi.QueueLists
import OsdevArchive.Minirighi.RefreshQueues
import OsdevArchive.Minirighi.Sched
import OsdevArchive.Minirighi.ScheduleChoice
import OsdevArchive.Minirighi.Semaphore
import OsdevArchive.Minirighi.SemaphoreSafety
import OsdevArchive.Minirighi.SemaphoreWakeup
import OsdevArchive.Minirighi.Socket
import OsdevArchive.Minirighi.Task
import OsdevArchive.Minirighi.TaskCreate
import OsdevArchive.Minirighi.TaskCreateAtomic
import OsdevArchive.Minirighi.TaskKill
import OsdevArchive.Minirighi.TaskZombie
import OsdevArchive.Minirighi.Tcp
import OsdevArchive.Minirighi.UdpRoundTrip
import OsdevArchive.Minirighi.Umalloc
import OsdevArchive.Osso.AddressSpace
import OsdevArchive.Osso.CodaPronti
import OsdevArchive.Osso.DriverRegistry
import OsdevArchive.Osso.ElfLoader
import OsdevArchive.Osso.EventAttributes
import OsdevArchive.Osso.EventLists
import OsdevArchive.Osso.EventLocks
import OsdevArchive.Osso.Events
import OsdevArchive.Osso.Fat
import OsdevArchive.Osso.FatDir
import OsdevArchive.Osso.FatRead
import OsdevArchive.Osso.FatScan
import OsdevArchive.Osso.FatTable
import OsdevArchive.Osso.Mallosso
import OsdevArchive.Osso.MemAlloc
import OsdevArchive.Osso.MemCopy
import OsdevArchive.Osso.MemCopyExact
import OsdevArchive.Osso.Memory
import OsdevArchive.Osso.MemoryComplete
import OsdevArchive.Osso.MessageOrder
import OsdevArchive.Osso.MessagePages
import OsdevArchive.Osso.Messages
import OsdevArchive.Osso.PageTables
import OsdevArchive.Osso.Parser
import OsdevArchive.Osso.ParserRestores
import OsdevArchive.Osso.Registrations
import OsdevArchive.Osso.Scheduler
import OsdevArchive.Osso.Semaphore
import OsdevArchive.Osso.SemaphoreLockstep
import OsdevArchive.Osso.SemaphoreRuns
import OsdevArchive.Osso.Teardown
import OsdevArchive.Osso.TeardownExact
import OsdevArchive.Osso.TeardownFrees
import OsdevArchive.Osso.ThreadPlaces
import OsdevArchive.Osso.ThreadRuns
import OsdevArchive.Osso.Threads
import OsdevArchive.Osso.Vfs
import OsdevArchive.Osso.VfsPublishing
import OsdevArchive.Osso.WaitQueues
import OsdevArchive.Silvios.Blocks
import OsdevArchive.Silvios.Directories
import OsdevArchive.Silvios.EntryTree
import OsdevArchive.Silvios.FileRoundTrip
import OsdevArchive.Silvios.FileRuns
import OsdevArchive.Silvios.Files
import OsdevArchive.Silvios.Flush
import OsdevArchive.Silvios.Mem
import OsdevArchive.Silvios.MemRuns
import OsdevArchive.Silvios.Ownership
