import Roswell.Ports.PageSupply
import Roswell.Verified.Runs
import Roswell.Ports.PageSupplyLists
import Roswell.Ports.PageSupplyOps
import Roswell.Ports.PageSupplyRelocate
import Roswell.Ports.PageSupplyRuns
import Roswell.Verified.ScanDown
import Roswell.Ports.PageSupplyFloor
import Roswell.Ports.PageTables
import Roswell.Ports.TitleVm
import Roswell.Ports.TitleVmFrames
import Roswell.Ports.TitleVmRegions
import Roswell.Ports.TitleVmLoops
import Roswell.Ports.TitleVmRuns
import Roswell.Ports.Contig
import Roswell.Verified.Holdings
import Roswell.Ports.ContigTable
import Roswell.Ports.ContigClaim
import Roswell.Ports.ContigRuns
import Roswell.Ports.ContigHistories
import Roswell.Ports.VmSteps
import Roswell.Ports.FrameOwners
import Roswell.Ports.FrameRaces
import Roswell.Ports.FrameHistories
import Roswell.Ports.PageWindow
import Roswell.Verified.Bitmap
import Roswell.Ports.PoolPages
import Roswell.Ports.SysVa
import Roswell.Ports.FatxGeometry
import Roswell.Ports.FatxDir
import Roswell.Ports.FatxEnum
import Roswell.Ports.FatxNames
import Roswell.Ports.FatxDirWrite
import Roswell.Ports.FatxFcb
import Roswell.Ports.Fat
import Roswell.Ports.FatxRename
import Roswell.Ports.FatChains
import Roswell.Ports.FatSizes
import Roswell.Ports.BucketPool
import Roswell.Ports.BucketPoolArena
import Roswell.Ports.BucketPoolLock
import Roswell.Ports.BucketPoolRuns
import Roswell.Verified.Endian
import Roswell.Verified.Absorb
import Roswell.Verified.Sha1
import Roswell.Ports.Sha
import Roswell.Ports.Des
import Roswell.Ports.DesCbc
import Roswell.Ports.BigNum
import Roswell.Ports.ModExp
import Roswell.Ports.Rc4
import Roswell.Ports.Rsa
import Roswell.Ports.Xdvdfs
import Roswell.Ports.VfatWrite
import Roswell.Ports.FatGrowth
import Roswell.Ports.RwLock
import Roswell.Ports.WriteThrough
import Roswell.Ports.CriticalSection
import Roswell.Ports.SList
import Roswell.Ports.TitleApc
import Roswell.Ports.XbeSections
import Roswell.Ports.EventCache
import Roswell.Ports.TitleObjects
import Roswell.Ports.Eeprom
import Roswell.Ports.RelocateMemory
import Roswell.Ports.FileCache
import Roswell.Ports.FileCacheTable
import Roswell.Ports.PageSupplyDests
import Roswell.Ports.PageSupplyMapped
import Roswell.Ports.ContigBounds
import Roswell.Ports.TitleVmProtect
import Roswell.Ports.TitleVmFailures
import Roswell.Ports.TitleVmShortage
import Roswell.Ports.MdlLocks
import Roswell.Ports.FatAllocation
import Roswell.Ports.FatSearch
import Roswell.Ports.PerformanceCounter
import Roswell.Ports.ScatterGather
import Roswell.Ports.LoaderMem
import Roswell.Ports.TranslateOa
import Roswell.Ports.TitleHandles
