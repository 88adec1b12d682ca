import RtBoot.ArgTable
import RtBoot.BlockTable
import RtBoot.BurstError
import RtBoot.ByteOrder
import RtBoot.ByteSearch
import RtBoot.CString
import RtBoot.Cache
import RtBoot.Calltrace
import RtBoot.Clock
import RtBoot.CmdlineTokens
import RtBoot.Console
import RtBoot.Dhcp
import RtBoot.DhcpAlloc
import RtBoot.DhcpOptions
import RtBoot.DhcpPool
import RtBoot.DhcpRelease
import RtBoot.DhcpStale
import RtBoot.Env
import RtBoot.EnvAtomic
import RtBoot.EnvFlash
import RtBoot.EnvParse
import RtBoot.EnvReads
import RtBoot.EnvSpace
import RtBoot.EthPublish
import RtBoot.EthReceive
import RtBoot.EthTransmit
import RtBoot.Ethernet
import RtBoot.Event
import RtBoot.FairRun
import RtBoot.Flash
import RtBoot.FlashIsolation
import RtBoot.FlashProgress
import RtBoot.FlashStatus
import RtBoot.FlashThread
import RtBoot.FormatRoundTrip
import RtBoot.Heap
import RtBoot.HsUart
import RtBoot.Image
import RtBoot.ImageCorruption
import RtBoot.ImageListing
import RtBoot.Leb128
import RtBoot.LinuxLoader
import RtBoot.LinuxParams
import RtBoot.LoaderInput
import RtBoot.LwipReceive
import RtBoot.Lzma
import RtBoot.Machine
import RtBoot.Memcpy
import RtBoot.Memory
import RtBoot.MemoryMap
import RtBoot.MultipartForm
import RtBoot.Numeral
import RtBoot.PartImages
import RtBoot.Printf
import RtBoot.Qsort
import RtBoot.QsortPartition
import RtBoot.QsortSorts
import RtBoot.Ramfs
import RtBoot.Random
import RtBoot.Rearrange
import RtBoot.RelocCodec
import RtBoot.RelocFile
import RtBoot.RelocTool
import RtBoot.Relocation
import RtBoot.Ring
import RtBoot.Run
import RtBoot.Scanf
import RtBoot.Semaphore
import RtBoot.Sfud
import RtBoot.SmallMem
import RtBoot.SmallMemBlocks
import RtBoot.SmallMemCalls
import RtBoot.SmallMemLayout
import RtBoot.SmallMemOps
import RtBoot.SmallMemOwner
import RtBoot.SmallMemRuns
import RtBoot.Span
import RtBoot.Telnet
import RtBoot.TelnetTokens
import RtBoot.Tftp
import RtBoot.TftpOrigin
import RtBoot.TftpResult
import RtBoot.Upload
import RtBoot.UploadAccess
import RtBoot.UploadAgrees
import RtBoot.UploadComplete
import RtBoot.UploadForm
import RtBoot.UploadHeap
import RtBoot.UploadMain
import RtBoot.UploadMemory
import RtBoot.UploadOwns
import RtBoot.UploadParts
import RtBoot.UploadProgress
import RtBoot.UploadRounds
import RtBoot.UploadStream
import RtBoot.WriteBack
