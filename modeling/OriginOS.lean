import OriginOS.Boot.KernelInit
import OriginOS.Boot.SetupPage
import OriginOS.Device.BusyWait
import OriginOS.Device.Ide
import OriginOS.Device.IdeProtocol
import OriginOS.Device.IdeRegs
import OriginOS.Device.Ioqueue
import OriginOS.Device.IoqueueInvariant
import OriginOS.Device.IoqueueRuns
import OriginOS.Device.Keyboard
import OriginOS.Device.Partition
import OriginOS.Device.PartitionBuffers
import OriginOS.Device.PartitionChain
import OriginOS.Device.Timer
import OriginOS.Fs.Dir
import OriginOS.Fs.DirUndo
import OriginOS.Fs.File
import OriginOS.Fs.FilesysInit
import OriginOS.Fs.Format
import OriginOS.Fs.FormatBuffer
import OriginOS.Fs.FormatSpec
import OriginOS.Fs.Inode
import OriginOS.Fs.InodeRuns
import OriginOS.Fs.Layout
import OriginOS.Fs.Mount
import OriginOS.Kernel.AddressSpaces
import OriginOS.Kernel.ArenaSteps
import OriginOS.Kernel.Arenas
import OriginOS.Kernel.Bitmap
import OriginOS.Kernel.BitmapWord
import OriginOS.Kernel.Debug
import OriginOS.Kernel.Entry
import OriginOS.Kernel.Exhaustion
import OriginOS.Kernel.FailedPages
import OriginOS.Kernel.FlatView
import OriginOS.Kernel.FrameInvariant
import OriginOS.Kernel.Heap
import OriginOS.Kernel.HeapFree
import OriginOS.Kernel.HeapInvariant
import OriginOS.Kernel.HeapLoops
import OriginOS.Kernel.HeapMalloc
import OriginOS.Kernel.HeapRuns
import OriginOS.Kernel.HeapSafety
import OriginOS.Kernel.HeapSizes
import OriginOS.Kernel.HeapSteps
import OriginOS.Kernel.Interrupt
import OriginOS.Kernel.List
import OriginOS.Kernel.LockBalance
import OriginOS.Kernel.Memory
import OriginOS.Kernel.MemorySteps
import OriginOS.Kernel.PageData
import OriginOS.Kernel.PageProgress
import OriginOS.Kernel.PageRuns
import OriginOS.Kernel.PageSteps
import OriginOS.Kernel.PageTableAdd
import OriginOS.Kernel.Pic
import OriginOS.Kernel.Pool
import OriginOS.Kernel.PoolLayout
import OriginOS.Kernel.PoolPaths
import OriginOS.Kernel.PoolRuns
import OriginOS.Kernel.Print
import OriginOS.Kernel.Printk
import OriginOS.Kernel.PutInt
import OriginOS.Kernel.Stdio
import OriginOS.Kernel.StrSearch
import OriginOS.Kernel.Tlb
import OriginOS.Kernel.Unchanged
import OriginOS.Lib.Bytes
import OriginOS.Lib.Dlist
import OriginOS.Lib.Links
import OriginOS.Lib.Paging
import OriginOS.Lib.Pic8259
import OriginOS.Lib.Prog
import OriginOS.Lib.Ring
import OriginOS.Lib.Sectors
import OriginOS.Lib.Stores
import OriginOS.Lib.System
import OriginOS.Lib.Text
import OriginOS.Lib.X86
import OriginOS.Lib.X86Desc
import OriginOS.Lib.X86Stack
import OriginOS.Thread.Fairness
import OriginOS.Thread.LockInvariant
import OriginOS.Thread.MachineSteps
import OriginOS.Thread.Pid
import OriginOS.Thread.Preempt
import OriginOS.Thread.Sched
import OriginOS.Thread.SchedInvariant
import OriginOS.Thread.SchedRuns
import OriginOS.Thread.Switch
import OriginOS.Thread.Sync
import OriginOS.Thread.SyncInvariant
import OriginOS.Thread.SyncRuns
import OriginOS.Userprog.ActiveSpace
import OriginOS.Userprog.Process
import OriginOS.Userprog.SyscallTable
import OriginOS.Userprog.Tss
import OriginOS.Userprog.UserFree
