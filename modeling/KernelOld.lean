import KernelOld.Mem.Kheap.Window
import KernelOld.Mem.Kheap.FreeOrder
import KernelOld.Mem.Kheap.Realloc
import KernelOld.Mem.Pmm.Bounds
import KernelOld.Mem.Paging.Boot
import KernelOld.Util.ListEdges
import KernelOld.Mem.Space.RegionBounds
import KernelOld.Mem.Space.Translation
import KernelOld.Sys.ElfTrace
import KernelOld.Sched.Killed
import KernelOld.Sched.DeadCpu
import KernelOld.Sched.Locks
import KernelOld.Sched.RoundRobin
import KernelOld.Sched.Balance
import KernelOld.Fs.Vfs.TokenRaces
import KernelOld.Fs.Vfs.PathHeap
import KernelOld.Fs.Vfs.Strsplit
import KernelOld.Util.Printf
import KernelOld.Util.Bmp
import KernelOld.Fs.Ext2.Allocations
import KernelOld.Fs.Ext2.Descriptors
import KernelOld.Fs.Ext2.BlockMap
import KernelOld.Fs.Ext2.FileRuns
import KernelOld.Fs.Ext2.Scan
import KernelOld.Fs.Fat.FindDir
import KernelOld.Sys.FdCalls
import KernelOld.Sys.Getcwd
import KernelOld.Sys.ExecArgs
import KernelOld.Sys.Signals
import KernelOld.Sys.Console
import KernelOld.Intr.Exceptions
import KernelOld.Drivers.Input.Reads
import KernelOld.Drivers.PciWrite
import KernelOld.Drivers.Storage.AhciErrors
import KernelOld.Drivers.Storage.Gpt
import KernelOld.Drivers.Storage.Partitions
import KernelOld.Acpi.MadtBounds
import KernelOld.Arch.Smp
