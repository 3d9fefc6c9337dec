import Fos.Lib.Reach
import Fos.Queue
import Fos.Lib.Slab
import Fos.Heap.DynAlloc
import Fos.Heap.DynAllocInv
import Fos.Heap.DynAllocRun
import Fos.Heap.Bulk
import Fos.Heap.UHeap
import Fos.Heap.UHeapInv
import Fos.Heap.UHeapLimits
import Fos.Heap.UHeapNodes
import Fos.Heap.UHeapShare
import Fos.Heap.UHeapStray
import Fos.Cpu.Sched
import Fos.Cpu.SchedInv
import Fos.Cpu.SchedRun
import Fos.Cpu.EnvIds
import Fos.Cpu.SchedFrame
import Fos.Cpu.Aging
import Fos.Cpu.Line
import Fos.Cpu.Starvation
import Fos.Cpu.SchedInit
import Fos.Cpu.Selection
import Fos.Cpu.ExitEnv
import Fos.Cpu.EnvLookup
import Fos.Cpu.SetPriority
import Fos.Mem.Frame
import Fos.Mem.Paging
import Fos.Mem.PagingInv
import Fos.Mem.Rooted
import Fos.Heap.KHeapSteps
import Fos.Mem.Walk
import Fos.Mem.WalkRun
import Fos.Lib.Ledger
import Fos.Disk.PageFile
import Fos.Disk.PageFileInv
import Fos.Heap.KHeap
import Fos.Heap.KHeapParts
import Fos.Heap.KHeapInv
import Fos.Heap.KHeapRun
import Fos.Heap.KHeapBlind
import Fos.Heap.DynAllocChoice
import Fos.Heap.KHeapFit
import Fos.Heap.KHeapFail
import Fos.Heap.KHeapLock
import Fos.Heap.DynAllocFree
import Fos.Heap.AllocSound
import Fos.Conc.Channel
import Fos.Conc.Ksemaphore
import Fos.Conc.Sleeplock
import Fos.Mem.UserMem
import Fos.Mem.Share
import Fos.Mem.UserMemInv
import Fos.Mem.ShareInv
import Fos.Mem.ShareAgree
import Fos.Mem.ShareAlive
import Fos.Mem.ShareCount
import Fos.Mem.ShareNames
import Fos.Trap.Fault
import Fos.Trap.KernelHalf
import Fos.Trap.FaultSteps
import Fos.Trap.FaultInv
import Fos.Proc.Load
import Fos.Proc.LoadInv
import Fos.Proc.EnvInv
import Fos.Mem.Calls
import Fos.Trap.WsInv
import Fos.Proc.Access
import Fos.Trap.RegionInv
import Fos.Trap.Run
import Fos.Trap.RunInv
import Fos.Trap.KernelCalls
import Fos.Trap.FreeRequest
import Fos.Trap.Marked
import Fos.Trap.WsRun
import Fos.Trap.MarkRequest
import Fos.Trap.UserRun
import Fos.Disk.PageFileRead
import Fos.Trap.FrameData
import Fos.Trap.FirstTouch
import Fos.Trap.LruVictim
import Fos.Trap.ClockVictim
import Fos.Trap.ClockReplace
import Fos.Lib.Caching
import Fos.Trap.Optimal
import Fos.Trap.OptimalFaults
import Fos.Trap.RefStream
import Fos.Trap.RefStreamLog
import Fos.Trap.RefStreamValue
import Fos.Lib.Lockstep
import Fos.Heap.Stock
import Fos.Proc.LoadProgram
import Fos.Proc.LoadSupply
import Fos.Proc.SegmentFile
import Fos.Proc.LoadedSegment
import Fos.Proc.LoadFidelity
import Fos.Proc.CreateEnv
import Fos.Lib.Memory
import Fos.Str.Memory
import Fos.Lib.Runs
import Fos.Str.Split
import Fos.Cpu.RoundRobin
import Fos.Heap.KHeapTotal
import Fos.Mem.DelTable
import Fos.Mem.MapReplace
import Fos.Boot.BootMemory
import Fos.Boot.InitPaging
import Fos.Boot.ZeroPage
import Fos.Boot.MapRange
import Fos.Boot.BootRun
import Fos.Proc.WsLimit
import Fos.QueueMacros
import Fos.Cons.Ring
import Fos.Cons.Screen
import Fos.Lib.Blocks
import Fos.Lib.Numeral
import Fos.Str.Number
import Fos.Str.Text
import Fos.Str.FixedPoint
import Fos.Print.Printf
import Fos.Print.Run
import Fos.Print.Output
import Fos.Print.Number
import Fos.Print.Snprintf
import Fos.Cmd.Readline
import Fos.Cmd.ReadlineInv
import Fos.Cmd.ReadlineRun
import Fos.Cpu.PowersOfTwo
import Fos.Proc.Segments
import Fos.Conc.Kspinlock
import Fos.Lib.BoundedMap
import Fos.Disk.PageFileMap
import Fos.Disk.PageFileCount
import Fos.Disk.Ide
import Fos.Disk.DiskPages
import Fos.Boot.BootLoader
import Fos.Handoff.Code
import Fos.Handoff.Pre
import Fos.Handoff.Safe
import Fos.Lib.WriteBack
import Fos.Trap.PageCells
import Fos.Trap.CellCalls
import Fos.Proc.LoadCells
import Fos.Trap.FlatMemory
import Fos.Trap.LastWritten
import Fos.Trap.ProcessHeap
import Fos.Trap.CleanPages
import Fos.Trap.ReturnedPages
import Fos.Trap.HeapClosed
