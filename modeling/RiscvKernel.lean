import RiscvKernel.Lib.Queues
import RiscvKernel.Lib.Prog
import RiscvKernel.Lib.Lockstep
import RiscvKernel.Sync.Machine
import RiscvKernel.Sync.Lock
import RiscvKernel.Sync.Atomic
import RiscvKernel.Lib.CInt
import RiscvKernel.Lib.Bytes
import RiscvKernel.Lib.Transducer
import RiscvKernel.Lib.Numeral
import RiscvKernel.Io.Intf
import RiscvKernel.Io.Transfer
import RiscvKernel.Io.Format
import RiscvKernel.Io.Term
import RiscvKernel.Io.TermCount
import RiscvKernel.Io.TermLine
import RiscvKernel.Io.Console
import RiscvKernel.Io.Virtio
import RiscvKernel.Io.Vioblk
import RiscvKernel.Fs.Kfs
import RiscvKernel.Fs.Atomic
import RiscvKernel.Fs.KfsSpec
import RiscvKernel.Lib.Scatter
import RiscvKernel.Fs.WriteSpec
import RiscvKernel.Fs.Mkfs
import RiscvKernel.Fs.RoundTrip
import RiscvKernel.Fs.OpenTable
import RiscvKernel.Fs.OpenFailure
import RiscvKernel.Fs.Media
import RiscvKernel.Fs.Lookup
import RiscvKernel.Fs.Image
import RiscvKernel.Fs.SeekPast
import RiscvKernel.Fs.Positions
import RiscvKernel.Fs.Faults
import RiscvKernel.Fs.Exhaustion
import RiscvKernel.Lib.Refs
import RiscvKernel.Lib.Ring
import RiscvKernel.Io.Uart
import RiscvKernel.Io.UartRuns
import RiscvKernel.Io.Rbuf
import RiscvKernel.Io.Device
import RiscvKernel.Io.DevTab
import RiscvKernel.Io.VioblkSpec
import RiscvKernel.Io.VioblkGeometry
import RiscvKernel.Io.VioblkRequests
import RiscvKernel.Io.VioblkRounds
import RiscvKernel.Io.Faults
import RiscvKernel.Io.VioblkAtomic
import RiscvKernel.Lib.Chain
import RiscvKernel.Lib.Runs
import RiscvKernel.Memory.Phys
import RiscvKernel.Memory.Sv39
import RiscvKernel.Memory.Space
import RiscvKernel.Memory.PageTable
import RiscvKernel.Memory.Access
import RiscvKernel.Memory.Boot
import RiscvKernel.Memory.Heap
import RiscvKernel.Memory.UserPages
import RiscvKernel.Memory.Ranges
import RiscvKernel.Memory.PageFault
import RiscvKernel.Memory.Reclaim
import RiscvKernel.Memory.ReclaimSpec
import RiscvKernel.Memory.Segments
import RiscvKernel.Thread.Lists
import RiscvKernel.Thread.Machine
import RiscvKernel.Thread.Sched
import RiscvKernel.Thread.Runs
import RiscvKernel.Thread.Fifo
import RiscvKernel.Thread.Fork
import RiscvKernel.Thread.ForkCopy
import RiscvKernel.Thread.Join
import RiscvKernel.Thread.JoinRuns
import RiscvKernel.Thread.Process
import RiscvKernel.Thread.Pages
import RiscvKernel.Proc.Elf
import RiscvKernel.Proc.Headers
import RiscvKernel.Proc.Image
import RiscvKernel.Proc.OldData
import RiscvKernel.Sys.Syscall
import RiscvKernel.Sys.Tables
import RiscvKernel.Sys.Descriptors
import RiscvKernel.Sys.DeviceRefs
import RiscvKernel.Sys.UserMemory
import RiscvKernel.Sys.Validation
import RiscvKernel.Sys.Exec
import RiscvKernel.Timer.SleepList
import RiscvKernel.Timer.Compare
import RiscvKernel.Timer.Usleep
