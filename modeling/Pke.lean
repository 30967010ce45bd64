import Pke.Lib.Prog
import Pke.Lib.Chain
import Pke.Lib.Radix
import Pke.Lib.RoundRobin
import Pke.Lib.Written
import Pke.Machine.Memory
import Pke.Machine.Hart
import Pke.Machine.TrapVectors
import Pke.Mm.Pmm
import Pke.Mm.Vmm
import Pke.Mm.PageTable
import Pke.Mm.MapPages
import Pke.Mm.Walk
import Pke.Mm.Single
import Pke.Mm.Translators
import Pke.Mm.Unmap
import Pke.Kernel.State
import Pke.Kernel.Sched
import Pke.Kernel.Process
import Pke.Kernel.Elf
import Pke.Kernel.Trap
import Pke.Kernel.Timer
import Pke.Kernel.System
import Pke.Kernel.Statics
import Pke.Sched.Quiet
import Pke.Sched.Queue
import Pke.Sched.Enter
import Pke.Sched.Step
import Pke.Sched.Traps
import Pke.Sched.Boot
import Pke.Sched.Runs
import Pke.Boot.Memory
import Pke.Boot.Allocator
import Pke.Space.Basic
import Pke.Space.Ops
import Pke.Space.Region
import Pke.Space.Alloc
import Pke.Space.Setup
import Pke.Boot.Paging
import Pke.Space.Fork
import Pke.Space.ForkLoop
import Pke.Boot.Elf
import Pke.Space.Invariant
import Pke.Space.DoFork
import Pke.Space.Moved
import Pke.Space.Syscalls
import Pke.Space.Traps
import Pke.Space.Steps
import Pke.Boot.Start
import Pke.Boot.Single
import Pke.Runs.Memory
import Pke.Runs.Statics
import Pke.Runs.Snapshot
import Pke.Runs.Results
import Pke.Runs.RoundRobin
import Pke.Runs.Identities
import Pke.Runs.Wait
import Pke.Runs.Roster
import Pke.Runs.Fairness
import Pke.Runs.Waiting
import Pke.Runs.Ticks
import Pke.Runs.Timer
import Pke.Runs.Faults
import Pke.Runs.Heap
import Pke.Runs.Recycle
import Pke.Runs.TrapEntry
import Pke.Kernel.Printf
import Pke.Util.Snprintf
import Pke.Runs.Format
import Pke.Runs.Print
import Pke.Build.KernelTable
import Pke.Build.Frames
import Pke.Build.DoFork
import Pke.Runs.Regions
import Pke.Build.DataRegion
import Pke.Runs.Served
import Pke.Runs.Ledger
import Pke.Runs.Exposed
import Pke.Build.Exposed
import Pke.Runs.Malloc
import Pke.Runs.Overwrite
import Pke.Build.Image
import Pke.Lib.Laid
import Pke.Spike.Fdt
import Pke.Spike.Tree
import Pke.Spike.Collect
import Pke.Spike.Probe
import Pke.Spike.Blob
import Pke.Lib.Interleave
import Pke.Spike.Htif
import Pke.Spike.Handshake
import Pke.Spike.Calls
import Pke.Spike.Atomic
import Pke.Spike.File
import Pke.Util.String
import Pke.Util.Atol
