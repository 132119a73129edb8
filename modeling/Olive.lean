import Olive.Library.Runs
import Olive.Library.Loops
import Olive.Library.ByteMemory
import Olive.Library.Forest
import Olive.Pmm.Ownership
import Olive.Heap.Wrappers
import Olive.Heap.Model
import Olive.Heap.Exhaustion
import Olive.LibString
import Olive.Vmm.Model
import Olive.Vmm.Tables
import Olive.Vmm.Tree
import Olive.Vmm.Spec
import Olive.Vmm.Refinement
import Olive.Library.Allotment
import Olive.Vmm.FrameOwnership
import Olive.Library.LastWrite
import Olive.Vmm.Init
import Olive.Vmm.Supply
import Olive.Vmm.Coverage
import Olive.Vmm.Containment
import Olive.Vmm.KernelImage
import Olive.Vmm.Framebuffer
import Olive.Pmm.Accounting
import Olive.Pmm.Release
import Olive.Pmm.Access
import Olive.Vmm.Lookup
import Olive.Library.Demand
import Olive.Vmm.OutOfTables
import Olive.Idt.Model
import Olive.Idt.Transparency
import Olive.Library.Code
import Olive.Library.Threads
import Olive.Locks.Liballoc
import Olive.Locks.Discipline
import Olive.Locks.PmmExclusion
import Olive.Locks.Sequential
import Olive.Locks.SequentialHeap
import Olive.Locks.Puts
import Olive.Idt.Handler
import Olive.Library.Walks
import Olive.Idt.Backtrace
import Olive.Library.Interrupts
import Olive.Idt.Interrupts
import Olive.Library.Linked
import Olive.Library.Packing
import Olive.Locks.ErrorCounts
import Olive.Library.Objects
import Olive.Library.Alone
import Olive.Heap.Headers
import Olive.Heap.Layout
import Olive.Heap.Splices
import Olive.Heap.Install
import Olive.Heap.Edits
import Olive.Heap.Search
import Olive.Heap.Growth
import Olive.Heap.Placement
import Olive.Heap.Removal
import Olive.Heap.Kfree
import Olive.Heap.Metadata
import Olive.Heap.Calls
import Olive.Heap.Realloc
import Olive.Heap.Clients
import Olive.Heap.Service
import Olive.Heap.Boot
import Olive.Library.Writers
import Olive.Printf.Refinement
import Olive.Printf.Checked
import Olive.Idt.Report
