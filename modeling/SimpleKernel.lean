import SimpleKernel.Boot.CleanMap
import SimpleKernel.Boot.ClearedFrames
import SimpleKernel.Boot.Coverage
import SimpleKernel.Boot.EarlyPmm
import SimpleKernel.Boot.FreeCount
import SimpleKernel.Boot.FreeRam
import SimpleKernel.Boot.Gdt
import SimpleKernel.Boot.KernelMain
import SimpleKernel.Boot.KernelPages
import SimpleKernel.Boot.LatePmm
import SimpleKernel.Boot.Placement
import SimpleKernel.Boot.Sanitizing
import SimpleKernel.Boot.Setup
import SimpleKernel.Devices.Pci
import SimpleKernel.Frames.Exhaustion
import SimpleKernel.Heap.Allocation
import SimpleKernel.Heap.BackLinks
import SimpleKernel.Heap.Backing
import SimpleKernel.Heap.BestFitSplitting
import SimpleKernel.Heap.Blocks
import SimpleKernel.Heap.Clearing
import SimpleKernel.Heap.Coalescing
import SimpleKernel.Heap.Contents
import SimpleKernel.Heap.FrameAccounts
import SimpleKernel.Heap.HeapPages
import SimpleKernel.Heap.Insertion
import SimpleKernel.Heap.Isolation
import SimpleKernel.Heap.LiveAreas
import SimpleKernel.Heap.LiveBlocks
import SimpleKernel.Heap.PageSplitting
import SimpleKernel.Heap.Refinement
import SimpleKernel.Heap.Release
import SimpleKernel.Heap.ReleaseOrder
import SimpleKernel.Heap.Requests
import SimpleKernel.Heap.Search
import SimpleKernel.Heap.Sessions
import SimpleKernel.Heap.Stored
import SimpleKernel.Heap.Walk
import SimpleKernel.Interrupts.Delivery
import SimpleKernel.Interrupts.Handlers
import SimpleKernel.Interrupts.Idt
import SimpleKernel.Interrupts.Pic
import SimpleKernel.Interrupts.Wrappers
import SimpleKernel.Libc.Bytes
import SimpleKernel.Libc.Printf
import SimpleKernel.Libc.Strcpy
import SimpleKernel.Libc.Strings
import SimpleKernel.Library.AreaHeap
import SimpleKernel.Library.AreaMerging
import SimpleKernel.Library.BestFit
import SimpleKernel.Library.ByteMemory
import SimpleKernel.Library.Descriptors
import SimpleKernel.Library.InterruptController
import SimpleKernel.Library.KnownBytes
import SimpleKernel.Library.Masks
import SimpleKernel.Library.Numerals
import SimpleKernel.Library.Runs
import SimpleKernel.Library.Segments
import SimpleKernel.Library.StackMachine
import SimpleKernel.Library.TextLayout
import SimpleKernel.Paging.AddressSpace
import SimpleKernel.Paging.Installing
import SimpleKernel.Paging.Mapping
import SimpleKernel.Paging.Tables
import SimpleKernel.Paging.Translation
import SimpleKernel.Paging.Unmapping
import SimpleKernel.Terminal.Console
import SimpleKernel.Terminal.Interrupts
import SimpleKernel.Terminal.Numbers
import SimpleKernel.Terminal.Screen
import SimpleKernel.Terminal.SharedMemory
import SimpleKernel.Terminal.Tty
