import Zircon.Memalloc.Range
import Zircon.Memalloc.Algorithm
import Zircon.Memalloc.Dominant
import Zircon.Runs
import Zircon.Memalloc.SweepProof
import Zircon.Memalloc.RamRanges
import Zircon.Memalloc.PoolNodes
import Zircon.Memalloc.Pool
import Zircon.KeyedList
import Zircon.StateTriple
import Zircon.Memalloc.PoolView
import Zircon.Memalloc.TypeMap
import Zircon.Memalloc.PoolRun
import Zircon.Memalloc.PoolUpdate
import Zircon.Memalloc.PoolRefines
import Zircon.SortedIndex
import Zircon.RegionAlloc.Model
import Zircon.RegionAlloc.Invariant
import Zircon.RegionAlloc.Trees
import Zircon.RegionAlloc.Merge
import Zircon.RegionAlloc.Subtract
import Zircon.RegionAlloc.Alloc
import Zircon.RegionAlloc.Add
import Zircon.RegionAlloc.Contract
import Zircon.Bitmap.RleBitmap
import Zircon.Bitmap.Invariant
import Zircon.Bitmap.Set
import Zircon.Bitmap.Clear
import Zircon.Bitmap.Calls
import Zircon.Bitmap.Search
import Zircon.Bitmap.Raw
import Zircon.Loop
import Zircon.IdAllocator.Levels
import Zircon.IdAllocator.Grow
import Zircon.Pow2Range.AddRange
import Zircon.Sched.RunQueue
import Zircon.Devicetree.Blob
import Zircon.Intrusive
import Zircon.Buddy
import Zircon.Inspect.Heap
import Zircon.Inspect.FreeList
import Zircon.Inspect.HeapInvariant
import Zircon.Inspect.Allocate
import Zircon.Inspect.Free
import Zircon.Inspect.Run
import Zircon.Tftp.Session
import Zircon.Tftp.Transfer
import Zircon.Tftp.Wire
import Zircon.Tftp.Handlers
import Zircon.Cmpct.Heap
import Zircon.Cmpct.Alloc
import Zircon.Cmpct.Buckets
import Zircon.Fbl.GPArena
import Zircon.Align
import Zircon.RegionAlloc.FirstFit
import Zircon.ChainLock.Protocol
import Zircon.ChainLock.Safety
import Zircon.Word
import Zircon.Affine.Scale
import Zircon.Affine.Reduce
import Zircon.Inspect.Scanner
import Zircon.Inspect.Roundtrip
import Zircon.Inspect.Reader
import Zircon.Inspect.State
import Zircon.Vm.RegionList
import Zircon.Vm.PageList
import Zircon.Vm.PageList.Lookup
import Zircon.Vm.PageList.Traversal
import Zircon.Devicetree.Path
import Zircon.Devicetree.Property
import Zircon.Kernel.Timer
import Zircon.Kernel.WaitQueue
import Zircon.IdAllocator.Operations
import Zircon.VirtualAlloc
import Zircon.Ring
import Zircon.Debuglog.Log
import Zircon.Debuglog.Queue
import Zircon.Debuglog.Refinement
