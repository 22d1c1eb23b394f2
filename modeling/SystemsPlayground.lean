import SystemsPlayground.Lib.Word
import SystemsPlayground.Lib.Runs
import SystemsPlayground.Lib.LinkedList
import SystemsPlayground.Lib.Fifo
import SystemsPlayground.Lib.Recency
import SystemsPlayground.Lib.Shuffle
import SystemsPlayground.Lib.Checked
import SystemsPlayground.Lib.Saturating
import SystemsPlayground.Lib.Custody
import SystemsPlayground.Malloc.Model
import SystemsPlayground.Malloc.FreeList
import SystemsPlayground.Malloc.System
import SystemsPlayground.Malloc.Correctness
import SystemsPlayground.Malloc.Tiling
import SystemsPlayground.Malloc.Alignment
import SystemsPlayground.Malloc.DoubleFree
import SystemsPlayground.Malloc.Uniform
import SystemsPlayground.Prefetch.BufferPool
import SystemsPlayground.Prefetch.LruBufferPool
import SystemsPlayground.Prefetch.Readahead
import SystemsPlayground.Prefetch.Burst
import SystemsPlayground.Prefetch.HitLaw
import SystemsPlayground.Prefetch.Window
import SystemsPlayground.Prefetch.ReadAround
import SystemsPlayground.Prefetch.Locality
import SystemsPlayground.Prefetch.Agreement
import SystemsPlayground.Prefetch.Transparent
import SystemsPlayground.Prefetch.SlotBounds
import SystemsPlayground.Prefetch.Workload
import SystemsPlayground.Prefetch.Stage1
import SystemsPlayground.Prefetch.Generators
import SystemsPlayground.Block.Bio
import SystemsPlayground.Block.Split
import SystemsPlayground.Block.Segments
import SystemsPlayground.Block.Limits
import SystemsPlayground.Block.Chain
import SystemsPlayground.Block.Merge
import SystemsPlayground.Block.Queue
import SystemsPlayground.Block.Submit
import SystemsPlayground.Block.Endio
import SystemsPlayground.Block.Completion
import SystemsPlayground.Block.Outcome
import SystemsPlayground.Block.Transfer
import SystemsPlayground.Block.Update
import SystemsPlayground.Block.Progress
import SystemsPlayground.Block.Contiguous
import SystemsPlayground.Block.Dispatch
import SystemsPlayground.Block.Conservation
import SystemsPlayground.Block.Delivery
import SystemsPlayground.Block.Doorbell
import SystemsPlayground.Block.Mapping
import SystemsPlayground.Mm.PageCache
import SystemsPlayground.Mm.Readahead
import SystemsPlayground.Mm.Accounting
import SystemsPlayground.Mm.Filemap
import SystemsPlayground.Mm.Window
import SystemsPlayground.Mm.Sequential
import SystemsPlayground.Mm.System
import SystemsPlayground.Mm.Fault
import SystemsPlayground.Mm.Scan
