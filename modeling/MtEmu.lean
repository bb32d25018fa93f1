import MtEmu.Lib.Machine
import MtEmu.Lib.Copy
import MtEmu.Lib.Cut
import MtEmu.Lib.Loop
import MtEmu.Bare.Desc
import MtEmu.Bare.Xfer
import MtEmu.Bare.Split
import MtEmu.Bare.Counters
import MtEmu.Bare.Walk
import MtEmu.Bare.Chain
import MtEmu.Bare.Block
import MtEmu.Bare.Layout
import MtEmu.Bare.Links
import MtEmu.Bare.Channel
import MtEmu.Bare.Completion
import MtEmu.Bare.Overlap
import MtEmu.Engine.Core
import MtEmu.Engine.Calls
import MtEmu.Engine.Driver
import MtEmu.Engine.Stall
import MtEmu.Engine.Busy
import MtEmu.Engine.Hw
import MtEmu.Engine.Errors
import MtEmu.Engine.DmaRw
import MtEmu.Engine.Report
import MtEmu.Engine.Lifetime
import MtEmu.Mmu.Pagetable
import MtEmu.Mmu.Translate
import MtEmu.Engine.History
import MtEmu.Bare.Info
import MtEmu.Bare.Window
import MtEmu.Engine.LifeCycle
import MtEmu.Engine.Outcome
import MtEmu.Engine.Owner
import MtEmu.Ipc.Response
import MtEmu.Ipc.Mailbox
import MtEmu.Ipc.Matching
import MtEmu.Dmabuf.Alloc
import MtEmu.Dmabuf.Result
import MtEmu.Ioctl.BarRw
import MtEmu.Ioctl.Dispatch
import MtEmu.Ioctl.Buffer
import MtEmu.Lib.Ledger
import MtEmu.Probe.Irq
import MtEmu.Probe.Rollback
import MtEmu.Vf.Ddr
import MtEmu.Vf.DmaInfo
import MtEmu.Vf.Eata
import MtEmu.Vf.Routing
import MtEmu.Engine.Residue
import MtEmu.Bare.Counts
import MtEmu.Bare.Lengths
import MtEmu.Bare.Merge
import MtEmu.Bare.Scratch
import MtEmu.Engine.Chunk
import MtEmu.Engine.Heap
import MtEmu.Engine.Free
import MtEmu.Engine.Grow
import MtEmu.Engine.Build
import MtEmu.Engine.Scatter
import MtEmu.Engine.Leak
import MtEmu.Engine.Pages
import MtEmu.Engine.Balance
import MtEmu.Dmabuf.FirstFit
import MtEmu.Dmabuf.File
import MtEmu.Dmabuf.Stream
import MtEmu.Engine.Retire
import MtEmu.Pcief.Bar
import MtEmu.Pcief.Bounds
import MtEmu.Pcief.Width
import MtEmu.Pcief.IoSplit
import MtEmu.Ioctl.Handlers
import MtEmu.Pcief.Tgt
import MtEmu.Lib.Ranges
import MtEmu.Mmu.Pools
import MtEmu.Mmu.Unmap
import MtEmu.Vf.EataInit
import MtEmu.Lib.Crc
import MtEmu.Pcief.Crc
import MtEmu.Bare.Dump
import MtEmu.Ioctl.Select
import MtEmu.Lib.Avl
import MtEmu.Vmem.Tree
import MtEmu.Lib.Tiling
import MtEmu.Vmem.Alloc
import MtEmu.Vmem.Heap
import MtEmu.Vmem.Runs
import MtEmu.Engine.Moved
import MtEmu.Pcief.Remote
import MtEmu.Pcief.IoPath
import MtEmu.Dmabuf.Clients
import MtEmu.Ioctl.TestInt
import MtEmu.Engine.Delivery
