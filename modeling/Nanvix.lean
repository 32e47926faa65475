import Nanvix.Lib.Trace
import Nanvix.Lib.Ring
import Nanvix.Lib.Count
import Nanvix.Lib.Store
import Nanvix.Lib.Rpc
import Nanvix.Lib.Linear
import Nanvix.Lib.Network
import Nanvix.Lib.Fair
import Nanvix.Lib.Fifo
import Nanvix.Lib.Search
import Nanvix.Lib.Linked
import Nanvix.Lib.Lock
import Nanvix.Lib.TwoLevel
import Nanvix.Lib.Mask
import Nanvix.Lib.Bitmap
import Nanvix.Lib.Bytes
import Nanvix.Noc.Data
import Nanvix.Noc.Mbuffer
import Nanvix.Noc.Requests
import Nanvix.Noc.Active
import Nanvix.Noc.Outcome
import Nanvix.Noc.Frame
import Nanvix.Noc.Boot
import Nanvix.Noc.Pools
import Nanvix.Noc.Calls
import Nanvix.Noc.RequestQueue
import Nanvix.Noc.Ownership
import Nanvix.Noc.Messages
import Nanvix.Noc.Retry
import Nanvix.Noc.Communicator
import Nanvix.Noc.Kernel
import Nanvix.Noc.KernelOutcome
import Nanvix.Noc.Counters
import Nanvix.Noc.Accounting
import Nanvix.Noc.Loans
import Nanvix.Noc.Flight
import Nanvix.Noc.Assertions
import Nanvix.Noc.Delivery
import Nanvix.Noc.LocalDelivery
import Nanvix.Noc.Demux
import Nanvix.Noc.Payload
import Nanvix.Noc.Residue
import Nanvix.Noc.Interference
import Nanvix.Noc.Latency
import Nanvix.Noc.Aim
import Nanvix.Noc.Starvation
import Nanvix.Noc.Parties
import Nanvix.Noc.Authority
import Nanvix.Noc.Destination
import Nanvix.Noc.Flow
import Nanvix.Noc.Network
import Nanvix.Noc.Discover
import Nanvix.Noc.Address
import Nanvix.Sync.Vsync
import Nanvix.Sync.Nodes
import Nanvix.Sync.Outcome
import Nanvix.Sync.Busy
import Nanvix.Sync.Refcount
import Nanvix.Sync.Identity
import Nanvix.Sys.Syscalls
import Nanvix.Sys.Board
import Nanvix.Sys.Progress
import Nanvix.Pm.Thread
import Nanvix.Pm.Sections
import Nanvix.Pm.Create
import Nanvix.Pm.Moves
import Nanvix.Pm.Table
import Nanvix.Pm.Assertions
import Nanvix.Pm.Order
import Nanvix.Pm.Grants
import Nanvix.Pm.Life
import Nanvix.Pm.Stacks
import Nanvix.Pm.Switch
import Nanvix.Pm.Calm
import Nanvix.Pm.Sleep
import Nanvix.Pm.Ids
import Nanvix.Pm.Owners
import Nanvix.Pm.Join
import Nanvix.Pm.Semaphore
import Nanvix.Pm.SemaphoreList
import Nanvix.Pm.SemaphoreCount
import Nanvix.Pm.Exception
import Nanvix.Pm.Handoff
import Nanvix.Pm.Single
import Nanvix.Pm.Wakeup
import Nanvix.Pm.Signal
import Nanvix.Mm.Page
import Nanvix.Mm.Table
import Nanvix.Mm.Unmap
import Nanvix.Mm.Space
import Nanvix.Mm.Refine
import Nanvix.Mm.Kernel
import Nanvix.Mm.Frames
import Nanvix.Mm.Conserve
import Nanvix.Mm.Bitmap
import Nanvix.Mm.Area
import Nanvix.Sys.Cluster
import Nanvix.Dev.Packets
import Nanvix.Sys.Write
import Nanvix.Dev.Rtl8139
import Nanvix.Dev.Pci
import Nanvix.Dev.Ethoc
import Nanvix.Dev.EthocPlacement
import Nanvix.Dev.EthocOrder
import Nanvix.Lib.Blocks
import Nanvix.Net.Mem
import Nanvix.Net.MemBlocks
import Nanvix.Net.MemCalls
import Nanvix.Net.MemFree
import Nanvix.Net.Regions
import Nanvix.Lib.Ones
import Nanvix.Net.Checksum
