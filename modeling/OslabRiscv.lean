import OslabRiscv.Lib.Assembly
import OslabRiscv.Lib.ByteStore
import OslabRiscv.Lib.Numerals
import OslabRiscv.Lib.Terminal
import OslabRiscv.Print.Printk
import OslabRiscv.Print.Numbers
import OslabRiscv.Print.Rendering
import OslabRiscv.Print.Copies
import OslabRiscv.Kernel.Entry
import OslabRiscv.Kernel.Harts
import OslabRiscv.Kernel.Lock
import OslabRiscv.Kernel.Contexts
import OslabRiscv.Fs.Disk
import OslabRiscv.Fs.Files
import OslabRiscv.Fs.Tree
import OslabRiscv.Fs.Locate
import OslabRiscv.Fs.Growth
import OslabRiscv.Fs.FileData
import OslabRiscv.Fs.Transfer
import OslabRiscv.Fs.FileSemantics
import OslabRiscv.Fs.Calls
import OslabRiscv.Fs.Edit
import OslabRiscv.Fs.Walk
import OslabRiscv.Fs.Effect
import OslabRiscv.Fs.FileFrame
import OslabRiscv.Fs.Volume
import OslabRiscv.Fs.CallSpec
import OslabRiscv.Fs.Format
import OslabRiscv.Fs.Runs
import OslabRiscv.Fs.Accounting
import OslabRiscv.Fs.Namespace
import OslabRiscv.Lib.IntrusiveList
import OslabRiscv.Sched.Lists
import OslabRiscv.Sched.Calls
import OslabRiscv.Sched.Placement
import OslabRiscv.Sched.Scheduler
import OslabRiscv.Sched.Processes
import OslabRiscv.Sched.Ending
import OslabRiscv.Sched.Runs
import OslabRiscv.Sched.Consistency
import OslabRiscv.Sched.Cores
import OslabRiscv.Sched.Mutex
import OslabRiscv.Sched.Holders
import OslabRiscv.Sched.LockKeys
import OslabRiscv.Sched.Barriers
import OslabRiscv.Lib.RingBuffer
import OslabRiscv.Mbox.Mailbox
import OslabRiscv.Mbox.Waiting
import OslabRiscv.Mbox.Fifo
import OslabRiscv.Mbox.Wakeups
import OslabRiscv.Mbox.Counters
import OslabRiscv.Fs.Cwd
import OslabRiscv.Fs.Links
import OslabRiscv.Fs.Descriptors
import OslabRiscv.Fs.Paths
import OslabRiscv.Fs.Lookup
import OslabRiscv.Fs.Creation
import OslabRiscv.Fs.FullMap
import OslabRiscv.Fs.Undo
import OslabRiscv.Fs.Resolution
import OslabRiscv.Mm.Paging
import OslabRiscv.Mm.Eviction
import OslabRiscv.Mm.Sectors
import OslabRiscv.Mm.Tables
import OslabRiscv.Mm.Frames
import OslabRiscv.Mm.Sharing
import OslabRiscv.Mm.Residency
import OslabRiscv.Mm.Runs
import OslabRiscv.Mm.Accounts
import OslabRiscv.Mm.SwapStore
import OslabRiscv.Mm.Snapshots
import OslabRiscv.Mm.Coherence
import OslabRiscv.Lib.LittleEndian
import OslabRiscv.Boot.Image
import OslabRiscv.Boot.RoundTrip
import OslabRiscv.Mm.Calls
import OslabRiscv.Mm.Ledger
import OslabRiscv.Sched.Pointers
import OslabRiscv.Sched.Switching
import OslabRiscv.Sched.Overflow
import OslabRiscv.Mm.Mappings
import OslabRiscv.Mm.Attachments
import OslabRiscv.Mm.Overlay
import OslabRiscv.Mm.KeyAgreement
import OslabRiscv.Mm.AddressMap
import OslabRiscv.Mm.Confinement
import OslabRiscv.Mm.Isolation
import OslabRiscv.Fs.Seeks
import OslabRiscv.Fs.Reads
import OslabRiscv.Fs.Lengths
import OslabRiscv.Fs.Removal
import OslabRiscv.Fs.EmptyDirs
import OslabRiscv.Fs.Exhaustion
import OslabRiscv.Fs.Opening
import OslabRiscv.Fs.PageBlocks
import OslabRiscv.Fs.FullScan
import OslabRiscv.Fs.Persistence
import OslabRiscv.Lib.Simulation
import OslabRiscv.Sched.Killing
import OslabRiscv.Sched.Selection
import OslabRiscv.Lib.WaitingLine
import OslabRiscv.Sched.Places
import OslabRiscv.Sched.Progress
import OslabRiscv.Sched.Conditions
import OslabRiscv.Sched.Likeness
import OslabRiscv.Sched.Signals
import OslabRiscv.Mm.Scan
import OslabRiscv.Sched.Programs
import OslabRiscv.Mm.Bytes
import OslabRiscv.Mm.Threads
import OslabRiscv.Mm.Loader
import OslabRiscv.Mm.Arguments
import OslabRiscv.Mm.IoRemap
import OslabRiscv.TinyLibc.Atol
import OslabRiscv.Drivers.Screen
import OslabRiscv.Drivers.Reflush
import OslabRiscv.Drivers.Shown
import OslabRiscv.Drivers.Packets
import OslabRiscv.Drivers.Receive
import OslabRiscv.Drivers.Transmit
import OslabRiscv.User.Shell
