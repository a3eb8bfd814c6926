import MVVM.Run
import MVVM.SyncOps.Log
import MVVM.SyncOps.Replay
import MVVM.SyncOps.Recorded
import MVVM.SyncOps.Progress
import MVVM.Checkpoint.Barrier
import MVVM.Gateway.Relay
import MVVM.Files.FdMap
import MVVM.Files.Restore
import MVVM.Sockets.Table
import MVVM.Sockets.Migrate
import MVVM.Cells
import MVVM.Frames.Aot
import MVVM.Frames.Interp
import MVVM.Analysis.Tree
import MVVM.Analysis.LoopCkpt
import MVVM.Analysis.Paths
import MVVM.Text
import MVVM.Analysis.WatToInst
import MVVM.Analysis.Parse
import MVVM.Analysis.WatText
import MVVM.Analysis.Tokens
import MVVM.Analysis.Grammar
import MVVM.Analysis.Entries
import MVVM.Analysis.Written
import MVVM.Analysis.TextTree
import MVVM.Analysis.Translate
import MVVM.Analysis.Faithful
import MVVM.Loop
import MVVM.Streams.Rdma
import MVVM.Streams.Socket
import MVVM.Maps
import MVVM.Wasi.Threads
import MVVM.Wasi.Args
import MVVM.Threads.Modules
import MVVM.Sorting
import MVVM.Threads.Order
import MVVM.Threads.Spawn
import MVVM.Threads.Adoption
import MVVM.Threads.Resume
import MVVM.Threads.Recover
import MVVM.Threads.Nested
import MVVM.Sockets.Suspend
import MVVM.Gateway.Packet
import MVVM.Gateway.Forward
import MVVM.Interp.Leb
import MVVM.Interp.Scan
import MVVM.Interp.Body
import MVVM.Interp.Scanned
import MVVM.Interp.Labels
import MVVM.Interp.Restored
import MVVM.Interp.Typing
import MVVM.Interp.Heights
import MVVM.Interp.Terminates
import MVVM.Gateway.Pairs
import MVVM.Files.Policies
import MVVM.Sockets.Opcodes
import MVVM.Threads.Memory
import MVVM.Streams.Readers
import MVVM.Analysis.SimpleFunc
import MVVM.Analysis.Executions
import MVVM.Analysis.ModifiedLocals
import MVVM.Analysis.Reached
import MVVM.Analysis.Latency
import MVVM.Analysis.Qualified
import MVVM.Analysis.Returns
import MVVM.Analysis.Script
import MVVM.Files.Rename
import MVVM.SyncOps.Waits
import MVVM.SyncOps.Init
import MVVM.Gateway.Fins
import MVVM.Words
import MVVM.Sockets.Inet
import MVVM.Sockets.Cidr
import MVVM.Sockets.Address
import MVVM.Files.Replay
import MVVM.Files.Hops
import MVVM.Checksum
import MVVM.Gateway.Checksums
import MVVM.Sockets.Insert
import MVVM.Files.Opened
import MVVM.Sockets.Datagrams
import MVVM.Sockets.Lookup
import MVVM.Sockets.Dump
import MVVM.Gateway.Bounds
import MVVM.Gateway.Conversation
import MVVM.Patch.Code
import MVVM.Patch.Listing
import MVVM.Patch.Toggle
import MVVM.Streams.Completions
import MVVM.Interp.LebGrammar
import MVVM.Interp.Blocks
import MVVM.Gateway.Folding
import MVVM.Checkpoint.Counting
import MVVM.Checkpoint.Snapshot
import MVVM.Wasi.PathArgs
import MVVM.Histogram
import MVVM.Profile.Pgo
import MVVM.Profile.Sampling
import MVVM.Profile.Traps
import MVVM.Streams.Handshake
