import Ghostline.Lib.Machine
import Ghostline.Lib.Segments
import Ghostline.Lib.Gate
import Ghostline.Lib.Frames
import Ghostline.Lib.Descriptors
import Ghostline.Lib.Buffered
import Ghostline.Lib.Search
import Ghostline.Lib.Padded
import Ghostline.Lib.Sorting
import Ghostline.Lib.Trim
import Ghostline.Lib.JsonText
import Ghostline.Lib.Decimal
import Ghostline.Lib.Slice
import Ghostline.Lib.Keyed
import Ghostline.Types
import Ghostline.Text
import Ghostline.Output.Log
import Ghostline.Output.History
import Ghostline.Output.Reader
import Ghostline.Output.Turn
import Ghostline.Output.Position
import Ghostline.Output.Gap
import Ghostline.Output.Issued
import Ghostline.Output.Disk
import Ghostline.Output.Adopt
import Ghostline.Output.Marks
import Ghostline.Output.Sized
import Ghostline.Output.Call
import Ghostline.Output.Remote
import Ghostline.Output.Moves
import Ghostline.Output.Progress
import Ghostline.Output.Retained
import Ghostline.Output.Expiry
import Ghostline.Output.Failure
import Ghostline.Output.Drain
import Ghostline.Output.MarkIndex
import Ghostline.Output.CursorText
import Ghostline.Hub.Registry
import Ghostline.Hub.Handles
import Ghostline.Hub.Names
import Ghostline.Session.Core
import Ghostline.Session.Ticket
import Ghostline.Session.Release
import Ghostline.Session.Commit
import Ghostline.Session.State
import Ghostline.Session.Directory
import Ghostline.Session.Living
import Ghostline.Session.Mutex
import Ghostline.Session.Checkpoint
import Ghostline.Session.Sizes
import Ghostline.Session.Halt
import Ghostline.Session.Pause
import Ghostline.Session.Carry
import Ghostline.Session.Bytes
import Ghostline.Session.Rest
import Ghostline.Session.Probes
import Ghostline.Session.Wake
import Ghostline.Session.Environment
import Ghostline.Session.Input
import Ghostline.Query.Responder
import Ghostline.Query.Chunks
import Ghostline.Query.Buffer
import Ghostline.Query.Replies
import Ghostline.Terminal.Osc133
import Ghostline.Terminal.Pwd
import Ghostline.Terminal.Vt
import Ghostline.Terminal.Markers
import Ghostline.Terminal.Status
import Ghostline.Terminal.Capture
import Ghostline.Terminal.Region
import Ghostline.Terminal.Writes
import Ghostline.Terminal.Envelope
import Ghostline.Terminal.Percent
import Ghostline.Terminal.Hosts
import Ghostline.Terminal.Reports
import Ghostline.Rpc.Framing
import Ghostline.Rpc.Response
import Ghostline.Rpc.Blob
import Ghostline.Rpc.Exchange
import Ghostline.Rpc.Diagnostics
import Ghostline.Rpc.Monitor
import Ghostline.Rpc.Dispatch
import Ghostline.Rpc.Remote
import Ghostline.Rpc.Socket
import Ghostline.Rpc.Managed
import Ghostline.Handoff.Source
import Ghostline.Handoff.Upgrade
import Ghostline.Handoff.Roles
import Ghostline.Handoff.Service
import Ghostline.Handoff.Owner
import Ghostline.Handoff.Loss
import Ghostline.Handoff.Serve
import Ghostline.Handoff.Meta
import Ghostline.Handoff.Batch
import Ghostline.Handoff.Locks
import Ghostline.Handoff.Inventory
import Ghostline.Handoff.Wire
import Ghostline.Handoff.Starts
import Ghostline.Handoff.Continuity
import Ghostline.Handoff.Transport
import Ghostline.Handoff.Reported
import Ghostline.Handoff.Identity
import Ghostline.Handoff.Rollback
import Ghostline.Handoff.Spool
