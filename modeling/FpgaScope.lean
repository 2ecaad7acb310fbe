import FpgaScope.Lib.Trace
import FpgaScope.Lib.Ring
import FpgaScope.Lib.Gray
import FpgaScope.Core.Slices
import FpgaScope.Host.Reorder
import FpgaScope.Rtl.FifoAsync
import FpgaScope.Capture.Accept
import FpgaScope.Sim.TriggerModel
import FpgaScope.Link.Fifo
import FpgaScope.Capture.Sequencer
import FpgaScope.Host.RleDecode
import FpgaScope.Capture.RleWindow
import FpgaScope.Host.Frame
import FpgaScope.Protocol.Request
import FpgaScope.Protocol.Response
import FpgaScope.Engine.Flow
import FpgaScope.Engine.Frames
import FpgaScope.Engine.Dump
import FpgaScope.Engine.Answer
import FpgaScope.Engine.Intact
import FpgaScope.Engine.Receive
import FpgaScope.Engine.Serve
import FpgaScope.Engine.Conform
import FpgaScope.Rtl.Transport
import FpgaScope.Link.Atomic
import FpgaScope.Link.Content
import FpgaScope.Link.Dumping
import FpgaScope.Link.Drained
import FpgaScope.Capture.Qualified
import FpgaScope.Capture.Timestamp
import FpgaScope.Capture.Config
import FpgaScope.Core.Progress
import FpgaScope.Capture.WindowCount
import FpgaScope.Capture.Status
import FpgaScope.Capture.BufData
import FpgaScope.Host.Parse
import FpgaScope.Host.Damage
import FpgaScope.Core.Recorded
import FpgaScope.Host.Windows
import FpgaScope.Lib.Queue
import FpgaScope.Prim.FifoSync
import FpgaScope.Capture.Isolation
import FpgaScope.Rle.Flush
import FpgaScope.Rle.Lossless
import FpgaScope.Sim.RleModel
import FpgaScope.Rle.Golden
import FpgaScope.Host.Crc
import FpgaScope.Engine.BadCrc
import FpgaScope.Protocol.Recovery
import FpgaScope.Engine.Recovery
import FpgaScope.Host.Wire
import FpgaScope.Core.Golden
import FpgaScope.Host.Session
import FpgaScope.Capture.Single
import FpgaScope.Host.Cli
import FpgaScope.Front.Jtag
import FpgaScope.Rtl.Axil
import FpgaScope.Front.Axil
import FpgaScope.Rtl.Uart
import FpgaScope.Xport.Transmit
import FpgaScope.Xport.Receive
import FpgaScope.Xport.RoundTrip
import FpgaScope.Host.Probes
import FpgaScope.Host.Vcd
import FpgaScope.Host.Replay
import FpgaScope.Host.Export
import FpgaScope.Xport.Sampling
import FpgaScope.Xport.Tolerance
import FpgaScope.Rtl.Serial
import FpgaScope.Engine.Settled
import FpgaScope.Xport.Serial
import FpgaScope.Xport.Session
import FpgaScope.Xport.Repair
import FpgaScope.Rtl.CoreFchk
import FpgaScope.Core.Checked
import FpgaScope.Rle.Expansion
import FpgaScope.Link.Delivery
import FpgaScope.Link.Live
import FpgaScope.Link.Export
import FpgaScope.Rtl.Top
import FpgaScope.Top.Parts
import FpgaScope.Top.Session
import FpgaScope.Top.Export
import FpgaScope.Lib.Script
import FpgaScope.Host.Console
import FpgaScope.Host.Reconstruct
import FpgaScope.Rtl.Board
import FpgaScope.Board.Bus
import FpgaScope.Board.Setup
import FpgaScope.Board.Armed
import FpgaScope.Board.Drain
import FpgaScope.Board.Played
import FpgaScope.Board.Export
import FpgaScope.Board.Catch
import FpgaScope.Sim.CaptureModel
import FpgaScope.Core.Reference
import FpgaScope.Rtl.JtagTop
import FpgaScope.Link.Bridge
