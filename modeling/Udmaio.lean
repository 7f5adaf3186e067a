import Udmaio.Lib.Run
import Udmaio.Lib.Ring
import Udmaio.Lib.Bytes
import Udmaio.Lib.Prog
import Udmaio.Lib.Monitor
import Udmaio.Sgdma.Desc
import Udmaio.Sgdma.Drain
import Udmaio.Sgdma.Owner
import Udmaio.Sgdma.Thread
import Udmaio.Sgdma.Runs
import Udmaio.Sgdma.Packet
import Udmaio.Dma.Regs
import Udmaio.Dma.Start
import Udmaio.Handler.Irq
import Udmaio.Hw.Accessor
import Udmaio.Hw.Views
import Udmaio.Queue.System
import Udmaio.Queue.Fifo
import Udmaio.Queue.Abort
import Udmaio.Queue.Handoff
import Udmaio.Sgdma.Calls
import Udmaio.Sgdma.Scan
import Udmaio.Handler.Sync
import Udmaio.Lib.BitField
import Udmaio.Sgdma.Loop
import Udmaio.Sgdma.Quiet
import Udmaio.Vdma.Config
import Udmaio.Hw.RegAccessor
import Udmaio.Lib.Strtol
import Udmaio.Py.UioReg
import Udmaio.Sgdma.Init
import Udmaio.Uio.Config
import Udmaio.Vdma.Detect
import Udmaio.Vdma.Geometry
import Udmaio.Sgdma.Views
import Udmaio.Handler.Reads
import Udmaio.Handler.Poll
import Udmaio.Lib.Sim
import Udmaio.Sgdma.Mem
import Udmaio.Sgdma.Bytes
import Udmaio.Lib.Gf2
import Udmaio.Demo.Lfsr
import Udmaio.Demo.Check
import Udmaio.Demo.Stream
import Udmaio.Demo.Run
import Udmaio.Lib.Live
import Udmaio.Handler.Live
import Udmaio.Demo.TrafficGen
import Udmaio.Lib.BitLayout
import Udmaio.Py.Device
import Udmaio.Vdma.Masked
import Udmaio.Vdma.Session
import Udmaio.Queue.Live
import Udmaio.Queue.Flow
import Udmaio.Handler.Shutdown
