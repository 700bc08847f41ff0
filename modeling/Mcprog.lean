import Mcprog.Library.Program
import Mcprog.Library.Observer
import Mcprog.Library.Runs
import Mcprog.Library.Cells
import Mcprog.Oncd.Registers
import Mcprog.Adapter.Interface
import Mcprog.Adapter.Logged
import Mcprog.Adapter.RegisterFile
import Mcprog.Adapter.Scripted
import Mcprog.Adapter.Usb
import Mcprog.Adapter.Bus
import Mcprog.Target.State
import Mcprog.Target.Regions
import Mcprog.Target.Breakpoint
import Mcprog.Target.Comparators
import Mcprog.Target.BreakpointRuns
import Mcprog.Remote.Breakpoint
import Mcprog.Target.Memory
import Mcprog.Adapter.Mpsse
import Mcprog.Target.FlashDetect
import Mcprog.Target.FlashErase
import Mcprog.Target.EraseAddress
import Mcprog.Target.EraseArea
import Mcprog.Target.FlashProgram
import Mcprog.Target.Program64
import Mcprog.Target.PageProgram
import Mcprog.Target.Program32
import Mcprog.Loader.Records
import Mcprog.Loader.Readers
import Mcprog.Loader.Format
import Mcprog.Programmer.SwInfo
import Mcprog.Loader.Decode
import Mcprog.Loader.Place
import Mcprog.Loader.SrecPlaces
import Mcprog.Loader.HexPlaces
import Mcprog.Loader.Loads
import Mcprog.Library.Buffers
import Mcprog.Remote.Receiver
import Mcprog.Remote.Frames
import Mcprog.Remote.SendPacket
import Mcprog.Remote.Framing
import Mcprog.Remote.Resync
import Mcprog.Remote.Decode
import Mcprog.Remote.WriteMemory
import Mcprog.Library.Triple
import Mcprog.Oncd.Instructions
import Mcprog.Target.Exec
import Mcprog.Target.Control
import Mcprog.Adapter.Ft2232
import Mcprog.Adapter.Watched
import Mcprog.Target.OscrAgreement
import Mcprog.Remote.Methods
import Mcprog.Remote.Handlers
import Mcprog.Remote.MainLoop
import Mcprog.Library.Effects
import Mcprog.Remote.ErrorReplies
import Mcprog.Remote.StopReplies
import Mcprog.Library.Abstraction
import Mcprog.Oncd.Machine
import Mcprog.Target.Mc12
import Mcprog.Target.Scratch
import Mcprog.Target.Borrow
import Mcprog.Target.SaveState
import Mcprog.Target.RegisterAccess
import Mcprog.Programmer.DoProgram
import Mcprog.Programmer.Probe
import Mcprog.Programmer.InfoChecksum
import Mcprog.Programmer.ReadBack
import Mcprog.Programmer.Verify
import Mcprog.Target.Aliases
import Mcprog.Target.MemoryMap
import Mcprog.Target.BlockAccess
import Mcprog.Remote.MemoryBytes
import Mcprog.Remote.ReadAfterWrite
import Mcprog.Target.Assertions
import Mcprog.Remote.Assertions
import Mcprog.Remote.Uninitialized
import Mcprog.Target.SectorBuffers
import Mcprog.Target.Stops
import Mcprog.Programmer.BadFiles
import Mcprog.Library.Tap
import Mcprog.Adapter.BulkPipe
import Mcprog.Adapter.Bitbang
import Mcprog.Adapter.Exchange
import Mcprog.Adapter.BitbangPieces
import Mcprog.Target.ByteLanes
import Mcprog.Target.EraseHalves
import Mcprog.Library.Simulation
import Mcprog.Programmer.ConfBounds
import Mcprog.Remote.Remcmd
import Mcprog.Remote.HexFields
import Mcprog.Remote.Resume
import Mcprog.Adapter.BitbangScan
import Mcprog.Adapter.MpsseSend
import Mcprog.Adapter.MpsseRecv
import Mcprog.Adapter.MpsseScan
import Mcprog.Library.TapRegister
import Mcprog.Adapter.MpsseChip
import Mcprog.Adapter.MpsseReadBlock
import Mcprog.Adapter.OncdWrite
import Mcprog.Adapter.UsbPackets
import Mcprog.Adapter.PacketBounds
import Mcprog.Adapter.PacketSizes
import Mcprog.Programmer.Conf
import Mcprog.Programmer.ConfText
import Mcprog.Programmer.ConfScan
import Mcprog.Programmer.ConfCalls
import Mcprog.Library.Relational
import Mcprog.Programmer.ConfLineEnds
import Mcprog.Programmer.CheckClean
import Mcprog.Library.Confined
import Mcprog.Loader.Bounds
import Mcprog.Loader.HexBounds
import Mcprog.Loader.SrecBounds
import Mcprog.Remote.ReceiverBounds
import Mcprog.Remote.Socket
import Mcprog.Remote.Sessions
import Mcprog.Remote.MemoryMethods
import Mcprog.Library.Caller
import Mcprog.Library.TapUnit
import Mcprog.Adapter.PortAdapter
import Mcprog.Adapter.MpsseMethods
import Mcprog.Adapter.MpsseUnit
import Mcprog.Adapter.MpsseWaiting
import Mcprog.Adapter.MpsseRefines
import Mcprog.Adapter.PortMemory
import Mcprog.Adapter.MpsseAdapter
import Mcprog.Adapter.BitbangUnit
import Mcprog.Adapter.BitbangRefines
import Mcprog.Adapter.BitbangAdapter
import Mcprog.Library.Tracking
import Mcprog.Adapter.StandsFor
import Mcprog.Target.Follows
import Mcprog.Target.FollowsControl
import Mcprog.Programmer.Follows
import Mcprog.Remote.Follows
import Mcprog.Adapter.PortRam
import Mcprog.Adapter.Serial
import Mcprog.Remote.Serial
import Mcprog.Programmer.Serial
import Mcprog.Remote.MemoryRuns
import Mcprog.Remote.SerialMemory
import Mcprog.Remote.RegisterRuns
import Mcprog.Programmer.Numbers
import Mcprog.Programmer.BoardFile
import Mcprog.Programmer.BoardText
import Mcprog.Programmer.DoRead
import Mcprog.Adapter.Lpt
import Mcprog.Adapter.LptDirection
import Mcprog.Adapter.LptDeadline
import Mcprog.Adapter.UsbDevice
import Mcprog.Adapter.UsbRounds
