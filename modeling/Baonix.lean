import Baonix.Lib.LittleEndian
import Baonix.Lib.Riscv
import Baonix.Lib.Scanning
import Baonix.Proto.Frame
import Baonix.Proto.Decoder
import Baonix.Proto.WireScanner
import Baonix.Proto.DecoderRuns
import Baonix.Proto.RoundTrip
import Baonix.Proto.Chunking
import Baonix.Proto.Damage
import Baonix.Proto.Mux
import Baonix.Host.Serve
import Baonix.Host.ServeOrder
import Baonix.Lib.Bits
import Baonix.Lib.Endings
import Baonix.Lib.Exec
import Baonix.Lib.Memory
import Baonix.Lib.WriteBack
import Baonix.Core.Backing
import Baonix.Core.Cache
import Baonix.Core.CacheInvariant
import Baonix.Core.CacheSpecs
import Baonix.Core.CacheAccess
import Baonix.Core.CacheRefinement
import Baonix.Core.Exception
import Baonix.Core.Csr
import Baonix.Core.Devices
import Baonix.Core.BackingFailures
import Baonix.Core.Bus
import Baonix.Core.Mmu
import Baonix.Core.Machine
import Baonix.Core.Insn
import Baonix.Core.Rv64m
import Baonix.Core.Rv64a
import Baonix.Core.Rv64i
import Baonix.Core.Sbi
import Baonix.Core.Step
import Baonix.Host.Run
import Baonix.Core.PageWalk
import Baonix.Core.Sv39
import Baonix.Core.Framed
import Baonix.Core.Runs
import Baonix.Core.PcAlignment
import Baonix.Core.AccessSpecs
import Baonix.Core.Precise
import Baonix.Core.LoadExtension
import Baonix.Host.Confinement
import Baonix.Core.AtomicFaults
import Baonix.Core.FaultAddress
import Baonix.Core.TlbRuns
import Baonix.Core.Isolation
import Baonix.Core.Reservation
import Baonix.Lib.Simulation
import Baonix.Core.Alike
import Baonix.Host.Slices
import Baonix.Badge.Run
import Baonix.Badge.RunLoop
import Baonix.Lib.Checked
import Baonix.Host.Elf
import Baonix.Host.Boot
import Baonix.Host.Blobs
import Baonix.Host.Layout
import Baonix.Core.CsrFile
import Baonix.Core.TrapReturn
import Baonix.Core.IntegerLaws
import Baonix.Core.SizedAccess
import Baonix.Core.CacheTrace
import Baonix.Core.CacheRuns
import Baonix.Core.CacheFailures
import Baonix.Core.CacheFlush
import Baonix.Lib.Window
import Baonix.Host.Fdt
import Baonix.Host.FdtTree
import Baonix.Host.Images
import Baonix.Badge.Probe
import Baonix.Host.TimerPending
import Baonix.Lib.ShiftRegister
import Baonix.Proto.Burst
import Baonix.Proto.DecoderBounds
import Baonix.Badge.SendPaced
import Baonix.Host.PumpInput
import Baonix.Host.ServeImage
import Baonix.Badge.Exchange
import Baonix.Badge.ExchangeRuns
import Baonix.Host.FdtChecked
import Baonix.Host.FdtProps
import Baonix.Host.ElfSegments
import Baonix.Host.ElfPlacement
import Baonix.Host.ElfExtent
import Baonix.Lib.Turns
import Baonix.Host.ElfSymbols
import Baonix.Host.ElfTotal
import Baonix.Lib.Search
import Baonix.Host.ConsoleSearch
import Baonix.Proto.MuxRuns
import Baonix.Core.UartRuns
import Baonix.Badge.Grid
import Baonix.Badge.Terminal
import Baonix.Badge.Escapes
import Baonix.Badge.OledSink
import Baonix.Badge.OledSinkRuns
import Baonix.Core.LinearMapping
import Baonix.Lib.Noninterference
import Baonix.Core.Composition
import Baonix.Core.UserMode
import Baonix.Core.Fields
import Baonix.Core.Dispatch
import Baonix.Core.Unimplemented
import Baonix.Core.Operations
import Baonix.Core.BaseEffect
import Baonix.Core.CacheVictims
import Baonix.Host.ByteExact
import Baonix.Host.TimerTicks
import Baonix.Lib.RiscvFormats
import Baonix.Lib.RiscvCompressed
import Baonix.Core.Encoders
import Baonix.Core.Compressed
import Baonix.Difftest.Gen
import Baonix.Difftest.Program
import Baonix.Difftest.Words
import Baonix.Difftest.Meaning
import Baonix.Lib.Arrival
import Baonix.Difftest.Halves
import Baonix.Difftest.Operands
import Baonix.Difftest.Chunks
import Baonix.Core.Bare
import Baonix.Difftest.Steps
import Baonix.Difftest.Forward
import Baonix.Difftest.Body
import Baonix.Difftest.Image
import Baonix.Difftest.Prologue
import Baonix.Difftest.Safety
import Baonix.Lib.Scatter
import Baonix.Core.Bytewise
import Baonix.Core.Straddle
import Baonix.Badge.Link
import Baonix.Badge.ConsoleInput
import Baonix.EndToEnd.Channel
import Baonix.EndToEnd.Pages
import Baonix.EndToEnd.Turns
import Baonix.EndToEnd.World
import Baonix.EndToEnd.PageStore
import Baonix.Lib.Following
import Baonix.Core.Coupling
import Baonix.Core.Mirrored
import Baonix.Host.Faithful
