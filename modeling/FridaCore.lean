import FridaCore.Barebone.Accounting
import FridaCore.Barebone.Mappings
import FridaCore.Barebone.Occurrences
import FridaCore.Barebone.Registrations
import FridaCore.Barebone.SystemThread
import FridaCore.Barebone.Transmission
import FridaCore.Barebone.WalkCache
import FridaCore.Fruity.CsHistory
import FridaCore.Fruity.DtxReassembly
import FridaCore.Fruity.DtxRoundTrip
import FridaCore.Fruity.KcdataTraversal
import FridaCore.Fruity.KeyedArchiveRoundTrip
import FridaCore.Fruity.NcmWindow
import FridaCore.Fruity.Pairing
import FridaCore.Fruity.PairingParams
import FridaCore.Fruity.PlistPlaces
import FridaCore.Fruity.PlistTermination
import FridaCore.Fruity.TcpConnection
import FridaCore.Fruity.TunnelInput
import FridaCore.Gdb.Breakpoints
import FridaCore.Gdb.Continuing
import FridaCore.Gdb.Lldb
import FridaCore.Gdb.Matching
import FridaCore.Gdb.PacketStream
import FridaCore.Gdb.Registers
import FridaCore.Linux.MapHistory
import FridaCore.Packages.Confinement
import FridaCore.Packages.DevDependencies
import FridaCore.Packages.FromScratch
import FridaCore.Packages.Idempotence
import FridaCore.Payload.ExitHandlers
import FridaCore.Portal.AccessControl
import FridaCore.Portal.Lifecycle
import FridaCore.Portal.SessionLaws
import FridaCore.Portal.Tags
import FridaCore.Session.ExactlyOnce
import FridaCore.Session.Quiescence
