import Nameserver.CommandLine
import Nameserver.Responder
import Nameserver.Zone.Load
import Std.Async.UDP
/-!
# The program

Reads the command line, the settings and the zone file, and then answers datagrams on a socket.
-/

namespace Nameserver.Program

/-- Reports entries on the standard error stream; traces are left out. -/
def report (entries : List LogEntry) : IO Unit := do
  for entry in entries do
    unless entry.level == .trace do
      IO.eprintln entry.text

def fail {α : Type} (message : String) : IO α := throw (IO.userError message)

/-- The address in the form that sockets take. -/
def toNet (address : SocketAddress) : Std.Net.SocketAddress :=
  match address.ip with
  | .v4 a b c d => .v4 ⟨⟨#v[a, b, c, d]⟩, address.port⟩
  | .v6 groups => .v6 ⟨⟨groups⟩, address.port⟩

/-- The address that a socket gives. -/
def ofNet : Std.Net.SocketAddress → SocketAddress
  | .v4 address =>
    let octets := address.addr.octets
    { ip := .v4 octets[0] octets[1] octets[2] octets[3], port := address.port }
  | .v6 address => { ip := .v6 address.addr.segments, port := address.port }

/-- The settings from where the command line says they are. -/
def settings : CommandLine.Source → IO Settings
  | .options settings => return settings
  | .file path => do
    let text ← try IO.FS.readFile path catch _ => fail Settings.FileError.unreadable.message
    match Settings.ofDocument? text with
    | some settings => return { settings with zone := settings.zoneBeside path }
    | none => fail Settings.FileError.malformed.message

def zone (settings : Settings) : IO DomainTree := do
  let file ←
    try IO.FS.readBinFile settings.zone catch _ => fail LoadError.unreadable.message
  match DomainTree.load settings.strictness file.data.toList with
  | .error e => fail (settings.zone ++ ": " ++ e.message)
  | .ok loaded =>
    report loaded.log
    return loaded.value

/-- Answers the datagrams of a socket for ever. -/
def serve (socket : Std.Async.UDP.Socket) (zone : DomainTree) : IO Unit := do
  repeat
    let (datagram, source?) ← (socket.recv 65535).block
    if let some source := source? then
      let buffer := List.replicate maximumDatagram 0
      match Responder.handle zone (ofNet source) buffer datagram.data.toList with
      | .error e => fail e.message
      | .ok handled =>
        report handled.log
        if let some response := handled.value then
          (socket.send ⟨response.octets.toArray⟩ (some source)).block

/-- Runs the server with settings from some source.  The socket is bound first, so that an address in
use ends the program before the zone file is read. -/
def run (source : CommandLine.Source) : IO Unit := do
  let settings ← settings source
  report [settings.entry]
  let socket ← Std.Async.UDP.Socket.mk
  socket.bind (toNet settings.bind)
  let zone ← zone settings
  if settings.printRecords then
    IO.print zone.dump.toAscii
    (← IO.getStdout).flush
  serve socket zone

end Nameserver.Program

/-- The program: it ends with 0 after a request for help or the version, with 2 after a mistake on the
command line and with 1 after any other failure. -/
def main (args : List String) : IO UInt32 := do
  match Nameserver.CommandLine.read args with
  | .error e =>
    if e.isRequest then
      IO.println e.message
      return 0
    else
      IO.eprintln e.message
      return 2
  | .ok source =>
    try
      Nameserver.Program.run source
      return 0
    catch e =>
      IO.eprintln (toString e)
      return 1
