import GlyphSearch.Http.Router
import GlyphSearch.Http.Wire
import GlyphSearch.Program.Inputs
import Std.Async
import Std.Time

/-!
# The command line

The program takes no arguments. It is configured by its environment, serves
one connection at a time, and stops when it is interrupted.

Files are read into the disk of the program before it may need them;
temporary directories exist in memory alone.
-/

namespace GlyphSearch.CommandLine

open Files Std Async

/-- The time, as a text. -/
def currentTime : IO String := do
  let time := (Time.DateTime.ofTimestamp (← Time.Timestamp.now) .UTC).toPlainDateTime
  return time.toLeanDateTimeString ++ "Z"

/-! ## Files -/

/-- Whether reading waits for ever: whoever opens this path gets a terminal of
his own, at which nobody types. -/
def isSilent (p : Path) : Bool := p = Text.encode "/dev/ptmx"

/-- Puts what is at a path into a disk, if it can be read. -/
def readInto (d : Disk) (p : Path) : IO Disk := do
  if isSilent p then return d
  let route := Program.destination d.workingDirectory p
  try
    let content ← IO.FS.readBinFile (Text.decodeLossy p)
    let (tree, _) := d.tree.makeDirectories [] route.dropLast
    return { d with tree := tree.set route (.file content.toList) }
  catch
    | .inappropriateType .. =>
      return { d with tree := (d.tree.makeDirectories [] route).1 }
    | _ => return d

/-- Puts what is at a path, and at those above it, into a disk. -/
def readPath (d : Disk) (p : Path) : IO Disk := do
  let parts := p.splitOnP (· = slash)
  let above := (List.range parts.length).map fun n =>
    ((parts.take (n + 1)).intersperse [slash]).flatten
  (above.filter (· ≠ [])).foldlM readInto d

/-- A disk on which nothing has been read yet. -/
def emptyDisk : IO Disk := do
  let workingDirectory := Path.components (Text.encode (toString (← IO.currentDir)))
  let scratch := Text.encode ((← IO.getEnv "TMPDIR").getD "/tmp")
  let (tree, _) := Tree.empty.makeDirectories [] workingDirectory
  let (tree, _) := tree.makeDirectories [] (Program.destination workingDirectory scratch)
  return { tree, workingDirectory, scratch, made := 0 }

/-- Reads the files that the dataset is loaded from, if it has not been loaded
yet. -/
def refresh (p : Program) : IO Program := do
  if p.service.stage = .ready ∨ p.service.stage = .failed then return p
  let disk ← (Program.loadInputs p.settings.dataset).foldlM readPath p.service.disk
  return { p with service := { p.service with disk, now := ← currentTime } }

/-! ## Output -/

def printLog (log : Log) (format : Log.Format) : IO Unit := do
  let out ← IO.getStdout
  for e in log.entries do
    out.putStrLn (e.line format (← currentTime))
  out.flush

/-- Prints what has been logged since the last time. -/
def flushLog (p : Program) : IO Program := do
  printLog p.service.log p.format
  return { p with service := { p.service with log := { p.service.log with entries := [] } } }

/-! ## Connections -/

/-- The addresses of a host. -/
def addressesOf (host : String) (port : UInt16) : IO (List Net.SocketAddress) := do
  let address := fun (ip : Net.IPAddr) => match ip with
    | .v4 ip => Net.SocketAddress.v4 ⟨ip, port⟩
    | .v6 ip => Net.SocketAddress.v6 ⟨ip, port⟩
  let inner := String.ofList (host.toList.filter fun c => c ≠ '[' ∧ c ≠ ']')
  match Net.IPv4Addr.ofString inner, Net.IPv6Addr.ofString inner with
  | some ip, _ => return [address (.v4 ip)]
  | _, some ip => return [address (.v6 ip)]
  | none, none =>
    try
      let found ← (DNS.getAddrInfo host "").block
      return found.toList.map address
    catch _ => return []

/-- Connections that may wait to be accepted. -/
def backlog : UInt32 := 128

/-- Listens at the first address that allows it. -/
def listenAt : List Net.SocketAddress → IO (Option TCP.Socket.Server)
  | [] => return none
  | address :: rest => do
    try
      let server ← TCP.Socket.Server.mk
      server.bind address
      server.listen backlog
      return some server
    catch _ => listenAt rest

/-- Bytes that are asked of a connection at once. -/
def readSize : UInt64 := 65536

/-- Receives a request. There is none if the client stops sending, or sends
nothing for too long. -/
partial def receiveRequest (client : TCP.Socket.Client) (settings : Config.ServerSettings)
    (input : Bytes) : Async Http.Received := do
  match Http.receive settings.bodyLimit input with
  | .incomplete =>
    let pause ← Selector.sleep (.ofNat (settings.requestTimeout * 1000))
    let received ← Selectable.one #[
      .case (client.recvSelector readSize) pure,
      .case pause fun _ => pure none]
    match received with
    | some more => receiveRequest client settings (input ++ more.toList)
    | none => return .incomplete
  | received => return received

/-- Serves a connection. -/
def serveClient (client : TCP.Socket.Client) (p : Program) : Async Program := do
  match ← receiveRequest client p.settings.server [] with
  | .incomplete => return p
  | .malformed =>
    client.send (Http.Response.empty 400).toBytes.toByteArray
    client.shutdown
    return p
  | .complete request =>
    let p ← refresh p
    let (service, response) := Http.respond request p.service
    let p ← flushLog { p with service }
    try
      client.send response.toBytes.toByteArray
      client.shutdown
    catch _ => pure ()
    return p

/-- Serves connections until the program is interrupted. -/
partial def serve (server : TCP.Socket.Server) (interrupts : Signal.Waiter) (p : Program) :
    Async Program := do
  let next ← Selectable.one #[
    .case interrupts.selector fun _ => pure none,
    .case server.acceptSelector fun client => pure (some client)]
  match next with
  | none => return p
  | some client =>
    let served ← try serveClient client p catch _ => pure p
    serve server interrupts served

/-! ## The program -/

/-- Runs a program that has started, until it stops. -/
def runProgram (server : TCP.Socket.Server) (p : Program) : IO Program := do
  let p ← flushLog p
  let p ← flushLog (← refresh p).idle
  if p.hasFailed then return p.giveUp
  let interrupts ← Signal.Waiter.mk .sigint false
  return (← (serve server interrupts p).block).interrupt

/-- The server that settings ask for, and the disk with all that starting
reads. -/
def prepare (env : Config.Environment) : IO (Option TCP.Socket.Server × Disk) := do
  let disk ← emptyDisk
  let disk ← (Program.environmentInputs disk.workingDirectory).foldlM readPath disk
  let env := env.extendFrom disk
  let disk ← (Program.configInputs env).foldlM readPath disk
  match Config.load (fun path => disk.read (Text.encode path)) none env with
  | .error _ => return (none, disk)
  | .ok settings =>
    let disk ← (Program.loadInputs settings.dataset).foldlM readPath disk
    let addresses ← addressesOf settings.server.host (.ofNat settings.server.port)
    return (← listenAt addresses, disk)

def run : IO UInt32 := do
  let environment := (← System.getEnv).get?
  let (server, disk) ← prepare environment
  match Program.start ⟨environment, disk, fun _ _ => server.isSome, isSilent, ← currentTime⟩,
      server with
  | .running p, some server =>
    let p ← runProgram server p
    let _ ← flushLog p
    return .ofNat (p.exitCode?.getD 0)
  | .refused fault log format, _ =>
    printLog log format
    IO.eprintln fault.message
    return .ofNat Program.startFaultCode
  | .running _, none => return .ofNat Program.startFaultCode

end GlyphSearch.CommandLine

def main : IO UInt32 := GlyphSearch.CommandLine.run
