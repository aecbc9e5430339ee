import EndpointPreview.Control.CommandLine
import EndpointPreview.Control.Rpc
import EndpointPreview.Control.SourceCheck
import EndpointPreview.StrictFormats
import Std.Async.DNS
import Std.Async.TCP
import Std.Time.DateTime.Timestamp

/-!
The program: the command line over real files, sockets and time. A run is computed
with the responses that have arrived so far; as long as it asks for one more, that
request is sent and the run is computed again. YAML is not parsed here: of the YAML
configuration files only those are read that are JSON text.
-/

namespace EndpointPreview.Program

open Http Execution Control
open Std.Async
open Std.Net

-- A document may start with a byte order mark, and a zero byte ends it.
abbrev documents : Json.Dialect :=
  { Json.strict with skipsMark := true, endsAtZero := true, tellsOverflow := true }

abbrev configurations : Settings.NodeDialect := ⟨some (ascii "null")⟩

attribute [local instance] documents configurations

def ofByteArray (data : ByteArray) : Bytes := data.toList

def toByteArray (text : Bytes) : ByteArray := ⟨text.toArray⟩

def bytesOf (text : String) : Bytes := ofByteArray text.toUTF8

/-- The string of a text; a text that is no UTF-8 has the empty one. -/
def stringOf (text : Bytes) : String := (String.fromUTF8? (toByteArray text)).getD ""

def socketAddress (port : Nat) : IPAddr → SocketAddress
  | .v4 addr => .v4 ⟨addr, port.toUInt16⟩
  | .v6 addr => .v6 ⟨addr, port.toUInt16⟩

/-- Connects to the first address that accepts; the error is that of the last one. -/
def connect (url : Url) : List IPAddr → IO.Error → IO (Except TransportError TCP.Socket.Client)
  | [], error =>
      return .error (.noConnection url.host url.effectivePort (bytesOf error.toString))
  | address :: later, _ => do
      let socket ← TCP.Socket.Client.mk
      try
        (socket.connect (socketAddress url.effectivePort address)).block
        return .ok socket
      catch error => connect url later error

/-- Everything up to the end of the stream. -/
partial def readToEnd (socket : TCP.Socket.Client) (received : ByteArray) : IO ByteArray := do
  match ← (socket.recv? 4096).block with
  | some chunk => readToEnd socket (received ++ chunk)
  | none => return received

def exchange (url : Url) (sent : Bytes) (socket : TCP.Socket.Client) :
    IO (Except TransportError Response) := do
  try
    (socket.send (toByteArray sent)).block
    let received ← readToEnd socket .empty
    return Response.parse (ofByteArray received)
  catch error => return .error (.interrupted url (bytesOf error.toString))

def deliver (request : Request) : IO (Except TransportError Response) := do
  match request.wire with
  | .error error => return .error error
  | .ok (url, sent) =>
      let found ← (DNS.getAddrInfo (stringOf url.host) "").block.toBaseIO
      match found with
      | .error error => return .error (.noAddress url.host (bytesOf error.toString))
      | .ok addresses =>
          match ← connect url addresses.toList (.userError "no usable address") with
          | .error error => return .error error
          | .ok socket => exchange url sent socket

-- The answers that a run still finds, and the first request that it finds none for.
structure Replay where
  answers : List (Except TransportError Response)
  open? : Option Request

def Replay.send : Preview.Send Replay := fun _ request replay =>
  match replay.answers with
  | answer :: later => (answer, { replay with answers := later })
  | [] => (.error (.reported []), { replay with open? := replay.open?.or (some request) })

def surroundings : Surroundings Replay :=
  { send := Replay.send
    describe := fun _ => []
    launch := fun _ _ _ replay => (.error .disabled, replay)
    halt := fun _ _ replay => (.error .disabled, replay) }

/-- The result of a run once every request of it has been sent. -/
partial def settle (run : Replay → α × Replay) (answers : List (Except TransportError Response)) :
    IO α := do
  let (result, replay) := run ⟨answers, none⟩
  match replay.open? with
  | none => return result
  | some request => settle run (answers ++ [← deliver request])

-- A folder reads as an empty file.
def isDirectoryCode : UInt32 := 21

def readPath (path : Bytes) : IO FileRead := do
  try return .contents (ofByteArray (← IO.FS.readBinFile (stringOf (Text.beforeZero path))))
  catch
    | .noFileOrDirectory .. => return .missing
    | .inappropriateType _ code _ =>
        return if code == isDirectoryCode then .contents [] else .missing
    | .invalidArgument .. => return .nameTooLong
    | _ => return .unreadable

def contextFor (path : Option Bytes) : IO (Context Replay) := do
  let now ← Std.Time.Timestamp.now
  let found ← match path with
    | some path => readPath path
    | none => pure .missing
  return { surroundings with
    fileAt := fun asked => if some asked == path then found else .missing
    now := now.toMillisecondsSinceUnixEpoch.val.toNat }

-- The JSON part of YAML; a file in any other YAML is a bad document.
def readDocument (path : Bytes) : IO (Except Bytes Settings.Node) := do
  match ← readPath path with
  | .contents text =>
      return match Json.read? text with
        | some value => .ok (Settings.Node.ofJson value)
        | none => .error (ascii "bad document")
  | _ => return .error (ascii "bad file")

/-- The chunks of a connection until its request is complete. -/
partial def readCall (socket : TCP.Socket.Client) (chunks : List Bytes) : IO (List Bytes) := do
  if (Rpc.Call.ofChunks chunks).isSome then return chunks
  match ← (socket.recv? 1024).block with
  | some chunk => readCall socket (chunks ++ [ofByteArray chunk])
  | none => return chunks

def answerClient (socket : TCP.Socket.Client) (state : Orchestrator) : IO Orchestrator := do
  let chunks ← readCall socket []
  let context ← contextFor ((Rpc.Call.ofChunks chunks).bind Rpc.Call.filePath?)
  let (reply, state) ← settle (fun replay =>
    let (reply, state, replay) := Rpc.serve context chunks state replay
    ((reply, state), replay)) []
  match reply with
  | some reply => (socket.send (toByteArray reply.wire)).block
  | none => pure ()
  return state

partial def answerClients (server : TCP.Socket.Server) (state : Orchestrator) : IO Unit := do
  let socket ← server.accept.block
  let after ← try answerClient socket state catch _ => pure state
  answerClients server after

def serveOn (port : Nat) (state : Orchestrator) : IO UInt32 := do
  let server ← TCP.Socket.Server.mk
  try
    server.bind (.v4 ⟨.ofParts 127 0 0 1, port.toUInt16⟩)
    server.listen 8
  catch _ =>
    IO.eprintln ("Failed to start RPC server on port " ++ Nat.repr port)
    return 1
  let bound ← server.getSockName
  IO.println ("RPC server listening on 127.0.0.1:" ++ Nat.repr bound.port.toNat)
  (← IO.getStdout).flush
  answerClients server state
  return 0

def print (report : CommandLine.Report) : IO UInt32 := do
  (← IO.getStdout).write (toByteArray report.out)
  (← IO.getStderr).write (toByteArray report.err)
  return report.code.toUInt32

def save (path text : Bytes) : IO Bool := do
  try
    IO.FS.writeBinFile (stringOf path) (toByteArray text)
    return true
  catch _ => return false

def environment : IO Settings.Environment := do
  let lookUp (name : String) : IO Bytes := return bytesOf ((← IO.getEnv name).getD "")
  let serviceUrl ← lookUp Settings.serviceUrlVariable
  let rpcPort ← lookUp Settings.rpcPortVariable
  return { serviceUrl, rpcPort }

def runPreview (arguments : List Bytes) : IO UInt32 := do
  let options := CommandLine.Options.ofArguments (arguments.drop 1)
  let context ← contextFor options.rest.head?
  let document ← readDocument options.configPath
  let environment ← environment
  let invocation := { arguments, environment, document := fun _ => document }
  let (outcome, state) ← settle (fun replay =>
    let (outcome, state, replay) :=
      CommandLine.invoke context invocation (.initial .direct) replay
    ((outcome, state), replay)) []
  match outcome with
  | .finished report => print report
  | .save path text saved unsaved => print (if ← save path text then saved else unsaved)
  | .serve port => serveOn port state
  | .unprintable => print (.failed (CommandLine.Report.line Json.failureText))
  | .interrupted error => print (.failed (CommandLine.Report.line error.message))
  | .misread => print (.failed (CommandLine.Report.line (ascii "bad conversion")))

def runCheck (arguments : List Bytes) : IO UInt32 := do
  let context ← contextFor arguments.head?
  print (SourceCheck.run context.fileAt arguments)

def run (arguments : List String) : IO UInt32 := do
  let arguments := arguments.map bytesOf
  if (← IO.appPath).fileName == some "validate-endpoints" then runCheck arguments
  else runPreview arguments

end EndpointPreview.Program

def main (arguments : List String) : IO UInt32 := EndpointPreview.Program.run arguments
