import EndpointPreview.Control.Command
import EndpointPreview.Settings.Document

/-!
The command line. Its tools check, show and render a source file, `run` launches one
and requests paths from it, and `serve` offers the control service. What a run prints
is collected in a report; writing a file and serving are left to the outer layer.
-/

namespace EndpointPreview.Control.CommandLine

open Text Http Execution

variable [Json.Dialect] [Settings.NodeDialect]

structure Report where
  code : Nat := 0
  out : Bytes := []
  err : Bytes := []
  deriving DecidableEq, Repr

namespace Report

def line (text : Bytes) : Bytes := text ++ [newline]

def printed (text : Bytes) : Report := { out := text }

def failed (text : Bytes) : Report := { code := 1, err := text }

def refused (error : CommandError) : Report := failed (line (ascii "Error: " ++ error.message))

end Report

open Report (line)

inductive Outcome where
  | finished (report : Report)
  -- Writes a file and then reports that it did or that it could not.
  | save (path text : Bytes) (saved unsaved : Report)
  | serve (port : Nat)
  | unprintable
  | interrupted (error : CommandError)
  | misread
  deriving DecidableEq, Repr

def Outcome.failed (error : CommandError) : Outcome :=
  if error.interrupts then .interrupted error else .finished (.refused error)

def usage : Bytes := unlines (
  [ "Usage: endpoint-runtime <command> [options]",
    "",
    "Source Tools:",
    "  validate <file>                    Validate backend source",
    "  parse <file>                       Print parsed endpoints as JSON",
    "  generate <file> [-o <out>]         Render a Flask module",
    "",
    "Execution:",
    "  run <file> [--port N] [paths...]   Start, request each path, stop",
    "  serve [--rpc-port N]               Serve JSON RPC on 127.0.0.1",
    "",
    "Options:",
    "  --config <yaml>      Runtime configuration file",
    "  --log-level <level>  Log level (default: info)",
    "",
    "Examples:",
    "  endpoint-runtime run app.py / /about",
    "  endpoint-runtime serve --rpc-port 8655",
    "" ].map ascii)

def validateUsage : Bytes := ascii "Usage: endpoint-runtime validate <file>"
def parseUsage : Bytes := ascii "Usage: endpoint-runtime parse <file>"
def generateUsage : Bytes := ascii "Usage: endpoint-runtime generate <file> [-o <out>]"
def runUsage : Bytes := ascii "Usage: endpoint-runtime run <file> [--port N] [paths...]"

-- Options that may stand anywhere after the command, and the other arguments in order.
structure Options where
  configPath : Bytes := []
  logLevel : Bytes := []
  rest : List Bytes := []
  deriving DecidableEq, Repr

namespace Options

def keep (argument : Bytes) (options : Options) : Options :=
  { options with rest := options.rest ++ [argument] }

/-- Reads on in the arguments; an option without a value is an ordinary argument. -/
def readOn (options : Options) : List Bytes → Options
  | [] => options
  | [last] => options.keep last
  | argument :: value :: later =>
      if argument = ascii "--config" then readOn { options with configPath := value } later
      else if argument = ascii "--log-level" then readOn { options with logLevel := value } later
      else readOn (options.keep argument) (value :: later)

def ofArguments (arguments : List Bytes) : Options := readOn {} arguments

end Options

/-- The settings for a run; `document` reads the file that the options name. -/
def settingsOf (document : Bytes → Except Bytes Settings.Node)
    (environment : Settings.Environment) (options : Options) :
    Except Settings.DocumentError Settings := do
  let base ←
    if options.configPath.isEmpty then pure {}
    else
      match document options.configPath with
      | .ok node => Settings.ofNode node
      | .error reason => throw (.refused (.unreadable options.configPath reason))
  let leveled :=
    if options.logLevel.isEmpty then base else { base with logLevel := options.logLevel }
  (leveled.applyEnvironment environment).mapError .refused

-- The port that an argument gives; zero stands for any.
def portOf? (argument : Bytes) : Option Nat :=
  (Numeral.int32? argument).bind fun n => if 0 ≤ n ∧ n ≤ maxPort then some n.toNat else none

def invalidPort (argument : Bytes) : Report :=
  .failed (line (ascii "Error: invalid port " ++ argument))

def reportLines (report : Notation.ValidationReport) : Bytes :=
  report.errors.flatMap (fun error => line (ascii "error: " ++ error)) ++
  report.warnings.flatMap (fun warning => line (ascii "warning: " ++ warning)) ++
  line (ascii (if report.isValid then "Source is valid" else "Source is invalid"))

def validate (fileAt : Bytes → FileRead) : List Bytes → Outcome
  | [] => .finished (.failed
      (line (ascii "Error: validate requires a source file") ++ line validateUsage))
  | path :: _ =>
      match readSource fileAt path with
      | .error error => .failed error
      | .ok source =>
          let report := Notation.validate source
          .finished { code := if report.isValid then 0 else 2, out := reportLines report }

def parse (fileAt : Bytes → FileRead) : List Bytes → Outcome
  | [] => .finished (.failed (line parseUsage))
  | path :: _ =>
      match readSource fileAt path with
      | .error error => .failed error
      | .ok source =>
          match Json.indented? (Notation.parse source).toJson with
          | some text => .finished (.printed (line text))
          | none => .unprintable

-- The last output path among the arguments, empty when there is none.
def outputPath (chosen : Bytes) : List Bytes → Bytes
  | [] => chosen
  | [_] => chosen
  | argument :: value :: later =>
      if argument = ascii "-o" ∨ argument = ascii "--output" then outputPath value later
      else outputPath chosen (value :: later)

def generated (path : Bytes) (parsed : Notation.ParsedSource) : Outcome :=
  let code := Notation.renderModule parsed
  if path.isEmpty then .finished (.printed code)
  else
    .save path code
      (.printed (line (ascii "Wrote " ++ decimal parsed.endpoints.length ++
        ascii " endpoint(s) to " ++ path)))
      (.failed (line (ascii "Error: cannot write " ++ path)))

def generate (fileAt : Bytes → FileRead) : List Bytes → Outcome
  | [] => .finished (.failed (line generateUsage))
  | path :: later =>
      match readSource fileAt path with
      | .error error => .failed error
      | .ok source => generated (outputPath [] later) (Notation.parse source)

structure RunArguments where
  port : Option Nat := none
  paths : List Bytes := []
  deriving DecidableEq, Repr

def RunArguments.keep (path : Bytes) (arguments : RunArguments) : RunArguments :=
  { arguments with paths := arguments.paths ++ [path] }

-- Reads on in the arguments; the error is one that is no port.
def RunArguments.readOn (read : RunArguments) : List Bytes → Except Bytes RunArguments
  | [] => .ok read
  | [last] => .ok (read.keep last)
  | argument :: value :: later =>
      if argument = ascii "--port" then
        match (portOf? value).filter (· ≠ 0) with
        | some port => readOn { read with port := some port } later
        | none => .error value
      else readOn (read.keep argument) (value :: later)

variable {World : Type}

def pathUrl (port : Nat) (path : Bytes) : Bytes :=
  ascii "http://localhost:" ++ decimal port ++ Url.rooted path

def shownBody (response : Response) : Bytes :=
  match response.json? with
  | some value => Json.indented 0 value
  | none => response.body

def requestReport (path : Bytes) : Except Preview.FetchError Response → Report
  | .ok response =>
      .printed (line (ascii "GET " ++ path ++ ascii " -> " ++ signedDecimal response.status) ++
        line (shownBody response))
  | .error error =>
      let message := (Command.fetchError error).message
      .failed (line (ascii "GET " ++ path ++ ascii " failed: " ++ message))

/-- Both reports one after the other; a failure of either is one of both. -/
def Report.followedBy (first second : Report) : Report :=
  { code := max first.code second.code
    out := first.out ++ second.out
    err := first.err ++ second.err }

def requestPaths (context : Context World) (port : Nat) :
    List Bytes → Orchestrator → World → Report × World
  | [], _, world => ({}, world)
  | path :: later, state, world =>
      let (answer, world) :=
        state.fetch context.toSurroundings context.now { url := pathUrl port path } world
      let (report, world) := requestPaths context port later state world
      ((requestReport path answer).followedBy report, world)

def startReport (port : Nat) (server : Option Instance) : Report :=
  let kind := (server.map fun server => server.kind.name).getD (ascii "unknown")
  .printed (line (ascii "Server on port " ++ decimal port ++ ascii " (" ++ kind ++ ascii ")"))

def launchAndRequest (context : Context World) (source : Bytes) (arguments : RunArguments)
    (state : Orchestrator) (world : World) : Outcome × Orchestrator × World :=
  match state.start context.toSurroundings context.now source arguments.port world with
  | (.error error, state, world) => (.failed (.noPort error), state, world)
  | (.ok port, state, world) =>
      let (report, world) := requestPaths context port arguments.paths state world
      (.finished ((startReport port (state.get? port)).followedBy report),
        state.stopAll context.toSurroundings world)

def run (context : Context World) (arguments : List Bytes) (state : Orchestrator)
    (world : World) : Outcome × Orchestrator × World :=
  match arguments with
  | [] =>
      (.finished (.failed (line (ascii "Error: run requires a source file") ++ line runUsage)),
        state, world)
  | path :: later =>
      match RunArguments.readOn {} later with
      | .error argument => (.finished (invalidPort argument), state, world)
      | .ok arguments =>
          match readSource context.fileAt path with
          | .error error => (.failed error, state, world)
          | .ok source => launchAndRequest context source arguments state world

/-- The last control port among the arguments; the error is an argument that is no port. -/
def controlPort (chosen : Nat) : List Bytes → Except Bytes Nat
  | [] => .ok chosen
  | [_] => .ok chosen
  | argument :: value :: later =>
      if argument = ascii "--rpc-port" then
        match portOf? value with
        | some port => controlPort port later
        | none => .error value
      else controlPort chosen (value :: later)

def serve (settings : Settings) (arguments : List Bytes) : Outcome :=
  match controlPort settings.rpcPort arguments with
  | .ok port => .serve port
  | .error argument => .finished (invalidPort argument)

structure Invocation where
  arguments : List Bytes
  environment : Settings.Environment
  document : Bytes → Except Bytes Settings.Node

def perform (context : Context World) (settings : Settings) (command : Bytes)
    (arguments : List Bytes) (state : Orchestrator) (world : World) :
    Outcome × Orchestrator × World :=
  if command = ascii "validate" then (validate context.fileAt arguments, state, world)
  else if command = ascii "parse" then (parse context.fileAt arguments, state, world)
  else if command = ascii "generate" then (generate context.fileAt arguments, state, world)
  else if command = ascii "run" then run context arguments state world
  else if command = ascii "serve" then (serve settings arguments, state, world)
  else
    (.finished
      { code := 1
        out := usage
        err := line (ascii "Unknown command: " ++ command) ++ [newline] }, state, world)

def configured (context : Context World) (invocation : Invocation) (options : Options)
    (state : Orchestrator) : Except Settings.DocumentError (Settings × Orchestrator) := do
  let settings ← settingsOf invocation.document invocation.environment options
  let state ← (state.configure context.toSurroundings settings).mapError .refused
  return (settings, state)

def invoke (context : Context World) (invocation : Invocation) (state : Orchestrator)
    (world : World) : Outcome × Orchestrator × World :=
  match invocation.arguments with
  | [] => (.finished { code := 1, out := usage }, state, world)
  | command :: later =>
      if command = ascii "--help" ∨ command = ascii "-h" then
        (.finished (.printed usage), state, world)
      else
        let options := Options.ofArguments later
        match configured context invocation options state with
        | .error (.refused error) =>
            (.finished (.failed (line (ascii "Configuration error: " ++ error.message))),
              state, world)
        | .error .foreignKey => (.misread, state, world)
        | .ok (settings, state) => perform context settings command options.rest state world

end EndpointPreview.Control.CommandLine
