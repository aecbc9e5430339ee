import EndpointPreview.Preview.Network
import EndpointPreview.Settings.Node

/-!
Settings of the preview: where ports start, where the control service listens, how
sources are executed and what simulated servers answer. Every field has a default.
-/

namespace EndpointPreview

open Text

structure ServiceSettings where
  enabled : Bool := true
  baseUrl : Bytes := ascii "http://127.0.0.1:8000"
  timeoutMs : Int := 30000
  deriving DecidableEq, Repr

structure SimulationSettings where
  latency : Preview.Latency := ⟨100, 300⟩
  responses : Preview.Routes := []
  deriving BEq, Repr

structure Settings where
  portBase : Nat := 5000
  rpcPort : Nat := 8655
  logFile : Bytes := ascii "endpoint_runtime.log"
  logLevel : Bytes := ascii "info"
  service : ServiceSettings := {}
  simulation : SimulationSettings := {}
  deriving BEq, Repr

inductive SettingsError where
  | unreadable (path reason : Bytes)
  | unexpectedValue (field : String) (shown : Bytes)
  | portRange (field : String) (port : Int)
  | notMapping (field : String)
  | notNumber (field : String) (text : Bytes)
  | timeout (timeoutMs : Int)
  | latencyRange (latency : Preview.Latency)
  | serviceUrl (error : Http.UrlError)
  | serviceScheme (scheme : Bytes)
  | logLevel (level : Bytes)
  deriving DecidableEq, Repr

def SettingsError.text : SettingsError → Bytes
  | unreadable path reason => path ++ ascii ": " ++ reason
  | unexpectedValue field shown =>
      ascii field ++ ascii ": unexpected value '" ++ shown ++ ascii "'"
  | portRange field port =>
      ascii field ++ ascii ": port " ++ signedDecimal port ++ ascii " out of range"
  | notMapping field => ascii field ++ ascii ": expected a mapping"
  | notNumber field text => ascii field ++ ascii ": not a number '" ++ text ++ ascii "'"
  | timeout timeoutMs =>
      ascii "execution_service.timeout_ms: " ++ signedDecimal timeoutMs ++ ascii " <= 0"
  | latencyRange latency =>
      ascii "mock latency range [" ++ signedDecimal latency.minMs ++ ascii ", " ++
        signedDecimal latency.maxMs ++ ascii "] is invalid"
  | serviceUrl error => ascii "execution_service.base_url: " ++ error.message
  | serviceScheme scheme =>
      ascii "execution_service.base_url: unsupported scheme '" ++ scheme ++ ascii "'"
  | logLevel level => ascii "log_level: unknown level '" ++ level ++ ascii "'"

def SettingsError.message (error : SettingsError) : Bytes := beforeZero error.text

namespace Settings

def logLevels : List String :=
  ["trace", "debug", "info", "warn", "warning", "error", "err", "critical", "off"]

def checkTimeout (settings : Settings) : Except SettingsError Unit :=
  if settings.service.timeoutMs ≤ 0 then .error (.timeout settings.service.timeoutMs) else .ok ()

def checkLatency (settings : Settings) : Except SettingsError Unit :=
  if settings.simulation.latency.isValid then .ok ()
  else .error (.latencyRange settings.simulation.latency)

def checkService (settings : Settings) : Except SettingsError Unit :=
  if settings.service.enabled then
    match Http.Url.parse settings.service.baseUrl with
    | .error error => .error (.serviceUrl error)
    | .ok url => if url.scheme = ascii "http" then .ok () else .error (.serviceScheme url.scheme)
  else .ok ()

def checkLogLevel (settings : Settings) : Except SettingsError Unit :=
  if logLevels.any (fun level => ascii level == settings.logLevel) then .ok ()
  else .error (.logLevel settings.logLevel)

def validate (settings : Settings) : Except SettingsError Unit := do
  settings.checkTimeout
  settings.checkLatency
  settings.checkService
  settings.checkLogLevel

def validated (settings : Settings) : Except SettingsError Settings :=
  settings.validate.map fun _ => settings

-- Variables that override settings; an empty one overrides nothing.
structure Environment where
  serviceUrl : Bytes := []
  rpcPort : Bytes := []
  deriving DecidableEq, Repr

def serviceUrlVariable : String := "ENDPOINT_RUNTIME_SERVICE_URL"
def rpcPortVariable : String := "ENDPOINT_RUNTIME_RPC_PORT"

def isPort (n : Int) : Bool := 1 ≤ n && n ≤ 65535

def environmentPort (text : Bytes) : Except SettingsError Nat :=
  match Numeral.int32? text with
  | none => .error (.notNumber rpcPortVariable text)
  | some port => if isPort port then .ok port.toNat else .error (.portRange rpcPortVariable port)

def withServiceUrl (url : Bytes) (settings : Settings) : Settings :=
  if url.isEmpty then settings
  else { settings with service := { settings.service with baseUrl := url } }

def withRpcPort (text : Bytes) (settings : Settings) : Except SettingsError Settings :=
  if text.isEmpty then .ok settings
  else (environmentPort text).map fun port => { settings with rpcPort := port }

def applyEnvironment (environment : Environment) (settings : Settings) :
    Except SettingsError Settings := do
  let settings ← (settings.withServiceUrl environment.serviceUrl).withRpcPort environment.rpcPort
  settings.validated

def toJson (settings : Settings) : Json :=
  .object
    [(ascii "port_base", .nat settings.portBase),
      (ascii "rpc_port", .nat settings.rpcPort),
      (ascii "log_file", .str settings.logFile),
      (ascii "log_level", .str settings.logLevel),
      (ascii "execution_service", .object
        [(ascii "enabled", .bool settings.service.enabled),
          (ascii "base_url", .str settings.service.baseUrl),
          (ascii "timeout_ms", .int settings.service.timeoutMs)]),
      (ascii "mock", .object
        [(ascii "latency_min_ms", .int settings.simulation.latency.minMs),
          (ascii "latency_max_ms", .int settings.simulation.latency.maxMs),
          (ascii "responses", .obj settings.simulation.responses)])]

end Settings
end EndpointPreview
