import EndpointPreview.Settings.Basic

/-!
Settings from a configuration document. A field that is not there keeps its default,
fields that are not known are passed over, and the result has to be valid. A key among
the responses that has no text is not refused as an invalid value is: no error of the
settings tells of it.
-/

namespace EndpointPreview.Settings

open Text

inductive DocumentError where
  | refused (error : SettingsError)
  | foreignKey
  deriving DecidableEq, Repr

def shownValue (node : Node) : Bytes := node.scalar?.getD (ascii "<node>")

def readScalar (read : Bytes → Option α) (field : String) (node : Node) :
    Except SettingsError α :=
  match node.scalar?.bind read with
  | some value => .ok value
  | none => .error (.unexpectedValue field (shownValue node))

variable [NodeDialect]

def readText (field : String) (node : Node) : Except SettingsError Bytes :=
  node.text?.elim (.error (.unexpectedValue field (shownValue node))) .ok

def readPort (field : String) (node : Node) : Except SettingsError Nat := do
  let port ← readScalar int32? field node
  if isPort port then .ok port.toNat else .error (.portRange field port)

/-- The value of a field of a mapping, or the default when the field is not there. -/
def readField (read : String → Node → Except SettingsError α) (field : String) (node : Node)
    (default : α) : Except SettingsError α :=
  if node.isDefined then read field node else .ok default

def requireMap (field : String) (node : Node) : Except SettingsError Unit :=
  if node.isMapOrNothing then .ok () else .error (.notMapping field)

def readService (node : Node) (default : ServiceSettings) : Except SettingsError ServiceSettings := do
  requireMap "execution_service" node
  let enabled ← readField (readScalar bool?) "execution_service.enabled"
    (node.get "enabled") default.enabled
  let baseUrl ← readField readText "execution_service.base_url"
    (node.get "base_url") default.baseUrl
  let timeoutMs ← readField (readScalar int32?) "execution_service.timeout_ms"
    (node.get "timeout_ms") default.timeoutMs
  return { enabled, baseUrl, timeoutMs }

/-- The limits of the simulation; the responses are checked to be a mapping, but not read. -/
def readSimulation (node : Node) (default : SimulationSettings) :
    Except SettingsError SimulationSettings := do
  requireMap "mock" node
  let minMs ← readField (readScalar int32?) "mock.latency_min_ms"
    (node.get "latency_min_ms") default.latency.minMs
  let maxMs ← readField (readScalar int32?) "mock.latency_max_ms"
    (node.get "latency_max_ms") default.latency.maxMs
  requireMap "mock.responses" (node.get "responses")
  return { default with latency := ⟨minMs, maxMs⟩ }

def readFields (root : Node) (default : Settings) : Except SettingsError Settings := do
  let portBase ← readField readPort "port_base" (root.get "port_base") default.portBase
  let rpcPort ← readField readPort "rpc_port" (root.get "rpc_port") default.rpcPort
  let logFile ← readField readText "log_file" (root.get "log_file") default.logFile
  let logLevel ← readField readText "log_level" (root.get "log_level") default.logLevel
  let service ← readService (root.get "execution_service") default.service
  let simulation ← readSimulation (root.get "mock") default.simulation
  return { portBase, rpcPort, logFile, logLevel, service, simulation }

def responsesNode (root : Node) : Node := (root.get "mock").get "responses"

def payloads (node : Node) : Except DocumentError (List (Bytes × Json)) :=
  match node with
  | .map entries => (Node.entriesToJson? entries).elim (.error .foreignKey) .ok
  | _ => .ok []

def withResponses (payloads : List (Bytes × Json)) (settings : Settings) : Settings :=
  { settings with
    simulation :=
      { settings.simulation with
        responses := Preview.Routes.override payloads settings.simulation.responses } }

/-- The settings of a document; nothing in it stands for the defaults. -/
def ofNode (root : Node) : Except DocumentError Settings :=
  match root with
  | .undefined => .ok {}
  | .null => .ok {}
  | root => do
      (requireMap "<root>" root).mapError .refused
      let settings ← (readFields root {}).mapError .refused
      let payloads ← payloads (responsesNode root)
      (settings.withResponses payloads).validated.mapError .refused

end EndpointPreview.Settings
