import EndpointPreview.Proofs.ExactValues
import EndpointPreview.Proofs.JsonNumbers
import EndpointPreview.Settings.Document
import EndpointPreview.StrictFormats

/-!
Settings and their documents. The document of the settings' JSON form, with texts and keys quoted
and numbers and truth values plain, gives the settings back. A plain number is the decimal text of
one number only, and a quoted text stays a text, whatever number it looks like.
-/

namespace EndpointPreview.Numeral

open Text

-- Only zero is written with a leading zero, which is the same number in base eight.
theorem whole_decimal (n : Nat) : whole? (decimal n) = some n := by
  rcases Nat.eq_zero_or_pos n with rfl | positive
  · rfl
  · obtain ⟨first, rest, written, nonzero⟩ := digits_head n positive
    have other : ¬ 48 = first := Ne.symm nonzero
    have base : Based.ofText (decimal n) = ⟨10, isDigit, decimal n⟩ := by
      simp [Based.ofText, startsWith, ascii, List.isPrefixOf, written, other]
    have all : (decimal n).all isDigit = true := List.all_eq_true.mpr (AllDigits.decimal n)
    have digits := (takeWhile_digits (decimal n) [] (.decimal n) (by rintro b ⟨⟩)).1
    rw [List.append_nil] at digits
    simp [whole?, base, Based.isWhole, Based.value, all, digits, decimal_ne_nil, ofDigits_decimal]

theorem takeSign_signedDecimal (n : Int) :
    takeSign (signedDecimal n) = (decide (n < 0), decimal n.natAbs) := by
  unfold signedDecimal
  split
  · rename_i negative
    rw [decide_eq_true negative]
    rfl
  · rename_i positive
    rw [decide_eq_false positive]
    exact takeSign_digits _ (.decimal _)

end EndpointPreview.Numeral

namespace EndpointPreview.Settings

open Text

theorem integer_signedDecimal (n : Int) : integer? (signedDecimal n) = some n := by
  have whole : dropEndWhile isSpace (signedDecimal n) = signedDecimal n := by
    obtain ⟨front, written⟩ : ∃ front, signedDecimal n = front ++ decimal n.natAbs := by
      unfold signedDecimal
      split
      · exact ⟨[byte '-'], rfl⟩
      · exact ⟨[], rfl⟩
    have last := digit_solid _ (AllDigits.decimal _ _ (List.getLast_mem (decimal_ne_nil n.natAbs)))
    rw [written, dropEndWhile, ← List.dropLast_append_getLast (decimal_ne_nil n.natAbs)]
    simp [last]
  have sign : Numeral.applySign (decide (n < 0)) n.natAbs = n := by
    simp only [Numeral.applySign, decide_eq_true_eq]
    omega
  simp [integer?, whole, Numeral.takeSign_signedDecimal, Numeral.whole_decimal, sign]

def InRange32 (n : Int) : Prop := -Numeral.limit32 ≤ n ∧ n < Numeral.limit32

def InRange64 (n : Int) : Prop := -Numeral.limit64 ≤ n ∧ n < Numeral.limit64

instance (n : Int) : Decidable (InRange32 n) := inferInstanceAs (Decidable (_ ∧ _))
instance (n : Int) : Decidable (InRange64 n) := inferInstanceAs (Decidable (_ ∧ _))

theorem int32_signedDecimal (n : Int) (inside : InRange32 n) : int32? (signedDecimal n) = some n := by
  obtain ⟨low, high⟩ := inside
  simp [int32?, integer_signedDecimal, Numeral.fits32, Numeral.within]
  omega

theorem int64_signedDecimal (n : Int) (inside : InRange64 n) : int64? (signedDecimal n) = some n := by
  obtain ⟨low, high⟩ := inside
  simp [int64?, integer_signedDecimal, Numeral.fits64, Numeral.within]
  omega

namespace Node

theorem itemsToJson?_itemsOfJson [Json.Dialect] [NodeDialect] (items : List Json)
    (reads : ∀ item ∈ items, (ofJson item).toJson? = some item) :
    itemsToJson? (itemsOfJson items) = some items := by
  induction items with
  | nil => rfl
  | cons item rest ih =>
      obtain ⟨own, others⟩ := List.forall_mem_cons.mp reads
      simp [itemsOfJson, itemsToJson?, own, ih others]

theorem entriesToJson?_entriesOfJson [Json.Dialect] [NodeDialect] (members : Json.Members)
    (reads : ∀ member ∈ members, (ofJson member.2).toJson? = some member.2) :
    entriesToJson? (entriesOfJson members) = some members := by
  induction members with
  | nil => rfl
  | cons member rest ih =>
      obtain ⟨own, others⟩ := List.forall_mem_cons.mp reads
      simp [entriesOfJson, entriesToJson?, text?, scalar?, own, ih others]

/-- A payload without floats is read back from its document. -/
theorem toJson?_ofJson [Json.Dialect] [NodeDialect] (value : Json)
    (exact : value.Exact InRange64) :
    (ofJson value).toJson? = some value := by
  induction exact with
  | null => rfl
  | bool value => cases value <;> rfl
  | int n inside =>
      simp [ofJson, Json.scalarText, toJson?, plainValue, int64_signedDecimal n inside]
  | str text => rfl
  | arr items _ ih => simp [ofJson, toJson?, itemsToJson?_itemsOfJson items ih]
  | obj members sorted _ ih =>
      simp [ofJson, toJson?, entriesToJson?_entriesOfJson members ih,
        Json.object_sorted members sorted]

end Node

-- What the types of the fields allow: ports that exist, times of 32 bits, and responses in the
-- order of their paths. Their payloads have no floats.
structure Writable (settings : Settings) : Prop where
  portBase : isPort settings.portBase = true
  rpcPort : isPort settings.rpcPort = true
  timeout : InRange32 settings.service.timeoutMs
  minMs : InRange32 settings.simulation.latency.minMs
  maxMs : InRange32 settings.simulation.latency.maxMs
  sorted : Table.Sorted precedes settings.simulation.responses
  payloads : ∀ entry ∈ settings.simulation.responses, entry.2.Exact InRange64

theorem readPort_written (field : String) (port default : Nat) (allowed : isPort port = true) :
    readField readPort field (.plain (signedDecimal port)) default = .ok port := by
  have bounds : (1 : Int) ≤ port ∧ (port : Int) ≤ 65535 := by simpa [isPort] using allowed
  have inside : InRange32 port := by
    simp only [InRange32, Numeral.limit32]
    omega
  simp [readField, Node.isDefined, readPort, readScalar, Node.scalar?, int32_signedDecimal _ inside,
    bind, Except.bind, allowed]

theorem readTime_written (field : String) (time default : Int) (inside : InRange32 time) :
    readField (readScalar int32?) field (.plain (signedDecimal time)) default = .ok time := by
  simp [readField, Node.isDefined, readScalar, Node.scalar?, int32_signedDecimal _ inside]

theorem readText_written [NodeDialect] (field : String) (text default : Bytes) :
    readField readText field (.quoted text) default = .ok text := rfl

theorem readFlag_written [Json.Dialect] (field : String) (flag default : Bool) :
    readField (readScalar bool?) field (Node.ofJson (.bool flag)) default = .ok flag := by
  cases flag <;> rfl

section Document

variable (settings : Settings)

def serviceNode [Json.Dialect] : Node :=
  .map
    [(.quoted (ascii "base_url"), .quoted settings.service.baseUrl),
      (.quoted (ascii "enabled"), Node.ofJson (.bool settings.service.enabled)),
      (.quoted (ascii "timeout_ms"), .plain (signedDecimal settings.service.timeoutMs))]

def simulationNode [Json.Dialect] : Node :=
  .map
    [(.quoted (ascii "latency_max_ms"), .plain (signedDecimal settings.simulation.latency.maxMs)),
      (.quoted (ascii "latency_min_ms"), .plain (signedDecimal settings.simulation.latency.minMs)),
      (.quoted (ascii "responses"), .map (Node.entriesOfJson settings.simulation.responses))]

/-- The document of the settings, with the fields of each mapping in the order of their names. -/
theorem ofJson_toJson [Json.Dialect] : Node.ofJson settings.toJson = .map
    [(.quoted (ascii "execution_service"), serviceNode settings),
      (.quoted (ascii "log_file"), .quoted settings.logFile),
      (.quoted (ascii "log_level"), .quoted settings.logLevel),
      (.quoted (ascii "mock"), simulationNode settings),
      (.quoted (ascii "port_base"), .plain (signedDecimal settings.portBase)),
      (.quoted (ascii "rpc_port"), .plain (signedDecimal settings.rpcPort))] := rfl

variable {settings}

theorem readService_written [Json.Dialect] [NodeDialect] (writable : settings.Writable)
    (default : ServiceSettings) :
    readService (serviceNode settings) default = .ok settings.service := by
  have fields : (serviceNode settings).get "base_url" = .quoted settings.service.baseUrl ∧
      (serviceNode settings).get "enabled" = Node.ofJson (.bool settings.service.enabled) ∧
      (serviceNode settings).get "timeout_ms" = .plain (signedDecimal settings.service.timeoutMs) :=
    ⟨rfl, rfl, rfl⟩
  have mapping : requireMap "execution_service" (serviceNode settings) = .ok () := rfl
  rw [readService, mapping, fields.1, fields.2.1, fields.2.2, readText_written, readFlag_written,
    readTime_written _ _ _ writable.timeout]
  rfl

theorem readSimulation_written [Json.Dialect] (writable : settings.Writable) :
    readSimulation (simulationNode settings) {} =
      .ok { latency := settings.simulation.latency, responses := [] } := by
  have fields :
      (simulationNode settings).get "latency_min_ms" =
        .plain (signedDecimal settings.simulation.latency.minMs) ∧
      (simulationNode settings).get "latency_max_ms" =
        .plain (signedDecimal settings.simulation.latency.maxMs) := ⟨rfl, rfl⟩
  have mapping : requireMap "mock" (simulationNode settings) = .ok () := rfl
  have responses : requireMap "mock.responses" ((simulationNode settings).get "responses") = .ok () :=
    rfl
  rw [readSimulation, mapping, fields.1, fields.2, readTime_written _ _ _ writable.minMs,
    readTime_written _ _ _ writable.maxMs, responses]
  rfl

theorem readFields_written [Json.Dialect] [NodeDialect] (writable : settings.Writable) :
    readFields (Node.ofJson settings.toJson) {} =
      .ok { settings with simulation := { settings.simulation with responses := [] } } := by
  rw [ofJson_toJson]
  generalize whole : Node.map _ = root
  have fields : root.get "port_base" = .plain (signedDecimal settings.portBase) ∧
      root.get "rpc_port" = .plain (signedDecimal settings.rpcPort) ∧
      root.get "log_file" = .quoted settings.logFile ∧
      root.get "log_level" = .quoted settings.logLevel ∧
      root.get "execution_service" = serviceNode settings ∧
      root.get "mock" = simulationNode settings := by
    subst whole
    exact ⟨rfl, rfl, rfl, rfl, rfl, rfl⟩
  obtain ⟨portBase, rpcPort, logFile, logLevel, service, simulation⟩ := fields
  rw [readFields, portBase, rpcPort, logFile, logLevel, service, simulation,
    readPort_written _ _ _ writable.portBase, readPort_written _ _ _ writable.rpcPort,
    readText_written, readText_written, readService_written writable,
    readSimulation_written writable]
  rfl

theorem responses_written [Json.Dialect] [NodeDialect] (writable : settings.Writable) :
    payloads (responsesNode (Node.ofJson settings.toJson)) =
      .ok settings.simulation.responses := by
  have node : responsesNode (Node.ofJson settings.toJson) =
      .map (Node.entriesOfJson settings.simulation.responses) := by
    rw [ofJson_toJson]
    rfl
  have read := Node.entriesToJson?_entriesOfJson settings.simulation.responses
    fun entry member => Node.toJson?_ofJson entry.2 (writable.payloads entry member)
  rw [node, payloads, read]
  rfl

end Document

theorem ofNode_map [NodeDialect] {entries : List (Node × Node)} {settings : Settings}
    {assigned : List (Bytes × Json)} (fields : readFields (.map entries) {} = .ok settings)
    (responses : payloads (responsesNode (.map entries)) = .ok assigned) :
    ofNode (.map entries) = (settings.withResponses assigned).validated.mapError .refused := by
  have mapping : requireMap "<root>" (.map entries) = .ok () := rfl
  simp only [ofNode, mapping, fields, responses]
  rfl

/-- Valid settings are read back from their own document, field by field and payload by payload. -/
theorem ofNode_toJson [Json.Dialect] [NodeDialect] (settings : Settings)
    (valid : settings.validate = .ok ()) (writable : settings.Writable) :
    ofNode (Node.ofJson settings.toJson) = .ok settings := by
  have fields := readFields_written writable
  have responses := responses_written writable
  rw [ofJson_toJson] at fields responses ⊢
  have table : Preview.Routes.override settings.simulation.responses [] =
      settings.simulation.responses :=
    Table.setAll_sorted precedes_orders settings.simulation.responses [] writable.sorted
  have whole : Settings.withResponses settings.simulation.responses
      { settings with simulation := { settings.simulation with responses := [] } } = settings := by
    simp only [withResponses, table]
  have checked : settings.validated = .ok settings := by
    rw [validated, valid]
    rfl
  rw [ofNode_map fields responses, whole, checked]
  rfl

/-- Settings at the ends of what is allowed, with payloads that look like other ones. -/
def extremeSettings : Settings where
  portBase := 1
  rpcPort := 65535
  logFile := []
  logLevel := ascii "off"
  service := { enabled := false, baseUrl := ascii "~", timeoutMs := 2147483647 }
  simulation :=
    { latency := ⟨0, 2147483647⟩
      responses :=
        [(ascii "", .null),
          (ascii "/0x1F", .obj
            [(ascii "1", .arr [.str (ascii "0x1F"), .int (-0x8000000000000000), .bool true]),
              (ascii "null", .str (ascii "true"))])] }

theorem extremeSettings_writable : extremeSettings.Writable where
  portBase := rfl
  rpcPort := rfl
  timeout := by decide
  minMs := by decide
  maxMs := by decide
  sorted := by decide
  payloads := by
    have items : (Json.arr [.str (ascii "0x1F"), .int (-0x8000000000000000), .bool true]).Exact
        InRange64 := by
      refine .arr _ fun item member => ?_
      simp only [List.mem_cons, List.not_mem_nil, or_false] at member
      rcases member with rfl | rfl | rfl
      · exact .str _
      · exact .int _ (by decide)
      · exact .bool _
    refine List.forall_mem_cons.mpr ⟨.null, List.forall_mem_singleton.mpr ?_⟩
    refine .obj _ (by decide) (List.forall_mem_cons.mpr ⟨items, List.forall_mem_singleton.mpr ?_⟩)
    exact .str _

section Strict

attribute [local instance] Json.strict Settings.strict

theorem ofNode_toJson_extreme :
    extremeSettings.validate = .ok () ∧ extremeSettings.Writable ∧
      ofNode (Node.ofJson extremeSettings.toJson) = .ok extremeSettings :=
  ⟨rfl, extremeSettings_writable, ofNode_toJson extremeSettings rfl extremeSettings_writable⟩

end Strict

end EndpointPreview.Settings
