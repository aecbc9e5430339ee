import EndpointPreview.Proofs.Functions
import EndpointPreview.Settings.Document
import EndpointPreview.StrictFormats

/-!
How the reading of a configuration document ends. The settings it gives pass their own check and
name ports that exist; a document that gives none is refused with an error that names the field.
Only a key among the responses that has no text, at any depth, ends the reading in another way, and
then no settings are given.
-/

namespace EndpointPreview.Settings

open Notation (bind_ok bind_error)

namespace Node

inductive IsKeyIn (key : Node) : Node → Prop where
  | own {entries : List (Node × Node)} {value : Node} (entry : (key, value) ∈ entries) :
      IsKeyIn key (.map entries)
  | inValue {entries : List (Node × Node)} {other value : Node}
      (entry : (other, value) ∈ entries) (inside : IsKeyIn key value) : IsKeyIn key (.map entries)
  | inItem {items : List Node} {item : Node} (member : item ∈ items) (inside : IsKeyIn key item) :
      IsKeyIn key (.seq items)

def HasForeignKey [NodeDialect] (node : Node) : Prop :=
  ∃ key : Node, key.IsKeyIn node ∧ key.text? = none

theorem hasForeignKey_map [NodeDialect] (entries : List (Node × Node)) :
    (map entries).HasForeignKey ↔
      ∃ entry ∈ entries, entry.1.text? = none ∨ entry.2.HasForeignKey := by
  constructor
  · rintro ⟨key, inside, foreign⟩
    cases inside with
    | own entry => exact ⟨_, entry, .inl foreign⟩
    | inValue entry inside => exact ⟨_, entry, .inr ⟨key, inside, foreign⟩⟩
  · rintro ⟨⟨key, value⟩, entry, foreign | ⟨inner, inside, foreign⟩⟩
    · exact ⟨key, .own entry, foreign⟩
    · exact ⟨inner, .inValue entry inside, foreign⟩

theorem hasForeignKey_seq [NodeDialect] (items : List Node) :
    (seq items).HasForeignKey ↔ ∃ item ∈ items, item.HasForeignKey := by
  constructor
  · rintro ⟨key, inside, foreign⟩
    cases inside with
    | inItem member inside => exact ⟨_, member, key, inside, foreign⟩
  · rintro ⟨item, member, key, inside, foreign⟩
    exact ⟨key, .inItem member inside, foreign⟩

mutual

/-- A node has a JSON value unless one of its keys has no text. -/
theorem toJson?_eq_none [NodeDialect] : ∀ node : Node, node.toJson? = none ↔ node.HasForeignKey
  | undefined | null | plain _ | quoted _ => by
      constructor
      · rintro ⟨⟩
      · rintro ⟨key, ⟨⟩, _⟩
  | seq items => by
      rw [toJson?, Option.map_eq_none_iff, itemsToJson?_eq_none items, hasForeignKey_seq]
  | map entries => by
      rw [toJson?, Option.map_eq_none_iff, entriesToJson?_eq_none entries, hasForeignKey_map]

theorem itemsToJson?_eq_none [NodeDialect] : ∀ items : List Node,
    itemsToJson? items = none ↔ ∃ item ∈ items, item.HasForeignKey
  | [] => by simp [itemsToJson?]
  | item :: rest => by
      have own := toJson?_eq_none item
      have others := itemsToJson?_eq_none rest
      rw [itemsToJson?, List.exists_mem_cons_iff, ← own, ← others]
      cases item.toJson? <;> simp

theorem entriesToJson?_eq_none [NodeDialect] : ∀ entries : List (Node × Node),
    entriesToJson? entries = none ↔
      ∃ entry ∈ entries, entry.1.text? = none ∨ entry.2.HasForeignKey
  | [] => by simp [entriesToJson?]
  | (key, value) :: rest => by
      have own := toJson?_eq_none value
      have others := entriesToJson?_eq_none rest
      rw [entriesToJson?, List.exists_mem_cons_iff, ← own, ← others]
      cases key.text? <;> cases value.toJson? <;> simp

end

end Node

theorem readPort_isPort {field : String} {node : Node} {port : Nat}
    (read : readPort field node = .ok port) : isPort port = true := by
  unfold readPort at read
  obtain ⟨number, _, read⟩ := bind_ok read
  split at read
  · rename_i inside
    cases read
    have positive : 1 ≤ number := by
      simp only [isPort, Bool.and_eq_true, decide_eq_true_eq] at inside
      exact inside.1
    rwa [Int.toNat_of_nonneg (by omega)]
  · cases read

theorem readField_isPort {field : String} {node : Node} {default port : Nat}
    (allowed : isPort default = true) (read : readField readPort field node default = .ok port) :
    isPort port = true := by
  unfold readField at read
  split at read
  · exact readPort_isPort read
  · cases read
    exact allowed

structure FieldsRead (root : Node) (settings : Settings) : Prop where
  portBase : isPort settings.portBase = true
  rpcPort : isPort settings.rpcPort = true
  responses : (responsesNode root).isMapOrNothing = true

theorem requireMap_ok {field : String} {node : Node} (required : requireMap field node = .ok ()) :
    node.isMapOrNothing = true := by
  unfold requireMap at required
  split at required
  · assumption
  · cases required

theorem readFields_read [NodeDialect] {root : Node} {settings : Settings}
    (read : readFields root {} = .ok settings) : FieldsRead root settings := by
  unfold readFields at read
  obtain ⟨portBase, base_read, read⟩ := bind_ok read
  obtain ⟨rpcPort, rpc_read, read⟩ := bind_ok read
  obtain ⟨_, _, read⟩ := bind_ok read
  obtain ⟨_, _, read⟩ := bind_ok read
  obtain ⟨_, _, read⟩ := bind_ok read
  obtain ⟨_, simulated, read⟩ := bind_ok read
  cases read
  have responses : (responsesNode root).isMapOrNothing = true := by
    unfold readSimulation at simulated
    obtain ⟨_, _, simulated⟩ := bind_ok simulated
    obtain ⟨_, _, simulated⟩ := bind_ok simulated
    obtain ⟨_, _, simulated⟩ := bind_ok simulated
    obtain ⟨_, required, _⟩ := bind_ok simulated
    exact requireMap_ok required
  exact ⟨readField_isPort (by decide) base_read, readField_isPort (by decide) rpc_read, responses⟩

theorem payloads_eq [NodeDialect] (node : Node) (mapping : node.isMapOrNothing = true) :
    (node.HasForeignKey ∧ payloads node = .error .foreignKey) ∨
      (¬ node.HasForeignKey ∧ ∃ assigned, payloads node = .ok assigned) := by
  cases node with
  | undefined | null =>
      refine .inr ⟨?_, [], rfl⟩
      rintro ⟨key, ⟨⟩, _⟩
  | plain | quoted | seq => cases mapping
  | map entries =>
      have keys := Node.entriesToJson?_eq_none entries
      rw [← Node.hasForeignKey_map] at keys
      cases converted : Node.entriesToJson? entries with
      | none => exact .inl ⟨keys.mp converted, by simp [payloads, converted]⟩
      | some assigned =>
          refine .inr ⟨fun foreign => ?_, assigned, by simp [payloads, converted]⟩
          rw [keys.mpr foreign] at converted
          cases converted

theorem validated_ok {settings valid : Settings} (checked : settings.validated = .ok valid) :
    valid = settings ∧ settings.validate = .ok () := by
  unfold validated at checked
  cases check : settings.validate with
  | error => rw [check] at checked; cases checked
  | ok => rw [check] at checked; cases checked; exact ⟨rfl, rfl⟩

inductive Ends [NodeDialect] (root : Node) : Except DocumentError Settings → Prop where
  | settings {settings : Settings} (valid : settings.validate = .ok ())
      (portBase : isPort settings.portBase = true) (rpcPort : isPort settings.rpcPort = true)
      (scalar : ¬ (responsesNode root).HasForeignKey) : Ends root (.ok settings)
  | refused (error : SettingsError)
      (earlier : (responsesNode root).HasForeignKey → readFields root {} = .error error) :
      Ends root (.error (.refused error))
  | foreignKey (foreign : (responsesNode root).HasForeignKey) : Ends root (.error .foreignKey)

theorem readMapping_ends [NodeDialect] (root : Node) (mapping : root.isMapOrNothing = true) :
    Ends root (do
      (requireMap "<root>" root).mapError .refused
      let settings ← (readFields root {}).mapError .refused
      let payloads ← payloads (responsesNode root)
      (settings.withResponses payloads).validated.mapError .refused) := by
  have required : requireMap "<root>" root = .ok () := if_pos mapping
  rw [required]
  cases read : readFields root {} with
  | error error => exact .refused error fun _ => read
  | ok settings =>
      have fields := readFields_read read
      rcases payloads_eq _ fields.responses with ⟨foreign, stops⟩ | ⟨scalar, assigned, goes_on⟩
      · rw [stops]
        exact .foreignKey foreign
      · rw [goes_on]
        change Ends root ((settings.withResponses assigned).validated.mapError .refused)
        cases checked : (settings.withResponses assigned).validated with
        | error error => exact .refused error fun foreign => absurd foreign scalar
        | ok valid =>
            obtain ⟨rfl, passes⟩ := validated_ok checked
            exact .settings passes fields.portBase fields.rpcPort scalar

/-- Every document gives valid settings, is refused, or has a key without a text among its
responses. -/
theorem ofNode_ends [NodeDialect] (root : Node) : Ends root (ofNode root) := by
  have no_key : ¬ Node.undefined.HasForeignKey := by rintro ⟨key, ⟨⟩, _⟩
  cases root with
  | undefined => exact .settings (by decide) (by decide) (by decide) no_key
  | null => exact .settings (by decide) (by decide) (by decide) no_key
  | plain text => exact .refused _ fun foreign => absurd foreign no_key
  | quoted text => exact .refused _ fun foreign => absurd foreign no_key
  | seq items => exact .refused _ fun foreign => absurd foreign no_key
  | map entries => exact readMapping_ends (.map entries) rfl

def sequencePath : Node :=
  .map [(.plain (ascii "mock"), .map [(.plain (ascii "responses"),
    .map [(.seq [], .plain (ascii "1"))])])]

section Strict

attribute [local instance] strict

/-- Such a document neither gives settings nor is refused. -/
theorem sequencePath_escapes :
    ¬ ((∃ settings, ofNode sequencePath = .ok settings) ∨
      ∃ error, ofNode sequencePath = .error (.refused error)) := by
  have escapes : ofNode sequencePath = .error .foreignKey := rfl
  simp [escapes]

end Strict

end EndpointPreview.Settings
