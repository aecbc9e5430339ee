import EndpointPreview.Proofs.DecoratorBinding
import EndpointPreview.Proofs.Launches
import EndpointPreview.Proofs.PortAllocation
import EndpointPreview.Proofs.WholeReports
import EndpointPreview.StrictFormats

/-!
Which sources are run as they are written. A launch and a check take a source for decorator
notation when it holds the marker anywhere; reading it takes only the rows that open with the
marker. A source without the marker is handed to the service as it is. One that holds the marker
but has no such row declares no endpoint, and a module that is generated from its functions runs
in its place.
-/

namespace EndpointPreview.Execution

open Text Http Preview

variable {World : Type}

/-- How a start ends that hands the text to the service: on the port that was given, or on one
that was handed out. Only a start that finds no port hands over nothing. -/
inductive HandsOver [Json.Dialect] (around : Surroundings World) (given : Option Nat) (text : Bytes)
    (state : Orchestrator) (world : World) :
    Except StartError Nat × Orchestrator × World → Prop where
  | handed (nextPort port : Nat) (own : ∀ wanted ∈ given, port = wanted)
      (after : Orchestrator × World)
      (lands : Orchestrator.Lands around port text { state with nextPort } world after) :
      HandsOver around given text state world (.ok port, after)
  | refused (nextPort : Nat) (unported : given = none)
      (taken : ∀ port, state.nextPort ≤ port → port ≤ maxPort → state.isRunning port = true) :
      HandsOver around given text state world (.error .noFreePort, { state with nextPort }, world)

namespace Orchestrator

theorem start_hands [Json.Dialect] (around : Surroundings World) (now : Millis) (source : Bytes)
    (given : Option Nat) (state : Orchestrator) (world : World) :
    HandsOver around given (executable source) state world
      (state.start around now source given world) := by
  unfold start
  cases given with
  | some port =>
      refine .handed state.nextPort port ?_ _ (startOn_lands around now source port state world)
      rintro wanted ⟨⟩
      rfl
  | none =>
      have allocates := state.allocate_allocates
      generalize state.allocate = result at allocates
      cases allocates with
      | handed port onward valid free =>
          exact .handed (port + 1) port (by rintro wanted ⟨⟩) _
            (startOn_lands around now source port _ world)
      | refused nextPort onward past bounded taken => exact .refused nextPort rfl taken

end Orchestrator
end EndpointPreview.Execution

namespace EndpointPreview.Notation

open Text Http Preview Execution

def Unmarked (source : Bytes) : Prop :=
  ∀ row ∈ lines source, startsWithMarker (trim row) = false

instance (source : Bytes) : Decidable (Unmarked source) :=
  inferInstanceAs (Decidable (∀ row ∈ lines source, startsWithMarker (trim row) = false))

theorem Unmarked.endpoints {source : Bytes} (unmarked : Unmarked source) :
    (parse source).endpoints = [] := by
  apply List.eq_nil_iff_forall_not_mem.mpr
  intro endpoint member
  obtain ⟨index, later, decorator, ⟨⟨row, place, marks⟩, _⟩, _⟩ :=
    endpoint_bound source endpoint member
  have inside : row ∈ lines source :=
    List.mem_of_mem_drop (place ▸ List.mem_cons_self : row ∈ (lines source).drop index)
  have marked := marks.marked
  rw [unmarked row inside] at marked
  cases marked

/-- The text reaches the service, whoever starts the source on whatever port. -/
def HandedAs [Json.Dialect] (source text : Bytes) : Prop :=
  ∀ (World : Type) (around : Surroundings World) (now : Millis) (given : Option Nat)
    (state : Orchestrator) (world : World),
    HandsOver around given text state world (state.start around now source given world)

theorem handed_executable [Json.Dialect] (source : Bytes) :
    HandedAs source (Orchestrator.executable source) :=
  fun _ around now given state world => state.start_hands around now source given world

structure RunsAsWritten [Json.Dialect] (source : Bytes) : Prop where
  handed : HandedAs source source
  checked : validate source = validateConventional source

-- A module without endpoints runs in place of the source, and the check misses decorators.
structure RunsWithoutRoutes [Json.Dialect] (source : Bytes) : Prop where
  endpoints : (parse source).endpoints = []
  handed : HandedAs source (renderModule (parse source))
  checked : validate source = validateNotation source
  warned : ascii "No @endpoint decorators found" ∈ (validate source).warnings

/-- Among sources without a marked row it is the marker's bytes alone that tell the style. -/
theorem unmarked_styles [Json.Dialect] (source : Bytes) (unmarked : Unmarked source) :
    (¬ marker <:+: source → RunsAsWritten source) ∧
      (marker <:+: source → RunsWithoutRoutes source) := by
  have handed := handed_executable source
  unfold Orchestrator.executable at handed
  constructor
  · intro absent
    have conventional : ¬ hasMarker source = true := fun held =>
      absent ((contains_iff marker source).mp held)
    rw [if_neg conventional] at handed
    exact ⟨handed, if_neg conventional⟩
  · intro present
    have decorated : hasMarker source = true := (contains_iff marker source).mpr present
    have checked : validate source = validateNotation source := if_pos decorated
    rw [if_pos decorated] at handed
    refine ⟨unmarked.endpoints, handed, checked, ?_⟩
    rw [checked]
    have missing : emptyWarnings (parse source) = [ascii "No @endpoint decorators found"] := by
      rw [emptyWarnings, unmarked.endpoints]
      rfl
    unfold validateNotation checkParsed ValidationReport.make
    dsimp only
    rw [missing]
    exact List.mem_cons_self

/-- A service that accepts every source, in a world that is the list of the texts it was handed. -/
def recording : Surroundings (List Bytes) where
  send _ _ handed := (.ok ⟨404, [], [], []⟩, handed)
  describe _ := []
  launch _ text _ handed := (.ok (ascii "process"), handed ++ [text])
  halt _ _ handed := (.ok (), handed)

def recordingState : Orchestrator := .make (.outside 0) {} (.stopped ⟨0, 0⟩) .fresh

def handedTexts [Json.Dialect] (source : Bytes) : List Bytes :=
  (recordingState.start recording 0 source (some 5000) []).2.2

def plainApp : Bytes := ascii "from flask import Flask\napp = Flask(__name__)\n"

section Strict

attribute [local instance] Json.strict

theorem unmarked_styles_plain :
    Unmarked plainApp ∧ ¬ marker <:+: plainApp ∧ RunsAsWritten plainApp ∧
      handedTexts plainApp = [plainApp] := by
  have unmarked : Unmarked plainApp := by decide +kernel
  have absent : ¬ marker <:+: plainApp := by decide +kernel
  have written := (unmarked_styles plainApp unmarked).1 absent
  refine ⟨unmarked, absent, written, ?_⟩
  decide +kernel

def commentedApp : Bytes :=
  ascii "from flask import Flask\napp = Flask(__name__)  # no @endpoint here\n"

theorem commented_replaced :
    Unmarked commentedApp ∧ handedTexts commentedApp = [moduleOpening ++ moduleEnding] ∧
      moduleOpening ++ moduleEnding ≠ commentedApp ∧
      validate commentedApp ≠ validateConventional commentedApp := by
  decide +kernel

end Strict

end EndpointPreview.Notation
