import EndpointPreview.Http.Message

/-!
The way outbound requests take. A dispatcher has a direct transport and an
active one; a transport installed in place of the direct one intercepts, and the
direct one can be put back.
-/

namespace EndpointPreview.Http

inductive Transport where
  | direct
  | outside (id : Nat)
  | interceptor (network : Nat)
  deriving DecidableEq, Repr

structure Dispatcher where
  active : Transport
  deriving DecidableEq, Repr

namespace Dispatcher

def fresh : Dispatcher := ⟨.direct⟩

/-- Makes a transport the active one; none stands for the direct one. -/
def install (transport : Option Transport) (_ : Dispatcher) : Dispatcher :=
  ⟨transport.getD .direct⟩

def restore (_ : Dispatcher) : Dispatcher := ⟨.direct⟩

def isIntercepted (dispatcher : Dispatcher) : Bool := dispatcher.active != .direct

end Dispatcher
end EndpointPreview.Http
