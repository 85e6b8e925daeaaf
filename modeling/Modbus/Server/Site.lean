import Modbus.Client.Call
import Modbus.Link.Coupled
import Modbus.Server.Listener

/-!
# Sites

A site is a listener, the service behind it and the clients that have connected. All connections share the state of
the service; each has a station of its own.
-/

namespace Modbus

structure Site (τ : Type) where
  service : Service τ
  listener : Listener
  state : τ
  connections : List (Nat × Client × Coupled τ) := []

namespace Site

variable {τ : Type}

/-- A connection to a station that serves it or, if it is not admitted, has hung up. -/
def connection (site : Site τ) (c : Client) (admission : Admission) : Client × Coupled τ :=
  let near := Endpoint.fresh .tcp {} {}
  let status : Server.Status := if admission = .served then .waiting else .ended
  (c, { service := site.service, near, far := { endpoint := near, state := site.state, status } })

def probe (site : Site τ) : Except Fault Admission × Site τ :=
  let (result, listener) := site.listener.connect
  (result, { site with listener })

def close (number : Nat) (site : Site τ) : Site τ :=
  { site with connections := site.connections.filter (·.1 ≠ number) }

def connect (number : Nat) (c : Client) (site : Site τ) : Except Fault Unit × Site τ :=
  match site.probe with
  | (.error f, site) => (.error f, site)
  | (.ok admission, site) =>
    let site := site.close number
    (.ok (), { site with connections := (number, site.connection c admission) :: site.connections })

def client? (number : Nat) (site : Site τ) : Option (Client × Coupled τ) :=
  (site.connections.lookup number).map fun (c, s) => (c, { s with far := { s.far with state := site.state } })

def update (number : Nat) (c : Client) (s : Coupled τ) (site : Site τ) : Site τ :=
  { site.close number with
    state := s.far.state
    connections := (number, c, s) :: (site.close number).connections }

end Site

end Modbus
