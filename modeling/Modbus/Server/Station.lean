import Modbus.Link.Endpoint
import Modbus.Server.Basic

/-!
# Stations

A station is a server on an endpoint that is run piece by piece: it hears bytes, is brought forward to a time and is
asked what it has sent. `runTo_le` says that a station that has sent something has used up something.
-/

namespace Modbus

structure Station (τ : Type) where
  endpoint : Endpoint
  state : τ
  status : Server.Status := .waiting

namespace Server

theorem weight_of_frame {limit : Option Nat} {p p' : Endpoint} {frame : Option Adu}
    (h : Link.receive limit p = (.done frame, p')) : p'.weight < p.weight := by
  have := p.weight_receive limit
  rw [show p.receive limit = _ from h] at this
  exact this trivial

theorem weight_of_failure {limit : Option Nat} {p p' : Endpoint} {f : Fault}
    (h : Link.receive limit p = (.failed f, p')) (goesOn : ¬ f.isFatal) : p'.weight < p.weight := by
  have := p.weight_receive limit
  rw [show p.receive limit = _ from h] at this
  exact this (by simpa [Outcome.GoesOn] using goesOn)

theorem weight_of_send {adu : Adu} {p p' : Endpoint} {o : Outcome Unit} (h : Link.send adu none p = (o, p')) :
    p'.weight = p.weight := by
  have := p.weight_send adu none
  rwa [show p.send adu none = _ from h] at this

theorem run_endpoint_le {τ : Type} (service : Service τ) (limit : Option Nat) (p : Endpoint) (t : τ) :
    (run service limit p t).2.1.weight ≤ p.weight ∧
      ((run service limit p t).2.1.line.sent = p.line.sent ∨ (run service limit p t).2.1.weight < p.weight) := by
  fun_induction run service limit p t with
  | case1 p t p' h =>
    have := p.receive_le limit
    rw [show p.receive limit = _ from h] at this
    exact ⟨this.2, .inl this.1⟩
  | case2 p t f p' h hf =>
    have := p.receive_le limit
    rw [show p.receive limit = _ from h] at this
    exact ⟨this.2, .inl this.1⟩
  | case3 p t f p' h hf ih =>
    have := weight_of_failure h hf
    exact ⟨by omega, .inr (by omega)⟩
  | case4 p t frame p' h t' hr ih =>
    have := weight_of_frame h
    exact ⟨by omega, .inr (by omega)⟩
  | case5 p t frame p' h reply t' hr p'' hs =>
    have hw := weight_of_send hs
    have := weight_of_frame h
    simp only
    exact ⟨by omega, .inr (by omega)⟩
  | case6 p t frame p' h reply t' hr f p'' hs hf =>
    have hw := weight_of_send hs
    have := weight_of_frame h
    simp only
    exact ⟨by omega, .inr (by omega)⟩
  | case7 p t frame p' h reply t' hr f p'' hs hf ih =>
    have hw := weight_of_send hs
    have := weight_of_frame h
    exact ⟨by omega, .inr (by omega)⟩
  | case8 p t frame p' h reply t' hr o p'' hs ih =>
    have hw := weight_of_send hs
    have := weight_of_frame h
    exact ⟨by omega, .inr (by omega)⟩

end Server

namespace Station

variable {τ : Type}

/-- Lets the station act as long as the limit allows. -/
def runTo (service : Service τ) (limit : Option Nat) (s : Station τ) : Station τ :=
  match s.status with
  | .ended => s
  | .waiting =>
    let (status, endpoint, state) := Server.run service limit s.endpoint s.state
    { endpoint, state, status }

def hear (chunk : Chunk) (s : Station τ) : Station τ :=
  { s with endpoint := { s.endpoint with line := s.endpoint.line.deliver chunk } }

def hangUp (time : Nat) (s : Station τ) : Station τ :=
  { s with endpoint := { s.endpoint with line := { s.endpoint.line with closing := some time } } }

def cleared (s : Station τ) : Station τ :=
  { s with endpoint := { s.endpoint with line := { s.endpoint.line with sent := [] } } }

def said (time : Nat) (s : Station τ) : Bytes × Station τ :=
  let sent := s.endpoint.line.sent
  ((sent.filter (·.time ≤ time)).flatMap (·.bytes),
    { s with endpoint := { s.endpoint with line := { s.endpoint.line with sent := sent.filter (time < ·.time) } } })

theorem runTo_le (service : Service τ) (limit : Option Nat) (s : Station τ) :
    (s.runTo service limit).endpoint.weight ≤ s.endpoint.weight ∧
      ((s.runTo service limit).endpoint.line.sent = s.endpoint.line.sent ∨
        (s.runTo service limit).endpoint.weight < s.endpoint.weight) := by
  unfold runTo
  split
  · exact ⟨Nat.le_refl _, .inl rfl⟩
  · exact Server.run_endpoint_le service limit s.endpoint s.state

end Station

end Modbus
