import Modbus.Link.Basic

/-!
# Scripted links

A link that does what its script says: what each receive brings, how each send and each reconnection ends, and how
long each takes. Every message that is sent, and every reconnection, is recorded with its time.
-/

namespace Modbus

namespace Script

inductive Delivery
  | fails (fault : Fault)
  | silent
  | frame (adu : Adu)
  /-- A PDU with the header of the message that was sent last. -/
  | answer (pdu : Bytes)
  | discarded
  deriving DecidableEq

structure Arrival where
  delay : Nat := 0
  delivery : Delivery
  deriving DecidableEq

structure Ending where
  delay : Nat := 0
  fault : Option Fault := none
  deriving DecidableEq

inductive Event
  | sent (adu : Adu) (time : Nat)
  | reconnected (time : Nat)
  | disconnected (time : Nat)
  deriving DecidableEq

end Script

/-- A link with a script. An ending that the script does not give is a success at once. -/
structure Script where
  framing : Framing
  arrivals : List Script.Arrival := []
  sends : List Script.Ending := []
  reconnections : List Script.Ending := []
  /-- The link ends after the last arrival; otherwise there is silence. -/
  ends : Bool := false
  clock : Nat := 0
  lastHeader : Header := ⟨0, 0⟩
  events : List Script.Event := []
  deriving DecidableEq

namespace Script

def Ending.result (e : Ending) : Except Fault Unit :=
  match e.fault with
  | none => .ok ()
  | some f => .error f

def Ending.outcome (e : Ending) : Outcome Unit :=
  match e.fault with
  | none => .done ()
  | some f => .failed f

def Delivery.outcome (lastHeader : Header) : Delivery → Outcome (Option Adu)
  | fails f => .failed f
  | silent => .pending
  | frame adu => .done (some adu)
  | answer pdu => .done (some ⟨lastHeader, pdu⟩)
  | discarded => .done none

def after (s : Script) (delay : Nat) : Nat := s.clock + Duration.pause delay

def record (e : Event) (s : Script) : Script := { s with events := s.events ++ [e] }

def send (adu : Adu) (limit : Option Nat) (s : Script) : Outcome Unit × Script :=
  let e := s.sends.headD {}
  let s := { s with sends := s.sends.tail, lastHeader := adu.header }
  let s := s.record (.sent adu s.clock)
  if Within (s.after e.delay) limit then (e.outcome, { s with clock := s.after e.delay })
  else (.pending, { s with clock := waited s.clock limit })

def ended : Fault := .reported .unexpectedEof "script ended"

/-- An arrival is used up even if it does not come within the limit. -/
def receive (limit : Option Nat) (s : Script) : Outcome (Option Adu) × Script :=
  match s.arrivals with
  | [] => if s.ends then (.failed ended, s) else (.pending, { s with clock := waited s.clock limit })
  | a :: rest =>
    let s := { s with arrivals := rest }
    if a.delivery ≠ .silent ∧ Within (s.after a.delay) limit then
      (a.delivery.outcome s.lastHeader, { s with clock := s.after a.delay })
    else (.pending, { s with clock := waited s.clock limit })

def reconnect (s : Script) : Except Fault Unit × Script :=
  let e := s.reconnections.headD {}
  let s := s.record (.reconnected s.clock)
  (e.result, { s with reconnections := s.reconnections.tail, clock := s.after e.delay })

def disconnect (s : Script) : Except Fault Unit × Script :=
  let e := s.sends.headD {}
  let s := s.record (.disconnected s.clock)
  (e.result, { s with sends := s.sends.tail, clock := s.after e.delay })

theorem after_zero (s : Script) : s.after 0 = s.clock := by simp [after, Duration.pause]

theorem send_at_once {s : Script} {limit : Option Nat} (sends : s.sends = []) (within : Within s.clock limit)
    (adu : Adu) :
    s.send adu limit =
      (.done (), { s with lastHeader := adu.header, events := s.events ++ [.sent adu s.clock] }) := by
  have hs : after { s with lastHeader := adu.header, events := s.events ++ [.sent adu s.clock] } 0 = s.clock :=
    after_zero _
  obtain ⟨_, _, _, _, _, _, _, _⟩ := s
  subst sends
  unfold send record
  simp only [List.headD_nil, List.tail_nil, hs, if_pos within]
  rfl

theorem receive_at_once {s : Script} {limit : Option Nat} {delivery : Delivery} {arrivals : List Arrival}
    (h : s.arrivals = { delivery } :: arrivals) (loud : delivery ≠ .silent) (within : Within s.clock limit) :
    s.receive limit = (delivery.outcome s.lastHeader, { s with arrivals }) := by
  have hs : after { s with arrivals } 0 = s.clock := after_zero _
  unfold receive
  simp only [h, hs]
  rw [if_pos ⟨loud, within⟩]

theorem receive_silent {s : Script} {arrivals : List Arrival} (h : s.arrivals = { delivery := .silent } :: arrivals)
    (limit : Option Nat) :
    s.receive limit = (.pending, { s with arrivals, clock := waited s.clock limit }) := by
  unfold receive
  simp [h]

theorem length_receive (limit : Option Nat) (s : Script) (h : (s.receive limit).1.GoesOn) :
    (s.receive limit).2.arrivals.length < s.arrivals.length := by
  unfold receive at h ⊢
  cases ha : s.arrivals with
  | nil =>
    simp only [ha] at h
    split at h <;> cases h
  | cons a rest =>
    simp only
    split <;> simp

theorem framing_send (adu : Adu) (limit : Option Nat) (s : Script) :
    (s.send adu limit).2.framing = s.framing := by
  unfold send record
  dsimp only
  split <;> rfl

theorem framing_receive (limit : Option Nat) (s : Script) : (s.receive limit).2.framing = s.framing := by
  unfold receive
  split
  · split <;> rfl
  · dsimp only
    split <;> rfl

instance : QuietLink Script where
  framing := framing
  now := clock
  pause d s := { s with clock := s.clock + d }
  send := send
  receive := receive
  reconnect := reconnect
  disconnect := disconnect
  backlog s := (0, s.arrivals.length)
  receive_less limit s h := Prod.Lex.right _ (s.length_receive limit h)
  framing_send := framing_send
  framing_receive := framing_receive
  send_backlog adu limit s := by
    show (0, (send adu limit s).2.arrivals.length) = (0, s.arrivals.length)
    unfold send record
    dsimp only
    split <;> rfl

end Script

end Modbus
