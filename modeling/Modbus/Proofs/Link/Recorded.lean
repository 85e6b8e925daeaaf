import Modbus.Link.Basic

/-!
# Recorded links

A recorded link is a link that keeps a record of all that is done on it and of how it ended. Statements about whole
runs are statements about such records.
-/

namespace Modbus

inductive Act
  | paused (d : Nat)
  | sent (adu : Adu) (outcome : Outcome Unit)
  | received (outcome : Outcome (Option Adu))
  | reconnected (result : Except Fault Unit)
  | disconnected (result : Except Fault Unit)

namespace Act

def message? : Act → Option Adu
  | sent adu _ => some adu
  | _ => none

def frame? : Act → Option Adu
  | received (.done (some adu)) => some adu
  | _ => none

end Act

theorem Link.framing_of_receive {σ : Type} [Link σ] {limit : Option Nat} {s s' : σ} {o : Outcome (Option Adu)}
    (h : Link.receive limit s = (o, s')) : Link.framing s' = Link.framing s := by
  have := Link.framing_receive limit s
  rwa [h] at this

theorem Link.framing_of_send {σ : Type} [Link σ] {adu : Adu} {limit : Option Nat} {s s' : σ} {o : Outcome Unit}
    (h : Link.send adu limit s = (o, s')) : Link.framing s' = Link.framing s := by
  have := Link.framing_send adu limit s
  rwa [h] at this

structure Recorded (σ : Type) where
  link : σ
  acts : List Act := []

namespace Recorded

variable {σ : Type}

def note (r : Recorded σ) (a : Act) (s : σ) : Recorded σ := ⟨s, r.acts ++ [a]⟩

instance [Link σ] : Link (Recorded σ) where
  framing r := Link.framing r.link
  now r := Link.now r.link
  pause d r := r.note (.paused d) (Link.pause d r.link)
  send adu limit r :=
    let (outcome, s) := Link.send adu limit r.link
    (outcome, r.note (.sent adu outcome) s)
  receive limit r :=
    let (outcome, s) := Link.receive limit r.link
    (outcome, r.note (.received outcome) s)
  reconnect r :=
    let (result, s) := Link.reconnect r.link
    (result, r.note (.reconnected result) s)
  disconnect r :=
    let (result, s) := Link.disconnect r.link
    (result, r.note (.disconnected result) s)
  backlog r := Link.backlog r.link
  receive_less limit r h := Link.receive_less limit r.link h
  framing_pause d r := Link.framing_pause d r.link
  framing_send adu limit r := Link.framing_send adu limit r.link
  framing_receive limit r := Link.framing_receive limit r.link
  framing_reconnect r := Link.framing_reconnect r.link
  framing_disconnect r := Link.framing_disconnect r.link

instance [QuietLink σ] : QuietLink (Recorded σ) where
  send_backlog adu limit r := QuietLink.send_backlog adu limit r.link

section
variable [Link σ]

@[simp] theorem framing_eq (r : Recorded σ) : Link.framing r = Link.framing r.link := rfl

theorem pause_eq (d : Nat) (r : Recorded σ) : Link.pause d r = r.note (.paused d) (Link.pause d r.link) := rfl

theorem send_eq (adu : Adu) (limit : Option Nat) (r : Recorded σ) :
    Link.send adu limit r = ((Link.send adu limit r.link).1,
      r.note (.sent adu (Link.send adu limit r.link).1) (Link.send adu limit r.link).2) := rfl

theorem receive_eq (limit : Option Nat) (r : Recorded σ) :
    Link.receive limit r = ((Link.receive limit r.link).1,
      r.note (.received (Link.receive limit r.link).1) (Link.receive limit r.link).2) := rfl

theorem send_of {adu : Adu} {limit : Option Nat} {s s' : σ} {o : Outcome Unit} (h : Link.send adu limit s = (o, s'))
    (acts : List Act) : Link.send adu limit (Recorded.mk s acts) = (o, ⟨s', acts ++ [.sent adu o]⟩) := by
  rw [send_eq, h]
  rfl

theorem receive_of {limit : Option Nat} {s s' : σ} {o : Outcome (Option Adu)} (h : Link.receive limit s = (o, s'))
    (acts : List Act) : Link.receive limit (Recorded.mk s acts) = (o, ⟨s', acts ++ [.received o]⟩) := by
  rw [receive_eq, h]
  rfl

theorem reconnect_eq (r : Recorded σ) :
    Link.reconnect r = ((Link.reconnect r.link).1,
      r.note (.reconnected (Link.reconnect r.link).1) (Link.reconnect r.link).2) := rfl

end

end Recorded

end Modbus
