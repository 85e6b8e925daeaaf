import Modbus.Fault
import Modbus.Frame.Basic
import Modbus.Time

/-!
# Links

A link moves whole ADUs between two devices and has a clock. Every operation may be given a limit, the last
instant at which it may still finish. What a link has not delivered yet is bounded by its backlog, so whoever
receives in a loop comes to an end. Whatever is done on a link, it keeps its framing.
-/

namespace Modbus

inductive Outcome (α : Type)
  | done (value : α)
  | failed (fault : Fault)
  /-- Not finished by the limit or, without one, ever. -/
  | pending
  deriving DecidableEq

namespace Outcome

/-- The link can be received from again. -/
def GoesOn {α : Type} : Outcome α → Prop
  | .done _ => True
  | .failed f => f.isFatal = false
  | .pending => False

def map {α β : Type} (f : α → β) : Outcome α → Outcome β
  | .done a => .done (f a)
  | .failed e => .failed e
  | .pending => .pending

theorem goesOn_map {α β : Type} (f : α → β) (o : Outcome α) : (o.map f).GoesOn ↔ o.GoesOn := by
  cases o <;> rfl

end Outcome

def Within (t : Nat) (limit : Option Nat) : Prop := ∀ l, limit = some l → t ≤ l

instance (t : Nat) (limit : Option Nat) : Decidable (Within t limit) :=
  match limit with
  | none => isTrue (by simp [Within])
  | some l => if h : t ≤ l then isTrue (by simpa [Within] using h) else isFalse (by simpa [Within] using h)

theorem within_none (t : Nat) : Within t none := nofun

theorem within_some {t limit : Nat} : Within t (some limit) ↔ t ≤ limit := by simp [Within]

def waited (clock : Nat) (limit : Option Nat) : Nat := max clock (limit.getD clock)

def earlier : Option Nat → Option Nat → Option Nat
  | some a, some b => some (min a b)
  | some a, none => some a
  | none, b => b

/-- The order of backlogs: what the far side is still to be asked for counts more than what it has sent. -/
abbrev Backlog.Less : Nat × Nat → Nat × Nat → Prop := Prod.Lex (· < ·) (· < ·)

class Link (σ : Type) where
  framing : σ → Framing
  now : σ → Nat
  pause : Nat → σ → σ
  send : Adu → Option Nat → σ → Outcome Unit × σ
  /-- The next frame; nothing stands for a frame that was discarded. -/
  receive : Option Nat → σ → Outcome (Option Adu) × σ
  reconnect : σ → Except Fault Unit × σ := fun s => (.error .cannotReconnect, s)
  disconnect : σ → Except Fault Unit × σ
  backlog : σ → Nat × Nat
  receive_less : ∀ limit s, (receive limit s).1.GoesOn →
    Backlog.Less (backlog (receive limit s).2) (backlog s)
  framing_pause : ∀ d s, framing (pause d s) = framing s := by intros; rfl
  framing_send : ∀ adu limit s, framing (send adu limit s).2 = framing s := by intros; rfl
  framing_receive : ∀ limit s, framing (receive limit s).2 = framing s := by intros; rfl
  framing_reconnect : ∀ s, framing (reconnect s).2 = framing s := by intros; rfl
  framing_disconnect : ∀ s, framing (disconnect s).2 = framing s := by intros; rfl

attribute [simp] Link.framing_pause Link.framing_send Link.framing_receive Link.framing_reconnect
  Link.framing_disconnect

def Link.rest {σ : Type} [Link σ] (asked : Nat) (s : σ) : σ := Link.pause (Duration.pause asked) s

/-- A link on which sending provokes nothing, as the far side acts on its own. -/
class QuietLink (σ : Type) extends Link σ where
  send_backlog : ∀ adu limit s, backlog (send adu limit s).2 = backlog s

end Modbus
