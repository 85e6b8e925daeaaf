import Modbus.Proofs.Link.Endpoints

/-!
# Pauses on a serial line

Before an endpoint of a serial line sends, it waits until the bus has been quiet for the pause between two messages. It
remembers one instant since when the bus is quiet: the end of the last message that it sent, computed from its length,
or the instant at which it received the last frame, whichever was noted last. So it never sends too early behind a
frame that it received, but it does behind a message of its own, if it received a frame before the message was over.
-/

namespace Modbus

namespace Bus

/-- The bus is known to be busy at least until this instant. -/
def Covers (b : Bus) (t : Nat) : Prop := ∃ since, b.quietSince = some since ∧ t ≤ since

variable {b : Bus} {t since : Nat}

theorem Covers.le_ready (h : b.Covers t) (now : Nat) : t + b.pause ≤ b.ready now := by
  obtain ⟨since, hsince, hle⟩ := h
  simp only [ready, hsince]
  omega

theorem covers_mark (h : t ≤ since) : (b.mark since).Covers t := ⟨since, rfl, h⟩

end Bus

/-! ## Time does not run backwards -/

namespace Stream

variable {s rest : Stream} {now room t : Nat} {limit : Option Nat} {bs : Bytes}

theorem le_of_read_bytes (h : s.read now limit = .bytes t bs rest) : now ≤ t := by
  unfold read at h
  split at h
  · split at h <;> (try split at h) <;> cases h
  · dsimp only at h
    split at h <;> cases h
    exact Nat.le_max_left _ _

theorem le_of_read_closed (h : s.read now limit = .closed t) : now ≤ t := by
  unfold read at h
  split at h
  · split at h
    · cases h
    · split at h <;> cases h
      exact Nat.le_max_left _ _
  · dsimp only at h
    split at h <;> cases h

theorem le_of_readInto_bytes (h : s.readInto room now limit = .bytes t bs rest) : now ≤ t := by
  unfold readInto at h
  split at h <;> cases h
  exact le_of_read_bytes ‹_›

theorem le_of_readInto_closed (h : s.readInto room now limit = .closed t) : now ≤ t := by
  unfold readInto at h
  split at h <;> cases h
  exact le_of_read_closed ‹_›

end Stream

theorem le_waited (clock : Nat) (limit : Option Nat) : clock ≤ waited clock limit := Nat.le_max_left _ _

namespace FrameReader

theorem clock_finish (env : Envelope) (clock : Nat) (line : Stream) (buffer : Bytes) :
    (finish env clock line buffer).clock = clock := by
  unfold finish
  split <;> rfl

theorem le_clock_read (env : Envelope) (limit : Option Nat) (clock : Nat) (line : Stream) (buffer : Bytes)
    (start : Nat) : clock ≤ (read env limit clock line buffer start).clock := by
  refine read_keeps (P := fun t _ _ _ => clock ≤ t) (Q := fun reading => clock ≤ reading.clock)
    (fun t line buffer start le => ?_) (Nat.le_refl clock)
  fun_cases turn env limit t line buffer start with
  | case1 => exact le
  | case2 => exact Nat.le_trans le (le_waited t limit)
  | case3 rest heq front t' hr =>
      rw [Turn.Leads, clock_finish]
      exact Nat.le_trans le (Stream.le_of_readInto_closed hr)
  | case4 rest heq front t' bs line' hr => exact Nat.le_trans le (Stream.le_of_readInto_bytes hr)

theorem le_clock_next (env : Envelope) (limit : Option Nat) (clock : Nat) (line : Stream) (r : FrameReader) :
    clock ≤ (next env limit clock line r).clock := by
  unfold next
  split
  · exact le_clock_read ..
  · exact Nat.le_of_eq (clock_finish ..).symm
  · exact Nat.le_refl _
  · exact Nat.le_refl _

end FrameReader

theorem BurstReader.le_clock_next (limit : Option Nat) (clock : Nat) (line : Stream) (r : BurstReader) :
    clock ≤ (next limit clock line r).clock := by
  refine next_keeps (P := fun t _ _ => clock ≤ t) (Q := fun reading => clock ≤ reading.clock)
    (fun t line r le => ?_) (Nat.le_refl clock)
  fun_cases turn limit t line r with
  | case1 | case2 => exact le
  | case3 a _ _ _ t' bs line' hr => exact Nat.le_trans le (Stream.le_of_read_bytes hr)
  | case4 a _ _ _ t' hr => exact Nat.le_trans le (Stream.le_of_read_closed hr)
  | case5 a _ _ _ _ d => exact Nat.le_trans le (Nat.le_max_left t d)
  | case6 | case7 => exact Nat.le_trans le (le_waited t limit)

/-! ## What happens on the line -/

/-- The instant at which the last character of a message has left the line. -/
def Chunk.over (timing : Timing) (message : Chunk) : Nat := message.time + timing.transmission message.bytes.length

namespace Endpoint

inductive Step
  | send (adu : Adu) (limit : Option Nat)
  | receive (limit : Option Nat)
  | pause (d : Nat)

/-- What goes out, and when something comes in: a frame, delivered or discarded. -/
inductive Event
  | sent (message : Chunk)
  | heard (time : Nat)

def step (p : Endpoint) : Step → List Event × Endpoint
  | .send adu limit =>
    let p' := (p.send adu limit).2
    ((p'.line.sent.drop p.line.sent.length).map .sent, p')
  | .receive limit =>
    let (outcome, p') := p.receive limit
    (match outcome with
      | .done _ => [.heard p'.clock]
      | _ => [], p')
  | .pause d => ([], { p with clock := p.clock + d })

def steps (p : Endpoint) : List Step → List Event × Endpoint
  | [] => ([], p)
  | s :: ss =>
    let (now, p) := p.step s
    let (later, p) := p.steps ss
    (now ++ later, p)

variable {p : Endpoint}

theorem send_serial (serial : p.framing.isHeadless = true) (adu : Adu) (limit : Option Nat) :
    ((p.send adu limit).2.line.sent = p.line.sent ∧ (p.send adu limit).2.bus = p.bus ∧
        p.clock ≤ (p.send adu limit).2.clock) ∨
      ∃ message, (p.send adu limit).2.line.sent = p.line.sent ++ [message] ∧
        message.time = p.bus.ready p.clock ∧ (p.send adu limit).2.clock = message.time ∧
        (p.send adu limit).2.bus = p.bus.mark (message.over p.timing) := by
  have hstart : p.sendStart = p.bus.ready p.clock := if_pos serial
  have hle : p.clock ≤ p.sendStart := p.le_sendStart
  unfold send
  dsimp only
  split
  · exact .inl ⟨rfl, rfl, le_waited _ _⟩
  split
  · exact .inl ⟨rfl, rfl, hle⟩
  split
  · exact .inl ⟨rfl, rfl, hle⟩
  · rename_i frame _ _ line hwrite
    unfold Stream.write at hwrite
    split at hwrite <;> cases hwrite
    exact .inr ⟨⟨p.sendStart, frame⟩, rfl, hstart, rfl, if_pos serial⟩

theorem receive_serial (serial : p.framing.isHeadless = true) (limit : Option Nat) :
    p.clock ≤ (p.receive limit).2.clock ∧
      (p.receive limit).2.bus = busMarked p.bus (p.receive limit).2.clock (p.receive limit).1 := by
  unfold receive
  split
  · exact ⟨Nat.le_refl _, rfl⟩
  · cases hr : p.receiver with
    | mbap r =>
        rw [framing, hr] at serial
        cases serial
    | ascii r =>
        dsimp only
        refine ⟨FrameReader.le_clock_next .., ?_⟩
        cases (FrameReader.next Ascii.envelope limit p.clock p.line r).outcome <;> rfl
    | rtu r =>
        dsimp only
        refine ⟨BurstReader.le_clock_next .., ?_⟩
        cases (BurstReader.next limit p.clock p.line r).outcome <;> rfl

theorem timing_send (adu : Adu) (limit : Option Nat) : (p.send adu limit).2.timing = p.timing := by
  unfold send
  dsimp only
  split
  · rfl
  split
  · rfl
  split <;> rfl

theorem timing_receive (limit : Option Nat) : (p.receive limit).2.timing = p.timing := by
  unfold receive
  split
  · rfl
  split <;> rfl

/-- A step on a serial line does nothing, receives a frame, or sends a message as soon as the bus is ready. -/
theorem step_cases (serial : p.framing.isHeadless = true) (s : Step) :
    (p.step s).2.framing = p.framing ∧ (p.step s).2.timing = p.timing ∧
      (((p.step s).1 = [] ∧ p.clock ≤ (p.step s).2.clock ∧ (p.step s).2.bus = p.bus) ∨
        (∃ t, (p.step s).1 = [.heard t] ∧ p.clock ≤ t ∧ (p.step s).2.clock = t ∧ (p.step s).2.bus = p.bus.mark t) ∨
        ∃ message, (p.step s).1 = [.sent message] ∧ message.time = p.bus.ready p.clock ∧
          (p.step s).2.clock = message.time ∧ (p.step s).2.bus = p.bus.mark (message.over p.timing)) := by
  cases s with
  | send adu limit =>
      refine ⟨p.framing_send adu limit, timing_send adu limit, ?_⟩
      obtain ⟨hsent, hbus, hclock⟩ | ⟨message, hsent, htime, hclock, hbus⟩ := send_serial serial adu limit
      · exact .inl ⟨by simp [step, hsent], hclock, hbus⟩
      · exact .inr (.inr ⟨message, by simp [step, hsent], htime, hclock, hbus⟩)
  | receive limit =>
      refine ⟨p.framing_receive limit, timing_receive limit, ?_⟩
      obtain ⟨hclock, hbus⟩ := receive_serial serial limit
      unfold step
      dsimp only
      generalize p.receive limit = received at hclock hbus
      obtain ⟨frame | fault | _, p'⟩ := received
      · exact .inr (.inl ⟨p'.clock, rfl, hclock, rfl, hbus⟩)
      · exact .inl ⟨rfl, hclock, hbus⟩
      · exact .inl ⟨rfl, hclock, hbus⟩
  | pause d => exact ⟨rfl, rfl, .inl ⟨rfl, Nat.le_add_right _ _, rfl⟩⟩

/-! ## What is kept -/

/-- The messages in a log keep the pause to what was on the line before them, except to a message that was not over yet
when a later frame was received. -/
structure KeepsPause (timing : Timing) (log : List Event) : Prop where
  heard : ∀ {before message after}, log = before ++ .sent message :: after → ∀ t, .heard t ∈ before →
    t + timing.messagePause ≤ message.time
  sent : ∀ {before earlier between message after}, log = before ++ .sent earlier :: (between ++ .sent message :: after) →
    earlier.over timing + timing.messagePause ≤ message.time ∨ ∃ t, .heard t ∈ between ∧ t < earlier.over timing

/-- What the bus of an endpoint tells of the log so far. -/
structure Knows (timing : Timing) (log : List Event) (p : Endpoint) : Prop where
  serial : p.framing.isHeadless = true
  timing_eq : p.timing = timing
  pause_eq : p.bus.pause = timing.messagePause
  heard : ∀ t, .heard t ∈ log → t ≤ p.clock ∧ p.bus.Covers t
  sent : ∀ {before message after}, log = before ++ .sent message :: after →
    p.bus.Covers (message.over timing) ∨ ∃ t, .heard t ∈ after ∧ t < message.over timing

theorem snoc_eq_append_cons {α : Type} {xs ys zs : List α} {x y : α} (h : xs ++ [x] = ys ++ y :: zs) :
    (zs = [] ∧ x = y ∧ xs = ys) ∨ ∃ zs', zs = zs' ++ [x] ∧ xs = ys ++ y :: zs' := by
  obtain rfl | ⟨zs', z, rfl⟩ := List.eq_nil_or_concat zs
  · obtain ⟨rfl, hx⟩ := List.append_inj' h rfl
    exact .inl ⟨rfl, List.singleton_inj.mp hx, rfl⟩
  · rw [List.concat_eq_append, ← List.cons_append, ← List.append_assoc] at h
    obtain ⟨rfl, hx⟩ := List.append_inj' h rfl
    exact .inr ⟨zs', by rw [List.concat_eq_append, List.singleton_inj.mp hx], rfl⟩

variable {timing : Timing} {log : List Event} {p' : Endpoint} {t : Nat} {message : Chunk}

namespace Knows

theorem fresh {framing : StreamFraming} {config : SerialConfig} (serial : framing ≠ .tcp) (line : Stream) :
    (fresh framing config line).Knows config.timing [] where
  serial := by cases framing <;> first | rfl | exact absurd rfl serial
  timing_eq := rfl
  pause_eq := rfl
  heard := nofun
  sent h := by simp at h

theorem quiet (h : p.Knows timing log) (framing : p'.framing = p.framing) (same : p'.timing = p.timing)
    (clock : p.clock ≤ p'.clock) (bus : p'.bus = p.bus) : p'.Knows timing log where
  serial := framing ▸ h.serial
  timing_eq := same.trans h.timing_eq
  pause_eq := by rw [bus, h.pause_eq]
  heard t ht := ⟨Nat.le_trans (h.heard t ht).1 clock, by rw [bus]; exact (h.heard t ht).2⟩
  sent heq := by rw [bus]; exact h.sent heq

/-- A frame that is received hides a message that is not over yet. -/
theorem hears (h : p.Knows timing log) (framing : p'.framing = p.framing) (same : p'.timing = p.timing)
    (le : p.clock ≤ t) (clock : p'.clock = t) (bus : p'.bus = p.bus.mark t) :
    p'.Knows timing (log ++ [.heard t]) where
  serial := framing ▸ h.serial
  timing_eq := same.trans h.timing_eq
  pause_eq := by rw [bus]; exact h.pause_eq
  heard t' ht' := by
    have hle : t' ≤ t := by
      obtain hold | hnew := List.mem_append.mp ht'
      · exact Nat.le_trans (h.heard t' hold).1 le
      · cases List.mem_singleton.mp hnew
        exact Nat.le_refl _
    rw [clock, bus]
    exact ⟨hle, Bus.covers_mark hle⟩
  sent {before message after} heq := by
    obtain ⟨_, hnew, _⟩ | ⟨after', rfl, heq⟩ := snoc_eq_append_cons heq
    · cases hnew
    by_cases hover : message.over timing ≤ t
    · rw [bus]
      exact .inl (Bus.covers_mark hover)
    · exact .inr ⟨t, by simp, Nat.lt_of_not_le hover⟩

theorem sends (h : p.Knows timing log) (framing : p'.framing = p.framing) (same : p'.timing = p.timing)
    (ready : message.time = p.bus.ready p.clock) (clock : p'.clock = message.time)
    (bus : p'.bus = p.bus.mark (message.over p.timing)) : p'.Knows timing (log ++ [.sent message]) where
  serial := framing ▸ h.serial
  timing_eq := same.trans h.timing_eq
  pause_eq := by rw [bus]; exact h.pause_eq
  heard t ht := by
    -- the message is over after all that it has waited for
    obtain hold | hnew := List.mem_append.mp ht
    · have hready := (h.heard t hold).2.le_ready p.clock
      have hover : message.time ≤ message.over p.timing := Nat.le_add_right _ _
      rw [clock, bus]
      exact ⟨by omega, Bus.covers_mark (by omega)⟩
    · cases List.mem_singleton.mp hnew
  sent {before earlier after} heq := by
    obtain ⟨_, hnew, _⟩ | ⟨after', rfl, rfl⟩ := snoc_eq_append_cons heq
    · cases hnew
      rw [bus, h.timing_eq]
      exact .inl (Bus.covers_mark (Nat.le_refl _))
    obtain covers | ⟨t, ht, hlt⟩ := h.sent rfl
    · have hready := covers.le_ready p.clock
      have hover : message.time ≤ message.over p.timing := Nat.le_add_right _ _
      rw [bus]
      exact .inl (Bus.covers_mark (by omega))
    · exact .inr ⟨t, List.mem_append_left _ ht, hlt⟩

theorem keeps (h : p.Knows timing log) (kept : KeepsPause timing log) (ready : message.time = p.bus.ready p.clock) :
    KeepsPause timing (log ++ [.sent message]) where
  heard {before later after} heq t ht := by
    obtain ⟨_, hnew, rfl⟩ | ⟨after', _, hlog⟩ := snoc_eq_append_cons heq
    · cases hnew
      rw [ready, ← h.pause_eq]
      exact (h.heard t ht).2.le_ready p.clock
    · exact kept.heard hlog t ht
  sent {before earlier between later after} heq := by
    rw [← List.cons_append, ← List.append_assoc] at heq
    obtain ⟨_, hnew, rfl⟩ | ⟨after', _, hlog⟩ := snoc_eq_append_cons heq
    · cases hnew
      obtain covers | hidden := h.sent rfl
      · rw [ready, ← h.pause_eq]
        exact .inl (covers.le_ready p.clock)
      · exact .inr hidden
    · exact kept.sent (by rw [hlog, List.append_assoc, List.cons_append])

end Knows

theorem KeepsPause.hears (kept : KeepsPause timing log) (t : Nat) : KeepsPause timing (log ++ [.heard t]) where
  heard {before later after} heq := by
    obtain ⟨_, hnew, _⟩ | ⟨after', _, hlog⟩ := snoc_eq_append_cons heq
    · cases hnew
    · exact kept.heard hlog
  sent {before earlier between later after} heq := by
    rw [← List.cons_append, ← List.append_assoc] at heq
    obtain ⟨_, hnew, _⟩ | ⟨after', _, hlog⟩ := snoc_eq_append_cons heq
    · cases hnew
    · exact kept.sent (by rw [hlog, List.append_assoc, List.cons_append])

theorem step_keepsPause (knows : p.Knows timing log) (kept : KeepsPause timing log) (s : Step) :
    (p.step s).2.Knows timing (log ++ (p.step s).1) ∧ KeepsPause timing (log ++ (p.step s).1) := by
  obtain ⟨framing, same, ⟨hlog, clock, bus⟩ | ⟨t, hlog, le, clock, bus⟩ | ⟨message, hlog, ready, clock, bus⟩⟩ :=
    step_cases knows.serial s
  · rw [hlog, List.append_nil]
    exact ⟨knows.quiet framing same clock bus, kept⟩
  · rw [hlog]
    exact ⟨knows.hears framing same le clock bus, kept.hears t⟩
  · rw [hlog]
    exact ⟨knows.sends framing same ready clock bus, knows.keeps kept ready⟩

theorem steps_keepsPause (knows : p.Knows timing log) (kept : KeepsPause timing log) (ss : List Step) :
    KeepsPause timing (log ++ (p.steps ss).1) := by
  induction ss generalizing p log with
  | nil =>
      rw [steps, List.append_nil]
      exact kept
  | cons s ss ih =>
      obtain ⟨knows, kept⟩ := step_keepsPause knows kept s
      rw [steps, ← List.append_assoc]
      exact ih knows kept

/-- On a serial line every message keeps the pause to all that was received before it, and to every earlier message
unless a frame was received before that message was over. -/
theorem serial_keepsPause (config : SerialConfig) (line : Stream) (ss : List Step) :
    KeepsPause config.timing ((fresh .rtu config line).steps ss).1 ∧
      KeepsPause config.timing ((fresh .ascii config line).steps ss).1 :=
  have start : KeepsPause config.timing [] := ⟨fun h => by simp at h, fun h => by simp at h⟩
  ⟨steps_keepsPause (.fresh (by simp) line) start ss, steps_keepsPause (.fresh (by simp) line) start ss⟩

/-- A frame that was there already is received while a message is still on the line, and the next message goes out
before that one is over. -/
theorem talks_over_message :
    let adu : Adu := ⟨⟨0, 1⟩, [1]⟩
    let message : Chunk := ⟨0, Ascii.encode adu⟩
    let p := fresh .ascii {} { arrivals := [message] }
    ∃ later : Chunk, (p.steps [.send adu none, .receive none, .send adu none]).1 =
        [.sent message, .heard 0, .sent later] ∧ later.time < message.over p.timing := by
  intro adu message p
  have sendable : adu.IsSendable := ⟨by simp [adu], by simp [adu, Pdu.maxSize]⟩
  have always (t : Nat) : Within t none := nofun
  have carries : StreamFraming.ascii.Carries p.timing adu [message] :=
    ⟨List.append_nil _, List.forall_mem_singleton.mpr (StreamFraming.encode_ne_nil .ascii adu), nofun⟩
  let q : Endpoint :=
    { fresh .ascii {} { sent := [message] } with
      bus := ⟨p.timing.messagePause, some (message.over p.timing)⟩ }
  have hsent : p.send adu none = (.done (), q.awaiting [message]) := rfl
  have idle : q.Idle .ascii p.timing := ⟨.ascii 0, rfl, rfl, rfl, rfl⟩
  obtain ⟨r, hreceived, ridle, rclock, rsent, rquiet⟩ :=
    receive_delivers idle (SerialConfig.short_timing {}) sendable carries (always _)
  obtain ⟨r', hlater, _, _, rsent'⟩ := send_delivers ridle sendable (always _)
  have hclock : r.clock = 0 := rclock
  have hstart : r.sendStart = p.timing.messagePause := by
    rw [sendStart_eq ridle rquiet, hclock, Nat.zero_add, StreamFraming.pause]
  refine ⟨⟨r.sendStart, Ascii.encode adu⟩, ?_, ?_⟩
  · simp only [steps, step, hsent, hreceived, hlater, rsent', hclock, List.drop_left]
    rfl
  · rw [hstart]
    decide

end Endpoint

end Modbus
