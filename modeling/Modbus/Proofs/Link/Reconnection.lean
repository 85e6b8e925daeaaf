import Modbus.Proofs.Link.Pauses

/-!
# Reconnecting

What an endpoint receives depends on what it has read and not yet delivered, and on what arrives; what it sends makes a
difference only to the instants at which it is asked. With a new stream it has read nothing, so from then on it receives
what a fresh endpoint receives that is asked at the same instants. Without a new stream it stays as it is.
-/

namespace Modbus

/-! ## What is received -/

/-- The stream as far as it is read, whatever becomes of what is sent. -/
def Stream.incoming (s : Stream) : Stream := { arrivals := s.arrivals, closing := s.closing }

def Stream.Read.incoming : Stream.Read → Stream.Read
  | .bytes t bs rest => .bytes t bs rest.incoming
  | .closed t => .closed t
  | .pending => .pending

def Reading.incoming {ρ α : Type} (f : Reading ρ α) : Reading ρ α := { f with line := f.line.incoming }

namespace Stream

variable {s : Stream} {room now : Nat} {limit : Option Nat} {reading : Read}

theorem incoming_putBack (s : Stream) (t : Nat) (bs : Bytes) : (s.putBack t bs).incoming = s.incoming.putBack t bs := by
  unfold putBack
  split <;> rfl

theorem read_incoming (h : s.read now limit = reading) : s.incoming.read now limit = reading.incoming := by
  subst h
  unfold read incoming
  dsimp only
  split
  · split
    · rfl
    · split <;> rfl
  · split <;> rfl

theorem readInto_incoming (h : s.readInto room now limit = reading) :
    s.incoming.readInto room now limit = reading.incoming := by
  subst h
  unfold readInto
  rw [read_incoming rfl]
  cases s.read now limit with
  | bytes t bs rest => simp only [Read.incoming, incoming_putBack]
  | closed t => rfl
  | pending => rfl

end Stream

/-- The same turns on what is incoming alone. -/
def FrameReader.Turn.incoming : FrameReader.Turn → FrameReader.Turn
  | ends reading => ends reading.incoming
  | moved clock line buffer start => moved clock line.incoming buffer start

def BurstReader.Turn.incoming : BurstReader.Turn → BurstReader.Turn
  | ends reading => ends reading.incoming
  | moved clock line r => moved clock line.incoming r
  | woken clock line r => woken clock line.incoming r

namespace FrameReader

theorem finish_incoming (env : Envelope) (clock : Nat) (line : Stream) (buffer : Bytes) :
    finish env clock line.incoming buffer = (finish env clock line buffer).incoming := by
  unfold finish
  split <;> rfl

theorem turn_incoming (env : Envelope) (limit : Option Nat) (clock : Nat) (line : Stream) (buffer : Bytes)
    (start : Nat) :
    turn env limit clock line.incoming buffer start = (turn env limit clock line buffer start).incoming := by
  unfold turn
  cases env.decode buffer with
  | mk frame? rest =>
      cases frame? with
      | some frame => rfl
      | none =>
          dsimp only
          rw [Stream.readInto_incoming rfl]
          generalize line.readInto _ clock limit = reading
          cases reading with
          | bytes t bs line' => rfl
          | closed t => exact congrArg Turn.ends (finish_incoming env t line rest)
          | pending => rfl

theorem read_incoming (env : Envelope) (limit : Option Nat) (clock : Nat) (line : Stream) (buffer : Bytes)
    (start : Nat) :
    read env limit clock line.incoming buffer start = (read env limit clock line buffer start).incoming := by
  refine read_keeps (P := fun clock' line' buffer' start' => read env limit clock line.incoming buffer start =
      read env limit clock' line'.incoming buffer' start')
    (Q := fun reading => read env limit clock line.incoming buffer start = reading.incoming)
    (fun clock' line' buffer' start' h => ?_) rfl
  rw [read_eq env limit clock', turn_incoming] at h
  cases hturn : turn env limit clock' line' buffer' start' <;> rwa [hturn] at h

theorem next_incoming (env : Envelope) (limit : Option Nat) (clock : Nat) (line : Stream) (r : FrameReader) :
    next env limit clock line.incoming r = (next env limit clock line r).incoming := by
  unfold next
  split
  · exact read_incoming ..
  · exact finish_incoming ..
  · rfl
  · rfl

end FrameReader

namespace BurstReader

theorem turn_incoming (limit : Option Nat) (clock : Nat) (line : Stream) (r : BurstReader) :
    turn limit clock line.incoming r = (turn limit clock line r).incoming := by
  unfold turn
  dsimp only
  generalize (r.assembler.poll clock).take = taken
  rcases taken with ⟨_ | frame, a⟩
  · cases r.unread with
    | cons b bs => rfl
    | nil =>
        dsimp only
        rw [Stream.read_incoming rfl]
        generalize line.read clock _ = reading
        cases reading with
        | bytes t bs line' => rfl
        | closed t => rfl
        | pending =>
            dsimp only [Stream.Read.incoming]
            generalize (r.assembler.poll clock).deadline = deadline
            cases deadline with
            | none => rfl
            | some d =>
                dsimp only
                split <;> rfl
  · rfl

theorem next_incoming (limit : Option Nat) (clock : Nat) (line : Stream) (r : BurstReader) :
    next limit clock line.incoming r = (next limit clock line r).incoming := by
  refine next_keeps (P := fun clock' line' r' => next limit clock line.incoming r = next limit clock' line'.incoming r')
    (Q := fun reading => next limit clock line.incoming r = reading.incoming) (fun clock' line' r' h => ?_) rfl
  rw [next_eq limit clock', turn_incoming] at h
  cases hturn : turn limit clock' line' r' <;> rwa [hturn] at h

end BurstReader

namespace Endpoint

/-- The endpoints have read the same, and the same arrives at both. -/
structure HearsLike (p q : Endpoint) : Prop where
  receiver : p.receiver = q.receiver
  incoming : p.line.incoming = q.line.incoming

variable {p q : Endpoint}

theorem HearsLike.receive (alike : p.HearsLike q) (clock : p.clock = q.clock) (limit : Option Nat) :
    (p.receive limit).1 = (q.receive limit).1 ∧ (p.receive limit).2.clock = (q.receive limit).2.clock ∧
      (p.receive limit).2.HearsLike (q.receive limit).2 := by
  have hframe (env : Envelope) (r : FrameReader) : (FrameReader.next env limit p.clock p.line r).incoming =
      (FrameReader.next env limit p.clock q.line r).incoming := by
    rw [← FrameReader.next_incoming, ← FrameReader.next_incoming, alike.incoming]
  have hburst (r : BurstReader) : (BurstReader.next limit p.clock p.line r).incoming =
      (BurstReader.next limit p.clock q.line r).incoming := by
    rw [← BurstReader.next_incoming, ← BurstReader.next_incoming, alike.incoming]
  unfold Endpoint.receive
  rw [← alike.receiver, ← clock]
  split
  · exact ⟨rfl, clock, alike⟩
  · cases p.receiver with
    | mbap r =>
        obtain ⟨houtcome, hclock, hline, hreader⟩ := Reading.mk.inj (hframe Mbap.envelope r)
        exact ⟨congrArg (Outcome.map Frame.adu?) houtcome, hclock, congrArg Receiver.mbap hreader, hline⟩
    | ascii r =>
        obtain ⟨houtcome, hclock, hline, hreader⟩ := Reading.mk.inj (hframe Ascii.envelope r)
        exact ⟨congrArg (Outcome.map Frame.adu?) houtcome, hclock, congrArg Receiver.ascii hreader, hline⟩
    | rtu r =>
        obtain ⟨houtcome, hclock, hline, hreader⟩ := Reading.mk.inj (hburst r)
        exact ⟨congrArg (Outcome.map (Frame.adu? ∘ Rtu.decode)) houtcome, hclock, congrArg Receiver.rtu hreader, hline⟩

theorem hearsLike_send (p : Endpoint) (adu : Adu) (limit : Option Nat) : (p.send adu limit).2.HearsLike p := by
  unfold send
  dsimp only
  split
  · exact ⟨rfl, rfl⟩
  split
  · exact ⟨rfl, rfl⟩
  split
  · exact ⟨rfl, rfl⟩
  · rename_i line hwrite
    unfold Stream.write at hwrite
    split at hwrite <;> cases hwrite
    exact ⟨rfl, rfl⟩

/-! ## What is done with an endpoint -/

inductive Use
  | step (s : Step)
  | disconnect
  /-- An attempt to reconnect, without a connector or with one that fails. -/
  | reconnect (fault : Option Fault)

def use (p : Endpoint) : Use → Endpoint
  | .step s => (p.step s).2
  | .disconnect => p.disconnect.2
  | .reconnect fault => (p.reconnect (fault.map .error)).2

def live (p : Endpoint) : Use ⊕ Stream → Endpoint
  | .inl u => p.use u
  | .inr line => (p.reconnect (some (.ok line))).2

/-- When an endpoint was asked for a frame, what came of it, and when. -/
structure Receipt where
  asked : Nat
  limit : Option Nat
  outcome : Outcome (Option Adu)
  ended : Nat

def receipt (p : Endpoint) (limit : Option Nat) : Receipt :=
  ⟨p.clock, limit, (p.receive limit).1, (p.receive limit).2.clock⟩

def receipts (p : Endpoint) : List Use → List Receipt
  | [] => []
  | .step (.receive limit) :: uses => p.receipt limit :: (p.receive limit).2.receipts uses
  | u :: uses => (p.use u).receipts uses

/-- What an endpoint receives that is only asked, at these instants and with these limits. -/
def answers (p : Endpoint) : List (Nat × Option Nat) → List Receipt
  | [] => []
  | (now, limit) :: calls =>
    let p := { p with clock := now }
    p.receipt limit :: (p.receive limit).2.answers calls

theorem hearsLike_use (p : Endpoint) {u : Use} (unasked : ∀ limit, u ≠ .step (.receive limit)) :
    (p.use u).HearsLike p := by
  cases u with
  | step s =>
      cases s with
      | send adu limit => exact p.hearsLike_send adu limit
      | receive limit => exact absurd rfl (unasked limit)
      | pause d => exact ⟨rfl, rfl⟩
  | disconnect => exact ⟨rfl, rfl⟩
  | reconnect fault => cases fault <;> exact ⟨rfl, rfl⟩

theorem receipts_cons_unasked (p : Endpoint) {u : Use} (unasked : ∀ limit, u ≠ .step (.receive limit))
    (uses : List Use) : p.receipts (u :: uses) = (p.use u).receipts uses := by
  rw [receipts]
  exact unasked

/-- Receipts depend on nothing but what has been read, what arrives, and when they were asked for. -/
theorem HearsLike.receipts_eq (alike : p.HearsLike q) (uses : List Use) :
    p.receipts uses = q.answers ((p.receipts uses).map fun r => (r.asked, r.limit)) := by
  induction uses generalizing p q with
  | nil => rfl
  | cons u uses ih =>
      by_cases asked : ∃ limit, u = .step (.receive limit)
      · obtain ⟨limit, rfl⟩ := asked
        have alike' : p.HearsLike { q with clock := p.clock } := ⟨alike.receiver, alike.incoming⟩
        obtain ⟨houtcome, hclock, rest⟩ := alike'.receive rfl limit
        have hreceipt : p.receipt limit = receipt { q with clock := p.clock } limit := by
          rw [receipt, houtcome, hclock]
          rfl
        show p.receipt limit :: (p.receive limit).2.receipts uses =
          receipt { q with clock := p.clock } limit :: (Endpoint.receive limit { q with clock := p.clock }).2.answers
            (((p.receive limit).2.receipts uses).map fun r => (r.asked, r.limit))
        rw [← hreceipt, ← ih rest]
      · have unasked : ∀ limit, u ≠ .step (.receive limit) := not_exists.mp asked
        have huse := p.hearsLike_use unasked
        rw [p.receipts_cons_unasked unasked]
        exact ih ⟨huse.receiver.trans alike.receiver, huse.incoming.trans alike.incoming⟩

/-! ## What is kept -/

theorem stream_send (p : Endpoint) (adu : Adu) (limit : Option Nat) :
    (p.send adu limit).2.receiver.stream = p.receiver.stream :=
  congrArg Receiver.stream (p.hearsLike_send adu limit).receiver

theorem stream_receive (p : Endpoint) (limit : Option Nat) :
    (p.receive limit).2.receiver.stream = p.receiver.stream := by
  unfold receive
  split
  · rfl
  · cases hr : p.receiver <;> rfl

theorem stream_fresh (timing : Timing) (framing : StreamFraming) :
    (Receiver.fresh timing framing).stream = framing := by
  cases framing <;> rfl

theorem live_keeps (p : Endpoint) (u : Use ⊕ Stream) :
    (p.live u).timing = p.timing ∧ (p.live u).receiver.stream = p.receiver.stream := by
  cases u with
  | inl u =>
      cases u with
      | step s =>
          cases s with
          | send adu limit => exact ⟨timing_send adu limit, p.stream_send adu limit⟩
          | receive limit => exact ⟨timing_receive limit, p.stream_receive limit⟩
          | pause d => exact ⟨rfl, rfl⟩
      | disconnect => exact ⟨rfl, rfl⟩
      | reconnect fault => cases fault <;> exact ⟨rfl, rfl⟩
  | inr line => exact ⟨rfl, stream_fresh p.timing p.receiver.stream⟩

theorem lives_keep (p : Endpoint) (past : List (Use ⊕ Stream)) :
    (past.foldl live p).timing = p.timing ∧ (past.foldl live p).receiver.stream = p.receiver.stream := by
  induction past generalizing p with
  | nil => exact ⟨rfl, rfl⟩
  | cons u past ih =>
      obtain ⟨htiming, hstream⟩ := p.live_keeps u
      obtain ⟨htiming', hstream'⟩ := ih (p.live u)
      exact ⟨htiming'.trans htiming, hstream'.trans hstream⟩

/-- Whatever an endpoint has been through, with a new stream it receives what a fresh endpoint receives from there that
is asked at the same instants. Without a connector, or with one that fails, nothing about it changes. -/
theorem reconnect_forgets (framing : StreamFraming) (config : SerialConfig) (old : Stream)
    (past : List (Use ⊕ Stream)) :
    let p := past.foldl live (fresh framing config old)
    p.reconnect none = (.error .noConnector, p) ∧
    (∀ fault, p.reconnect (some (.error fault)) = (.error fault, p)) ∧
    ∀ line, ∃ p', p.reconnect (some (.ok line)) = (.ok (), p') ∧ p'.line = line ∧ p'.clock = p.clock ∧
      p'.receiver = (fresh framing config line).receiver ∧
      ∀ later, p'.receipts later =
        (fresh framing config line.incoming).answers ((p'.receipts later).map fun r => (r.asked, r.limit)) := by
  intro p
  obtain ⟨htiming, hstream⟩ := lives_keep (fresh framing config old) past
  have hreceiver (line : Stream) : (p.reopen line).receiver = (fresh framing config line).receiver := by
    show Receiver.fresh p.timing p.receiver.stream = Receiver.fresh config.timing framing
    rw [htiming, hstream]
    exact congrArg _ (stream_fresh config.timing framing)
  exact ⟨rfl, fun _ => rfl, fun line => ⟨p.reopen line, rfl, rfl, rfl, hreceiver line,
    HearsLike.receipts_eq ⟨hreceiver line, rfl⟩⟩⟩

end Endpoint

end Modbus
