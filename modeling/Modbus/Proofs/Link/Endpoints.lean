import Modbus.Proofs.Link.Delivery

/-!
# Endpoints between two messages

An endpoint that has dealt with everything it received is idle. It is idle again after it has sent a message, after it
has received one, and after it has waited for nothing; what it does meanwhile takes as long as its framing asks for.
-/

namespace Modbus

namespace StreamFraming

def framing : StreamFraming → Framing
  | tcp => .tcp
  | rtu => .rtu
  | ascii => .ascii

def encode : StreamFraming → Adu → Bytes
  | tcp => Mbap.encode
  | rtu => Rtu.encode
  | ascii => Ascii.encode

def deliver : StreamFraming → Adu → Adu
  | tcp, adu => adu
  | rtu, adu | ascii, adu => adu.anonymous

def silence (timing : Timing) : StreamFraming → Nat
  | rtu => timing.silence
  | tcp | ascii => 0

def pause (timing : Timing) : StreamFraming → Nat
  | tcp => 0
  | rtu | ascii => timing.messagePause

/-- The pieces carry a message to a receiver: nothing of it is lost, and bursts are kept together. -/
structure Carries (framing : StreamFraming) (timing : Timing) (adu : Adu) (pieces : List Chunk) : Prop where
  bytes : bytesOf pieces = framing.encode adu
  filled : Filled pieces
  burst : framing = .rtu → Burst timing.longestGap pieces

@[simp] theorem pdu_deliver (framing : StreamFraming) (adu : Adu) : (framing.deliver adu).pdu = adu.pdu := by
  cases framing <;> rfl

@[simp] theorem unit_deliver (framing : StreamFraming) (adu : Adu) :
    (framing.deliver adu).header.unit = adu.header.unit := by
  cases framing <;> rfl

theorem answers_deliver (framing : StreamFraming) (request : Adu) (pdu : Bytes) :
    Header.Answers framing.framing request.header
      (framing.deliver ⟨(framing.deliver request).header, pdu⟩).header := by
  cases framing <;> rfl

theorem encode_ne_nil (framing : StreamFraming) (adu : Adu) : framing.encode adu ≠ [] := by
  cases framing <;> simp [encode, Mbap.encode, Rtu.encode, Ascii.encode, Bytes.ofWord]

theorem Carries.ne_nil {framing : StreamFraming} {timing : Timing} {adu : Adu} {pieces : List Chunk}
    (h : framing.Carries timing adu pieces) : pieces ≠ [] := by
  rintro rfl
  exact framing.encode_ne_nil adu h.bytes.symm

end StreamFraming

inductive Receiver.Rests (timing : Timing) : StreamFraming → Receiver → Prop
  | mbap (start : Nat) : Rests timing .tcp (.mbap ⟨[], start, .reading⟩)
  | ascii (start : Nat) : Rests timing .ascii (.ascii ⟨[], start, .reading⟩)
  | rtu (last : Option Nat) : Rests timing .rtu (.rtu ⟨⟨timing, .idle, [], last⟩, []⟩)

namespace Endpoint

/-- Nothing is to be received, and messages can be sent. -/
structure Idle (framing : StreamFraming) (timing : Timing) (p : Endpoint) : Prop where
  receiver : p.receiver.Rests timing framing
  pause : p.bus.pause = timing.messagePause
  arrivals : p.line.arrivals = []
  closing : p.line.closing = none
  shut : p.line.shut = false

theorem idle_fresh (framing : StreamFraming) (config : SerialConfig) :
    (fresh framing config {}).Idle framing config.timing where
  receiver := by cases framing <;> constructor
  pause := rfl
  arrivals := rfl
  closing := rfl
  shut := rfl

variable {framing : StreamFraming} {timing : Timing} {p : Endpoint}

theorem Idle.framing_eq (idle : p.Idle framing timing) : p.framing = framing.framing := by
  have h := idle.receiver
  unfold Endpoint.framing
  generalize p.receiver = receiver at h
  cases h <;> rfl

/-! ## Receiving -/

def awaiting (p : Endpoint) (pieces : List Chunk) : Endpoint := { p with line := { p.line with arrivals := pieces } }

theorem receive_delivers (idle : p.Idle framing timing) (short : timing.longestGap < timing.silence) {adu : Adu}
    (sendable : adu.IsSendable) {pieces : List Chunk} (carries : framing.Carries timing adu pieces)
    {limit : Option Nat} (within : Within (lastArrival p.clock pieces + framing.silence timing) limit) :
    ∃ p', (p.awaiting pieces).receive limit = (.done (some (framing.deliver adu)), p') ∧ p'.Idle framing timing ∧
      p'.clock = lastArrival p.clock pieces + framing.silence timing ∧ p'.line.sent = p.line.sent ∧
      (framing ≠ .tcp → p'.bus.quietSince = some p'.clock) := by
  obtain ⟨timing', receiver, bus, line, clock⟩ := p
  obtain ⟨rests, pause, arrivals, closing, shut⟩ := idle
  have hclock : ¬ ¬ Within clock limit := fun h => h fun l hl =>
    Nat.le_trans (Nat.le_trans (le_lastArrival clock pieces) (Nat.le_add_right _ _)) (within l hl)
  unfold receive awaiting
  rw [if_neg hclock]
  cases rests with
  | mbap start =>
      obtain ⟨start', h⟩ := FrameReader.next_delivers (Mbap.delimits sendable) (s := { line with arrivals := pieces })
        start carries.bytes carries.filled within
      simp only [h]
      exact ⟨_, rfl, ⟨.mbap start', pause, rfl, closing, shut⟩, rfl, rfl, fun h => absurd rfl h⟩
  | ascii start =>
      obtain ⟨start', h⟩ := FrameReader.next_delivers (Ascii.delimits sendable) (s := { line with arrivals := pieces })
        start carries.bytes carries.filled within
      simp only [h]
      exact ⟨_, rfl, ⟨.ascii start', pause, rfl, closing, shut⟩, rfl, rfl, fun _ => rfl⟩
  | rtu last =>
      have hroom : (bytesOf pieces).length ≤ Rtu.maxSize := by
        have := sendable.2
        rw [carries.bytes, StreamFraming.encode, Rtu.length_encode, Rtu.maxSize]
        omega
      have h := BurstReader.next_delivers short (s := { line with arrivals := pieces }) last carries.ne_nil hroom
        carries.filled (carries.burst rfl) closing within
      have hdecode : (Frame.adu? ∘ Rtu.decode) (bytesOf pieces) = some adu.anonymous := by
        rw [carries.bytes, StreamFraming.encode, Function.comp_apply, Rtu.decode_encode sendable]
        rfl
      simp only [h, Outcome.map, hdecode]
      exact ⟨_, rfl, ⟨.rtu _, pause, rfl, closing, shut⟩, rfl, rfl, fun _ => rfl⟩

theorem receive_nothing (idle : p.Idle framing timing) (limit : Nat) :
    ∃ p', p.receive (some limit) = (.pending, p') ∧ p'.Idle framing timing ∧ p'.clock = max p.clock limit ∧
      p'.line = p.line ∧ p'.bus = p.bus := by
  unfold receive
  by_cases hclock : Within p.clock (some limit)
  · rw [if_neg (not_not_intro hclock)]
    obtain ⟨timing', receiver, bus, line, clock⟩ := p
    obtain ⟨rests, pause, arrivals, closing, shut⟩ := idle
    cases rests with
    | mbap start =>
        have empty : Mbap.envelope.decode [] = (none, []) := rfl
        obtain ⟨start', h⟩ := FrameReader.next_nothing empty (some limit) clock start arrivals closing
        simp only [h]
        exact ⟨_, rfl, ⟨.mbap start', pause, arrivals, closing, shut⟩, rfl, rfl, rfl⟩
    | ascii start =>
        have empty : Ascii.envelope.decode [] = (none, []) := rfl
        obtain ⟨start', h⟩ := FrameReader.next_nothing empty (some limit) clock start arrivals closing
        simp only [h]
        exact ⟨_, rfl, ⟨.ascii start', pause, arrivals, closing, shut⟩, rfl, rfl, rfl⟩
    | rtu last =>
        have h := BurstReader.next_nothing timing (some limit) clock last arrivals closing
        simp only [h]
        exact ⟨_, rfl, ⟨.rtu last, pause, arrivals, closing, shut⟩, rfl, rfl, rfl⟩
  · rw [if_pos hclock]
    refine ⟨p, rfl, idle, (Nat.max_eq_left ?_).symm, rfl, rfl⟩
    exact Nat.le_of_not_le fun hle => hclock (within_some.mpr hle)

/-! ## Sending -/

theorem le_sendStart (p : Endpoint) : p.clock ≤ p.sendStart := by
  unfold sendStart Bus.ready
  split
  · split
    · exact Nat.le_refl _
    · exact Nat.le_max_left _ _
  · exact Nat.le_refl _

theorem sendStart_le (idle : p.Idle framing timing)
    (quiet : framing ≠ .tcp → ∀ t, p.bus.quietSince = some t → t ≤ p.clock) :
    p.sendStart ≤ p.clock + framing.pause timing := by
  have hpause := idle.pause
  unfold sendStart Bus.ready
  rw [idle.framing_eq]
  cases framing with
  | tcp => exact Nat.le_refl _
  | rtu | ascii =>
      simp only [StreamFraming.framing, Framing.isHeadless, if_true, StreamFraming.pause]
      split
      · exact Nat.le_add_right _ _
      · rename_i t ht
        have := quiet (by simp) t ht
        omega

/-- Right after a message the bus is waited for exactly that long. -/
theorem sendStart_eq (idle : p.Idle framing timing) (marked : framing ≠ .tcp → p.bus.quietSince = some p.clock) :
    p.sendStart = p.clock + framing.pause timing := by
  have hpause := idle.pause
  unfold sendStart Bus.ready
  rw [idle.framing_eq]
  cases framing with
  | tcp => rfl
  | rtu | ascii =>
      simp only [StreamFraming.framing, Framing.isHeadless, if_true, StreamFraming.pause, marked (by simp)]
      omega

theorem frame_eq {receiver : Receiver} (rests : receiver.Rests timing framing) {adu : Adu}
    (sendable : adu.IsSendable) : receiver.frame adu = .ok (framing.encode adu) := by
  have hlong : ¬ Pdu.maxSize < adu.pdu.length := Nat.not_lt.mpr sendable.2
  cases rests with
  | mbap start => exact if_neg hlong
  | ascii start => exact if_neg hlong
  | rtu last => rfl

theorem send_delivers (idle : p.Idle framing timing) {adu : Adu} (sendable : adu.IsSendable) {limit : Option Nat}
    (within : Within p.sendStart limit) :
    ∃ p', p.send adu limit = (.done (), p') ∧ p'.Idle framing timing ∧ p'.clock = p.sendStart ∧
      p'.line.sent = p.line.sent ++ [⟨p.sendStart, framing.encode adu⟩] := by
  have hopen : ¬ p.line.isClosed p.sendStart = true := by simp [Stream.isClosed, idle.closing, idle.shut]
  have hwrite : p.line.write p.sendStart (framing.encode adu) =
      .ok { p.line with sent := p.line.sent ++ [⟨p.sendStart, framing.encode adu⟩] } := if_neg hopen
  unfold send
  dsimp only
  rw [if_neg (not_not_intro within), frame_eq idle.receiver sendable]
  simp only [hwrite]
  refine ⟨_, rfl, ⟨idle.receiver, ?_, idle.arrivals, idle.closing, idle.shut⟩, rfl, rfl⟩
  unfold busAfter
  split
  · exact idle.pause
  · exact idle.pause

end Endpoint

end Modbus
