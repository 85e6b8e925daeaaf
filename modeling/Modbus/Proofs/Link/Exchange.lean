import Modbus.Link.Coupled
import Modbus.Proofs.Client.Attempts
import Modbus.Proofs.Link.Endpoints
import Modbus.Proofs.Server.Replies

/-!
# One exchange with a station

A client and a station at the two ends of a stream that loses nothing, both idle. A message of the client gets to the
station, the station's answer gets back, and then both are idle again. How long that takes is bounded by what the
carriage, the silences behind frames and the pauses in front of them take.
-/

namespace Modbus

/-! ## A server that hears one message -/

namespace Server

variable {τ : Type} {service : Service τ} {framing : StreamFraming} {timing : Timing} {p : Endpoint} {t : τ}

theorem run_waits (service : Service τ) (idle : p.Idle framing timing) (limit : Nat) (t : τ) :
    ∃ p', run service (some limit) p t = (.waiting, p', t) ∧ p'.Idle framing timing ∧
      p'.clock = max p.clock limit ∧ p'.line = p.line := by
  obtain ⟨p', h, idle', clock, line, _⟩ := p.receive_nothing idle limit
  have hreceive : Link.receive (some limit) p = (.pending, p') := h
  refine ⟨p', ?_, idle', clock, line⟩
  rw [run_eq]
  simp only [hreceive]

/-- A server that hears one message answers it and waits for the next. -/
theorem run_answers (idle : p.Idle framing timing) (short : timing.longestGap < timing.silence) {request reply : Adu}
    (sendable : request.IsSendable) {pieces : List Chunk} (carries : framing.Carries timing request pieces) {t' : τ}
    (reacts : react service framing.framing (some (framing.deliver request)) t = (some reply, t'))
    (sendable' : reply.IsSendable) {limit : Nat}
    (within : lastArrival p.clock pieces + framing.silence timing + framing.pause timing ≤ limit) :
    ∃ p', run service (some limit) (p.awaiting pieces) t = (.waiting, p', t') ∧ p'.Idle framing timing ∧
      p'.clock = limit ∧ p'.line.sent = p.line.sent ++
        [⟨lastArrival p.clock pieces + framing.silence timing + framing.pause timing, framing.encode reply⟩] := by
  have inTime : Within (lastArrival p.clock pieces + framing.silence timing) (some limit) :=
    within_some.mpr (by omega)
  obtain ⟨q, hq, idleq, clockq, sentq, quietq⟩ := Endpoint.receive_delivers idle short sendable carries inTime
  have start := Endpoint.sendStart_eq idleq quietq
  obtain ⟨r, hr, idler, clockr, sentr⟩ := Endpoint.send_delivers idleq sendable' (within_none _)
  obtain ⟨p', hp, idlep, clockp, linep⟩ := run_waits service idler limit t'
  rw [start, clockq] at clockr sentr
  have hreceive : Link.receive (some limit) (p.awaiting pieces) = (.done (some (framing.deliver request)), q) := hq
  have hsend : Link.send reply none q = (.done (), r) := hr
  have hframing : Link.framing q = framing.framing := idleq.framing_eq
  refine ⟨p', ?_, idlep, by omega, by rw [linep, sentr, sentq]⟩
  rw [run_eq]
  simp only [hreceive, hframing, reacts, hsend, hp]

end Server

/-! ## What the stream carries -/

/-- The pieces in which a chunk arrives: all of its bytes, none before it was written, none later than `delay` after
that, and on a line with bursts one burst. -/
structure Chunk.Reaches (framing : StreamFraming) (timing : Timing) (delay : Nat) (chunk : Chunk)
    (pieces : List Chunk) : Prop where
  bytes : bytesOf pieces = chunk.bytes
  filled : Filled pieces
  burst : framing = .rtu → Burst timing.longestGap pieces
  after : ∀ piece ∈ pieces, chunk.time ≤ piece.time
  within : ∀ piece ∈ pieces, piece.time ≤ chunk.time + delay

/-- Whatever is written at one end reaches the other. -/
structure Carriage.Lossless (framing : StreamFraming) (near far : Timing) (delay : Nat) (carriage : Carriage) :
    Prop where
  there : ∀ (turn : Nat) (chunk : Chunk), chunk.bytes ≠ [] → chunk.Reaches framing far delay (carriage.there turn chunk)
  back : ∀ (turn : Nat) (chunk : Chunk), chunk.bytes ≠ [] → chunk.Reaches framing near delay (carriage.back turn chunk)

section
variable {framing : StreamFraming} {timing : Timing} {delay start : Nat} {adu : Adu} {pieces : List Chunk}

theorem Chunk.Reaches.carries (h : Chunk.Reaches framing timing delay ⟨start, framing.encode adu⟩ pieces) :
    framing.Carries timing adu pieces := ⟨h.bytes, h.filled, h.burst⟩

theorem Chunk.Reaches.le_lastArrival (h : Chunk.Reaches framing timing delay ⟨start, framing.encode adu⟩ pieces)
    (now : Nat) : start ≤ lastArrival now pieces := by
  obtain ⟨c, hc⟩ := List.exists_mem_of_ne_nil pieces h.carries.ne_nil
  exact Nat.le_trans (h.after c hc) (time_le_lastArrival hc)

theorem Chunk.Reaches.lastArrival_le (h : Chunk.Reaches framing timing delay ⟨start, framing.encode adu⟩ pieces)
    {now : Nat} (hnow : now ≤ start) : lastArrival now pieces ≤ start + delay :=
  Modbus.lastArrival_le (Nat.le_trans hnow (Nat.le_add_right _ _)) h.within

end

/-! ## What the coupling does -/

theorem Stream.foldl_deliver (pieces : List Chunk) (line : Stream) :
    pieces.foldl deliver line = { line with arrivals := line.arrivals ++ pieces } := by
  induction pieces generalizing line with
  | nil => simp
  | cons c cs ih => simp [ih, deliver]

theorem Station.foldl_hear {τ : Type} (pieces : List Chunk) (s : Station τ) :
    pieces.foldl (fun s chunk => s.hear chunk) s =
      { s with endpoint := s.endpoint.awaiting (s.endpoint.line.arrivals ++ pieces) } := by
  induction pieces generalizing s with
  | nil => simp [Endpoint.awaiting]
  | cons c cs ih =>
      rw [List.foldl_cons, ih]
      simp [hear, Stream.deliver, Endpoint.awaiting]

namespace Coupled

variable {τ : Type} {framing : StreamFraming} {near far : Timing} {delay : Nat}

/-- Nothing is on the way, and the client can send as soon as the bus allows. -/
structure Ready (framing : StreamFraming) (near far : Timing) (c : Coupled τ) : Prop where
  near : c.near.Idle framing near
  far : c.far.endpoint.Idle framing far
  waiting : c.far.status = .waiting
  behind : c.far.endpoint.clock ≤ c.near.clock
  silent : c.near.line.sent = []
  quiet : framing ≠ .tcp → ∀ t, c.near.bus.quietSince = some t → t ≤ c.near.clock

/-- A message is on its way to the station, and nothing else is. -/
structure Asked (framing : StreamFraming) (near far : Timing) (delay : Nat) (request : Adu) (c : Coupled τ) :
    Prop where
  near : c.near.Idle framing near
  far : ∃ (p : Endpoint) (pieces : List Chunk), c.far.endpoint = p.awaiting pieces ∧ p.Idle framing far ∧
    p.clock ≤ c.near.clock ∧ Chunk.Reaches framing far delay ⟨c.near.clock, framing.encode request⟩ pieces
  waiting : c.far.status = .waiting
  silent : c.near.line.sent = []

theorem cleared_idle {p : Endpoint} {timing : Timing} (idle : p.Idle framing timing) :
    Endpoint.Idle framing timing { p with line := { p.line with sent := [] } } :=
  ⟨idle.receiver, idle.pause, idle.arrivals, idle.closing, idle.shut⟩

theorem settle_eq {c : Coupled τ} {limit : Option Nat} (waiting : c.far.status = .waiting) {q : Endpoint} {t : τ}
    (h : Server.run c.service limit c.far.cleared.endpoint c.far.state = (.waiting, q, t)) :
    c.settle limit = { c with
      near := c.near.awaiting (c.near.line.arrivals ++ q.line.sent.flatMap (c.carriage.back c.turn))
      far := ⟨q, t, .waiting⟩ } := by
  have hrun : c.far.cleared.runTo c.service limit = ⟨q, t, .waiting⟩ := by
    have hcleared : c.far.cleared.status = .waiting := waiting
    have hstate : c.far.cleared.state = c.far.state := rfl
    unfold Station.runTo
    simp only [hcleared, hstate, h]
  unfold settle
  simp only [hrun, Stream.foldl_deliver]
  rfl

theorem send_asks {c : Coupled τ} (ready : c.Ready framing near far)
    (lossless : c.carriage.Lossless framing near far delay) {request : Adu} (sendable : request.IsSendable)
    {limit : Nat} (within : c.near.clock + framing.pause near ≤ limit) :
    ∃ c', c.send request (some limit) = (.done (), c') ∧ c'.Asked framing near far delay request ∧
      c'.near.clock ≤ c.near.clock + framing.pause near ∧ c'.service = c.service ∧ c'.carriage = c.carriage ∧
      c'.far.state = c.far.state := by
  have start := Endpoint.sendStart_le ready.near ready.quiet
  have late := c.near.le_sendStart
  have inTime : Within c.near.sendStart (some limit) := within_some.mpr (Nat.le_trans start within)
  obtain ⟨p, hp, idlep, clockp, sentp⟩ := Endpoint.send_delivers ready.near sendable inTime
  obtain ⟨q, hq, idleq, clockq, lineq⟩ := Server.run_waits c.service (cleared_idle ready.far) p.clock c.far.state
  have behind : c.far.endpoint.clock ≤ p.clock := clockp ▸ Nat.le_trans ready.behind late
  have clocks : q.clock = p.clock := clockq.trans (Nat.max_eq_right behind)
  have sentq : q.line.sent = [] := by rw [lineq]
  have hsettle := settle_eq (c := { c with near := p }) ready.waiting hq
  have hreaches := lossless.there c.turn ⟨p.clock, framing.encode request⟩ (framing.encode_ne_nil request)
  rw [ready.silent, List.nil_append, ← clockp] at sentp
  refine ⟨{ c with
    near := { p with line := { p.line with sent := [] } }
    far := ⟨q.awaiting (c.carriage.there c.turn ⟨p.clock, framing.encode request⟩), c.far.state, .waiting⟩
    turn := c.turn + 1 }, ?_, ?_, Nat.le_trans (Nat.le_of_eq clockp) start, rfl, rfl, rfl⟩
  · unfold send
    simp only [hp, hsettle, handOver, Station.foldl_hear, sentq, idleq.arrivals, idlep.arrivals, sentp,
      List.flatMap_nil, List.flatMap_singleton, List.nil_append, Endpoint.awaiting]
  · exact ⟨cleared_idle idlep, ⟨q, _, rfl, idleq, Nat.le_of_eq clocks, hreaches⟩, rfl, rfl⟩

/-- The station answers at some time, and whenever it is asked after that, its answer is what has come back. -/
theorem Asked.settle_answers {c : Coupled τ} {request reply : Adu} {t' : τ}
    (asked : c.Asked framing near far delay request) (short : far.longestGap < far.silence)
    (sendable : request.IsSendable) (sendable' : reply.IsSendable)
    (reacts : Server.react c.service framing.framing (some (framing.deliver request)) c.far.state = (some reply, t')) :
    ∃ start, c.near.clock ≤ start ∧ start ≤ c.near.clock + delay + framing.silence far + framing.pause far ∧
      ∀ ending, start ≤ ending → ∃ q : Endpoint, c.settle (some ending) = { c with
          near := c.near.awaiting (c.carriage.back c.turn ⟨start, framing.encode reply⟩)
          far := ⟨q, t', .waiting⟩ } ∧ q.Idle framing far ∧ q.clock = ending := by
  obtain ⟨idle, ⟨p, pieces, hfar, idle', behind, reaches⟩, waiting, silent⟩ := asked
  have heard := reaches.lastArrival_le behind
  have written := reaches.le_lastArrival p.clock
  refine ⟨lastArrival p.clock pieces + framing.silence far + framing.pause far, by omega, by omega, ?_⟩
  intro ending hle
  obtain ⟨q, hq, idleq, clockq, sentq⟩ :=
    Server.run_answers (cleared_idle idle') short sendable reaches.carries reacts sendable' hle
  have hcleared : c.far.cleared.endpoint = Endpoint.awaiting { p with line := { p.line with sent := [] } } pieces := by
    unfold Station.cleared
    rw [hfar]
    rfl
  refine ⟨q, ?_, idleq, clockq⟩
  rw [settle_eq waiting (hcleared ▸ hq), sentq, idle.arrivals]
  simp

theorem receive_answers {c : Coupled τ} {request reply : Adu} {t' : τ}
    (asked : c.Asked framing near far delay request) (shortNear : near.longestGap < near.silence)
    (shortFar : far.longestGap < far.silence) (lossless : c.carriage.Lossless framing near far delay)
    (sendable : request.IsSendable) (sendable' : reply.IsSendable)
    (reacts : Server.react c.service framing.framing (some (framing.deliver request)) c.far.state = (some reply, t'))
    {limit : Nat} (within : c.near.clock + delay + framing.silence far + framing.pause far + delay +
      framing.silence near ≤ limit) :
    ∃ c', c.receive (some limit) = (.done (some (framing.deliver reply)), c') ∧ c'.Ready framing near far ∧
      c'.service = c.service ∧ c'.carriage = c.carriage ∧ c'.far.state = t' := by
  obtain ⟨start, soon, answered, hsettle⟩ := asked.settle_answers shortFar sendable sendable' reacts
  have hback := lossless.back c.turn ⟨start, framing.encode reply⟩ (framing.encode_ne_nil reply)
  have arrived := hback.lastArrival_le soon
  have later := hback.le_lastArrival c.near.clock
  obtain ⟨last, hlast⟩ : ∃ last, last = lastArrival c.near.clock
    (c.carriage.back c.turn ⟨start, framing.encode reply⟩) + framing.silence near := ⟨_, rfl⟩
  have inTime : Within last (some limit) := within_some.mpr (by omega)
  obtain ⟨p', hp', idlep, clockp, sentp, quietp⟩ :=
    Endpoint.receive_delivers asked.near shortNear sendable' hback.carries (hlast ▸ inTime)
  rw [← hlast] at clockp
  obtain ⟨q, hq, _, _⟩ := hsettle limit (by omega)
  obtain ⟨q', hq', idleq', clockq'⟩ := hsettle last (by omega)
  have hending : ((c.settle (some limit)).near.receive (some limit)).2.clock = last := by
    rw [hq]
    simp only [hp', clockp]
  refine ⟨{ c with near := p', far := ⟨q', t', .waiting⟩ }, ?_, ?_, rfl, rfl, rfl⟩
  · unfold receive
    simp only [hending, hq', hp']
  · refine ⟨idlep, idleq', rfl, Nat.le_of_eq (clockq'.trans clockp.symm), sentp.trans asked.silent, ?_⟩
    intro stream t ht
    rw [quietp stream] at ht
    cases ht
    exact Nat.le_refl _

def roundTrip (framing : StreamFraming) (near far : Timing) (delay : Nat) : Nat :=
  framing.pause near + delay + framing.silence far + framing.pause far + delay + framing.silence near

theorem attempt_answers (function : FunctionCode) {c : Coupled τ} {config : ClientConfig} {request reply : Adu}
    {decoded : Reply} {t' : τ} (ready : c.Ready framing near far)
    (shortNear : near.longestGap < near.silence) (shortFar : far.longestGap < far.silence)
    (lossless : c.carriage.Lossless framing near far delay)
    (timely : roundTrip framing near far delay ≤ config.timeout)
    (sendable : request.IsSendable) (sendable' : reply.IsSendable)
    (reacts : Server.react c.service framing.framing (some (framing.deliver request)) c.far.state = (some reply, t'))
    (decodes : Reply.decode reply.pdu = .ok decoded) :
    ∃ c', config.attempt request function (Link.now c + config.timeout) c =
        (config.judge framing.framing request function (framing.deliver reply).header decoded, c') ∧
      c'.Ready framing near far ∧ c'.service = c.service ∧ c'.carriage = c.carriage ∧ c'.far.state = t' := by
  obtain ⟨limit, hlimit⟩ : ∃ limit, limit = Link.now c + config.timeout := ⟨_, rfl⟩
  unfold roundTrip at timely
  have hnow : Link.now c = c.near.clock := rfl
  have hsent : c.near.clock + framing.pause near ≤ limit := by omega
  obtain ⟨asked, hsend, hasked, clock, service, carriage, state⟩ :=
    send_asks ready lossless sendable hsent
  have hreceived : asked.near.clock + delay + framing.silence far + framing.pause far + delay +
      framing.silence near ≤ limit := by omega
  rw [← service, ← state] at reacts
  rw [← carriage] at lossless
  obtain ⟨c', hreceive, ready', service', carriage', state'⟩ := receive_answers hasked shortNear shortFar lossless
    sendable sendable' reacts hreceived
  refine ⟨c', ?_, ready', service'.trans service, carriage'.trans carriage, state'⟩
  have hsend' : Link.send request (some limit) c = (.done (), asked) := hsend
  have hreceive' : Link.receive (some limit) asked =
      (.done (some (framing.deliver reply)), c') := hreceive
  have hframing : Link.framing c' = framing.framing := ready'.near.framing_eq
  rw [← hlimit, ← hframing]
  exact config.attempt_of_reply function hsend' hreceive' (by rwa [StreamFraming.pdu_deliver])

end Coupled

end Modbus
