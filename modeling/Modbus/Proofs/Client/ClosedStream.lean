import Modbus.Proofs.Client.Validation
import Modbus.Proofs.Link.LastBurst

/-!
# Clients on a stream that is closed

A client that reads to the end of its stream gives up in that attempt, unless it reconnects: the end of a stream is
fatal. An unfinished line at the end of an ASCII stream is reported before that, as a fault of another kind, and costs
an attempt.
-/

namespace Modbus

/-! ## What a client cannot change -/

section

variable {σ : Type} [Link σ] {P : σ → Prop}

structure Link.IsKept (P : σ → Prop) : Prop where
  pause : ∀ d s, P s → P (Link.pause d s)
  send : ∀ adu limit s, P s → P (Link.send adu limit s).2
  receive : ∀ limit s, P s → P (Link.receive limit s).2
  reconnect : ∀ s, P s → P (Link.reconnect s).2

namespace Link.IsKept

theorem awaitReply (kept : Link.IsKept P) (c : ClientConfig) (request : Adu) (function : FunctionCode) (limit : Nat)
    {s : σ} (h : P s) : P (c.awaitReply request function limit s).2 := by
  have hreceive {s s' : σ} {o : Outcome (Option Adu)} (heq : Link.receive (some limit) s = (o, s')) (h : P s) :
      P s' := by
    have := kept.receive (some limit) s h
    rwa [heq] at this
  fun_induction ClientConfig.awaitReply c request function limit s with
  | case1 s s' heq | case2 s f s' heq | case5 s adu s' heq => exact hreceive heq h
  | case3 s s' heq ih | case4 s adu s' heq _ _ ih => exact ih (hreceive heq h)

theorem attempt (kept : Link.IsKept P) (c : ClientConfig) (request : Adu) (function : FunctionCode) (limit : Nat)
    {s : σ} (h : P s) : P (c.attempt request function limit s).2 := by
  have hsend := kept.send request (some limit) s h
  unfold ClientConfig.attempt
  split <;> rename_i heq <;> rw [heq] at hsend
  · exact hsend
  · exact hsend
  · exact kept.awaitReply c request function _ hsend

theorem prepareRetry (kept : Link.IsKept P) (c : ClientConfig) {s : σ} (h : P s) : P (c.prepareRetry s) := by
  have hrest := kept.pause (Duration.pause c.retryDelay) s h
  unfold ClientConfig.prepareRetry Link.rest
  dsimp only
  split
  · exact kept.reconnect _ hrest
  · exact hrest

theorem attempts {ε : Type} (kept : Link.IsKept P) (clock : Clock ε) (c : ClientConfig) (request : Adu)
    (function : FunctionCode) (left made : Nat) {s : σ} (h : P s) :
    P (c.attempts clock request function left made s).2 := by
  have hattempt {limit : Nat} {s s' : σ} {v : Verdict} (heq : c.attempt request function limit s = (v, s')) (h : P s) :
      P s' := by
    have := kept.attempt c request function limit h
    rwa [heq] at this
  fun_induction ClientConfig.attempts clock c request function left made s with
  | case1 left made s e _ => exact h
  | case2 left made s limit _ answer s' heq | case3 left made s limit _ failure s' heq
  | case4 made s limit _ failure s' heq => exact hattempt heq h
  | case5 made s limit _ failure s' heq _ left ih => exact ih (kept.prepareRetry c (hattempt heq h))

theorem execute (kept : Link.IsKept P) (c : Client) (r : Request) {s : σ} (h : P s) : P (c.execute r s).2.2 := by
  by_cases refuses : c.Refuses (Link.framing s)
  · rw [Client.execute_of_refuses r refuses]
    exact h
  · cases hp : r.toPdu? with
    | none =>
        rw [Client.execute_of_oversized refuses hp]
        exact h
    | some pdu =>
        unfold Client.execute
        rw [Client.executeBy_eq _ refuses hp]
        exact kept.attempts _ c.config _ _ _ _ h

end Link.IsKept

end

theorem Recorded.isKept_told (framing : StreamFraming) (stream : Bytes) (closing : Nat)
    (before : List (Except Fault (Option Adu))) : Link.IsKept (Told framing stream closing before) where
  pause d _ h := h.pause d
  send adu limit _ h := h.send adu limit
  receive limit _ h := h.receive limit
  reconnect _ h := h.reconnect

/-! ## What a failed receive comes to -/

theorem ClientConfig.Yields.of_failed {c : ClientConfig} {framing : Framing} {request : Adu} {function : FunctionCode}
    {a : Attempt} {v : Verdict} (h : c.Yields framing request function a v) {f : Fault} (mem : .failed f ∈ a.reads) :
    a.reads.getLast? = some (.failed f) ∧ v = .error (.transport f) := by
  cases h with
  | unsent t => cases mem
  | refused t f => cases mem
  | awaited t skips ends =>
      rcases List.mem_append.mp mem with mem | mem
      · cases skips _ mem
      · obtain rfl := List.mem_singleton.mp mem
        cases ends
        exact ⟨List.getLast?_concat, rfl⟩

namespace Client

/-- A receive that fails fatally is the last thing that a client does that does not reconnect. -/
theorem Accounts.failed {c : Client} {framing : Framing} {r : Request} {request : Adu} {k : Course} {v : Verdict}
    {result : Except ClientError (Except ExceptionCode Response)} {acts : List Act}
    (h : c.Accounts framing r request k v result acts) (off : c.config.reconnect = false) {f : Fault}
    (mem : .received (.failed f) ∈ acts) (fatal : f.isFatal = true) :
    result = .error (.transport f) ∧ acts.getLast? = .some (.received (.failed f)) := by
  rw [h.acts_eq] at mem ⊢
  obtain ⟨a, ha, hf⟩ := Course.received_mem_acts.mp mem
  obtain ⟨front, hattempts⟩ := List.getLast?_eq_some_iff.mp k.getLast?_attempts
  rw [hattempts, List.mem_append, List.mem_singleton] at ha
  obtain ha | rfl := ha
  · have hfront : a ∈ k.attempts.dropLast := by
      rwa [hattempts, List.dropLast_concat]
    obtain ⟨failure, yields, goesOn⟩ := h.goesOn a hfront
    obtain ⟨-, hv⟩ := yields.of_failed hf
    exact absurd ⟨off, f, Except.error.inj hv, fatal⟩ goesOn
  · obtain ⟨hlast, rfl⟩ := h.last.of_failed hf
    refine ⟨(h.broken f).mpr ⟨rfl, fatal, off⟩, ?_⟩
    rw [Course.getLast?_acts, Attempt.acts, List.getLast?_cons, List.getLast?_map, hlast]
    rfl

theorem execute_of_failed {σ : Type} [Link σ] {c : Client} {r : Request} {pdu : Bytes} {s s' s'' : σ} {f : Fault}
    (ends : f.isFatal = true ∨ c.config.retries = 0) (off : c.config.reconnect = false)
    (refuses : ¬ c.Refuses (Link.framing s)) (hp : r.toPdu? = some pdu)
    (sent : Link.send (c.message pdu) (some (Link.now s + c.config.timeout)) s = (.done (), s'))
    (failed : Link.receive (some (Link.now s + c.config.timeout)) s' = (.failed f, s'')) :
    c.execute r s =
      (.error (if f.isFatal then .transport f else .transaction 1 (.transport f)), c.advance, s'') := by
  have hattempt : c.config.attempt (c.message pdu) r.function (Link.now s + c.config.timeout) s =
      (.error (.transport f), s'') := by
    rw [ClientConfig.attempt_of_sent sent]
    exact ClientConfig.awaitReply_of_concludes failed (.failed f)
  refine execute_of_attempts refuses hp (ClientConfig.attempts_of_comesTo rfl hattempt ?_)
  by_cases hf : f.isFatal = true
  · rw [if_pos hf]
    exact .broken hf off
  · have goesOn : ¬ c.config.GivesUpOn (.transport f) := by
      rintro ⟨_, _, ⟨⟩, fatal⟩
      exact hf fatal
    rw [if_neg hf, ends.resolve_left hf]
    exact .exhausted goesOn rfl

/-- A client that does not reconnect gives up as soon as it receives the end of the stream. -/
theorem execute_of_told {framing : StreamFraming} {stream : Bytes} {closing : Nat}
    {before : List (Except Fault (Option Adu))} {p : Endpoint} (told : p.Told framing stream closing before)
    (c : Client) (r : Request) (off : c.config.reconnect = false) :
    ∃ result next s' acts,
      c.execute r p = (result, next, s') ∧ c.execute r (Recorded.mk p []) = (result, next, ⟨s', acts⟩) ∧
      framing.Reports stream (before ++ acts.filterMap Act.result?) ∧
      ∀ f, .received (.failed f) ∈ acts →
        f.kind = .unexpectedEof ∧ f.isFatal = true ∧ result = .error (.transport f) ∧
            acts.getLast? = some (.received (.failed f)) ∨
          framing = .ascii ∧ f = .bytesRemaining := by
  obtain ⟨result, next, s', acts, he, hr, haccounts⟩ := c.execute_accounts r p
  have recorded : (Recorded.mk p []).Told framing stream closing before := by
    unfold Recorded.Told
    rw [List.filterMap_nil, List.append_nil]
    exact told
  have told' := (Recorded.isKept_told ..).execute c r recorded
  rw [hr] at told'
  have reports := Endpoint.Told.reports told'
  refine ⟨result, next, s', acts, he, hr, reports, fun f mem => ?_⟩
  have hmem : .error f ∈ acts.filterMap Act.result? := List.mem_filterMap.mpr ⟨_, mem, rfl⟩
  obtain ⟨kind, fatal⟩ | unfinished := reports.of_error (List.mem_append_right _ hmem)
  · obtain ⟨_, _, _, rfl⟩ | ⟨_, _, _, _, rfl⟩ | ⟨_, pdu, _, _, k, v, accounts⟩ := haccounts
    · cases mem
    · cases mem
    · obtain ⟨hresult, hlast⟩ := accounts.failed off mem fatal
      exact .inl ⟨kind, fatal, hresult, hlast⟩
  · exact .inr unfinished

/-- However an endpoint has been used before, it delivers what its stream gives and then fails, with the end of the
stream or, once, for an unfinished line of ASCII; on a serial line with bursts, what it gives are the bursts that are
over before the end. A client that does not reconnect gives up as soon as the end of the stream is received. -/
theorem execute_closed (framing : StreamFraming) (config : SerialConfig) (arrivals : List Chunk) (closing : Nat)
    (listening : Bool) :
    let start := Endpoint.fresh framing config { arrivals, closing := some closing, listening }
    (∀ uses : List Endpoint.Use,
      let before := (start.receipts uses).filterMap (·.outcome.result?)
      let p := uses.foldl Endpoint.use start
      (∃ rest fault q, p.Ends rest fault q ∧
        framing.Reports (bytesOf arrivals) (before ++ (rest.map .ok ++ [.error fault])) ∧
        (fault.kind = .unexpectedEof ∧ fault.isFatal = true ∨ framing = .ascii ∧ fault = .bytesRemaining)) ∧
      ∀ (c : Client) (r : Request), c.config.reconnect = false → ∃ result next s' acts,
        c.execute r p = (result, next, s') ∧ c.execute r (Recorded.mk p []) = (result, next, ⟨s', acts⟩) ∧
        framing.Reports (bytesOf arrivals) (before ++ acts.filterMap Act.result?) ∧
        ∀ f, .received (.failed f) ∈ acts →
          f.kind = .unexpectedEof ∧ f.isFatal = true ∧ result = .error (.transport f) ∧
              acts.getLast? = some (.received (.failed f)) ∨
            framing = .ascii ∧ f = .bytesRemaining) ∧
    (framing = .rtu → Filled arrivals → (arrivals.Pairwise fun c d => c.time ≤ d.time) →
      ∃ results q, start.Ends results .serialStreamClosed q ∧
        List.Forall₂ (fun burst result => ∀ adu, result = some adu ↔ Rtu.Carries (bytesOf burst) adu)
          ((config.timing.bursts Chunk.time arrivals).filter fun burst =>
            config.timing.Admits burst ∧ config.timing.Over Chunk.time closing arrivals burst) results) := by
  intro start
  refine ⟨fun uses => ?_, ?_⟩
  · have told := (Endpoint.told_fresh framing config arrivals closing listening).uses uses
    rw [List.nil_append] at told
    refine ⟨?_, execute_of_told told⟩
    obtain ⟨rest, fault, q, ends, told'⟩ := told.ends
    exact ⟨rest, fault, q, ends, told'.reports, told'.reports.of_error (by simp)⟩
  · rintro rfl filled sorted
    exact Endpoint.ends_bursts config { arrivals, closing := some closing, listening } filled sorted rfl

/-- Behind a message in two pieces a burst is broken off; who has received the message waits for the end. -/
theorem execute_closed_burst :
    let arrivals : List Chunk := [⟨1000, [1, 17]⟩, ⟨751000, [192, 44]⟩, ⟨5000000, [1, 17, 192, 44]⟩]
    let start := Endpoint.fresh .rtu { baud := 115200 } { arrivals, closing := some 5000001, listening := true }
    let p := start.use (.step (.receive none))
    let c : Client := { unit := 1 }
    Filled arrivals ∧ (arrivals.Pairwise fun c d => c.time ≤ d.time) ∧ c.config.reconnect = false ∧
      (∃ q, start.Ends [some ⟨⟨0, 1⟩, [17]⟩] .serialStreamClosed q) ∧
      (c.execute (.readHoldingRegisters 0 1) p).1 = .error (.transport .serialStreamClosed) := by
  intro arrivals start p c
  have filled : Filled arrivals := by simp [arrivals, Filled]
  have sorted : arrivals.Pairwise fun c d => c.time ≤ d.time := by decide
  have hbursts : ((SerialConfig.timing { baud := 115200 }).bursts Chunk.time arrivals).filter (fun burst =>
      (SerialConfig.timing { baud := 115200 }).Admits burst ∧
        (SerialConfig.timing { baud := 115200 }).Over Chunk.time 5000001 arrivals burst) =
      [[⟨1000, [1, 17]⟩, ⟨751000, [192, 44]⟩]] := by
    decide
  have good : Rtu.Carries [1, 17, 192, 44] ⟨⟨0, 1⟩, [17]⟩ := ⟨rfl, by decide, by decide, by decide +kernel⟩
  obtain ⟨hclients, hends⟩ := execute_closed .rtu { baud := 115200 } arrivals 5000001 true
  obtain ⟨results, q, ends, delivers⟩ := hends rfl filled sorted
  rw [hbursts] at delivers
  rcases delivers with _ | ⟨hfirst, _ | _⟩
  rw [(hfirst _).mpr good] at ends
  obtain ⟨result, next, s', acts, he, hr, -, hfailed⟩ :=
    (hclients [.step (.receive none)]).2 c (.readHoldingRegisters 0 1) rfl
  obtain ⟨p', q, received, sent, failed⟩ : ∃ p' q, start.receive none = (.done (some ⟨⟨0, 1⟩, [17]⟩), p') ∧
      Link.send (c.message [3, 0, 0, 0, 1]) (some (Link.now p' + c.config.timeout)) p' = (.done (), q) ∧
      (Link.receive (some (Link.now p' + c.config.timeout)) q).1 = .failed .serialStreamClosed := by
    let receiver : Receiver := .rtu ⟨{ timing := start.timing, lastActivity := some 751000 }, []⟩
    let line : Stream := { start.line with arrivals := [⟨5000000, [1, 17, 192, 44]⟩] }
    refine ⟨{ start with receiver, bus := start.bus.mark 2501000, line, clock := 2501000 },
      { start with receiver, bus := start.bus.mark 5264888,
                   line := { line with sent := [⟨4501000, [1, 3, 0, 0, 0, 1, 132, 10]⟩] }, clock := 4501000 },
      ?_, ?_, ?_⟩
    all_goals
      simp only [receiver, line, start, arrivals, c]
      cbv
  have hp' : [Endpoint.Use.step (.receive none)].foldl Endpoint.use start = p' := congrArg Prod.snd received
  rw [hp'] at he hr
  have refuses : ¬ c.Refuses (Link.framing (Recorded.mk p' [])) := fun h => absurd h.2 (by decide)
  have hexecute := execute_of_failed (r := .readHoldingRegisters 0 1) (.inl rfl) rfl refuses rfl
    (Recorded.send_of sent []) (Recorded.receive_of (Prod.ext failed rfl) _)
  have mem : .received (.failed .serialStreamClosed) ∈ acts := by
    rw [show acts = _ from congrArg (·.2.2.acts) (hr.symm.trans hexecute)]
    simp
  obtain ⟨-, -, rfl, -⟩ | ⟨himpossible, -⟩ := hfailed _ mem
  · refine ⟨filled, sorted, rfl, ⟨_, ends⟩, ?_⟩
    rw [show p = p' from hp', he]
  · cases himpossible

/-- An unfinished line of ASCII is not the end of the stream: the client loses its only attempt to it. -/
theorem execute_closed_unfinished :
    let p := Endpoint.fresh .ascii {} { arrivals := [⟨0, [58, 48, 49, 48, 51]⟩], closing := some 0, listening := true }
    let c : Client := { config := { retries := 0 }, unit := 1 }
    c.config.reconnect = false ∧ (p.receive none).1 = .failed .bytesRemaining ∧
      Fault.bytesRemaining.kind ≠ .unexpectedEof ∧ Fault.bytesRemaining.isFatal = false ∧
      (c.execute (.readHoldingRegisters 0 1) p).1 = .error (.transaction 1 (.transport .bytesRemaining)) := by
  intro p c
  have refuses : ¬ c.Refuses (Link.framing p) := fun h => absurd h.2 (by decide)
  let limit := Link.now p + c.config.timeout
  let q := (Link.send (c.message [3, 0, 0, 0, 1]) (some limit) p).2
  have sent : Link.send (c.message [3, 0, 0, 0, 1]) (some limit) p = (.done (), q) := rfl
  have failed : (Link.receive (some limit) q).1 = .failed .bytesRemaining := by
    show (Link.receive (some limit) { p with line := _, bus := _, clock := _ }).1 = _
    simp only [limit, p, c]
    cbv
  have hexecute := execute_of_failed (r := .readHoldingRegisters 0 1) (.inr rfl) rfl refuses rfl sent
    (Prod.ext failed rfl)
  refine ⟨rfl, ?_, by decide, rfl, ?_⟩
  · simp only [p]
    cbv
  · rw [hexecute]
    rfl

end Client

end Modbus
