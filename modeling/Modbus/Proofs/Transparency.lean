import Modbus.Proofs.Client.Session
import Modbus.Proofs.Image.Answers
import Modbus.Proofs.Link.Exchange

/-!
# A served image is transparent

A client of a process image gets what it would get from the image itself, whatever framing is between them and however
the stream cuts up what it carries: one message, one answer, and the image that carrying out the request leaves behind.
Only coils come in whole bytes.
-/

namespace Modbus

/-! ## What the server makes of a request -/

def Request.IsSendable (r : Request) : Prop := r.toPdu?.isSome = true ∧ r.IsRegular

theorem Request.IsSendable.fits {r : Request} (h : r.IsSendable) : r.size ≤ Pdu.maxSize := by
  have hp := h.1
  unfold toPdu? at hp
  split at hp
  · assumption
  · cases hp

theorem Request.IsSendable.toPdu?_eq {r : Request} (h : r.IsSendable) : r.toPdu? = some r.encode := if_pos h.fits

namespace ImageService

def service : Service ImageService := fun unit r s => s.call unit r

/-- What a server sends back for the image, and what that is read as. -/
theorem answer?_handle {s : ImageService} (reachable : s.Reachable) {r : Request} (regular : r.IsRegular)
    (hlt : r.function.toByte < 0x80) {framing : Framing} {header : Header}
    (awaited : ¬ (framing.isHeadless = true ∧ header.unit.isBroadcast = true)) :
    ∃ pdu decoded, Server.answer? framing header r.function.toByte ((s.handle r).1.map some) = some ⟨header, pdu⟩ ∧
      (1 ≤ pdu.length ∧ pdu.length ≤ Pdu.maxSize) ∧ Reply.decode pdu = .ok decoded ∧
      decoded.mapError (·.exception) = (s.handle r).1.map Response.padded ∧ Reply.function decoded = r.function := by
  obtain ⟨suits, fits⟩ := reachable.suits regular
  have canonical : r.function.IsCanonical := Request.isCanonical_of_isRegular regular
  cases h : (s.handle r).1 with
  | error e =>
      rw [h] at suits
      have hpdu : Server.replyPdu r.function.toByte (Server.refusal r.function.toByte e) =
          ExceptionResponse.encode ⟨r.function, e⟩ := by
        rw [Server.replyPdu, Server.toPdu?_refusal]
        rfl
      refine ⟨_, .error ⟨r.function, e⟩, if_neg awaited, Server.replyPdu_length _ _, ?_, rfl, rfl⟩
      rw [hpdu]
      exact Reply.decode_error canonical hlt suits
  | ok answer =>
      rw [h] at suits
      have hfits : Reply.size (.ok answer) ≤ Pdu.maxSize := fits answer h
      have hpdu : Server.replyPdu r.function.toByte (.ok answer) = answer.encode := by
        rw [Server.replyPdu, Reply.toPdu?, if_pos hfits]
        rfl
      refine ⟨_, .ok answer.padded, if_neg awaited, Server.replyPdu_length _ _, ?_, rfl,
        answer.function_padded.trans suits.1⟩
      rw [hpdu]
      exact Reply.decode_ok hfits suits.2

theorem react_call {s : ImageService} (reachable : s.Reachable) {r : Request} (sendable : r.IsSendable)
    {framing : Framing} {header : Header} (accepted : s.accepts header.unit = true)
    (awaited : ¬ (framing.isHeadless = true ∧ header.unit.isBroadcast = true)) :
    ∃ pdu decoded, Server.react service framing (some ⟨header, r.encode⟩) s =
        (some ⟨header, pdu⟩, (s.handle r).2) ∧ (1 ≤ pdu.length ∧ pdu.length ≤ Pdu.maxSize) ∧
      Reply.decode pdu = .ok decoded ∧ decoded.mapError (·.exception) = (s.handle r).1.map Response.padded ∧
      Reply.function decoded = r.function := by
  have hdecode : Request.decode (Adu.pdu ⟨header, r.encode⟩) = .ok r :=
    Request.decode_encode sendable.fits sendable.2
  obtain ⟨function, hf, hlt, hreact⟩ := Server.react_request hdecode
  cases hf
  obtain ⟨pdu, decoded, hanswer, size, hreads⟩ := answer?_handle reachable sendable.2 hlt awaited
  refine ⟨pdu, decoded, ?_, size, hreads⟩
  simp only [hreact, service, ImageService.call, accepted, if_true, hanswer]

end ImageService

/-! ## One transaction -/

theorem ClientConfig.judge_of_answers {c : ClientConfig} {framing : Framing} {request : Adu} {function : FunctionCode}
    {header : Header} {reply : Reply} (answers : Header.Answers framing request.header header)
    (hf : Reply.function reply = function) :
    c.judge framing request function header reply = .ok (reply.mapError (·.exception)) := by
  unfold judge
  rw [if_neg fun h => h.2 answers, if_neg fun h => h.2 hf]

theorem Client.perform_of_answer {σ : Type} [Link σ] {c : Client} {r : Request} {pdu : Bytes} {s s' : σ}
    {answer : Except ExceptionCode Response} (accepted : ¬ c.Refuses (Link.framing s)) (hp : r.toPdu? = some pdu)
    (h : c.config.attempt (c.message pdu) r.function (Link.now s + c.config.timeout) s = (.ok answer, s')) :
    ∃ acts, c.perform (.execute r) s = (⟨.execute r, some (.ok answer), acts⟩, c.advance, s') ∧
      acts.filterMap Act.message? = [c.message pdu] := by
  obtain ⟨a, _, _, hrecorded⟩ := c.config.attempt_recorded (c.message pdu) r.function (Link.now s + c.config.timeout) s
  rw [h] at hrecorded
  exact ⟨_, perform_of_attempt accepted hp (hrecorded []) (.answered answer), a.message?_acts _⟩

/-! ## A session -/

/-- The client's end of a fresh stream whose other end is served from an image. -/
def ImageService.behind (service : ImageService) (framing : StreamFraming) (near far : SerialConfig)
    (carriage : Carriage) : Coupled ImageService where
  service := ImageService.service
  near := .fresh framing near {}
  far := { endpoint := .fresh framing far {}, state := service }
  carriage := carriage

namespace Coupled

variable {framing : StreamFraming} {near far : SerialConfig} {delay : Nat} {client : Client}

/-- The link loses nothing, and the image behind it can be reached and takes requests for the client's unit. -/
structure ServesImage (framing : StreamFraming) (near far : SerialConfig) (delay : Nat) (client : Client)
    (c : Coupled ImageService) : Prop where
  ready : c.Ready framing near.timing far.timing
  service : c.service = ImageService.service
  lossless : c.carriage.Lossless framing near.timing far.timing delay
  timely : roundTrip framing near.timing far.timing delay ≤ client.config.timeout
  unicast : framing ≠ .tcp → client.unit ≠ 0
  reachable : c.far.state.Reachable
  addressed : c.far.state.unit = none ∨ c.far.state.unit = some client.unit

theorem ServesImage.not_broadcast {c : Coupled ImageService} (h : c.ServesImage framing near far delay client) :
    ¬ (framing.framing.isHeadless = true ∧ client.unit.isBroadcast = true) := by
  rintro ⟨headless, broadcast⟩
  refine h.unicast ?_ (of_decide_eq_true broadcast)
  rintro rfl
  cases headless

theorem ServesImage.accepts {c : Coupled ImageService} (h : c.ServesImage framing near far delay client) :
    c.far.state.accepts client.unit = true := by
  unfold ImageService.accepts
  rcases h.addressed with hu | hu <;> simp [hu]

theorem ServesImage.perform {c : Coupled ImageService} (h : c.ServesImage framing near far delay client) {r : Request}
    (sendable : r.IsSendable) :
    ∃ e c', client.perform (.execute r) c = (e, client.advance, c') ∧
      e.result = some (.ok ((c.far.state.handle r).1.map Response.padded)) ∧ e.messages.length = 1 ∧
      c'.ServesImage framing near far delay client.advance ∧ c'.far.state = (c.far.state.handle r).2 := by
  obtain ⟨request, hrequest⟩ : ∃ request, request = client.message r.encode := ⟨_, rfl⟩
  have hunit : (framing.deliver request).header.unit = client.unit := by
    rw [StreamFraming.unit_deliver, hrequest]
    rfl
  have hasked : framing.deliver request = ⟨(framing.deliver request).header, r.encode⟩ := by
    have hpdu : (framing.deliver request).pdu = r.encode := by
      rw [StreamFraming.pdu_deliver, hrequest]
      rfl
    rw [← hpdu]
  have hsize : request.IsSendable := by
    rw [hrequest]
    exact ⟨List.cons_ne_nil _ _, Nat.le_trans (Nat.le_of_eq r.length_encode) sendable.fits⟩
  obtain ⟨pdu, decoded, hreact, size, hdecode, hanswer, hfunction⟩ := ImageService.react_call h.reachable sendable
    (hunit.symm ▸ h.accepts) (hunit.symm ▸ h.not_broadcast)
  rw [← hasked, ← h.service] at hreact
  have hsize' : Adu.IsSendable ⟨(framing.deliver request).header, pdu⟩ :=
    ⟨List.ne_nil_of_length_pos size.1, size.2⟩
  obtain ⟨c', hattempt, ready, service, carriage, state⟩ := attempt_answers r.function h.ready
    near.short_timing far.short_timing h.lossless h.timely hsize hsize' hreact hdecode
  rw [ClientConfig.judge_of_answers (framing.answers_deliver request pdu) hfunction, hanswer, hrequest] at hattempt
  have haccepted : ¬ client.Refuses (Link.framing c) := by
    have hframing : Link.framing c = framing.framing := h.ready.near.framing_eq
    rw [Client.Refuses, hframing]
    exact h.not_broadcast
  obtain ⟨acts, hperform, hmessages⟩ := Client.perform_of_answer haccepted sendable.toPdu?_eq hattempt
  refine ⟨_, c', hperform, rfl, congrArg List.length hmessages, ?_, state⟩
  exact {
    ready
    service := service.trans h.service
    lossless := carriage ▸ h.lossless
    timely := h.timely
    unicast := h.unicast
    reachable := state ▸ h.reachable.handle r
    addressed := by
      rw [state, ImageService.unit_handle]
      exact h.addressed }

theorem ServesImage.session {c : Coupled ImageService} (h : c.ServesImage framing near far delay client)
    {requests : List Request} (sendable : ∀ r ∈ requests, r.IsSendable) :
    (client.session (requests.map .execute) c).1.map (·.result) =
        (c.far.state.handleAll requests).1.map (fun answer => some (.ok (answer.map Response.padded))) ∧
      (∀ e ∈ (client.session (requests.map .execute) c).1, e.messages.length = 1) ∧
      (client.session (requests.map .execute) c).2.2.far.state = (c.far.state.handleAll requests).2 := by
  induction requests generalizing client c with
  | nil => simp [Client.session, ImageService.handleAll]
  | cons r requests ih =>
      obtain ⟨hr, hrequests⟩ := List.forall_mem_cons.mp sendable
      obtain ⟨e, c', hperform, result, once, h', state⟩ := h.perform hr
      obtain ⟨results, all, final⟩ := ih h' hrequests
      have hsession : client.session ((r :: requests).map .execute) c =
          (e :: (client.advance.session (requests.map .execute) c').1,
            (client.advance.session (requests.map .execute) c').2) := by
        rw [List.map_cons, Client.session_cons, hperform]
      have hall : c.far.state.handleAll (r :: requests) =
          ((c.far.state.handle r).1 :: (c'.far.state.handleAll requests).1, (c'.far.state.handleAll requests).2) := by
        rw [state]
        rfl
      rw [hsession, hall]
      refine ⟨?_, List.forall_mem_cons.mpr ⟨once, all⟩, final⟩
      rw [List.map_cons, List.map_cons, result, results]

end Coupled

theorem Carriage.lossless_whole (framing : StreamFraming) (near far : Timing) (delay : Nat) :
    Carriage.Lossless framing near far delay {} := by
  have hwhole (timing : Timing) (chunk : Chunk) (some : chunk.bytes ≠ []) :
      chunk.Reaches framing timing delay [chunk] := by
    refine ⟨by simp, by simpa [Filled] using some, fun _ => trivial, ?_, ?_⟩ <;> simp
  exact ⟨fun _ => hwhole far, fun _ => hwhole near⟩

namespace Client

/-- Executing requests on a link to an image is carrying them out on the image, as long as the link loses nothing and
is quick enough for the timeout: every request takes one message, its answer is what carrying it out gives, and in the
end the image is what carrying out all of them makes of it. -/
theorem session_transparent (framing : StreamFraming) (near far : SerialConfig) (delay : Nat) (carriage : Carriage)
    (lossless : carriage.Lossless framing near.timing far.timing delay) (client : Client)
    (timely : Coupled.roundTrip framing near.timing far.timing delay ≤ client.config.timeout)
    (unicast : framing ≠ .tcp → client.unit ≠ 0) (service : ImageService) (reachable : service.Reachable)
    (addressed : service.unit = none ∨ service.unit = some client.unit) (requests : List Request)
    (encodable : ∀ r ∈ requests, r.toPdu?.isSome = true ∧ r.IsRegular) :
    let played := client.session (requests.map .execute) (service.behind framing near far carriage)
    played.1.map (·.result) =
        (service.handleAll requests).1.map (fun answer => some (.ok (answer.map Response.padded))) ∧
      (∀ e ∈ played.1, e.messages.length = 1) ∧ played.2.2.far.state = (service.handleAll requests).2 := by
  have idle (config : SerialConfig) := Endpoint.idle_fresh framing config
  have ready : (service.behind framing near far carriage).Ready framing near.timing far.timing :=
    ⟨idle near, idle far, rfl, Nat.le_refl 0, rfl, nofun⟩
  exact Coupled.ServesImage.session ⟨ready, rfl, lossless, timely, unicast, reachable, addressed⟩ encodable

/-- A coil of a device at the end of a serial line is read, switched off and read again. -/
theorem session_transparent_coil :
    let image : Image := { coils := ⟨Std.ExtTreeMap.insert ∅ 0 ⟨true, true⟩⟩ }
    let service : ImageService := { image := some image, unit := some 1 }
    let requests : List Request := [.readCoils 0 1, .writeSingleCoil 0 false, .readCoils 0 1]
    let on := [true, false, false, false, false, false, false, false]
    let played := session (requests.map .execute) { unit := 1 } (service.behind .rtu {} {} {})
    service.Reachable ∧ (∀ r ∈ requests, r.toPdu?.isSome = true ∧ r.IsRegular) ∧
      played.1.map (·.result) = [some (.ok (.ok (.readCoils on))), some (.ok (.ok (.writeSingleCoil 0 false))),
        some (.ok (.ok (.readCoils (List.replicate 8 false))))] ∧
      ∀ e ∈ played.1, e.messages.length = 1 := by
  intro image service requests on played
  have reachable : service.Reachable := by
    rintro _ ⟨⟩
    exact .coils .empty (@Bank.Edit.add _ _ 0 true true _ rfl)
  have encodable : ∀ r ∈ requests, r.toPdu?.isSome = true ∧ r.IsRegular := by
    simp [requests, Request.toPdu?, Request.size, Request.IsRegular, Pdu.maxSize]
  obtain ⟨results, once, _⟩ := session_transparent .rtu {} {} 0 {} (Carriage.lossless_whole ..) { unit := 1 }
    (by decide) (fun _ => by decide) service reachable (.inr rfl) requests encodable
  refine ⟨reachable, encodable, results.trans ?_, once⟩
  rfl

end Client

end Modbus
