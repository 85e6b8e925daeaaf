import Mathlib.Data.List.Forall2
import Modbus.Proofs.Link.Recorded
import Modbus.Proofs.Pdu.Sizes
import Modbus.Server.Basic

/-!
# The answers of a server

What a server does on its link and asks of its service. Every turn of its loop receives once; it calls the service
once if what was received is a request, and sends at most one message. `Serves` describes the turns of a run and
`run_recorded` says that every run is made of them.
-/

namespace Modbus

namespace Service

structure Call where
  unit : UnitId
  request : Request
  result : Except ExceptionCode (Option Response)

def recorded {τ : Type} (service : Service τ) : Service (τ × List Call) := fun unit r (t, calls) =>
  let (result, t) := service unit r t
  (result, t, calls ++ [⟨unit, r, result⟩])

end Service

namespace Server

/-- A frame that was a request, and what the service made of it. -/
structure Handled where
  frame : Adu
  request : Request
  result : Except ExceptionCode (Option Response)

namespace Handled

def call (x : Handled) : Service.Call := ⟨x.frame.header.unit, x.request, x.result⟩

/-- The service gave something to send, and somebody waits for it. -/
def IsAnswered (framing : Framing) (x : Handled) : Prop :=
  x.result ≠ .ok none ∧ ¬ (framing.isHeadless = true ∧ x.frame.header.unit.isBroadcast = true)

instance (framing : Framing) (x : Handled) : Decidable (x.IsAnswered framing) :=
  match hx : x.result with
  | .ok none => isFalse fun h => h.1 hx
  | .ok (some _) | .error _ =>
    if hb : framing.isHeadless = true ∧ x.frame.header.unit.isBroadcast = true then isFalse fun h => h.2 hb
    else isTrue ⟨by simp [hx], hb⟩

end Handled

inductive AnswersWith (function : UInt8) : Except ExceptionCode (Option Response) → Bytes → Prop
  | response {r : Response} (fits : r.Fits) : AnswersWith function (.ok (some r)) r.encode
  | tooLarge {r : Response} (fits : ¬ r.Fits) : AnswersWith function (.ok (some r)) [function + 0x80, 4]
  | exception (e : ExceptionCode) : AnswersWith function (.error e) [function + 0x80, e.toByte]

structure Answers (x : Handled) (message : Adu) : Prop where
  header : message.header = x.frame.header
  length : 1 ≤ message.pdu.length ∧ message.pdu.length ≤ Pdu.maxSize
  pdu : ∃ function, x.frame.functionByte? = some function ∧ function < 0x80 ∧
    AnswersWith function x.result message.pdu

/-- What a server makes of something that it has received: the message that it sends, and what it has served. -/
inductive Reacts (framing : Framing) : Option Adu → Option Adu → List Handled → Prop
  | discarded : Reacts framing none none []
  | undecodable {frame : Adu} {e : Pdu.Error} (h : Request.decode frame.pdu = .error e) :
      Reacts framing (some frame) none []
  | unanswered {x : Handled} (h : Request.decode x.frame.pdu = .ok x.request) (unanswered : ¬ x.IsAnswered framing) :
      Reacts framing (some x.frame) none [x]
  | answered {x : Handled} {message : Adu} (h : Request.decode x.frame.pdu = .ok x.request)
      (isAnswered : x.IsAnswered framing) (answers : Answers x message) :
      Reacts framing (some x.frame) (some message) [x]

/-- The turns of a run: what was done on the link, what was served, and whether the server will go on. -/
inductive Serves (framing : Framing) : List Act → List Handled → Status → Prop
  | waiting : Serves framing [.received .pending] [] .waiting
  | broken {f : Fault} (fatal : f.isFatal = true) : Serves framing [.received (.failed f)] [] .ended
  | faulty {f : Fault} {acts served status} (fatal : f.isFatal = false) (rest : Serves framing acts served status) :
      Serves framing (.received (.failed f) :: acts) served status
  | silent {frame : Option Adu} {now acts served status} (h : Reacts framing frame none now)
      (rest : Serves framing acts served status) :
      Serves framing (.received (.done frame) :: acts) (now ++ served) status
  | sent {frame : Option Adu} {message : Adu} {o : Outcome Unit} {now acts served status}
      (h : Reacts framing frame (some message) now) (goesOn : o.GoesOn) (rest : Serves framing acts served status) :
      Serves framing (.received (.done frame) :: .sent message o :: acts) (now ++ served) status
  | cutOff {frame : Option Adu} {message : Adu} {f : Fault} {now} (h : Reacts framing frame (some message) now)
      (fatal : f.isFatal = true) :
      Serves framing [.received (.done frame), .sent message (.failed f)] now .ended
  | stuck {frame : Option Adu} {message : Adu} {now} (h : Reacts framing frame (some message) now) :
      Serves framing [.received (.done frame), .sent message .pending] now .waiting

/-! ## One answer -/

theorem encode_refusal {function : UInt8} (e : ExceptionCode) :
    Reply.encode (refusal function e) = [function + 0x80, e.toByte] := by
  simp [Reply.encode, refusal, ExceptionResponse.encode, FunctionCode.toByte_ofByte]

theorem toPdu?_refusal {function : UInt8} (e : ExceptionCode) :
    Reply.toPdu? (refusal function e) = some [function + 0x80, e.toByte] := by
  rw [← encode_refusal, Reply.toPdu?, if_pos (by simp [refusal, Reply.size, Pdu.maxSize])]

theorem replyPdu_length (function : UInt8) (reply : Reply) :
    1 ≤ (replyPdu function reply).length ∧ (replyPdu function reply).length ≤ Pdu.maxSize := by
  unfold replyPdu Reply.toPdu?
  split
  · rename_i h
    rw [Option.getD_some, Reply.length_encode]
    exact ⟨reply.size_pos, h⟩
  · simp [encode_refusal, Pdu.maxSize]

theorem answersWith_replyPdu (function : UInt8) {r : Response} :
    AnswersWith function (.ok (some r)) (replyPdu function (.ok r)) := by
  unfold replyPdu Reply.toPdu?
  by_cases h : r.Fits
  · rw [if_pos (show Reply.size (.ok r) ≤ Pdu.maxSize from h)]
    exact .response h
  · rw [if_neg (show ¬ Reply.size (.ok r) ≤ Pdu.maxSize from h), Option.getD_none, encode_refusal]
    exact .tooLarge h

theorem answer?_spec {x : Handled} {function : UInt8} (framing : Framing)
    (hf : x.frame.functionByte? = some function) (hlt : function < 0x80) :
    (¬ x.IsAnswered framing ∧ answer? framing x.frame.header function x.result = none) ∨
      (x.IsAnswered framing ∧
        ∃ message, answer? framing x.frame.header function x.result = some message ∧ Answers x message) := by
  obtain ⟨frame, request, result⟩ := x
  simp only [Handled.IsAnswered] at hf ⊢
  rcases result with e | _ | r
  · by_cases hb : framing.isHeadless = true ∧ frame.header.unit.isBroadcast = true
    · exact .inl ⟨fun h => h.2 hb, if_pos hb⟩
    · refine .inr ⟨⟨nofun, hb⟩, _, if_neg hb, rfl, replyPdu_length function (refusal function e), function, hf, hlt, ?_⟩
      simp only [replyPdu, toPdu?_refusal, Option.getD_some]
      exact .exception e
  · exact .inl ⟨fun h => h.1 rfl, rfl⟩
  · by_cases hb : framing.isHeadless = true ∧ frame.header.unit.isBroadcast = true
    · exact .inl ⟨fun h => h.2 hb, if_pos hb⟩
    · exact .inr ⟨⟨nofun, hb⟩, _, if_neg hb, rfl, replyPdu_length function (.ok r), function, hf, hlt,
        answersWith_replyPdu function⟩

theorem request?_eq {frame : Adu} {r : Request} (h : Request.decode frame.pdu = .ok r) :
    ∃ function, frame.functionByte? = some function ∧ function < 0x80 ∧ request? frame = some (function, r) := by
  obtain ⟨function, payload, hp, hlt⟩ := Request.head_of_decode h
  have hf : frame.functionByte? = some function := by simp [Adu.functionByte?, hp]
  exact ⟨function, hf, hlt, by simp [request?, hf, h]⟩

/-! ## One turn -/

variable {σ τ : Type}

theorem react_undecodable (service : Service τ) (framing : Framing) {frame : Adu} {e : Pdu.Error}
    (h : Request.decode frame.pdu = .error e) (t : τ) : react service framing (some frame) t = (none, t) := by
  have hr : request? frame = none := by
    unfold request?
    simp only [h]
    split <;> simp_all
  simp only [react, hr]

theorem react_request {frame : Adu} {r : Request} (h : Request.decode frame.pdu = .ok r) :
    ∃ function, frame.functionByte? = some function ∧ function < 0x80 ∧
      ∀ {τ : Type} (service : Service τ) (framing : Framing) (t : τ), react service framing (some frame) t =
        (answer? framing frame.header function (service frame.header.unit r t).1, (service frame.header.unit r t).2) := by
  obtain ⟨function, hf, hlt, hr⟩ := request?_eq h
  exact ⟨function, hf, hlt, fun service framing t => by simp only [react, hr]⟩

theorem react_recorded (service : Service τ) (framing : Framing) (frame : Option Adu) (t : τ)
    (calls : List Service.Call) :
    ∃ now, Reacts framing frame (react service framing frame t).1 now ∧
      react service.recorded framing frame (t, calls) = ((react service framing frame t).1,
        (react service framing frame t).2, calls ++ now.map Handled.call) := by
  cases frame with
  | none => exact ⟨[], .discarded, by simp [react]⟩
  | some frame =>
      cases h : Request.decode frame.pdu with
      | error e =>
          rw [react_undecodable service framing h, react_undecodable service.recorded framing h]
          exact ⟨[], .undecodable h, by simp⟩
      | ok r =>
          obtain ⟨function, hf, hlt, hreact⟩ := react_request h
          obtain ⟨result, t', ht⟩ : ∃ result t', service frame.header.unit r t = (result, t') := ⟨_, _, rfl⟩
          simp only [hreact, Service.recorded, ht]
          refine ⟨[⟨frame, r, result⟩], ?_, rfl⟩
          rcases answer?_spec (x := ⟨frame, r, result⟩) framing hf hlt with ⟨hn, ha⟩ | ⟨hy, m, ha, hm⟩
          · rw [ha]
            exact .unanswered (x := ⟨frame, r, result⟩) h hn
          · rw [ha]
            exact .answered (x := ⟨frame, r, result⟩) h hy hm

/-! ## A whole run -/

theorem run_eq [QuietLink σ] (service : Service τ) (limit : Option Nat) (s : σ) (t : τ) :
    run service limit s t =
      match Link.receive limit s with
      | (.pending, s) => (.waiting, s, t)
      | (.failed f, s) => if f.isFatal then (.ended, s, t) else run service limit s t
      | (.done frame, s) =>
        match react service (Link.framing s) frame t with
        | (none, t) => run service limit s t
        | (some reply, t) =>
          match Link.send reply none s with
          | (.pending, s) => (.waiting, s, t)
          | (.failed f, s) => if f.isFatal then (.ended, s, t) else run service limit s t
          | (.done _, s) => run service limit s t := by
  rw [run]
  generalize Link.receive limit s = received
  rcases received with ⟨frame | f | _, s'⟩
  · dsimp only
    rcases react service (Link.framing s') frame t with ⟨_ | reply, t'⟩
    · rfl
    · dsimp only
      generalize Link.send reply none s' = sent
      rcases sent with ⟨_ | f | _, s''⟩ <;> rfl
  · rfl
  · rfl

theorem run_recorded [QuietLink σ] (service : Service τ) (limit : Option Nat) (s : σ) (t : τ) (acts : List Act)
    (calls : List Service.Call) :
    ∃ did served, Serves (Link.framing s) did served (run service limit s t).1 ∧
      run service.recorded limit (Recorded.mk s acts) (t, calls) = ((run service limit s t).1,
        ⟨(run service limit s t).2.1, acts ++ did⟩, (run service limit s t).2.2,
        calls ++ served.map Handled.call) := by
  fun_induction run service limit s t generalizing acts calls with
  | case1 s t s' h =>
      refine ⟨_, _, .waiting, ?_⟩
      rw [run_eq, Recorded.receive_eq]
      simp [h, Recorded.note]
  | case2 s t f s' h hf =>
      refine ⟨_, _, .broken hf, ?_⟩
      rw [run_eq, Recorded.receive_eq]
      simp [h, hf, Recorded.note]
  | case3 s t f s' h hf ih =>
      obtain ⟨did, served, serves, heq⟩ := ih (acts ++ [.received (.failed f)]) calls
      rw [Link.framing_of_receive h] at serves
      refine ⟨_, served, .faulty (by simpa using hf) serves, ?_⟩
      rw [run_eq, Recorded.receive_eq]
      simp only [h, hf, Recorded.note, heq]
      simp
  | case4 s t frame s' h t' hr ih =>
      obtain ⟨now, reacts, hrec⟩ := react_recorded service (Link.framing s') frame t calls
      obtain ⟨did, served, serves, heq⟩ := ih (acts ++ [.received (.done frame)]) (calls ++ now.map Handled.call)
      rw [hr] at reacts hrec
      rw [Link.framing_of_receive h] at reacts serves
      refine ⟨_, now ++ served, .silent reacts serves, ?_⟩
      rw [run_eq, Recorded.receive_eq]
      simp only [h, Recorded.note, Recorded.framing_eq, hrec, heq]
      simp
  | case5 s t frame s' h reply t' hr s'' hs =>
      obtain ⟨now, reacts, hrec⟩ := react_recorded service (Link.framing s') frame t calls
      rw [hr] at reacts hrec
      rw [Link.framing_of_receive h] at reacts
      refine ⟨_, now, .stuck reacts, ?_⟩
      rw [run_eq, Recorded.receive_eq]
      simp only [h, Recorded.note, Recorded.framing_eq, hrec, Recorded.send_eq, hs]
      simp
  | case6 s t frame s' h reply t' hr f s'' hs hf =>
      obtain ⟨now, reacts, hrec⟩ := react_recorded service (Link.framing s') frame t calls
      rw [hr] at reacts hrec
      rw [Link.framing_of_receive h] at reacts
      refine ⟨_, now, .cutOff reacts hf, ?_⟩
      rw [run_eq, Recorded.receive_eq]
      simp only [h, Recorded.note, Recorded.framing_eq, hrec, Recorded.send_eq, hs, hf, if_true]
      simp
  | case7 s t frame s' h reply t' hr f s'' hs hf ih =>
      obtain ⟨now, reacts, hrec⟩ := react_recorded service (Link.framing s') frame t calls
      obtain ⟨did, served, serves, heq⟩ := ih (acts ++ [.received (.done frame)] ++ [.sent reply (.failed f)])
        (calls ++ now.map Handled.call)
      rw [hr] at reacts hrec
      rw [Link.framing_of_send hs, Link.framing_of_receive h] at serves
      rw [Link.framing_of_receive h] at reacts
      refine ⟨_, now ++ served, .sent (o := .failed f) reacts (by simpa [Outcome.GoesOn] using hf) serves, ?_⟩
      rw [run_eq, Recorded.receive_eq]
      simp only [h, Recorded.note, Recorded.framing_eq, hrec, Recorded.send_eq, hs, hf, heq]
      simp
  | case8 s t frame s' h reply t' hr o s'' hs ih =>
      obtain ⟨now, reacts, hrec⟩ := react_recorded service (Link.framing s') frame t calls
      obtain ⟨did, served, serves, heq⟩ := ih (acts ++ [.received (.done frame)] ++ [.sent reply (.done o)])
        (calls ++ now.map Handled.call)
      rw [hr] at reacts hrec
      rw [Link.framing_of_send hs, Link.framing_of_receive h] at serves
      rw [Link.framing_of_receive h] at reacts
      refine ⟨_, now ++ served, .sent (o := .done o) reacts trivial serves, ?_⟩
      rw [run_eq, Recorded.receive_eq]
      simp only [h, Recorded.note, Recorded.framing_eq, hrec, Recorded.send_eq, hs, heq]
      simp

/-! ## What was served and what was sent -/

/-- The frames that are requests, with the requests. -/
def requests (frames : List Adu) : List (Adu × Request) :=
  frames.filterMap fun frame => (Request.decode frame.pdu).toOption.map (frame, ·)

/-- The server stops at this act, and then has this status. -/
inductive StopsAt : Act → Status → Prop
  | unheard : StopsAt (.received .pending) .waiting
  | unsent (message : Adu) : StopsAt (.sent message .pending) .waiting
  | brokenIn {f : Fault} (fatal : f.isFatal = true) : StopsAt (.received (.failed f)) .ended
  | brokenOut {f : Fault} (message : Adu) (fatal : f.isFatal = true) : StopsAt (.sent message (.failed f)) .ended

section
variable {framing : Framing} {frame reply : Option Adu} {now served : List Handled} {acts : List Act} {status : Status}

theorem Reacts.requests (h : Reacts framing frame reply now) :
    now.map (fun x => (x.frame, x.request)) = requests frame.toList := by
  cases h with
  | discarded => rfl
  | undecodable h => simp [Server.requests, h, Except.toOption]
  | unanswered h _ => simp [Server.requests, h, Except.toOption]
  | answered h _ _ => simp [Server.requests, h, Except.toOption]

theorem Reacts.message (h : Reacts framing frame reply now) :
    List.Forall₂ Answers (now.filter (·.IsAnswered framing)) reply.toList := by
  cases h with
  | discarded => exact .nil
  | undecodable _ => exact .nil
  | unanswered _ h => simp [h]
  | answered _ h answers => simpa [h] using answers

theorem frame?_received (frame : Option Adu) (acts : List Act) :
    (Act.received (.done frame) :: acts).filterMap Act.frame? = frame.toList ++ acts.filterMap Act.frame? := by
  cases frame <;> simp [List.filterMap_cons, Act.frame?]

theorem Serves.requests (h : Serves framing acts served status) :
    served.map (fun x => (x.frame, x.request)) = requests (acts.filterMap Act.frame?) := by
  have happ (xs ys : List Adu) : Server.requests (xs ++ ys) = Server.requests xs ++ Server.requests ys :=
    List.filterMap_append
  induction h with
  | waiting => rfl
  | broken _ => rfl
  | faulty _ _ ih => simpa [List.filterMap_cons, Act.frame?] using ih
  | silent h _ ih => rw [List.map_append, ih, h.requests, frame?_received, happ]
  | sent h _ _ ih =>
      rw [List.map_append, ih, h.requests, frame?_received, happ]
      simp [List.filterMap_cons, Act.frame?]
  | cutOff h _ =>
      rw [h.requests, frame?_received]
      simp [List.filterMap_cons, Act.frame?]
  | stuck h =>
      rw [h.requests, frame?_received]
      simp [List.filterMap_cons, Act.frame?]

theorem Serves.messages (h : Serves framing acts served status) :
    List.Forall₂ Answers (served.filter (·.IsAnswered framing)) (acts.filterMap Act.message?) := by
  induction h with
  | waiting => exact .nil
  | broken _ => exact .nil
  | faulty _ _ ih => simpa [List.filterMap_cons, Act.message?] using ih
  | silent h _ ih =>
      rw [List.filter_append]
      exact List.rel_append h.message ih
  | sent h _ _ ih =>
      rw [List.filter_append]
      exact List.rel_append h.message ih
  | cutOff h _ => exact h.message
  | stuck h => exact h.message

theorem Serves.stops (h : Serves framing acts served status) :
    ∃ before last, acts = before ++ [last] ∧ (∀ a ∈ before, ∀ status, ¬ StopsAt a status) ∧
      StopsAt last status := by
  induction h with
  | waiting => exact ⟨[], _, rfl, by simp, .unheard⟩
  | broken fatal => exact ⟨[], _, rfl, by simp, .brokenIn fatal⟩
  | faulty fatal _ ih =>
      obtain ⟨before, last, rfl, goesOn, stops⟩ := ih
      refine ⟨_ :: before, last, rfl, List.forall_mem_cons.mpr ⟨?_, goesOn⟩, stops⟩
      rintro _ ⟨⟩
      simp_all
  | silent _ _ ih =>
      obtain ⟨before, last, rfl, goesOn, stops⟩ := ih
      exact ⟨_ :: before, last, rfl, List.forall_mem_cons.mpr ⟨nofun, goesOn⟩, stops⟩
  | sent _ goesOnHere _ ih =>
      obtain ⟨before, last, rfl, goesOn, stops⟩ := ih
      refine ⟨_ :: _ :: before, last, rfl,
        List.forall_mem_cons.mpr ⟨nofun, List.forall_mem_cons.mpr ⟨?_, goesOn⟩⟩, stops⟩
      rintro _ ⟨⟩ <;> simp_all [Outcome.GoesOn]
  | cutOff _ fatal => exact ⟨[_], _, rfl, List.forall_mem_cons.mpr ⟨nofun, by simp⟩, .brokenOut _ fatal⟩
  | stuck _ => exact ⟨[_], _, rfl, List.forall_mem_cons.mpr ⟨nofun, by simp⟩, .unsent _⟩

end

/-- A server calls its service once for every frame that is a request, in order, and sends one answer for every call
that is to be answered, in order, and nothing else. It stops only where it can neither receive nor send. -/
theorem run_answers_once [QuietLink σ] (service : Service τ) (limit : Option Nat) (s : σ) (t : τ) :
    ∃ status s' t' acts, ∃ served : List Handled, run service limit s t = (status, s', t') ∧
      run service.recorded limit (Recorded.mk s []) (t, []) = (status, ⟨s', acts⟩, t', served.map Handled.call) ∧
      served.map (fun x => (x.frame, x.request)) = requests (acts.filterMap Act.frame?) ∧
      List.Forall₂ Answers (served.filter (·.IsAnswered (Link.framing s))) (acts.filterMap Act.message?) ∧
      ∃ before last, acts = before ++ [last] ∧ (∀ a ∈ before, ∀ status, ¬ StopsAt a status) ∧
        StopsAt last status := by
  obtain ⟨acts, served, serves, h⟩ := run_recorded service limit s t [] []
  exact ⟨_, _, _, acts, served, rfl, h, serves.requests, serves.messages, serves.stops⟩

end Server

end Modbus
