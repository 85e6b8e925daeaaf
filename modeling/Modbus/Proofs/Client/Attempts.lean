import Modbus.Client.Basic
import Modbus.Link.Script
import Modbus.Proofs.Link.Recorded

/-!
# The attempts of a transaction

What a client does on its link to carry out one request. A transaction is a first attempt and further attempts, each
of which follows a pause and, if the configuration says so, a reconnection. `attempts_step` takes one attempt off a
transaction, and the results of `Client.execute` are read off the last one. A clock that comes to its end cuts a
transaction off in front of the message of an attempt.
-/

namespace Modbus

/-- What an attempt did: when it began, how the message was sent, and how each receive ended. -/
structure Attempt where
  begun : Nat
  writing : Outcome Unit
  reads : List (Outcome (Option Adu)) := []

/-- A first attempt, and the attempts behind it with the reconnection before each. -/
structure Course where
  first : Attempt
  again : List (Option (Except Fault Unit) × Attempt) := []

namespace Attempt

def acts (request : Adu) (a : Attempt) : List Act := .sent request a.writing :: a.reads.map .received

/-- What was received does not end an attempt: a frame that was discarded, or a PDU that is no reply. -/
def Skips : Outcome (Option Adu) → Prop
  | .done none => True
  | .done (some adu) => ∃ e, Reply.decode adu.pdu = .error e
  | .failed _ | .pending => False

@[simp] theorem message?_acts (request : Adu) (a : Attempt) : (a.acts request).filterMap Act.message? = [request] := by
  simp [acts, Act.message?, List.filterMap_map, Function.comp_def]

end Attempt

namespace Course

def attempts (k : Course) : List Attempt := k.first :: k.again.map (·.2)

def last (k : Course) : Attempt := (k.again.getLast?.map (·.2)).getD k.first

def acts (delay : Nat) (request : Adu) (k : Course) : List Act :=
  k.first.acts request ++ k.again.flatMap fun (reconnection, a) =>
    .paused (Duration.pause delay) :: (reconnection.toList.map .reconnected ++ a.acts request)

def between (delay : Nat) (reconnection : Option (Except Fault Unit)) : List Act :=
  .paused (Duration.pause delay) :: reconnection.toList.map .reconnected

/-- What a course does up to the message of the attempt behind `n` others. -/
def Front (delay : Nat) (request : Adu) (k : Course) (n : Nat) (acts : List Act) : Prop :=
  acts.filterMap Act.message? = List.replicate n request ∧
    ∃ outcome rest, k.acts delay request = acts ++ .sent request outcome :: rest

section
variable (delay : Nat) (request : Adu) (a : Attempt) (reconnection : Option (Except Fault Unit)) (k : Course)

theorem acts_again : acts delay request ⟨a, (reconnection, k.first) :: k.again⟩ =
    a.acts request ++ (between delay reconnection ++ k.acts delay request) := by
  simp [acts, between]

theorem message?_between : (between delay reconnection).filterMap Act.message? = [] := by
  cases reconnection <;> simp [between, Act.message?]

theorem message?_acts :
    (k.acts delay request).filterMap Act.message? = List.replicate k.attempts.length request := by
  obtain ⟨first, again⟩ := k
  induction again generalizing first with
  | nil => simp [acts, attempts]
  | cons p again ih =>
      obtain ⟨reconnection, a⟩ := p
      rw [acts_again delay request first reconnection ⟨a, again⟩, List.filterMap_append, List.filterMap_append,
        message?_between, Attempt.message?_acts, ih]
      rfl

theorem front_nil : k.Front delay request 0 [] := ⟨rfl, k.first.writing, _, rfl⟩

variable {delay request k} in
theorem Front.again {n : Nat} {front : List Act} (h : k.Front delay request n front) :
    Front delay request ⟨a, (reconnection, k.first) :: k.again⟩ (n + 1)
      (a.acts request ++ (between delay reconnection ++ front)) := by
  obtain ⟨messages, outcome, rest, acts⟩ := h
  refine ⟨?_, outcome, rest, ?_⟩
  · rw [List.filterMap_append, List.filterMap_append, message?_between, Attempt.message?_acts, messages]
    rfl
  · simp only [acts_again, acts, List.append_assoc]

end

end Course

namespace Clock

abbrev Shows {ε : Type} (clock : Clock ε) (t : Nat) : Prop := clock t = .ok t

theorem upTo_shows {last t : Nat} : (upTo last).Shows t ↔ t ≤ last := by
  unfold Shows upTo
  split <;> simp [*]

theorem upTo_overrun {last t : Nat} (h : last < t) : upTo last t = .error .overrun := if_neg (Nat.not_le.mpr h)

end Clock

abbrev Verdict := Except AttemptFailure (Except ExceptionCode Response)

namespace ClientConfig

/-- What ends an attempt, and what the attempt is worth then. -/
inductive Concludes (c : ClientConfig) (framing : Framing) (request : Adu) (function : FunctionCode) :
    Outcome (Option Adu) → Verdict → Prop
  | timeout : Concludes c framing request function .pending (.error .timeout)
  | failed (f : Fault) : Concludes c framing request function (.failed f) (.error (.transport f))
  | replied {adu : Adu} {reply : Reply} (h : Reply.decode adu.pdu = .ok reply) :
      Concludes c framing request function (.done (some adu)) (c.judge framing request function adu.header reply)

inductive Yields (c : ClientConfig) (framing : Framing) (request : Adu) (function : FunctionCode) :
    Attempt → Verdict → Prop
  | unsent (t : Nat) : Yields c framing request function ⟨t, .pending, []⟩ (.error .timeout)
  | refused (t : Nat) (f : Fault) : Yields c framing request function ⟨t, .failed f, []⟩ (.error (.transport f))
  | awaited (t : Nat) {skipped : List (Outcome (Option Adu))} {last : Outcome (Option Adu)} {v : Verdict}
      (skips : ∀ o ∈ skipped, Attempt.Skips o) (ends : c.Concludes framing request function last v) :
      Yields c framing request function ⟨t, .done (), skipped ++ [last]⟩ v

/-- The failure leaves the link unusable, and the link is not going to be reconnected. -/
def GivesUpOn (c : ClientConfig) (failure : AttemptFailure) : Prop :=
  c.reconnect = false ∧ ∃ f : Fault, failure = .transport f ∧ f.isFatal = true

/-- The attempts of a transaction: all but the last failed and let the client go on, and the last is worth `v`. -/
inductive Takes (c : ClientConfig) (framing : Framing) (request : Adu) (function : FunctionCode) :
    Course → Verdict → Prop
  | once {a : Attempt} {v : Verdict} (h : c.Yields framing request function a v) :
      Takes c framing request function ⟨a, []⟩ v
  | again {a : Attempt} {failure : AttemptFailure} {reconnection : Option (Except Fault Unit)} {k : Course}
      {v : Verdict} (h : c.Yields framing request function a (.error failure)) (goesOn : ¬ c.GivesUpOn failure)
      (reconnects : reconnection.isSome = c.reconnect) (rest : c.Takes framing request function k v) :
      Takes c framing request function ⟨a, (reconnection, k.first) :: k.again⟩ v

/-- What a transaction of `n` attempts, out of `most`, comes to if the last one is worth this. -/
inductive ComesTo (c : ClientConfig) (n most : Nat) :
    Verdict → Except ClientError (Except ExceptionCode Response) → Prop
  | answered (a : Except ExceptionCode Response) : ComesTo c n most (.ok a) (.ok a)
  | broken {f : Fault} (fatal : f.isFatal = true) (off : c.reconnect = false) :
      ComesTo c n most (.error (.transport f)) (.error (.transport f))
  | exhausted {failure : AttemptFailure} (goesOn : ¬ c.GivesUpOn failure) (all : n = most) :
      ComesTo c n most (.error failure) (.error (.transaction n failure))

/-! ## A wait and an attempt -/

variable {σ : Type} [Link σ]

theorem awaitReply_eq (c : ClientConfig) (request : Adu) (function : FunctionCode) (limit : Nat) (s : σ) :
    c.awaitReply request function limit s =
      match Link.receive (some limit) s with
      | (.pending, s') => (.error .timeout, s')
      | (.failed f, s') => (.error (.transport f), s')
      | (.done none, s') => c.awaitReply request function limit s'
      | (.done (some adu), s') =>
        match Reply.decode adu.pdu with
        | .error _ => c.awaitReply request function limit s'
        | .ok reply => (c.judge (Link.framing s') request function adu.header reply, s') := by
  rw [awaitReply]
  generalize Link.receive (some limit) s = received
  rcases received with ⟨(_ | adu) | _ | _, s'⟩ <;> rfl

theorem awaitReply_of_skips {c : ClientConfig} {request : Adu} {function : FunctionCode} {limit : Nat} {s s' : σ}
    {o : Outcome (Option Adu)} (received : Link.receive (some limit) s = (o, s')) (skips : Attempt.Skips o) :
    c.awaitReply request function limit s = c.awaitReply request function limit s' := by
  rw [awaitReply_eq, received]
  match o, skips with
  | .done none, _ => rfl
  | .done (some adu), ⟨e, he⟩ => simp only [he]

theorem awaitReply_of_concludes {c : ClientConfig} {request : Adu} {function : FunctionCode} {limit : Nat} {s s' : σ}
    {o : Outcome (Option Adu)} {v : Verdict} (received : Link.receive (some limit) s = (o, s'))
    (ends : c.Concludes (Link.framing s') request function o v) :
    c.awaitReply request function limit s = (v, s') := by
  rw [awaitReply_eq, received]
  cases ends with
  | timeout | failed f => rfl
  | replied h => simp only [h]

theorem awaitReply_recorded (c : ClientConfig) (request : Adu) (function : FunctionCode) (limit : Nat) (s : σ) :
    ∃ skipped last, (∀ o ∈ skipped, Attempt.Skips o) ∧
      c.Concludes (Link.framing s) request function last (c.awaitReply request function limit s).1 ∧
      ∀ acts, c.awaitReply request function limit (Recorded.mk s acts) =
        ((c.awaitReply request function limit s).1,
          ⟨(c.awaitReply request function limit s).2, acts ++ (skipped ++ [last]).map .received⟩) := by
  fun_induction awaitReply c request function limit s with
  | case1 s s' h =>
      exact ⟨[], .pending, by simp, .timeout, fun acts =>
        awaitReply_of_concludes (Recorded.receive_of h acts) .timeout⟩
  | case2 s f s' h =>
      exact ⟨[], .failed f, by simp, .failed f, fun acts =>
        awaitReply_of_concludes (Recorded.receive_of h acts) (.failed f)⟩
  | case3 s s' h ih =>
      obtain ⟨skipped, last, skips, ends, heq⟩ := ih
      refine ⟨.done none :: skipped, last, List.forall_mem_cons.mpr ⟨trivial, skips⟩,
        Link.framing_of_receive h ▸ ends, fun acts => ?_⟩
      rw [awaitReply_of_skips (Recorded.receive_of h acts) trivial, heq]
      simp
  | case4 s adu s' h e he ih =>
      obtain ⟨skipped, last, skips, ends, heq⟩ := ih
      refine ⟨.done (some adu) :: skipped, last, List.forall_mem_cons.mpr ⟨⟨e, he⟩, skips⟩,
        Link.framing_of_receive h ▸ ends, fun acts => ?_⟩
      rw [awaitReply_of_skips (Recorded.receive_of h acts) ⟨e, he⟩, heq]
      simp
  | case5 s adu s' h reply hr =>
      exact ⟨[], .done (some adu), by simp, Link.framing_of_receive h ▸ .replied hr, fun acts =>
        awaitReply_of_concludes (Recorded.receive_of h acts) (.replied hr)⟩

theorem framing_awaitReply (c : ClientConfig) (request : Adu) (function : FunctionCode) (limit : Nat) (s : σ) :
    Link.framing (c.awaitReply request function limit s).2 = Link.framing s := by
  fun_induction awaitReply c request function limit s with
  | case1 s s' h | case2 s f s' h | case5 s adu s' h => exact Link.framing_of_receive h
  | case3 s s' h ih => exact ih.trans (Link.framing_of_receive h)
  | case4 s adu s' h e he ih => exact ih.trans (Link.framing_of_receive h)

theorem attempt_of_sent {c : ClientConfig} {request : Adu} {function : FunctionCode} {limit : Nat} {s s' : σ}
    (sent : Link.send request (some limit) s = (.done (), s')) :
    c.attempt request function limit s = c.awaitReply request function limit s' := by
  unfold attempt
  rw [sent]

theorem attempt_of_reply (c : ClientConfig) (function : FunctionCode) {request adu : Adu} {limit : Nat} {s s' s'' : σ}
    {reply : Reply} (sent : Link.send request (some limit) s = (.done (), s'))
    (received : Link.receive (some limit) s' = (.done (some adu), s'')) (decodes : Reply.decode adu.pdu = .ok reply) :
    c.attempt request function limit s = (c.judge (Link.framing s'') request function adu.header reply, s'') :=
  (attempt_of_sent sent).trans (awaitReply_of_concludes received (.replied decodes))

theorem framing_attempt (c : ClientConfig) (request : Adu) (function : FunctionCode) (limit : Nat) (s : σ) :
    Link.framing (c.attempt request function limit s).2 = Link.framing s := by
  have hs := Link.framing_send request (some limit) s
  unfold attempt
  split <;> rename_i h <;> simp only [h] at hs
  · exact hs
  · exact hs
  · exact (framing_awaitReply ..).trans hs

theorem framing_prepareRetry (c : ClientConfig) (s : σ) :
    Link.framing (c.prepareRetry s) = Link.framing s := by
  unfold prepareRetry Link.rest
  dsimp only
  split <;> simp

theorem attempt_recorded (c : ClientConfig) (request : Adu) (function : FunctionCode) (limit : Nat) (s : σ) :
    ∃ a, a.begun = Link.now s ∧ c.Yields (Link.framing s) request function a (c.attempt request function limit s).1 ∧
      ∀ acts, c.attempt request function limit (Recorded.mk s acts) =
        ((c.attempt request function limit s).1,
          ⟨(c.attempt request function limit s).2, acts ++ a.acts request⟩) := by
  have hs := Link.framing_send request (some limit) s
  unfold attempt
  simp only [Recorded.send_eq]
  obtain ⟨o, s', h⟩ : ∃ o s', Link.send request (some limit) s = (o, s') := ⟨_, _, rfl⟩
  simp only [h, Recorded.note] at hs ⊢
  cases o with
  | pending => exact ⟨⟨Link.now s, .pending, []⟩, rfl, .unsent _, fun acts => rfl⟩
  | failed f => exact ⟨⟨Link.now s, .failed f, []⟩, rfl, .refused _ f, fun acts => rfl⟩
  | done _ =>
      obtain ⟨skipped, last, skips, ends, heq⟩ := c.awaitReply_recorded request function limit s'
      refine ⟨⟨Link.now s, .done (), skipped ++ [last]⟩, rfl, .awaited _ skips (hs ▸ ends), fun acts => ?_⟩
      simp only [heq, Attempt.acts, List.append_assoc, List.singleton_append]

section
variable {s : Script} {delivery : Script.Delivery} {arrivals : List Script.Arrival}

/-- An attempt on a scripted link that sends at once and then delivers a reply. -/
theorem attempt_script (c : ClientConfig) (function : FunctionCode) (request : Adu) {adu : Adu} {reply : Reply}
    (sends : s.sends = []) (h : s.arrivals = { delivery } :: arrivals)
    (brings : delivery.outcome request.header = .done (some adu)) (decodes : Reply.decode adu.pdu = .ok reply) :
    ∃ s', s' = { s with arrivals, lastHeader := request.header, events := s.events ++ [.sent request s.clock] } ∧
      c.attempt request function (Link.now s + c.timeout) s =
        (c.judge s.framing request function adu.header reply, s') ∧
      ∀ acts, c.attempt request function (Link.now s + c.timeout) (Recorded.mk s acts) =
        (c.judge s.framing request function adu.header reply,
          ⟨s', acts ++ [.sent request (.done ())] ++ [.received (.done (some adu))]⟩) := by
  let t : Script := { s with lastHeader := request.header, events := s.events ++ [.sent request s.clock] }
  have within : Within s.clock (some (Link.now s + c.timeout)) := within_some.mpr (Nat.le_add_right ..)
  have loud : delivery ≠ .silent := by
    rintro rfl
    cases brings
  have sent : Link.send request (some (Link.now s + c.timeout)) s = (.done (), t) :=
    Script.send_at_once sends within request
  have received : Link.receive (some (Link.now s + c.timeout)) t = (.done (some adu), { t with arrivals }) := by
    rw [← brings]
    exact Script.receive_at_once h loud within
  exact ⟨_, rfl, c.attempt_of_reply function sent received decodes, fun acts =>
    c.attempt_of_reply function (Recorded.send_of sent acts) (Recorded.receive_of received _) decodes⟩

end

/-! ## A whole transaction -/

theorem prepareRetry_recorded (c : ClientConfig) (s : σ) :
    ∃ reconnection : Option (Except Fault Unit), reconnection.isSome = c.reconnect ∧
      ∀ acts, c.prepareRetry (Recorded.mk s acts) =
        ⟨c.prepareRetry s, acts ++ Course.between c.retryDelay reconnection⟩ := by
  unfold prepareRetry Link.rest Course.between
  simp only [Recorded.pause_eq]
  cases hr : c.reconnect with
  | false => exact ⟨none, rfl, by simp [Recorded.note]⟩
  | true => exact ⟨some _, rfl, fun acts => by simp [Recorded.note, Recorded.reconnect_eq]; rfl⟩

theorem fatal?_eq_some {failure : AttemptFailure} {f : Fault} :
    failure.fatal? = some f ↔ failure = .transport f ∧ f.isFatal = true := by
  cases failure with
  | timeout => simp [AttemptFailure.fatal?]
  | mismatch m => simp [AttemptFailure.fatal?]
  | transport g =>
      simp only [AttemptFailure.fatal?, Option.ite_none_right_eq_some, Option.some.injEq,
        AttemptFailure.transport.injEq]
      constructor
      · rintro ⟨hg, rfl⟩
        exact ⟨rfl, hg⟩
      · rintro ⟨rfl, hg⟩
        exact ⟨hg, rfl⟩

theorem givesUp_eq_none {c : ClientConfig} {failure : AttemptFailure} :
    (if c.reconnect then none else failure.fatal?) = none ↔ ¬ c.GivesUpOn failure := by
  unfold GivesUpOn
  cases hr : c.reconnect with
  | true => simp
  | false =>
      simp only [Bool.false_eq_true, if_false, true_and, not_exists]
      rw [Option.eq_none_iff_forall_ne_some]
      simp [fatal?_eq_some]

theorem attempts_of_overrun {ε : Type} {clock : Clock ε} {e : ε} {c : ClientConfig} {s : σ}
    (h : clock (Link.now s + c.timeout) = .error e) (request : Adu) (function : FunctionCode) (left made : Nat) :
    c.attempts clock request function left made s = (.error e, s) := by
  unfold attempts
  simp only [h]

section
variable {ε : Type} {clock : Clock ε} {c : ClientConfig} {request : Adu} {function : FunctionCode} {left made : Nat}
  {s s' : σ}

theorem attempts_of_comesTo {v : Verdict} {result : Except ClientError (Except ExceptionCode Response)}
    (shows : clock.Shows (Link.now s + c.timeout))
    (h : c.attempt request function (Link.now s + c.timeout) s = (v, s'))
    (comesTo : c.ComesTo (made + 1) (made + (left + 1)) v result) :
    c.attempts clock request function left made s = (.ok result, s') := by
  unfold attempts
  cases comesTo with
  | answered a => simp only [shows, h]
  | broken fatal off => simp [shows, h, off, fatal?_eq_some.mpr ⟨rfl, fatal⟩]
  | exhausted goesOn all =>
      obtain rfl : left = 0 := by omega
      simp only [shows, h, givesUp_eq_none.mpr goesOn]

theorem attempts_of_goesOn {failure : AttemptFailure} (shows : clock.Shows (Link.now s + c.timeout))
    (h : c.attempt request function (Link.now s + c.timeout) s = (.error failure, s'))
    (goesOn : ¬ c.GivesUpOn failure) :
    c.attempts clock request function (left + 1) made s =
      c.attempts clock request function left (made + 1) (c.prepareRetry s') := by
  rw [attempts]
  simp only [shows, h, givesUp_eq_none.mpr goesOn]

end

/-- The rest of a transaction has this result by the clock, recorded or not, and this is done in it. -/
def Runs {ε : Type} (clock : Clock ε) (c : ClientConfig) (request : Adu) (function : FunctionCode) (left made : Nat)
    (s : σ) (done : List Act) (result : Except ε (Except ClientError (Except ExceptionCode Response))) (s' : σ) :
    Prop :=
  c.attempts clock request function left made s = (result, s') ∧
    ∀ acts, c.attempts clock request function left made (Recorded.mk s acts) = (result, ⟨s', acts ++ done⟩)

theorem runs_of_overrun {ε : Type} {clock : Clock ε} {e : ε} {c : ClientConfig} {s : σ}
    (h : clock (Link.now s + c.timeout) = .error e) (request : Adu) (function : FunctionCode) (left made : Nat) :
    c.Runs clock request function left made s [] (.error e) s := by
  refine ⟨attempts_of_overrun h .., fun acts => ?_⟩
  rw [List.append_nil]
  exact attempts_of_overrun (s := Recorded.mk s acts) h ..

/-- One attempt of a transaction, by any clock that shows its limit: the transaction ends with it, or goes on behind it
on a link that has been got ready. -/
theorem attempts_step (c : ClientConfig) (request : Adu) (function : FunctionCode) (left made : Nat) (s : σ) :
    ∃ a v, a.begun = Link.now s ∧ c.Yields (Link.framing s) request function a v ∧
      ((∃ result s', c.ComesTo (made + 1) (made + (left + 1)) v result ∧ Link.framing s' = Link.framing s ∧
          ∀ {ε : Type} (clock : Clock ε), clock.Shows (Link.now s + c.timeout) →
            c.Runs clock request function left made s (a.acts request) (.ok result) s') ∨
        ∃ failure left' s', ∃ reconnection : Option (Except Fault Unit), v = .error failure ∧
          ¬ c.GivesUpOn failure ∧ left = left' + 1 ∧ Link.framing s' = Link.framing s ∧
          reconnection.isSome = c.reconnect ∧
          ∀ {ε : Type} (clock : Clock ε), clock.Shows (Link.now s + c.timeout) → ∀ {done result s''},
            c.Runs clock request function left' (made + 1) s' done result s'' →
            c.Runs clock request function left made s
              (a.acts request ++ (Course.between c.retryDelay reconnection ++ done)) result s'') := by
  obtain ⟨a, begun, yields, heq⟩ := c.attempt_recorded request function (Link.now s + c.timeout) s
  have hs := c.framing_attempt request function (Link.now s + c.timeout) s
  obtain ⟨v, s', h⟩ : ∃ v s', c.attempt request function (Link.now s + c.timeout) s = (v, s') := ⟨_, _, rfl⟩
  simp only [h] at yields heq hs
  refine ⟨a, v, begun, yields, ?_⟩
  have ends {result} (comesTo : c.ComesTo (made + 1) (made + (left + 1)) v result) :
      ∃ result s', c.ComesTo (made + 1) (made + (left + 1)) v result ∧ Link.framing s' = Link.framing s ∧
        ∀ {ε : Type} (clock : Clock ε), clock.Shows (Link.now s + c.timeout) →
          c.Runs clock request function left made s (a.acts request) (.ok result) s' :=
    ⟨result, s', comesTo, hs, fun clock shows => ⟨attempts_of_comesTo shows h comesTo, fun acts =>
      attempts_of_comesTo (s := Recorded.mk s acts) shows (heq acts) comesTo⟩⟩
  cases v with
  | ok answer => exact .inl (ends (.answered answer))
  | error failure =>
      by_cases gives : c.GivesUpOn failure
      · obtain ⟨off, f, rfl, fatal⟩ := gives
        exact .inl (ends (.broken fatal off))
      · cases left with
        | zero => exact .inl (ends (.exhausted gives rfl))
        | succ left =>
            obtain ⟨reconnection, reconnects, hp⟩ := c.prepareRetry_recorded s'
            refine .inr ⟨failure, left, c.prepareRetry s', reconnection, rfl, gives, rfl,
              (framing_prepareRetry c s').trans hs, reconnects, fun clock shows => ?_⟩
            rintro done result s'' ⟨plain, recorded⟩
            refine ⟨(attempts_of_goesOn shows h gives).trans plain, fun acts => ?_⟩
            rw [attempts_of_goesOn (s := Recorded.mk s acts) shows (heq acts) gives, hp, recorded]
            simp only [List.append_assoc]

/-- A transaction by any clock: the same attempts with the same result if it shows all their limits, and nothing any
more from the first limit on that it does not show. -/
theorem attempts_course (c : ClientConfig) (request : Adu) (function : FunctionCode) (left made : Nat) (s : σ) :
    ∃ k v result s', c.Takes (Link.framing s) request function k v ∧ k.attempts.length ≤ left + 1 ∧
      c.ComesTo (made + k.attempts.length) (made + (left + 1)) v result ∧ Link.framing s' = Link.framing s ∧
      k.first.begun = Link.now s ∧
      ∀ {ε : Type} (clock : Clock ε),
        ((∀ a ∈ k.attempts, clock.Shows (a.begun + c.timeout)) →
          c.Runs clock request function left made s (k.acts c.retryDelay request) (.ok result) s') ∧
        ∀ {early a late e}, k.attempts = early ++ a :: late → (∀ b ∈ early, clock.Shows (b.begun + c.timeout)) →
          clock (a.begun + c.timeout) = .error e →
          ∃ front s'', k.Front c.retryDelay request early.length front ∧ Link.now s'' = a.begun ∧
            c.Runs clock request function left made s front (.error e) s'' := by
  induction left using Nat.strongRecOn generalizing made s with
  | ind left ih =>
      obtain ⟨a, v, begun, yields, ⟨result, s', comesTo, hs, runs⟩ |
        ⟨failure, left, s', reconnection, rfl, goesOn, rfl, hs, reconnects, runs⟩⟩ :=
        c.attempts_step request function left made s
      · refine ⟨⟨a, []⟩, v, result, s', .once yields, Nat.le_add_left 1 left, comesTo, hs, begun, fun clock => ?_⟩
        constructor
        · intro shows
          simpa [Course.acts] using runs clock (begun ▸ shows a (by simp [Course.attempts]))
        · intro early b late e hk _ overrun
          obtain ⟨rfl, rfl, rfl⟩ : early = [] ∧ b = a ∧ late = [] := by
            simpa [Course.attempts, List.cons_eq_append_iff] using hk
          exact ⟨[], s, Course.front_nil .., begun.symm, runs_of_overrun (begun ▸ overrun) ..⟩
      · obtain ⟨k, v, result, s'', takes, most, comesTo, hs', hbegun, rest⟩ :=
          ih left (Nat.lt_succ_self left) (made + 1) s'
        have hn : made + 1 + k.attempts.length = made + (k.attempts.length + 1) := by omega
        have hm : made + 1 + (left + 1) = made + (left + 1 + 1) := by omega
        rw [hn, hm] at comesTo
        refine ⟨⟨a, (reconnection, k.first) :: k.again⟩, v, result, s'', .again yields goesOn reconnects (hs ▸ takes),
          Nat.succ_le_succ most, comesTo, hs'.trans hs, begun, fun clock => ⟨fun shows => ?_, ?_⟩⟩
        · obtain ⟨first, again⟩ := List.forall_mem_cons.mp shows
          rw [Course.acts_again]
          exact runs clock (begun ▸ first) ((rest clock).1 again)
        · intro early b late e hk shows overrun
          cases early with
          | nil =>
              obtain ⟨rfl, _⟩ := List.cons.inj hk
              exact ⟨[], s, Course.front_nil .., begun.symm, runs_of_overrun (begun ▸ overrun) ..⟩
          | cons a' early =>
              obtain rfl : a = a' := (List.cons.inj hk).1
              have hk' : k.attempts = early ++ b :: late := (List.cons.inj hk).2
              obtain ⟨first, again⟩ := List.forall_mem_cons.mp shows
              obtain ⟨front, s'', hfront, hnow, hruns⟩ := (rest clock).2 hk' again overrun
              exact ⟨_, s'', hfront.again a reconnection, hnow, runs clock (begun ▸ first) hruns⟩

end ClientConfig

end Modbus
