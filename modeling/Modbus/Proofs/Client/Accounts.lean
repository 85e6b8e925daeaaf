import Modbus.Proofs.Client.Attempts

/-!
# Accounting for a transaction

What a transaction has sent and what it returns, in terms of its attempts, for every behaviour of the link. By a clock
that comes to its end the same attempts are made as by an endless one, up to the first whose limit lies behind.
-/

namespace Modbus

namespace ClientConfig

/-! ## What the attempts of a transaction have in common -/

section
variable {c : ClientConfig} {framing : Framing} {request : Adu} {function : FunctionCode} {k : Course} {v : Verdict}

theorem Takes.reconnects (h : c.Takes framing request function k v) :
    ∀ p ∈ k.again, p.1.isSome = c.reconnect := by
  induction h with
  | once _ => simp
  | again _ _ reconnects _ ih => exact List.forall_mem_cons.mpr ⟨reconnects, ih⟩

theorem Takes.goesOn (h : c.Takes framing request function k v) :
    ∀ a ∈ k.attempts.dropLast,
      ∃ failure, c.Yields framing request function a (.error failure) ∧ ¬ c.GivesUpOn failure := by
  induction h with
  | once _ => simp [Course.attempts]
  | @again a failure reconnection k _ h goesOn _ _ ih =>
      have hd : (Course.attempts ⟨a, (reconnection, k.first) :: k.again⟩).dropLast = a :: k.attempts.dropLast := by
        simp [Course.attempts]
      rw [hd]
      exact List.forall_mem_cons.mpr ⟨⟨failure, h, goesOn⟩, ih⟩

theorem Takes.last (h : c.Takes framing request function k v) : c.Yields framing request function k.last v := by
  induction h with
  | once h => exact h
  | @again a _ reconnection k _ _ _ _ _ ih =>
      have hl : k.last = Course.last ⟨a, (reconnection, k.first) :: k.again⟩ := by
        cases hk : k.again.getLast? <;> simp [Course.last, List.getLast?_cons, hk]
      rwa [← hl]

theorem judge_eq_ok_iff (validate : c.validate = true) {header : Header} {reply : Reply}
    {answer : Except ExceptionCode Response} :
    c.judge framing request function header reply = .ok answer ↔
      Header.Answers framing request.header header ∧ Reply.function reply = function ∧
        reply.mapError (·.exception) = answer := by
  by_cases hh : Header.Answers framing request.header header <;>
    by_cases hf : Reply.function reply = function <;> simp [judge, validate, hh, hf]

/-- An answer comes from the last frame of its attempt, which belongs to the request. -/
theorem Yields.of_ok (validate : c.validate = true) {a : Attempt} {answer : Except ExceptionCode Response}
    (h : c.Yields framing request function a (.ok answer)) :
    ∃ frame reply, a.reads.getLast? = some (.done (some frame)) ∧ Reply.decode frame.pdu = .ok reply ∧
      Header.Answers framing request.header frame.header ∧ Reply.function reply = function ∧
        reply.mapError (·.exception) = answer := by
  generalize hw : (Except.ok answer : Verdict) = w at h
  cases h with
  | unsent t => cases hw
  | refused t f => cases hw
  | awaited t skips ends =>
      cases ends with
      | timeout => cases hw
      | failed f => cases hw
      | @replied frame reply hd =>
          exact ⟨frame, reply, List.getLast?_concat, hd, (judge_eq_ok_iff validate).mp hw.symm⟩

end

end ClientConfig

theorem Course.getLast?_acts (delay : Nat) (request : Adu) (k : Course) :
    (k.acts delay request).getLast? = (k.last.acts request).getLast? := by
  have ha (acts : List Act) (a : Attempt) :
      (acts ++ a.acts request).getLast? = (a.acts request).getLast? := by
    rw [List.getLast?_append, Option.or_of_isSome]
    simp [Attempt.acts]
  obtain ⟨first, again⟩ := k
  rcases List.eq_nil_or_concat again with rfl | ⟨again, ⟨reconnection, a⟩, rfl⟩
  · simp [Course.acts, Course.last]
  · simp only [Course.acts, Course.last, List.flatMap_append, List.flatMap_singleton, List.getLast?_append,
      List.concat_eq_append, ← List.append_assoc, ← List.cons_append, ha]
    simp

/-! ## Accounting for a transaction -/

namespace Client

/-- A transaction that sent `request` in the attempts `k`, the last of which was worth `v`, and its result. -/
structure Accounts (c : Client) (framing : Framing) (r : Request) (request : Adu) (k : Course) (v : Verdict)
    (result : Except ClientError (Except ExceptionCode Response)) (acts : List Act) : Prop where
  acts_eq : acts = k.acts c.config.retryDelay request
  writes : acts.filterMap Act.message? = List.replicate k.attempts.length request
  some : 1 ≤ k.attempts.length
  most : k.attempts.length ≤ c.config.retries + 1
  reconnects : ∀ p ∈ k.again, p.1.isSome = c.config.reconnect
  goesOn : ∀ a ∈ k.attempts.dropLast, ∃ failure,
    c.config.Yields framing request r.function a (.error failure) ∧ ¬ c.config.GivesUpOn failure
  last : c.config.Yields framing request r.function k.last v
  answered : ∀ answer, result = .ok answer ↔ v = .ok answer
  exhausted : ∀ n failure, result = .error (.transaction n failure) ↔
    n = k.attempts.length ∧ n = c.config.retries + 1 ∧ v = .error failure ∧ ¬ c.config.GivesUpOn failure
  broken : ∀ f, result = .error (.transport f) ↔
    v = .error (.transport f) ∧ f.isFatal = true ∧ c.config.reconnect = false
  noProtocol : ∀ m, result ≠ .error (.protocol m)

theorem accounts_of_takes {c : Client} {framing : Framing} {r : Request} {request : Adu} {k : Course} {v : Verdict}
    {result : Except ClientError (Except ExceptionCode Response)}
    (takes : c.config.Takes framing request r.function k v) (most : k.attempts.length ≤ c.config.retries + 1)
    (comesTo : c.config.ComesTo k.attempts.length (c.config.retries + 1) v result) :
    c.Accounts framing r request k v result (k.acts c.config.retryDelay request) where
  acts_eq := rfl
  writes := k.message?_acts _ _
  some := Nat.le_add_left _ _
  most := most
  reconnects := takes.reconnects
  goesOn := takes.goesOn
  last := takes.last
  answered answer := by cases comesTo <;> simp [eq_comm]
  exhausted n failure := by
    cases comesTo with
    | answered a => simp
    | @broken f fatal off =>
        simp only [Except.error.injEq, reduceCtorEq, false_iff]
        rintro ⟨_, _, rfl, goesOn⟩
        exact goesOn ⟨off, f, rfl, fatal⟩
    | @exhausted failure' goesOn all =>
        simp only [Except.error.injEq, ClientError.transaction.injEq]
        constructor
        · rintro ⟨rfl, rfl⟩
          exact ⟨rfl, all, rfl, goesOn⟩
        · rintro ⟨rfl, _, rfl, _⟩
          exact ⟨rfl, rfl⟩
  broken f := by
    cases comesTo with
    | answered a => simp
    | @broken g fatal off =>
        simp only [Except.error.injEq, ClientError.transport.injEq, AttemptFailure.transport.injEq, off, and_true]
        constructor
        · rintro rfl
          exact ⟨rfl, fatal⟩
        · exact And.left
    | @exhausted failure goesOn all =>
        simp only [Except.error.injEq, reduceCtorEq, false_iff]
        rintro ⟨rfl, fatal, off⟩
        exact goesOn ⟨off, f, rfl, fatal⟩
  noProtocol m := by cases comesTo <;> simp

variable {σ : Type} [Link σ]

/-- The client may not wait for an answer: broadcasts of headless framings are not answered. -/
def Refuses (c : Client) (framing : Framing) : Prop := framing.isHeadless = true ∧ c.unit.isBroadcast = true

theorem executeBy_of_refuses {ε : Type} (clock : Clock ε) {c : Client} {s : σ} (r : Request)
    (h : c.Refuses (Link.framing s)) :
    c.executeBy clock r s = (.ok (.error (.transport .broadcastUnanswered)), c, s) := if_pos h

theorem executeBy_of_oversized {ε : Type} (clock : Clock ε) {c : Client} {r : Request} {s : σ}
    (h : ¬ c.Refuses (Link.framing s)) (hp : r.toPdu? = none) :
    c.executeBy clock r s = (.ok (.error (.transport .oversizedRequest)), c, s) := by
  have hm : c.message? c.unit r = none := by simp [message?, hp]
  exact (if_neg h).trans (by rw [hm])

def message (c : Client) (pdu : Bytes) : Adu := ⟨⟨c.nextTransaction, c.unit⟩, pdu⟩

theorem executeBy_eq {ε : Type} (clock : Clock ε) {c : Client} {r : Request} {pdu : Bytes} {s : σ}
    (h : ¬ c.Refuses (Link.framing s)) (hp : r.toPdu? = some pdu) :
    c.executeBy clock r s = ((c.config.attempts clock (c.message pdu) r.function c.config.retries 0 s).1, c.advance,
      (c.config.attempts clock (c.message pdu) r.function c.config.retries 0 s).2) := by
  have hm : c.message? c.unit r = some (c.message pdu, c.advance) := by simp [message?, hp, message]
  exact (if_neg h).trans (by rw [hm])

theorem execute_of_executeBy {c next : Client} {r : Request} {s s' : σ}
    {result : Except ClientError (Except ExceptionCode Response)}
    (h : c.executeBy .endless r s = (.ok result, next, s')) : c.execute r s = (result, next, s') := by
  unfold execute
  rw [h]
  rfl

theorem execute_of_refuses {c : Client} {s : σ} (r : Request) (h : c.Refuses (Link.framing s)) :
    c.execute r s = (.error (.transport .broadcastUnanswered), c, s) :=
  execute_of_executeBy (executeBy_of_refuses _ r h)

theorem execute_of_oversized {c : Client} {r : Request} {s : σ} (h : ¬ c.Refuses (Link.framing s))
    (hp : r.toPdu? = none) : c.execute r s = (.error (.transport .oversizedRequest), c, s) :=
  execute_of_executeBy (executeBy_of_oversized _ h hp)

theorem execute_of_attempts {c : Client} {r : Request} {pdu : Bytes} {s s' : σ}
    {result : Except ClientError (Except ExceptionCode Response)} (h : ¬ c.Refuses (Link.framing s))
    (hp : r.toPdu? = some pdu)
    (ha : c.config.attempts .endless (c.message pdu) r.function c.config.retries 0 s = (.ok result, s')) :
    c.execute r s = (result, c.advance, s') :=
  execute_of_executeBy (by rw [executeBy_eq _ h hp, ha])

/-- A client gets this result by the clock, recorded or not, and this is done for it. -/
def Executes {ε : Type} (clock : Clock ε) (r : Request) (c : Client) (s : σ) (acts : List Act)
    (result : Except ε (Except ClientError (Except ExceptionCode Response))) (next : Client) (s' : σ) : Prop :=
  c.executeBy clock r s = (result, next, s') ∧ c.executeBy clock r (Recorded.mk s []) = (result, next, ⟨s', acts⟩)

theorem executes_of_runs {ε : Type} {clock : Clock ε} {c : Client} {r : Request} {pdu : Bytes} {s s' : σ}
    {acts : List Act} {result : Except ε (Except ClientError (Except ExceptionCode Response))}
    (h : ¬ c.Refuses (Link.framing s)) (hp : r.toPdu? = some pdu)
    (runs : c.config.Runs clock (c.message pdu) r.function c.config.retries 0 s acts result s') :
    c.Executes clock r s acts result c.advance s' := by
  obtain ⟨plain, recorded⟩ := runs
  constructor
  · rw [executeBy_eq clock h hp, plain]
  · rw [executeBy_eq (s := Recorded.mk s []) clock h hp, recorded]
    rfl

/-- The attempts of a transaction by a clock that ends at `last`, if by an endless one it makes the attempts `k`: all of
them, or those in front of the first whose limit lies behind. -/
theorem executes_upTo {c : Client} {r : Request} {pdu : Bytes} {s : σ} (h : ¬ c.Refuses (Link.framing s))
    (hp : r.toPdu? = some pdu) :
    ∃ result s' k v, c.Executes .endless r s (k.acts c.config.retryDelay (c.message pdu)) (.ok result) c.advance s' ∧
      c.Accounts (Link.framing s) r (c.message pdu) k v result (k.acts c.config.retryDelay (c.message pdu)) ∧
      Link.framing s' = Link.framing s ∧ k.first.begun = Link.now s ∧
      ∀ last, (∀ a ∈ k.attempts, a.begun + c.config.timeout ≤ last) ∧
          c.Executes (.upTo last) r s (k.acts c.config.retryDelay (c.message pdu)) (.ok result) c.advance s' ∨
        ∃ early a late front s'', k.attempts = early ++ a :: late ∧
          (∀ b ∈ early, b.begun + c.config.timeout ≤ last) ∧ last < a.begun + c.config.timeout ∧
          k.Front c.config.retryDelay (c.message pdu) early.length front ∧ Link.now s'' = a.begun ∧
          c.Executes (.upTo last) r s front (.error .overrun) c.advance s'' := by
  obtain ⟨k, v, result, s', takes, most, comesTo, hs, begun, runs⟩ :=
    c.config.attempts_course (c.message pdu) r.function c.config.retries 0 s
  rw [Nat.zero_add, Nat.zero_add] at comesTo
  refine ⟨result, s', k, v, executes_of_runs h hp ((runs .endless).1 fun a _ => rfl),
    accounts_of_takes takes most comesTo, hs, begun, fun last => ?_⟩
  cases hfind : k.attempts.find? (fun a => last < a.begun + c.config.timeout) with
  | none =>
      have shown : ∀ a ∈ k.attempts, a.begun + c.config.timeout ≤ last := by
        simpa using List.find?_eq_none.mp hfind
      exact .inl ⟨shown, executes_of_runs h hp ((runs _).1 fun a ha => Clock.upTo_shows.mpr (shown a ha))⟩
  | some a =>
      obtain ⟨overrun, early, late, hk, shown⟩ := List.find?_eq_some_iff_append.mp hfind
      simp only [decide_eq_true_eq, Bool.not_eq_true', decide_eq_false_iff_not, Nat.not_lt] at overrun shown
      obtain ⟨front, s'', hfront, now, cut⟩ := (runs (.upTo last)).2 hk
        (fun b hb => Clock.upTo_shows.mpr (shown b hb)) (Clock.upTo_overrun overrun)
      exact .inr ⟨early, a, late, front, s'', hk, shown, overrun, hfront, now, executes_of_runs h hp cut⟩

theorem execute_recorded {c : Client} {r : Request} {pdu : Bytes} {s : σ} (h : ¬ c.Refuses (Link.framing s))
    (hp : r.toPdu? = some pdu) :
    ∃ result s' k v, c.execute r s = (result, c.advance, s') ∧
      c.execute r (Recorded.mk s []) = (result, c.advance, ⟨s', k.acts c.config.retryDelay (c.message pdu)⟩) ∧
      Link.framing s' = Link.framing s ∧
      c.Accounts (Link.framing s) r (c.message pdu) k v result (k.acts c.config.retryDelay (c.message pdu)) := by
  obtain ⟨result, s', k, v, ⟨plain, recorded⟩, accounts, hs, _, _⟩ := executes_upTo h hp
  exact ⟨result, s', k, v, execute_of_executeBy plain, execute_of_executeBy recorded, hs, accounts⟩

theorem execute_accounts (c : Client) (r : Request) (s : σ) :
    ∃ result next s' acts, c.execute r s = (result, next, s') ∧
      c.execute r (Recorded.mk s []) = (result, next, ⟨s', acts⟩) ∧
      (c.Refuses (Link.framing s) ∧ result = .error (.transport .broadcastUnanswered) ∧ next = c ∧ acts = [] ∨
        ¬ c.Refuses (Link.framing s) ∧ r.toPdu? = none ∧ result = .error (.transport .oversizedRequest) ∧
          next = c ∧ acts = [] ∨
        ¬ c.Refuses (Link.framing s) ∧ ∃ pdu, r.toPdu? = some pdu ∧ next = c.advance ∧
          ∃ k v, c.Accounts (Link.framing s) r (c.message pdu) k v result acts) := by
  by_cases hb : c.Refuses (Link.framing s)
  · exact ⟨_, c, s, [], execute_of_refuses r hb, execute_of_refuses (s := Recorded.mk s []) r hb,
      .inl ⟨hb, rfl, rfl, rfl⟩⟩
  · cases hp : r.toPdu? with
    | none =>
        exact ⟨_, c, s, [], execute_of_oversized hb hp, execute_of_oversized (s := Recorded.mk s []) hb hp,
          .inr (.inl ⟨hb, rfl, rfl, rfl, rfl⟩)⟩
    | some pdu =>
        obtain ⟨result, s', k, v, he, hr, _, ha⟩ := execute_recorded hb hp
        exact ⟨result, c.advance, s', _, he, hr, .inr (.inr ⟨hb, pdu, rfl, rfl, k, v, ha⟩)⟩

/-- Every transaction is refused before anything is sent and leaves the client as it was, or uses a transaction id and is
accounted for by the attempts that it made on its link. A clock that ends at `last` cuts it off, without a result, in front
of the message of the first attempt whose limit would lie behind; that may be the very first attempt. -/
theorem executeBy_accounts (c : Client) (r : Request) (s : σ) :
    ∃ result next s' acts, c.execute r s = (result, next, s') ∧
      c.execute r (Recorded.mk s []) = (result, next, ⟨s', acts⟩) ∧
      (c.Refuses (Link.framing s) ∧ result = .error (.transport .broadcastUnanswered) ∧ next = c ∧ acts = [] ∧
          (∀ last, c.Executes (.upTo last) r s acts (.ok result) next s') ∨
        ¬ c.Refuses (Link.framing s) ∧ r.toPdu? = none ∧ result = .error (.transport .oversizedRequest) ∧
          next = c ∧ acts = [] ∧ (∀ last, c.Executes (.upTo last) r s acts (.ok result) next s') ∨
        ¬ c.Refuses (Link.framing s) ∧ ∃ pdu, r.toPdu? = some pdu ∧ next = c.advance ∧
          ∃ k v, c.Accounts (Link.framing s) r (c.message pdu) k v result acts ∧ k.first.begun = Link.now s ∧
            ∀ last, (∀ a ∈ k.attempts, a.begun + c.config.timeout ≤ last) ∧
                c.Executes (.upTo last) r s acts (.ok result) next s' ∨
              ∃ early a late front s'', k.attempts = early ++ a :: late ∧
                (∀ b ∈ early, b.begun + c.config.timeout ≤ last) ∧ last < a.begun + c.config.timeout ∧
                k.Front c.config.retryDelay (c.message pdu) early.length front ∧ Link.now s'' = a.begun ∧
                c.Executes (.upTo last) r s front (.error .overrun) next s'') := by
  by_cases hb : c.Refuses (Link.framing s)
  · exact ⟨_, c, s, [], execute_of_refuses r hb, execute_of_refuses (s := Recorded.mk s []) r hb,
      .inl ⟨hb, rfl, rfl, rfl, fun last => ⟨executeBy_of_refuses _ r hb, executeBy_of_refuses _ r hb⟩⟩⟩
  · cases hp : r.toPdu? with
    | none =>
        exact ⟨_, c, s, [], execute_of_oversized hb hp, execute_of_oversized (s := Recorded.mk s []) hb hp,
          .inr (.inl ⟨hb, rfl, rfl, rfl, rfl,
            fun last => ⟨executeBy_of_oversized _ hb hp, executeBy_of_oversized _ hb hp⟩⟩)⟩
    | some pdu =>
        obtain ⟨result, s', k, v, ⟨plain, recorded⟩, accounts, _, begun, ends⟩ := executes_upTo hb hp
        exact ⟨result, c.advance, s', _, execute_of_executeBy plain, execute_of_executeBy recorded,
          .inr (.inr ⟨hb, pdu, rfl, rfl, k, v, accounts, begun, ends⟩)⟩

/-- A timeout of `2 ^ 64` seconds by a clock of `2 ^ 63`: a transaction id is used and nothing is sent, though the other
side would answer. -/
theorem executeBy_accounts_overrun :
    let c : Client := { config := { timeout := Duration.seconds 18446744073709551616 - 1 }, unit := 1 }
    let r : Request := .readHoldingRegisters 0 1
    let s : Script := { framing := .tcp, arrivals := [{ delivery := .answer [3, 2, 0, 7] }] }
    ¬ c.Refuses (Link.framing s) ∧ r.toPdu? = some [3, 0, 0, 0, 1] ∧
      (c.execute r s).1 = .ok (.ok (.readHoldingRegisters [7])) ∧ c.advance ≠ c ∧
      c.Executes (.upTo (Duration.seconds 9223372036854775808 - 1)) r s [] (.error .overrun) c.advance s := by
  intro c r s
  have accepted : ¬ c.Refuses (Link.framing s) := fun h => absurd h.1 (by decide)
  have hp : r.toPdu? = some [3, 0, 0, 0, 1] := rfl
  have overrun : Duration.seconds 9223372036854775808 - 1 < Link.now s + c.config.timeout := by decide
  have decodes : Reply.decode [3, 2, 0, 7] = .ok (.ok (.readHoldingRegisters [7])) := rfl
  obtain ⟨s', _, answered, _⟩ :=
    c.config.attempt_script (s := s) r.function (c.message [3, 0, 0, 0, 1]) rfl rfl rfl decodes
  refine ⟨accepted, hp, ?_, by decide, executes_of_runs accepted hp
    (ClientConfig.runs_of_overrun (Clock.upTo_overrun overrun) ..)⟩
  rw [execute_of_attempts accepted hp (ClientConfig.attempts_of_comesTo rfl answered (.answered _))]
  rfl

end Client

end Modbus
