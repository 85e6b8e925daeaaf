import Modbus.Proofs.Client.Accounts

/-!
# Sessions of a client

A session is whatever a client does one after the other on one link: it executes requests, broadcasts, turns to
another device and waits. Every entry of a session records what was done on the link for it. Transaction ids count
the transactions of a session modulo the number of ids, and on framings that carry ids no answer comes from a message
that another transaction of the last round of ids sent.
-/

namespace Modbus

namespace Client

inductive Step
  | execute (r : Request)
  | broadcast (r : Request)
  | address (unit : UnitId)
  | pause (d : Nat)

def Step.request? : Step → Option Request
  | execute r | broadcast r => some r
  | address _ | pause _ => none

/-- A step with the result of the request that it executes, and what was done on the link for it. -/
structure Entry where
  step : Step
  result : Option (Except ClientError (Except ExceptionCode Response))
  acts : List Act

namespace Entry

def pdu? (e : Entry) : Option Bytes := e.step.request?.bind Request.toPdu?

def messages (e : Entry) : List Adu := e.acts.filterMap Act.message?

end Entry

/-- The entries whose request fits a PDU. -/
def transactions (es : List Entry) : List Entry := es.filter (·.pdu?.isSome)

section
variable {σ : Type} [Link σ]

def take (step : Step) (c : Client) (s : σ) :
    Option (Except ClientError (Except ExceptionCode Response)) × Client × σ :=
  match step with
  | .execute r =>
    let (result, c, s) := c.execute r s
    (some result, c, s)
  | .broadcast r => (none, (c.broadcast r s).2)
  | .address unit => (none, { c with unit }, s)
  | .pause d => (none, c, Link.pause d s)

def perform (step : Step) (c : Client) (s : σ) : Entry × Client × σ :=
  let (result, c, r) := c.take step (Recorded.mk s [])
  (⟨step, result, r.acts⟩, c, r.link)

def session : List Step → Client → σ → List Entry × Client × σ
  | [], c, s => ([], c, s)
  | step :: steps, c, s =>
    let (e, c, s) := c.perform step s
    let (es, c, s) := session steps c s
    (e :: es, c, s)

theorem session_cons (step : Step) (steps : List Step) (c : Client) (s : σ) :
    c.session (step :: steps) s =
      ((c.perform step s).1 :: ((c.perform step s).2.1.session steps (c.perform step s).2.2).1,
        ((c.perform step s).2.1.session steps (c.perform step s).2.2).2) := rfl

end

/-! ## Transaction ids -/

def ids (c : Client) : Nat := c.config.maxTransaction.toNat + 1

theorem toNat_advance {c : Client} {n : Nat} (h : c.nextTransaction.toNat = n % c.ids) :
    c.advance.nextTransaction.toNat = (n + 1) % c.ids := by
  have hlt : n % c.ids < c.ids := Nat.mod_lt _ (Nat.succ_pos _)
  have hmax := c.config.maxTransaction.toNat_lt
  rw [← Nat.mod_add_mod, ← h] at *
  simp only [advance, UInt16.le_iff_toNat_le]
  unfold ids at *
  split
  · rename_i hle
    have hlast : c.nextTransaction.toNat = c.config.maxTransaction.toNat := by omega
    rw [hlast, Nat.mod_self]
    rfl
  · rename_i hle
    rw [Nat.mod_eq_of_lt (by omega), UInt16.toNat_add, UInt16.toNat_one, Nat.mod_eq_of_lt (by omega)]

/-- An entry that sent messages of the given transaction id only, and whose answer, if there is one, came last and
with the header of a message of its own. -/
structure Entry.Keeps (e : Entry) (id : UInt16) : Prop where
  sends : e.messages ≠ []
  ids : ∀ m ∈ e.messages, m.header.transaction = id
  answered : ∀ answer, e.result = some (.ok answer) → ∃ frame reply, ∃ m ∈ e.messages,
    e.acts.getLast? = some (.received (.done (some frame))) ∧ Reply.decode frame.pdu = .ok reply ∧
      answer = reply.mapError (·.exception) ∧ frame.header = m.header

section
variable {σ : Type} [Link σ]

theorem keeps_of_accounts {c : Client} {framing : Framing} {r : Request} {pdu : Bytes} {k : Course} {v : Verdict}
    {result : Except ClientError (Except ExceptionCode Response)} {acts : List Act}
    (validate : c.config.validate = true) (headered : framing.isHeadless = false)
    (h : c.Accounts framing r (c.message pdu) k v result acts) :
    Entry.Keeps ⟨.execute r, some result, acts⟩ c.nextTransaction := by
  obtain ⟨n, hn⟩ : ∃ n, k.attempts.length = n + 1 := ⟨k.attempts.length - 1, by have := h.some; omega⟩
  have hm : Entry.messages ⟨.execute r, some result, acts⟩ = List.replicate (n + 1) (c.message pdu) :=
    h.writes.trans (by rw [hn])
  refine ⟨by simp [hm, List.replicate_succ], ?_, ?_⟩
  · intro m hmem
    rw [hm] at hmem
    rw [List.eq_of_mem_replicate hmem]
    rfl
  · intro answer hr
    have hl := h.last
    rw [(h.answered answer).mp (Option.some.inj hr)] at hl
    obtain ⟨frame, reply, ends, hd, answers, _, rfl⟩ := hl.of_ok validate
    have hacts : acts.getLast? = (k.last.acts (c.message pdu)).getLast? := by
      rw [h.acts_eq, Course.getLast?_acts]
    rw [Attempt.acts, List.getLast?_cons, List.getLast?_map, ends] at hacts
    simp only [Header.Answers, headered, Bool.false_eq_true, if_false] at answers
    exact ⟨frame, reply, c.message pdu, by simp [hm], hacts, hd, rfl, answers.symm⟩

theorem broadcast_recorded {c : Client} {r : Request} {pdu : Bytes} (s : σ) (hp : r.toPdu? = some pdu) :
    ∃ o, c.broadcast r (Recorded.mk s []) = ((c.broadcast r s).1, c.advance,
      ⟨(c.broadcast r s).2.2, [.sent ⟨⟨c.nextTransaction, UnitId.broadcast⟩, pdu⟩ o]⟩) := by
  have hm : c.message? UnitId.broadcast r = some (⟨⟨c.nextTransaction, UnitId.broadcast⟩, pdu⟩, c.advance) := by
    simp [message?, hp]
  unfold broadcast
  simp only [hm, Recorded.send_eq]
  obtain ⟨o, s', h⟩ : ∃ o s', Link.send ⟨⟨c.nextTransaction, UnitId.broadcast⟩, pdu⟩ none s = (o, s') := ⟨_, _, rfl⟩
  refine ⟨o, ?_⟩
  cases o <;> simp only [h, Recorded.note] <;> rfl

theorem framing_broadcast (c : Client) (r : Request) (s : σ) :
    Link.framing (c.broadcast r s).2.2 = Link.framing s := by
  unfold broadcast
  cases hm : c.message? UnitId.broadcast r with
  | none => rfl
  | some m =>
      dsimp only
      split <;> rename_i h <;> exact Link.framing_of_send h

theorem perform_of_attempt {c : Client} {r : Request} {pdu : Bytes} {s s' : σ} {acts : List Act} {v : Verdict}
    {result : Except ClientError (Except ExceptionCode Response)} (accepted : ¬ c.Refuses (Link.framing s))
    (hp : r.toPdu? = some pdu)
    (h : c.config.attempt (c.message pdu) r.function (Link.now s + c.config.timeout) (Recorded.mk s []) = (v, ⟨s', acts⟩))
    (comesTo : c.config.ComesTo 1 (c.config.retries + 1) v result) :
    c.perform (.execute r) s = (⟨.execute r, some result, acts⟩, c.advance, s') := by
  rw [← Nat.zero_add 1, ← Nat.zero_add (c.config.retries + 1)] at comesTo
  have hattempts : c.config.attempts .endless (c.message pdu) r.function c.config.retries 0 (Recorded.mk s []) =
      (.ok result, ⟨s', acts⟩) := ClientConfig.attempts_of_comesTo rfl h comesTo
  simp only [perform, take, execute_of_attempts (s := Recorded.mk s []) accepted hp hattempts]

theorem perform_keeps (step : Step) {c : Client} {s : σ} (validate : c.config.validate = true)
    (headered : (Link.framing s).isHeadless = false) :
    ∃ e next s', c.perform step s = (e, next, s') ∧ next.config = c.config ∧ Link.framing s' = Link.framing s ∧
      (e.pdu? = none ∧ next.nextTransaction = c.nextTransaction ∨
        e.pdu?.isSome = true ∧ next.nextTransaction = c.advance.nextTransaction ∧ e.Keeps c.nextTransaction) := by
  have hb : ¬ c.Refuses (Link.framing s) := by simp [Refuses, headered]
  cases step with
  | execute r =>
      cases hp : r.toPdu? with
      | none =>
          have h : c.perform (.execute r) s = (⟨.execute r, some (.error (.transport .oversizedRequest)), []⟩, c, s) := by
            simp only [perform, take, execute_of_oversized (s := Recorded.mk s []) hb hp]
          exact ⟨_, c, s, h, rfl, rfl, .inl ⟨hp, rfl⟩⟩
      | some pdu =>
          obtain ⟨result, s', k, v, _, hr, hf, ha⟩ := execute_recorded hb hp
          have h : c.perform (.execute r) s =
              (⟨.execute r, some result, k.acts c.config.retryDelay (c.message pdu)⟩, c.advance, s') := by
            simp only [perform, take, hr]
          exact ⟨_, c.advance, _, h, rfl, hf,
            .inr ⟨Option.isSome_of_eq_some hp, rfl, keeps_of_accounts validate headered ha⟩⟩
  | broadcast r =>
      cases hp : r.toPdu? with
      | none =>
          have h : c.perform (.broadcast r) s = (⟨.broadcast r, none, []⟩, c, s) := by
            simp only [perform, take, broadcast, message?, hp, Option.map_none]
          exact ⟨_, c, s, h, rfl, rfl, .inl ⟨hp, rfl⟩⟩
      | some pdu =>
          obtain ⟨o, ho⟩ := broadcast_recorded (c := c) s hp
          have h : c.perform (.broadcast r) s =
              (⟨.broadcast r, none, [.sent ⟨⟨c.nextTransaction, UnitId.broadcast⟩, pdu⟩ o]⟩, c.advance,
                (c.broadcast r s).2.2) := by
            simp only [perform, take, ho]
          have keeps : Entry.Keeps ⟨.broadcast r, none, [.sent ⟨⟨c.nextTransaction, UnitId.broadcast⟩, pdu⟩ o]⟩
              c.nextTransaction := by
            refine ⟨by simp [Entry.messages, Act.message?], by simp [Entry.messages, Act.message?], ?_⟩
            intro answer hanswer
            cases hanswer
          exact ⟨_, c.advance, _, h, rfl, framing_broadcast c r s,
            .inr ⟨Option.isSome_of_eq_some hp, rfl, keeps⟩⟩
  | address unit => exact ⟨_, _, s, rfl, rfl, rfl, .inl ⟨rfl, rfl⟩⟩
  | pause d => exact ⟨_, c, _, rfl, rfl, Link.framing_pause d s, .inl ⟨rfl, rfl⟩⟩

theorem session_keeps (steps : List Step) {c : Client} {s : σ} {n : Nat} (validate : c.config.validate = true)
    (headered : (Link.framing s).isHeadless = false) (next : c.nextTransaction.toNat = n % c.ids) :
    ∀ i e, (transactions (c.session steps s).1)[i]? = some e →
      ∃ id : UInt16, id.toNat = (n + i) % c.ids ∧ e.Keeps id := by
  induction steps generalizing c s n with
  | nil => simp [session, transactions]
  | cons step steps ih =>
      obtain ⟨e, c', s', hp, hc, hf, h⟩ := perform_keeps step validate headered
      have hids : c'.ids = c.ids := by unfold ids; rw [hc]
      rw [session_cons, hp]
      rw [← hc] at validate
      rw [← hf] at headered
      rw [← hids] at next ⊢
      rcases h with ⟨hn, hnext⟩ | ⟨hn, hnext, keeps⟩
      · have ht : transactions (e :: (c'.session steps s').1) = transactions (c'.session steps s').1 := by
          simp [transactions, hn]
        rw [ht]
        exact ih validate headered (hnext ▸ next)
      · have ht : transactions (e :: (c'.session steps s').1) = e :: transactions (c'.session steps s').1 := by
          simp [transactions, hn]
        rw [ht]
        intro i e' hi
        cases i with
        | zero => exact ⟨c.nextTransaction, next, Option.some.inj hi ▸ keeps⟩
        | succ i =>
            have hadv : c'.nextTransaction.toNat = (n + 1) % c'.ids := by
              rw [hnext, hids]
              exact toNat_advance (hids ▸ next)
            obtain ⟨id, hid, keeps'⟩ := ih validate headered hadv i e' hi
            exact ⟨id, by rw [hid]; congr 1; omega, keeps'⟩

end

/-! ## Answers and the messages that they answer -/

/-- Every frame that is received has the header of a message that has been sent before: in the transaction that
`origin` tells, given the transaction and the place in it where the frame is received. -/
def Echoes (origin : Nat → Nat → Nat) (runs : List (List Act)) : Prop :=
  ∀ n acts i frame, runs[n]? = some acts → acts[i]? = some (.received (.done (some frame))) →
    ∃ sender k message outcome, runs[origin n i]? = some sender ∧ sender[k]? = some (.sent message outcome) ∧
      (origin n i < n ∨ origin n i = n ∧ k < i) ∧ frame.header = message.header

/-- The transactions of a new client use their ids in turn. If all that it receives copies the header of something
that it has sent, however late, often or out of order, then no answer to a transaction comes from a message of an
earlier one with another id. -/
theorem session_not_stale {σ : Type} [Link σ] (config : ClientConfig) (unit : UnitId) (steps : List Step) (s : σ)
    (validate : config.validate = true) (headered : (Link.framing s).isHeadless = false) :
    let c : Client := { config, unit }
    let ts := transactions (c.session steps s).1
    (∀ n e, ts[n]? = some e → e.messages ≠ [] ∧ ∀ m ∈ e.messages, m.header.transaction.toNat = n % c.ids) ∧
      ∀ origin, Echoes origin (ts.map (·.acts)) → ∀ n e answer, ts[n]? = some e → e.result = some (.ok answer) →
        ∃ i frame reply, i + 1 = e.acts.length ∧ e.acts[i]? = some (.received (.done (some frame))) ∧
          Reply.decode frame.pdu = .ok reply ∧ answer = reply.mapError (·.exception) ∧
          (∃ j, n = origin n i + j * c.ids) ∧
          ∀ m < n, n ≤ m + config.maxTransaction.toNat → origin n i ≠ m := by
  intro c ts
  have keeps : ∀ n e, ts[n]? = some e → ∃ id : UInt16, id.toNat = n % c.ids ∧ e.Keeps id := by
    intro n e hn
    have h := session_keeps (c := c) (n := 0) steps validate headered (by simp [c]) n e hn
    rwa [Nat.zero_add] at h
  refine ⟨?_, ?_⟩
  · intro n e hn
    obtain ⟨id, hid, k⟩ := keeps n e hn
    exact ⟨k.sends, fun m hm => by rw [k.ids m hm, hid]⟩
  · intro origin echoes n e answer hn hr
    obtain ⟨id, hid, k⟩ := keeps n e hn
    obtain ⟨frame, reply, m, hm, hl, hd, ha, hh⟩ := k.answered answer hr
    rw [List.getLast?_eq_getElem?] at hl
    obtain ⟨acts, l, message, outcome, hacts, hl', before, he⟩ :=
      echoes n e.acts _ frame (by simp [hn]) hl
    obtain ⟨sender, hs, rfl⟩ : ∃ sender, ts[origin n (e.acts.length - 1)]? = some sender ∧ sender.acts = acts := by
      simpa using hacts
    obtain ⟨id', hid', k'⟩ := keeps _ sender hs
    have hmem : message ∈ sender.messages :=
      List.mem_filterMap.mpr ⟨_, List.mem_of_getElem? hl', rfl⟩
    have hmod : n % c.ids = origin n (e.acts.length - 1) % c.ids := by
      rw [← hid, ← hid', ← k.ids m hm, ← k'.ids message hmem, ← hh, he]
    have hle : origin n (e.acts.length - 1) ≤ n := by rcases before with h | ⟨h, _⟩ <;> omega
    have hpos : 0 < e.acts.length := by
      have := (List.getElem?_eq_some_iff.mp hl).1
      omega
    have hdvd : c.ids ∣ n - origin n (e.acts.length - 1) :=
      Nat.dvd_of_mod_eq_zero (Nat.sub_mod_eq_zero_of_mod_eq hmod)
    have ⟨j, hj⟩ := hdvd
    refine ⟨e.acts.length - 1, frame, reply, by omega, hl, hd, ha, ⟨j, by rw [Nat.mul_comm]; omega⟩, ?_⟩
    intro m hlt hnear heq
    have hids : c.ids = config.maxTransaction.toNat + 1 := rfl
    have := Nat.eq_zero_of_dvd_of_lt (heq ▸ hdvd) (show n - m < c.ids by omega)
    omega

/-- With two transaction ids, the second transaction refuses a late answer to the first and the third takes it. -/
theorem session_not_stale_late :
    let config : ClientConfig := { retries := 0, maxTransaction := 1 }
    let steps := List.replicate 3 (Step.execute (.readHoldingRegisters 0 1))
    let late : Script.Arrival := { delivery := .frame ⟨⟨0, 1⟩, [3, 2, 0, 7]⟩ }
    let s : Script := { framing := .tcp, arrivals := [{ delivery := .silent }, late, late] }
    let ts := transactions (session steps { config, unit := 1 } s).1
    config.validate = true ∧ (Link.framing s).isHeadless = false ∧ Echoes (fun _ _ => 0) (ts.map (·.acts)) ∧
      ts[2]?.map (·.result) = some (some (.ok (.ok (.readHoldingRegisters [7])))) ∧ ∃ j, 2 = 0 + j * 2 := by
  intro config steps late s ts
  let r : Request := .readHoldingRegisters 0 1
  let c (id : UInt16) : Client := { config, unit := 1, nextTransaction := id }
  let m (id : UInt16) : Adu := ⟨⟨id, 1⟩, [3, 0, 0, 0, 1]⟩
  have accepted (id : UInt16) : ¬ (c id).Refuses .tcp := fun h => absurd h.1 (by decide)
  have decodes : Reply.decode [3, 2, 0, 7] = .ok (.ok (.readHoldingRegisters [7])) := rfl
  let limit := Link.now s + config.timeout
  let s₀ : Script := { s with lastHeader := (m 0).header, events := [.sent (m 0) 0] }
  let s₁ : Script := { s₀ with arrivals := [late, late], clock := waited 0 (some limit) }
  let s₂ : Script :=
    { s₁ with arrivals := [late], lastHeader := (m 1).header, events := s₁.events ++ [.sent (m 1) s₁.clock] }
  have sent : Link.send (m 0) (some limit) s = (.done (), s₀) :=
    Script.send_at_once rfl (within_some.mpr (Nat.le_add_right ..)) _
  have silent : Link.receive (some limit) s₀ = (.pending, s₁) := Script.receive_silent rfl _
  have failed : config.attempt (m 0) r.function limit (Recorded.mk s []) =
      (.error .timeout, ⟨s₁, [.sent (m 0) (.done ()), .received .pending]⟩) :=
    (ClientConfig.attempt_of_sent (Recorded.send_of sent [])).trans
      (ClientConfig.awaitReply_of_concludes (Recorded.receive_of silent _) .timeout)
  obtain ⟨_, rfl, _, mismatched⟩ := config.attempt_script (s := s₁) r.function (m 1) rfl rfl rfl decodes
  obtain ⟨s₃, _, _, answered⟩ := config.attempt_script (s := s₂) r.function (m 0) rfl rfl rfl decodes
  have first : (c 0).perform (.execute r) s = (_, c 1, s₁) :=
    perform_of_attempt (accepted 0) rfl failed (.exhausted (ClientConfig.givesUp_eq_none.mp rfl) rfl)
  have second : (c 1).perform (.execute r) s₁ = (_, c 0, s₂) :=
    perform_of_attempt (accepted 1) rfl (mismatched []) (.exhausted (ClientConfig.givesUp_eq_none.mp rfl) rfl)
  have third : (c 0).perform (.execute r) s₂ = (_, c 1, s₃) :=
    perform_of_attempt (accepted 0) rfl (answered []) (.answered _)
  have hts' : ts = transactions ((c 0).session [.execute r, .execute r, .execute r] s).1 := rfl
  simp only [session_cons, first, second, third] at hts'
  have hts : ts.map (·.acts) =
      [[.sent ⟨⟨0, 1⟩, [3, 0, 0, 0, 1]⟩ (.done ()), .received .pending],
        [.sent ⟨⟨1, 1⟩, [3, 0, 0, 0, 1]⟩ (.done ()), .received (.done (some ⟨⟨0, 1⟩, [3, 2, 0, 7]⟩))],
        [.sent ⟨⟨0, 1⟩, [3, 0, 0, 0, 1]⟩ (.done ()), .received (.done (some ⟨⟨0, 1⟩, [3, 2, 0, 7]⟩))]] := by
    rw [hts']
    rfl
  have hr : ts[2]?.map (·.result) = some (some (.ok (.ok (.readHoldingRegisters [7])))) := by
    rw [hts']
    rfl
  have echoes : Echoes (fun _ _ => 0) (ts.map (·.acts)) := by
    rw [hts]
    rintro (_ | _ | _ | n) acts (_ | _ | i) frame hn hi <;> cases hn <;> cases hi
    all_goals exact ⟨_, 0, _, _, rfl, rfl, .inl (Nat.succ_pos _), rfl⟩
  obtain ⟨e, he, ha⟩ := Option.map_eq_some_iff.mp hr
  obtain ⟨_, _, _, _, _, _, _, hj, _⟩ := (session_not_stale config 1 steps s rfl rfl).2 _ echoes 2 e _ he ha
  exact ⟨rfl, rfl, echoes, hr, hj⟩

end Client

end Modbus
