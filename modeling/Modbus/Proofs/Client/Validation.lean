import Mathlib.Logic.Basic
import Modbus.Proofs.Client.Accounts
import Modbus.Proofs.Pdu.AcceptedReplies

/-!
# Which replies a client takes

A client that validates compares function codes, and function codes are more than bytes: a reply has the function that
its first byte stands for, bit 0x80 aside, while a custom request may have the byte of a named function. So a reply with
the byte of its request completes the transaction exactly if the function of the request is in canonical form.
-/

namespace Modbus

/-! ## The function of a reply -/

theorem FunctionCode.ofByte_eq_iff {code : UInt8} {f : FunctionCode} :
    ofByte code = f ↔ code = f.toByte ∧ f.IsCanonical := by
  constructor
  · rintro rfl
    exact ⟨(toByte_ofByte code).symm, isCanonical_ofByte code⟩
  · rintro ⟨rfl, canonical⟩
    exact canonical

theorem toNat_and_0x7F (b : UInt8) : (b &&& 0x7F).toNat = b.toNat % 128 := by
  rw [UInt8.toNat_and]
  exact Nat.and_two_pow_sub_one_eq_mod b.toNat 7

theorem and_0x7F_of_lt {b : UInt8} (h : b < 0x80) : b &&& 0x7F = b := by
  rw [← UInt8.toNat_inj, toNat_and_0x7F]
  exact Nat.mod_eq_of_lt h

theorem add_0x80_and_0x7F {b : UInt8} (h : b < 0x80) : (b + 0x80) &&& 0x7F = b := by
  have hlt : b.toNat < 128 := h
  have hadd : (b + 0x80).toNat = (b.toNat + 128) % 256 := UInt8.toNat_add b 0x80
  rw [← UInt8.toNat_inj, toNat_and_0x7F, hadd]
  omega

namespace Reply

/-- The function of a reply is told by the first byte of its PDU, whether or not bit 0x80 marks an exception. -/
theorem function_of_decode {pdu : Bytes} {r : Reply} (h : decode pdu = .ok r) :
    ∃ code, pdu.head? = some code ∧ function r = FunctionCode.ofByte (code &&& 0x7F) := by
  obtain ⟨regular, rfl, _⟩ := encode_of_decode h
  cases r with
  | ok r =>
      refine ⟨r.function.toByte, rfl, ?_⟩
      rw [and_0x7F_of_lt (Response.toByte_function_lt regular)]
      exact (Response.isCanonical_of_isRegular regular).symm
  | error e =>
      refine ⟨e.function.toByte + 0x80, rfl, ?_⟩
      rw [add_0x80_and_0x7F regular.1]
      exact regular.2.1.symm

end Reply

/-- The frame has the function byte of the request, bit 0x80 aside. -/
def Adu.Follows (frame request : Adu) : Prop := frame.functionByte?.map (· &&& 0x7F) = request.functionByte?

instance (frame request : Adu) : Decidable (frame.Follows request) := inferInstanceAs (Decidable (_ = _))

theorem function_eq_iff {frame request : Adu} {reply : Reply} {r : Request} (h : Reply.decode frame.pdu = .ok reply)
    (hp : r.toPdu? = some request.pdu) :
    Reply.function reply = r.function ↔ frame.Follows request ∧ r.function.IsCanonical := by
  obtain ⟨code, hcode, hf⟩ := Reply.function_of_decode h
  obtain ⟨_, hpdu⟩ := Request.toPdu?_eq_some.mp hp
  have hr : request.functionByte? = some r.function.toByte := by
    rw [Adu.functionByte?, ← hpdu]
    rfl
  have hfollows : frame.Follows request ↔ code &&& 0x7F = r.function.toByte := by
    rw [Adu.Follows, hr, Adu.functionByte?, hcode, Option.map_some, Option.some.injEq]
  rw [hf, FunctionCode.ofByte_eq_iff, hfollows]

/-! ## Attempts with a reply -/

namespace ClientConfig

variable {c : ClientConfig} {framing : Framing} {request frame : Adu} {function : FunctionCode} {a : Attempt}
  {v : Verdict} {reply : Reply}

theorem judge_eq_ite (validate : c.validate = true) (h : Header.Answers framing request.header frame.header)
    (function : FunctionCode) (reply : Reply) :
    c.judge framing request function frame.header reply =
      if Reply.function reply = function then .ok (reply.mapError (·.exception))
      else .error (.mismatch (.function function reply)) := by
  simp only [judge, validate, h, not_true_eq_false, and_false, if_false, true_and, ne_eq, ite_not]

theorem Yields.of_reply (h : c.Yields framing request function a v) (mem : .done (some frame) ∈ a.reads)
    (hd : Reply.decode frame.pdu = .ok reply) :
    a.reads.getLast? = some (.done (some frame)) ∧ v = c.judge framing request function frame.header reply := by
  cases h with
  | unsent t => cases mem
  | refused t f => cases mem
  | awaited t skips ends =>
      rcases List.mem_append.mp mem with hm | hm
      · obtain ⟨e, he⟩ := skips _ hm
        rw [hd] at he
        cases he
      · obtain rfl := List.mem_singleton.mp hm
        refine ⟨List.getLast?_concat, ?_⟩
        cases ends with
        | replied hd' =>
            rw [hd] at hd'
            cases hd'
            rfl

end ClientConfig

theorem Course.getLast?_attempts (k : Course) : k.attempts.getLast? = some k.last := by
  simp only [attempts, last, List.getLast?_cons, List.getLast?_map]

theorem Course.received_mem_acts {delay : Nat} {request : Adu} {k : Course} {o : Outcome (Option Adu)} :
    .received o ∈ k.acts delay request ↔ ∃ a ∈ k.attempts, o ∈ a.reads := by
  have ha (a : Attempt) : .received o ∈ a.acts request ↔ o ∈ a.reads := by
    simp [Attempt.acts]
  simp only [acts, attempts, List.mem_append, List.mem_flatMap, List.mem_cons, List.mem_map, ha, reduceCtorEq,
    and_false, exists_false, false_or, exists_eq_or_imp, exists_exists_and_eq_and]

namespace Client

variable {c : Client} {framing : Framing} {r : Request} {request : Adu} {k : Course} {v : Verdict}
  {result : Except ClientError (Except ExceptionCode Response)} {acts : List Act}

theorem Accounts.attempt (h : c.Accounts framing r request k v result acts) {i : Nat} {a : Attempt}
    (ha : k.attempts[i]? = .some a) :
    i + 1 = k.attempts.length ∧ c.config.Yields framing request r.function a v ∨
      i + 1 < k.attempts.length ∧ ∃ failure, c.config.Yields framing request r.function a (.error failure) := by
  obtain ⟨hi, hget⟩ := List.getElem?_eq_some_iff.mp ha
  rcases Nat.lt_or_ge (i + 1) k.attempts.length with hlt | hge
  · have hmem : a ∈ k.attempts.dropLast := by
      refine List.mem_of_getElem? (i := i) ?_
      rw [List.getElem?_dropLast, if_pos (by omega), ha]
    obtain ⟨failure, yields, _⟩ := h.goesOn a hmem
    exact .inr ⟨hlt, failure, yields⟩
  · have hi : i + 1 = k.attempts.length := by omega
    have hlast : a = k.last := by
      have := k.getLast?_attempts
      rw [List.getLast?_eq_getElem?, ← hi, Nat.add_sub_cancel, ha] at this
      exact Option.some.inj this
    exact .inl ⟨hi, hlast ▸ h.last⟩

/-- The link is fine after a mismatch, so the transaction has used all its attempts. -/
theorem Accounts.mismatched {m : Mismatch} (h : c.Accounts framing r request k (.error (.mismatch m)) result acts) :
    result = .error (.transaction k.attempts.length (.mismatch m)) := by
  cases hr : result with
  | ok answer => cases (h.answered answer).mp hr
  | error e =>
      cases e with
      | protocol m => exact absurd hr (h.noProtocol m)
      | transport f => cases ((h.broken f).mp hr).1
      | transaction n failure =>
          obtain ⟨rfl, _, hv, _⟩ := (h.exhausted n failure).mp hr
          cases hv
          rfl

/-- Whatever a client receives: a frame with the header of the request and with a reply in it ends its attempt. It
completes the transaction exactly if it has the function byte of the request, bit 0x80 aside, and the function of the
request is in canonical form. Otherwise the attempt fails for the function code. -/
theorem execute_validates {σ : Type} [Link σ] {c : Client} {r : Request} {pdu : Bytes} {s : σ}
    (validate : c.config.validate = true) (hb : ¬ c.Refuses (Link.framing s)) (hp : r.toPdu? = some pdu) :
    ∃ result s' k v acts, c.execute r s = (result, c.advance, s') ∧
      c.execute r (Recorded.mk s []) = (result, c.advance, ⟨s', acts⟩) ∧
      c.Accounts (Link.framing s) r (c.message pdu) k v result acts ∧
      ∀ i a frame reply, k.attempts[i]? = some a → .done (some frame) ∈ a.reads →
        Header.Answers (Link.framing s) (c.message pdu).header frame.header → Reply.decode frame.pdu = .ok reply →
          a.reads.getLast? = some (.done (some frame)) ∧
          (i + 1 = k.attempts.length ∧ result = .ok (reply.mapError (·.exception)) ↔
            frame.Follows (c.message pdu) ∧ r.function.IsCanonical) ∧
          (¬ (frame.Follows (c.message pdu) ∧ r.function.IsCanonical) →
            let failure := AttemptFailure.mismatch (.function r.function reply)
            c.config.Yields (Link.framing s) (c.message pdu) r.function a (.error failure) ∧
              (i + 1 = k.attempts.length → result = .error (.transaction k.attempts.length failure))) := by
  obtain ⟨result, s', k, v, he, hr, _, accounts⟩ := execute_recorded hb hp
  refine ⟨result, s', k, v, _, he, hr, accounts, ?_⟩
  intro i a frame reply ha mem answers hd
  have matched : Reply.function reply = r.function ↔ frame.Follows (c.message pdu) ∧ r.function.IsCanonical :=
    function_eq_iff hd hp
  have judged := ClientConfig.judge_eq_ite validate answers r.function reply
  rw [← matched]
  -- all attempts but the last one failed, so only the last one can complete the transaction
  rcases accounts.attempt ha with ⟨hi, yields⟩ | ⟨hi, failure, yields⟩
  · obtain ⟨ends, rfl⟩ := yields.of_reply mem hd
    rw [judged] at yields accounts
    by_cases hf : Reply.function reply = r.function
    · rw [if_pos hf] at accounts
      exact ⟨ends, iff_of_true ⟨hi, (accounts.answered _).mpr rfl⟩ hf, fun hn => absurd hf hn⟩
    · rw [if_neg hf] at yields accounts
      refine ⟨ends, iff_of_false ?_ hf, fun _ => ⟨yields, fun _ => accounts.mismatched⟩⟩
      rintro ⟨_, hr⟩
      cases (accounts.answered _).mp hr
  · obtain ⟨ends, hv⟩ := yields.of_reply mem hd
    have hlast : i + 1 ≠ k.attempts.length := Nat.ne_of_lt hi
    rw [judged] at hv
    split at hv
    · cases hv
    · rename_i hf
      exact ⟨ends, iff_of_false (fun h => hlast h.1) hf, fun _ => ⟨hv ▸ yields, fun h => absurd h hlast⟩⟩

/-- The exception to a custom request completes it, whatever came before that is no reply. -/
theorem execute_validates_refusal :
    let c : Client := { config := { retries := 0 }, unit := 1 }
    let r : Request := .custom 0x41 [7]
    let refusal : Adu := ⟨⟨9, 1⟩, [0xC1, 1]⟩
    let s : Script := { framing := .rtu, arrivals :=
      [{ delivery := .discarded }, { delivery := .frame ⟨⟨0, 1⟩, [0xC1]⟩ }, { delivery := .frame refusal }] }
    c.config.validate = true ∧ ¬ c.Refuses (Link.framing s) ∧ r.toPdu? = some [0x41, 7] ∧
      (c.execute r (Recorded.mk s [])).1 = .ok (.error .illegalFunction) := by
  intro c r refusal s
  have hb : ¬ c.Refuses (Link.framing s) := fun h => absurd h.2 (by decide)
  have hp : r.toPdu? = some [0x41, 7] := rfl
  have hacts : (c.execute r (Recorded.mk s [])).2.2.acts = [.sent (c.message [0x41, 7]) (.done ()),
      .received (.done none), .received (.done (some ⟨⟨0, 1⟩, [0xC1]⟩)), .received (.done (some refusal))] := by
    let request := c.message [0x41, 7]
    let limit := Link.now s + c.config.timeout
    let q₀ := (Link.send request (some limit) (Recorded.mk s [])).2
    let q₁ := (Link.receive (some limit) q₀).2
    let q₂ := (Link.receive (some limit) q₁).2
    let q₃ := (Link.receive (some limit) q₂).2
    have sent : Link.send request (some limit) (Recorded.mk s []) = (.done (), q₀) := rfl
    have discarded : Link.receive (some limit) q₀ = (.done none, q₁) := rfl
    have broken : Link.receive (some limit) q₁ = (.done (some ⟨⟨0, 1⟩, [0xC1]⟩), q₂) := rfl
    have received : Link.receive (some limit) q₂ = (.done (some refusal), q₃) := rfl
    have decodes : Reply.decode refusal.pdu = .ok (.error ⟨.custom 0x41, .illegalFunction⟩) := rfl
    have awaited : c.config.awaitReply request r.function limit q₂ = (c.config.judge (Link.framing q₃) request
        r.function refusal.header (.error ⟨.custom 0x41, .illegalFunction⟩), q₃) :=
      ClientConfig.awaitReply_of_concludes received (.replied decodes)
    rw [← ClientConfig.awaitReply_of_skips broken ⟨_, rfl⟩, ← ClientConfig.awaitReply_of_skips discarded trivial,
      ← ClientConfig.attempt_of_sent sent] at awaited
    rw [execute_of_attempts (s := Recorded.mk s []) hb hp
      (ClientConfig.attempts_of_comesTo rfl awaited (.answered _))]
    rfl
  obtain ⟨result, s', k, v, acts, _, he, accounts, h⟩ := execute_validates rfl hb hp
  rw [he] at hacts ⊢
  have mem : .received (.done (some refusal)) ∈ k.acts c.config.retryDelay (c.message [0x41, 7]) := by
    rw [← accounts.acts_eq, show acts = _ from hacts]
    simp
  obtain ⟨a, ha, hreads⟩ := Course.received_mem_acts.mp mem
  obtain ⟨i, hi⟩ := List.mem_iff_getElem?.mp ha
  obtain ⟨_, completes, _⟩ := h i a refusal (.error ⟨.custom 0x41, .illegalFunction⟩) hi hreads (by decide) rfl
  exact ⟨rfl, hb, hp, (completes.mpr (by decide)).2⟩

/-- A custom request may have the byte of a named function. It is sent like the named request, but no reply to it is
taken. -/
theorem execute_validates_named :
    let c : Client := { config := { retries := 0 }, unit := 1 }
    let r : Request := .custom 3 [0, 0, 0, 1]
    let frame : Adu := ⟨⟨0, 1⟩, [3, 2, 0, 0xFB]⟩
    let s : Script := { framing := .tcp, arrivals := [{ delivery := .frame frame }] }
    c.config.validate = true ∧ ¬ c.Refuses (Link.framing s) ∧
      ∃ pdu, r.toPdu? = some pdu ∧ Header.Answers (Link.framing s) (c.message pdu).header frame.header ∧
        Reply.decode frame.pdu = .ok (.ok (.readHoldingRegisters [0xFB])) ∧ frame.Follows (c.message pdu) ∧
        (c.execute r s).1 =
          .error (.transaction 1 (.mismatch (.function (.custom 3) (.ok (.readHoldingRegisters [0xFB]))))) := by
  intro c r frame s
  have accepted : ¬ c.Refuses (Link.framing s) := fun h => absurd h.1 (by decide)
  have hp : r.toPdu? = some [3, 0, 0, 0, 1] := rfl
  have decodes : Reply.decode frame.pdu = .ok (.ok (.readHoldingRegisters [0xFB])) := rfl
  obtain ⟨s', _, mismatched, _⟩ :=
    c.config.attempt_script (s := s) r.function (c.message [3, 0, 0, 0, 1]) rfl rfl rfl decodes
  refine ⟨rfl, accepted, _, hp, by decide, decodes, by decide, ?_⟩
  rw [execute_of_attempts accepted hp (ClientConfig.attempts_of_comesTo rfl mismatched
    (.exhausted (ClientConfig.givesUp_eq_none.mp rfl) rfl))]
  rfl

end Client

end Modbus
