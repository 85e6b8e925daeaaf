import Modbus.Client.Call
import Modbus.Proofs.Client.Accounts

/-!
# Results of typed calls

What a response carries is told by the response alone; a request only says how many of the bits it wants. A client that
validates gets no response of another function, so that its typed calls pass on the result of their transaction, and
never add an error of their own.
-/

namespace Modbus

def Response.carried : Response → Value
  | readCoils bits | readDiscreteInputs bits => .bits bits
  | readHoldingRegisters ws | readInputRegisters ws | readWriteMultipleRegisters ws | readFifoQueue ws => .words ws
  | readFileRecord blocks => .blocks blocks
  | writeSingleCoil .. | writeSingleRegister .. | writeMultipleCoils .. | writeMultipleRegisters .. | writeFileRecord _
  | maskWriteRegister .. => .written
  | custom code data => .response (custom code data)

def Request.cut : Request → Value → Value
  | readCoils _ qty, .bits bits | readDiscreteInputs _ qty, .bits bits => .bits (bits.take qty.toNat)
  | _, v => v

def Request.IsNamed (r : Request) : Prop := ∀ code data, r ≠ .custom code data

theorem Request.value?_eq_ite {r : Request} (named : r.IsNamed) (response : Response) :
    r.value? response = if response.function = r.function then some (r.cut response.carried) else none := by
  cases r with
  | custom code data => exact absurd rfl (named code data)
  | _ => cases response <;> rfl

namespace Client

theorem execute_function {σ : Type} [Link σ] {c : Client} (validate : c.config.validate = true) (r : Request) (s : σ) :
    (∀ response, (c.execute r s).1 = .ok (.ok response) → response.function = r.function) ∧
      ∀ m, (c.execute r s).1 ≠ .error (.protocol m) := by
  obtain ⟨result, next, s', acts, he, _, ⟨_, rfl, _⟩ | ⟨_, _, rfl, _⟩ | ⟨_, pdu, _, _, k, v, accounts⟩⟩ :=
    c.execute_accounts r s
  · simp [he]
  · simp [he]
  · rw [he]
    refine ⟨fun response hr => ?_, accounts.noProtocol⟩
    have last := accounts.last
    rw [(accounts.answered _).mp hr] at last
    obtain ⟨_, reply, _, _, _, hfunction, hreply⟩ := last.of_ok validate
    cases reply with
    | error e => cases hreply
    | ok a =>
        cases hreply
        exact hfunction

end Client

namespace Call

/-- With validation, a typed call gives what its transaction gives, and of a response what it carries. -/
theorem run_validated {σ : Type} [Link σ] {c : Client} {r : Request} (validate : c.config.validate = true)
    (named : r.IsNamed) (s : σ) :
    (typed r).run c s =
        ((c.execute r s).1.map (·.map fun response => r.cut response.carried), (c.execute r s).2) ∧
      (∀ response, (c.execute r s).1 = .ok (.ok response) → response.function = r.function) ∧
      ∀ m, ((typed r).run c s).1 ≠ .error (.protocol m) := by
  obtain ⟨hfunction, noProtocol⟩ := Client.execute_function validate r s
  have hrun : (typed r).run c s =
      ((c.execute r s).1.map (·.map fun response => r.cut response.carried), (c.execute r s).2) := by
    unfold run request
    obtain ⟨outcome, next, s', he⟩ : ∃ outcome next s', c.execute r s = (outcome, next, s') := ⟨_, _, _, rfl⟩
    simp only [he] at hfunction ⊢
    rcases outcome with e | exception | response
    · rfl
    · rfl
    · have hvalue : (typed r).value? response = some (r.cut response.carried) := by
        rw [value?, Request.value?_eq_ite named, if_pos (hfunction response rfl)]
      simp only [result, hvalue]
      rfl
  refine ⟨hrun, hfunction, fun m => ?_⟩
  rw [hrun]
  cases ho : (c.execute r s).1 with
  | ok answer => exact nofun
  | error e =>
      rintro ⟨⟩
      exact noProtocol m ho

/-- The registers that come first are no answer to a read of three coils; of the coils that come next five are filling. -/
theorem run_validated_coils :
    let c : Client := { config := { retries := 1 }, unit := 1 }
    let r : Request := .readCoils 0 3
    let s : Script := { framing := .tcp, arrivals :=
      [{ delivery := .frame ⟨⟨0, 1⟩, [3, 2, 0, 7]⟩ }, { delivery := .frame ⟨⟨0, 1⟩, [1, 1, 0x05]⟩ }] }
    c.config.validate = true ∧ r.IsNamed ∧ ((typed r).run c s).1 = .ok (.ok (.bits [true, false, true])) := by
  intro c r s
  have named : r.IsNamed := nofun
  have accepted : ¬ c.Refuses (Link.framing s) := fun h => absurd h.1 (by decide)
  let request := c.message [1, 0, 0, 0, 3]
  have decodes : Reply.decode [3, 2, 0, 7] = .ok (.ok (.readHoldingRegisters [7])) := rfl
  have decodes' : Reply.decode [1, 1, 0x05] =
      .ok (.ok (.readCoils [true, false, true, false, false, false, false, false])) := rfl
  let s' : Script := { s with arrivals := s.arrivals.tail, lastHeader := request.header, events := [.sent request 0] }
  obtain ⟨_, rfl, mismatched, _⟩ := c.config.attempt_script (s := s) r.function request rfl rfl rfl decodes
  obtain ⟨_, _, answered, _⟩ :=
    c.config.attempt_script (s := c.config.prepareRetry s') r.function request rfl rfl rfl decodes'
  have retried : c.config.attempts .endless request r.function 1 0 s =
      c.config.attempts .endless request r.function 0 1 (c.config.prepareRetry s') :=
    ClientConfig.attempts_of_goesOn rfl mismatched (ClientConfig.givesUp_eq_none.mp rfl)
  refine ⟨rfl, named, ?_⟩
  rw [(run_validated rfl named s).1, Client.execute_of_attempts accepted rfl
    (retried.trans (ClientConfig.attempts_of_comesTo rfl answered (.answered _)))]
  rfl

end Call

end Modbus
