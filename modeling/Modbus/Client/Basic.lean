import Modbus.Client.Error
import Modbus.Link.Basic
import Modbus.Pdu.Response
import Modbus.Time

/-!
# Transactions of a client

A client has one transaction at a time on its link. It sends the same message again until an attempt brings a
reply that belongs to the request, the link breaks or no retry is left. Frames that were discarded and PDUs that
cannot be decoded do not end an attempt.
-/

namespace Modbus

structure ClientConfig where
  timeout : Nat := Duration.millis 3000
  retries : Nat := 5
  retryDelay : Nat := Duration.millis 500
  /-- Replies have to match the header and the function of their request. -/
  validate : Bool := true
  reconnect : Bool := false
  /-- The transaction id that is followed by 0. -/
  maxTransaction : UInt16 := 32767
  deriving DecidableEq

namespace ClientConfig

def describe (c : ClientConfig) : String :=
  Literal.record "ClientConfig" [("timeout", Duration.text c.timeout), ("retries", toString c.retries),
    ("retry_delay", Duration.text c.retryDelay), ("validate_responses", Literal.bool c.validate),
    ("reconnect_on_retry", Literal.bool c.reconnect),
    ("max_transaction_id", toString c.maxTransaction.toNat)]

/-- What a reply is worth: it ends the attempt, well or badly. -/
def judge (c : ClientConfig) (framing : Framing) (request : Adu) (function : FunctionCode) (header : Header)
    (reply : Reply) : Except AttemptFailure (Except ExceptionCode Response) :=
  if c.validate ∧ ¬ Header.Answers framing request.header header then
    .error (.mismatch (.header request.header header reply))
  else if c.validate ∧ Reply.function reply ≠ function then .error (.mismatch (.function function reply))
  else .ok (reply.mapError (·.exception))

variable {σ : Type} [Link σ]

def awaitReply (c : ClientConfig) (request : Adu) (function : FunctionCode) (limit : Nat) (s : σ) :
    Except AttemptFailure (Except ExceptionCode Response) × σ :=
  match _ : Link.receive (some limit) s with
  | (.pending, s') => (.error .timeout, s')
  | (.failed f, s') => (.error (.transport f), s')
  | (.done none, s') => c.awaitReply request function limit s'
  | (.done (some adu), s') =>
    match Reply.decode adu.pdu with
    | .error _ => c.awaitReply request function limit s'
    | .ok reply => (c.judge (Link.framing s') request function adu.header reply, s')
termination_by Link.backlog s
decreasing_by
  all_goals
    rename_i h
    have := Link.receive_less (some limit) s (by rw [h]; trivial)
    rw [h] at this
    exact this

def attempt (c : ClientConfig) (request : Adu) (function : FunctionCode) (limit : Nat) (s : σ) :
    Except AttemptFailure (Except ExceptionCode Response) × σ :=
  match Link.send request (some limit) s with
  | (.pending, s) => (.error .timeout, s)
  | (.failed f, s) => (.error (.transport f), s)
  | (.done _, s) => c.awaitReply request function limit s

/-- Gets the link ready for another attempt. A reconnection that fails is left to the attempt to notice. -/
def prepareRetry (c : ClientConfig) (s : σ) : σ :=
  let s := Link.rest c.retryDelay s
  if c.reconnect then (Link.reconnect s).2 else s

/-- Attempts until one succeeds or `left` retries have been used, after `made` attempts. If the limit of an attempt is no
instant of the clock, everything ends there without a result. -/
def attempts {ε : Type} (clock : Clock ε) (c : ClientConfig) (request : Adu) (function : FunctionCode)
    (left made : Nat) (s : σ) : Except ε (Except ClientError (Except ExceptionCode Response)) × σ :=
  match clock (Link.now s + c.timeout) with
  | .error e => (.error e, s)
  | .ok limit =>
    match c.attempt request function limit s with
    | (.ok answer, s) => (.ok (.ok answer), s)
    | (.error failure, s) =>
      match if c.reconnect then none else failure.fatal? with
      | some f => (.ok (.error (.transport f)), s)
      | none =>
        match left with
        | 0 => (.ok (.error (.transaction (made + 1) failure)), s)
        | left + 1 => c.attempts clock request function left (made + 1) (c.prepareRetry s)

end ClientConfig

structure Client where
  config : ClientConfig := {}
  unit : UnitId
  nextTransaction : UInt16 := 0
  deriving DecidableEq

namespace Client

def describe (link : String) (c : Client) : String :=
  Literal.openRecord "Executor"
    [("transport", link), ("config", c.config.describe), ("unit_id", toString c.unit.toNat)]

def advance (c : Client) : Client :=
  { c with nextTransaction :=
      if c.config.maxTransaction ≤ c.nextTransaction then 0 else c.nextTransaction + 1 }

/-- The message for a request to a unit, and the client after it; a request that fits no PDU uses no transaction
id. -/
def message? (c : Client) (unit : UnitId) (r : Request) : Option (Adu × Client) :=
  r.toPdu?.map fun pdu => (⟨⟨c.nextTransaction, unit⟩, pdu⟩, c.advance)

variable {σ : Type} [Link σ]

/-- Sends a request and gets its answer. Broadcasts of headless framings are never answered and so refused. If the clock
ends, a transaction id has been used all the same. -/
def executeBy {ε : Type} (clock : Clock ε) (r : Request) (c : Client) (s : σ) :
    Except ε (Except ClientError (Except ExceptionCode Response)) × Client × σ :=
  if (Link.framing s).isHeadless ∧ c.unit.isBroadcast then (.ok (.error (.transport .broadcastUnanswered)), c, s)
  else
    match c.message? c.unit r with
    | none => (.ok (.error (.transport .oversizedRequest)), c, s)
    | some (request, next) =>
      let (result, s) := c.config.attempts clock request r.function c.config.retries 0 s
      (result, next, s)

def execute (r : Request) (c : Client) (s : σ) :
    Except ClientError (Except ExceptionCode Response) × Client × σ :=
  let (result, next, s) := c.executeBy .endless r s
  (Clock.outcome result, next, s)

def broadcast (r : Request) (c : Client) (s : σ) : Except Fault Unit × Client × σ :=
  match c.message? UnitId.broadcast r with
  | none => (.error .oversizedRequest, c, s)
  | some (request, next) =>
    match Link.send request none s with
    | (.failed f, s) => (.error f, next, s)
    | (_, s) => (.ok (), next, s)

end Client

end Modbus
