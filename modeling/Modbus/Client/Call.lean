import Modbus.Client.Basic

/-!
# Typed calls

A typed call reduces the response to the value that its request asks for. Bit reads give as many bits as were asked
for, although devices answer in whole bytes.
-/

namespace Modbus

inductive Call
  /-- The response has to be of the kind that the request asks for. -/
  | typed (request : Request)
  /-- The response is handed over as it is. -/
  | raw (request : Request)
  deriving DecidableEq

inductive Value
  | written
  | bits (bs : List Bool)
  | words (ws : List Word)
  | blocks (bs : List (List Word))
  | response (r : Response)
  deriving DecidableEq

def Request.value? : Request → Response → Option Value
  | readCoils _ qty, .readCoils bits => some (.bits (bits.take qty.toNat))
  | readDiscreteInputs _ qty, .readDiscreteInputs bits => some (.bits (bits.take qty.toNat))
  | readHoldingRegisters .., .readHoldingRegisters ws => some (.words ws)
  | readInputRegisters .., .readInputRegisters ws => some (.words ws)
  | readWriteMultipleRegisters .., .readWriteMultipleRegisters ws => some (.words ws)
  | readFileRecord _, .readFileRecord blocks => some (.blocks blocks)
  | readFifoQueue _, .readFifoQueue ws => some (.words ws)
  | writeSingleCoil .., .writeSingleCoil .. => some .written
  | writeSingleRegister .., .writeSingleRegister .. => some .written
  | writeMultipleCoils .., .writeMultipleCoils .. => some .written
  | writeMultipleRegisters .., .writeMultipleRegisters .. => some .written
  | maskWriteRegister .., .maskWriteRegister .. => some .written
  | writeFileRecord _, .writeFileRecord _ => some .written
  | custom .., r => some (.response r)
  | _, _ => none

namespace Call

def request : Call → Request
  | typed r | raw r => r

def value? : Call → Response → Option Value
  | typed r, response => r.value? response
  | raw _, response => some (.response response)

def result (call : Call) :
    Except ClientError (Except ExceptionCode Response) → Except ClientError (Except ExceptionCode Value)
  | .error e => .error e
  | .ok (.error exception) => .ok (.error exception)
  | .ok (.ok response) =>
    match call.value? response with
    | some v => .ok (.ok v)
    | none => .error (.protocol (.function call.request.function (.ok response)))

def run {σ : Type} [Link σ] (call : Call) (c : Client) (s : σ) :
    Except ClientError (Except ExceptionCode Value) × Client × σ :=
  let (outcome, c, s) := c.execute call.request s
  (call.result outcome, c, s)

end Call

end Modbus
