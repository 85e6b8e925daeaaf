import Modbus.Adu
import Modbus.Fault
import Modbus.Response

/-!
# Errors of a client

A reply may not belong to its request, an attempt may fail, and a transaction may run out of attempts. Exceptions
of a device are no errors here: they are answers.
-/

namespace Modbus

/-- A reply that does not belong to its request. -/
inductive Mismatch
  | header (request response : Header) (reply : Reply)
  | function (request : FunctionCode) (reply : Reply)

inductive AttemptFailure
  | timeout
  | mismatch (m : Mismatch)
  | transport (f : Fault)

inductive ClientError
  | protocol (m : Mismatch)
  | transport (f : Fault)
  | transaction (attempts : Nat) (last : AttemptFailure)

namespace Mismatch

def message : Mismatch → String
  | header request response reply =>
    "mismatching headers: " ++ Header.mismatch request response ++ " " ++ Reply.describe reply
  | function request reply => "mismatching function codes: " ++ request.text ++ " " ++ Reply.describe reply

def name : Mismatch → String
  | header .. => "HeaderMismatch"
  | function .. => "FunctionCodeMismatch"

def describe : Mismatch → String
  | header request response reply =>
    Literal.record "HeaderMismatch"
      [("message", Literal.quoted (Header.mismatch request response)), ("result", Reply.describe reply)]
  | function request reply =>
    Literal.record "FunctionCodeMismatch" [("request", request.name), ("result", Reply.describe reply)]

end Mismatch

namespace AttemptFailure

def message : AttemptFailure → String
  | timeout => "timeout"
  | mismatch m => m.message
  | transport f => f.message

def name : AttemptFailure → String
  | timeout => "Timeout"
  | mismatch m => m.name
  | transport f => "Transport:" ++ f.kind.name

def describe : AttemptFailure → String
  | timeout => "Timeout"
  | mismatch m => "Mismatch(" ++ m.describe ++ ")"
  | transport f => "Transport(" ++ f.describe ++ ")"

def fatal? : AttemptFailure → Option Fault
  | transport f => if f.isFatal then some f else none
  | _ => none

end AttemptFailure

namespace ClientError

def message : ClientError → String
  | protocol m => m.message
  | transport f => f.message
  | transaction attempts last =>
    "transaction failed after " ++ toString attempts ++ " attempt(s): " ++ last.message

def describe : ClientError → String
  | protocol m => "Protocol(" ++ m.describe ++ ")"
  | transport f => "Transport(" ++ f.describe ++ ")"
  | transaction attempts last =>
    "Transaction(" ++ Literal.record "TransactionError"
      [("attempts", toString attempts), ("last_failure", last.describe)] ++ ")"

end ClientError

end Modbus
