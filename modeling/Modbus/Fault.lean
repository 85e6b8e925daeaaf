import Modbus.Pdu.Reader
import Modbus.Text.Literal

/-!
# Faults

Whatever keeps a message from being sent or received. Each cause has a kind and a text; links are judged by
the kind: the kinds of `Fault.Kind.isFatal` leave a link unusable.
-/

namespace Modbus

namespace Fault

inductive Kind
  | notFound
  | permissionDenied
  | connectionRefused
  | connectionReset
  | connectionAborted
  | notConnected
  | addressInUse
  | addressNotAvailable
  | networkUnreachable
  | brokenPipe
  | alreadyExists
  | wouldBlock
  | invalidInput
  | invalidData
  | timedOut
  | writeZero
  | interrupted
  | unsupported
  | unexpectedEof
  | outOfMemory
  | other
  deriving DecidableEq

def Kind.name : Kind → String
  | notFound => "NotFound"
  | permissionDenied => "PermissionDenied"
  | connectionRefused => "ConnectionRefused"
  | connectionReset => "ConnectionReset"
  | connectionAborted => "ConnectionAborted"
  | notConnected => "NotConnected"
  | addressInUse => "AddrInUse"
  | addressNotAvailable => "AddrNotAvailable"
  | networkUnreachable => "NetworkUnreachable"
  | brokenPipe => "BrokenPipe"
  | alreadyExists => "AlreadyExists"
  | wouldBlock => "WouldBlock"
  | invalidInput => "InvalidInput"
  | invalidData => "InvalidData"
  | timedOut => "TimedOut"
  | writeZero => "WriteZero"
  | interrupted => "Interrupted"
  | unsupported => "Unsupported"
  | unexpectedEof => "UnexpectedEof"
  | outOfMemory => "OutOfMemory"
  | other => "Other"

def Kind.all : List Kind :=
  [notFound, permissionDenied, connectionRefused, connectionReset, connectionAborted, notConnected,
    addressInUse, addressNotAvailable, networkUnreachable, brokenPipe, alreadyExists, wouldBlock,
    invalidInput, invalidData, timedOut, writeZero, interrupted, unsupported, unexpectedEof, outOfMemory,
    other]

def Kind.ofName? (name : String) : Option Kind := Kind.all.find? (·.name = name)

end Fault

inductive Fault
  | oversizedRequest
  | oversizedResponse
  /-- The PDU of an ADU is longer than any envelope carries. -/
  | oversizedPdu
  | malformed (error : Pdu.Error)
  | broadcastUnanswered
  | connectionClosed
  | serialStreamClosed
  /-- The stream ended inside a frame whose length was announced. -/
  | streamClosedInFrame
  /-- The stream ended inside a frame of unknown length. -/
  | bytesRemaining
  | cannotReconnect
  | noConnector
  | noPeer
  | brokenPipe
  | networkUnreachable
  | connectionRefused
  | addressInUse
  /-- A failure reported from outside, with its own text. -/
  | reported (kind : Fault.Kind) (message : String)
  deriving DecidableEq

namespace Fault

def kind : Fault → Kind
  | oversizedRequest | oversizedResponse | oversizedPdu | broadcastUnanswered => .invalidInput
  | malformed .truncated => .unexpectedEof
  | malformed _ => .invalidData
  | connectionClosed | serialStreamClosed | streamClosedInFrame => .unexpectedEof
  | bytesRemaining => .other
  | cannotReconnect | noConnector => .unsupported
  | noPeer => .notConnected
  | brokenPipe => .brokenPipe
  | networkUnreachable => .networkUnreachable
  | connectionRefused => .connectionRefused
  | addressInUse => .addressInUse
  | reported kind _ => kind

def message : Fault → String
  | oversizedRequest => "request PDU size exceeded"
  | oversizedResponse => "response PDU size exceeded"
  | oversizedPdu => "PDU size exceeded"
  | malformed e => e.message
  | broadcastUnanswered => "broadcast requests are not answered"
  | connectionClosed => "connection closed"
  | serialStreamClosed => "serial stream closed"
  | streamClosedInFrame => "stream closed before the declared frame length"
  | bytesRemaining => "bytes remaining on stream"
  | cannotReconnect => "transport cannot reconnect"
  | noConnector => "no connector configured"
  | noPeer => "no peer to answer"
  | brokenPipe => "broken pipe"
  | networkUnreachable => "Network is unreachable (os error 101)"
  | connectionRefused => "Connection refused (os error 111)"
  | addressInUse => "Address already in use (os error 98)"
  | reported _ message => message

def Kind.isFatal : Kind → Bool
  | unexpectedEof | brokenPipe | connectionReset | connectionAborted | notConnected => true
  | _ => false

/-- The link is unusable until it has been reconnected. -/
def isFatal (f : Fault) : Bool := f.kind.isFatal

def ignoreClosed : Except Fault Unit → Except Fault Unit
  | .ok () => .ok ()
  | .error f => if f.kind = .notConnected ∨ f.kind = .brokenPipe then .ok () else .error f

def describe (f : Fault) : String :=
  Literal.record "Custom" [("kind", f.kind.name), ("error", Literal.quoted f.message)]

end Fault

end Modbus
