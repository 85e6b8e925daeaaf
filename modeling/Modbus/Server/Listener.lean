import Modbus.Link.Host

/-!
# Listeners

A listener takes connections one after the other and decides on each; a decision that fails ends it, and from then on
connections are refused.
-/

namespace Modbus

inductive Admission
  | served
  /-- The connection is closed, and the listener goes on. -/
  | declined
  /-- The connection is closed, and the listener ends. -/
  | failed (fault : Fault)
  deriving DecidableEq

structure Listener where
  host : Host
  /-- What becomes of the next connections; all others are served. -/
  admissions : List Admission := []
  ended : Option Fault := none
  deriving DecidableEq

namespace Listener

def connect (l : Listener) : Except Fault Admission × Listener :=
  match l.host.reach, l.ended with
  | .error f, _ => (.error f, l)
  | .ok (), some _ => (.error .connectionRefused, l)
  | .ok (), none =>
    let admission := l.admissions.headD .served
    let ended := match admission with
      | .failed f => some f
      | _ => none
    (.ok admission, { l with admissions := l.admissions.tail, ended })

end Listener

end Modbus
