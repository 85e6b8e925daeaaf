import Modbus.Link.Script
import Modbus.Server.Basic

/-!
# Transcripts of a server

What a server on a scripted link asks of its service and what it sends, in order. The service is scripted as well.
-/

namespace Modbus

inductive Server.Event
  | called (unit : UnitId) (request : Request)
  | sent (adu : Adu)
  deriving DecidableEq

/-- A service that gives its answers one after the other, and knows no function when it has none left. -/
structure ScriptedService where
  answers : List (Except ExceptionCode (Option Response))
  calls : List (UnitId × Request) := []

namespace ScriptedService

def call : Service ScriptedService := fun unit r t =>
  (t.answers.headD (.error .illegalFunction), { answers := t.answers.tail, calls := t.calls ++ [(unit, r)] })

end ScriptedService

namespace Script

def Event.adu? : Event → Option Adu
  | sent adu _ => some adu
  | _ => none

end Script

namespace Server

/-- What has happened on a link and in its service: one frame is at most one call, and the answer comes after it. -/
def noted (s : Script) (t : ScriptedService) : List Event :=
  t.calls.map (fun c => .called c.1 c.2) ++ (s.events.filterMap Script.Event.adu?).map .sent

def serve (s : Script) (t : ScriptedService) : List Script.Arrival → List Event
  | [] => []
  | a :: rest =>
    match run ScriptedService.call none { s with arrivals := [a] } t with
    | (.ended, s, t) => noted s t
    | (.waiting, s, t) => noted s t ++ serve { s with events := [] } { t with calls := [] } rest

/-- All that happens on a link; behind a silence without an end nothing does. -/
def transcript (s : Script) (t : ScriptedService) : List Event :=
  serve s t (s.arrivals.takeWhile (·.delivery ≠ .silent))

end Server

end Modbus
