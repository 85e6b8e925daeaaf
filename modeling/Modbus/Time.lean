/-!
# Time

Instants and durations are natural numbers of nanoseconds, instants counted from the start of the clock. A clock
only moves when something waits, so all times are values and nothing reads a clock. Real clocks have a last instant, and
who needs a later one does not get on.
-/

namespace Modbus

/-- The instant so far behind the start, or what becomes of those who need it if there is none. -/
abbrev Clock (ε : Type) := Nat → Except ε Nat

namespace Clock

inductive Overrun
  | overrun
  deriving DecidableEq

def endless : Clock Empty := .ok

def upTo (last : Nat) : Clock Overrun := fun t => if t ≤ last then .ok t else .error .overrun

def outcome {α : Type} : Except Empty α → α
  | .ok a => a

end Clock

namespace Duration

def micros (n : Nat) : Nat := n * 1000

def millis (n : Nat) : Nat := n * 1000000

def seconds (n : Nat) : Nat := n * 1000000000

/-- Thirty years of 365 days. -/
def longestPause : Nat := seconds 946080000

/-- How long a pause really lasts: the timers behind pauses are not set for longer than the longest one. -/
def pause (asked : Nat) : Nat := min asked longestPause

/-- The decimals of `part` below a unit that is a power of ten, without trailing zeros. -/
def decimals (part unit : Nat) : List Char :=
  let digits := (Nat.toDigits 10 (unit + part)).drop 1
  (digits.reverse.dropWhile (· = '0')).reverse

def textIn (d unit : Nat) (symbol : String) : String :=
  let part := decimals (d % unit) unit
  toString (d / unit) ++ (if part.isEmpty then "" else "." ++ String.ofList part) ++ symbol

def text (d : Nat) : String :=
  if seconds 1 ≤ d then textIn d (seconds 1) "s"
  else if millis 1 ≤ d then textIn d (millis 1) "ms"
  else if micros 1 ≤ d then textIn d (micros 1) "µs"
  else textIn d 1 "ns"

end Duration

end Modbus
