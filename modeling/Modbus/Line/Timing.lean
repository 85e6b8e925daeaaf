import Modbus.Text.Literal
import Modbus.Time

/-!
# Timing of a serial line

A character is eleven bits on the wire. A silence of three and a half characters separates frames and a gap of
more than one and a half characters spoils one; above 19200 baud both are fixed.
-/

namespace Modbus

structure SerialConfig where
  baud : UInt32 := 19200
  /-- The pause between messages, if it is not to be computed. -/
  messagePause : Option Nat := none
  deriving DecidableEq

structure Timing where
  character : Nat
  longestGap : Nat
  silence : Nat
  messagePause : Nat
  deriving DecidableEq

namespace Timing

def minMessagePause : Nat := Duration.millis 2

def fixedBaud : UInt32 := 19200

def ofBaud (baud : UInt32) : Timing :=
  let character := Duration.seconds 11 / max baud.toNat 1
  let fast : Bool := fixedBaud < baud
  let silence := if fast then Duration.micros 1750 else character * 7 / 2
  { character
    longestGap := if fast then Duration.micros 750 else character * 3 / 2
    silence
    messagePause := max silence minMessagePause }

/-- A message without gaps is not spoiled by its own characters. -/
theorem character_le_ofBaud (baud : UInt32) : (ofBaud baud).character ≤ (ofBaud baud).longestGap := by
  simp only [ofBaud, fixedBaud, Duration.micros, Duration.seconds]
  by_cases hfast : 19200 < baud
  · have hbaud : 19200 < baud.toNat := by simpa [UInt32.lt_iff_toNat_lt] using hfast
    simp only [hfast, decide_true, if_true]
    exact Nat.div_le_of_le_mul (by omega)
  · simp only [hfast, decide_false, Bool.false_eq_true, if_false]
    omega

theorem short_ofBaud (baud : UInt32) : (ofBaud baud).longestGap < (ofBaud baud).silence := by
  simp only [ofBaud, fixedBaud, Duration.micros, Duration.seconds]
  by_cases hfast : 19200 < baud
  · simp [hfast]
  · have hbaud : baud.toNat ≤ 19200 := by simpa [UInt32.lt_iff_toNat_lt] using hfast
    have hchar : 0 < 11 * 1000000000 / max baud.toNat 1 := Nat.div_pos (by omega) (by omega)
    simp only [hfast, decide_false, Bool.false_eq_true, if_false]
    omega

def maxCount : Nat := 4294967295

/-- The time that `count` characters take on the wire; counts beyond `maxCount` are not told apart. -/
def transmission (t : Timing) (count : Nat) : Nat := t.character * min count maxCount

def describe (t : Timing) : String :=
  Literal.record "SerialTiming" [("char_time", Duration.text t.character),
    ("t1_5", Duration.text t.longestGap), ("t3_5", Duration.text t.silence),
    ("inter_message_delay", Duration.text t.messagePause)]

end Timing

def SerialConfig.timing (c : SerialConfig) : Timing :=
  let t := Timing.ofBaud c.baud
  { t with messagePause := c.messagePause.getD t.messagePause }

theorem SerialConfig.short_timing (c : SerialConfig) : c.timing.longestGap < c.timing.silence :=
  Timing.short_ofBaud c.baud

end Modbus
