import Modbus.Proofs.Line.AnyUse
import Modbus.Proofs.Line.Bursts
import Modbus.Proofs.Link.Delivery

/-!
# Waking at the deadline

The deadline of an assembler is the first instant at which polling it changes anything, and there is none exactly when
there is nothing to wait for. So a reader that sleeps until the deadline does not sleep for ever with an unfinished frame,
and does not turn around without having got on.
-/

namespace Modbus

namespace Assembler.Sound

variable {timing : Timing} {a : Assembler} {now : Nat}

theorem deadline_eq_none_iff (h : a.Sound timing) : a.deadline = none ↔ a.state = .idle ∨ a.state = .complete := by
  cases h with
  | idle | complete => exact iff_of_true rfl (by simp)
  | receiving | spoiled => exact iff_of_false nofun (by simp)

theorem poll_early (h : a.Sound timing) (positive : 0 < timing.silence) (early : ∀ d, a.deadline = some d → now < d) :
    a.poll now = a := by
  cases h with
  | idle | complete => rfl
  | receiving last | spoiled last =>
      have hlt : now < last + timing.silence := early _ rfl
      have hnot : ¬ timing.silence ≤ now - last := by omega
      exact if_neg (mt silentFor_iff.mp hnot)

theorem poll_due (h : a.Sound timing) {d : Nat} (deadline : a.deadline = some d) (due : d ≤ now) :
    (a.poll now).state ≠ a.state := by
  cases h with
  | idle | complete => cases deadline
  | receiving last | spoiled last =>
      have hd : last + timing.silence = d := Option.some.inj deadline
      have hsilent : timing.silence ≤ now - last := by omega
      simp only [Assembler.poll, if_pos (silentFor_iff.mpr hsilent), ne_eq, reduceCtorEq, not_false_eq_true]

/-- Polling changes the state from the deadline on, and before it nothing at all. -/
theorem poll_iff (h : a.Sound timing) (positive : 0 < timing.silence) (now : Nat) :
    ((a.poll now).state ≠ a.state ↔ ∃ d, a.deadline = some d ∧ d ≤ now) ∧
      ((a.poll now).state = a.state → a.poll now = a) := by
  by_cases due : ∃ d, a.deadline = some d ∧ d ≤ now
  · obtain ⟨d, deadline, le⟩ := due
    have changes := h.poll_due deadline le
    exact ⟨iff_of_true changes ⟨d, deadline, le⟩, fun same => absurd same changes⟩
  · have same : a.poll now = a :=
      h.poll_early positive fun d deadline => Nat.lt_of_not_le fun le => due ⟨d, deadline, le⟩
    exact ⟨iff_of_false (not_not_intro (congrArg state same)) due, fun _ => same⟩

end Assembler.Sound

theorem Stream.read_within {s rest : Stream} {now t : Nat} {limit : Option Nat} {bs : Bytes}
    (h : s.read now limit = .bytes t bs rest) : Within t limit := by
  unfold read at h
  split at h
  · split at h <;> (try split at h) <;> cases h
  · dsimp only at h
    split at h
    · rename_i within
      cases h
      exact within
    · cases h

theorem within_of_earlier {t : Nat} {limit limit' : Option Nat} (h : Within t (earlier limit limit')) :
    Within t limit' := by
  cases limit with
  | none => exact h
  | some l =>
      cases limit' with
      | none => exact nofun
      | some l' => exact within_some.mpr (Nat.le_trans (within_some.mp h) (Nat.min_le_right l l'))

namespace BurstReader

/-! ## Turns -/

variable {r : BurstReader}

/-- The turn was not in vain: there is less to read and to hand over, or polling changes the state. With a deadline, it is
over by then. -/
def Turn.GetsOn (clock : Nat) (line : Stream) (r : BurstReader) : Turn → Prop
  | .ends _ => True
  | .moved t line' r' =>
    r'.unread.length + line'.weight < r.unread.length + line.weight ∧
      ∀ d, (r.assembler.poll clock).deadline = some d → t ≤ max clock d
  | .woken t _ r' =>
    (r'.assembler.poll t).state ≠ r'.assembler.state ∧
      ∀ d, (r.assembler.poll clock).deadline = some d → t ≤ max clock d

variable {timing : Timing}

theorem getsOn_turn (sound : r.assembler.Sound timing) (limit : Option Nat) (clock : Nat) (line : Stream) :
    (turn limit clock line r).GetsOn clock line r := by
  have polled := sound.poll clock
  fun_cases turn limit clock line r with
  | case1 | case4 | case6 | case7 => trivial
  | case2 a _ _ b bs unread =>
      refine ⟨?_, fun d _ => Nat.le_max_left clock d⟩
      rw [unread]
      exact Nat.add_lt_add_right (Nat.succ_pos bs.length) line.weight
  | case3 a _ _ unread t bs line' read =>
      refine ⟨?_, fun d deadline => ?_⟩
      · have hweight := Stream.weight_read read
        rw [unread, List.length_nil]
        dsimp only
        omega
      · have within := Stream.read_within read
        rw [show a.deadline = some d from deadline] at within
        exact Nat.le_trans (within_of_earlier within _ rfl) (Nat.le_max_right clock d)
  | case5 a _ _ unread _ d deadline =>
      refine ⟨polled.poll_due deadline (Nat.le_max_right clock d), fun d' deadline' => ?_⟩
      have heq : d = d' := Option.some.inj (deadline.symm.trans deadline')
      rw [heq]

theorem idle_of_pending (sound : r.assembler.Sound timing) (clock : Nat) (line : Stream)
    (pending : (next none clock line r).outcome = .pending) :
    (next none clock line r).reader.assembler.state = .idle := by
  refine next_keeps (P := fun _ _ r => r.assembler.Sound timing)
    (Q := fun reading => reading.outcome = .pending → reading.reader.assembler.state = .idle)
    (fun clock line r sound => ?_) sound pending
  fun_cases turn none clock line r with
  | case1 | case4 => rintro ⟨⟩
  | case2 a _ take b bs => exact (sound.poll clock).pushAll _ clock
  | case3 | case5 => exact sound.poll clock
  | case6 a _ take unread read d deadline late => exact absurd (within_none d) late
  | case7 a _ take unread read deadline =>
      intro _
      obtain idle | complete := (sound.poll clock).deadline_eq_none_iff.mp deadline
      · exact idle
      · have frame := Assembler.take_eq_some_iff.mpr ⟨complete, rfl⟩
        rw [take] at frame
        cases frame

/-- For every baud rate and however the assembler has been used: polling changes its state from the deadline on, and before
it nothing at all; it has no deadline exactly when it is idle or has a frame; and a reader never sleeps for ever with an
unfinished frame, nor beyond the deadline, nor does it turn around in vain. -/
theorem wakes_in_time (config : SerialConfig) (uses : List Assembler.Use) :
    let a := (History.run Assembler.use { timing := config.timing } uses).2
    (∀ now, ((a.poll now).state ≠ a.state ↔ ∃ d, a.deadline = some d ∧ d ≤ now) ∧
      ((a.poll now).state = a.state → a.poll now = a)) ∧
    (a.deadline = none ↔ a.state = .idle ∨ a.state = .complete) ∧
    ∀ clock line unread,
      ((next none clock line ⟨a, unread⟩).outcome = .pending →
        (next none clock line ⟨a, unread⟩).reader.assembler.state = .idle) ∧
      ∀ limit, next limit clock line ⟨a, unread⟩ = (turn limit clock line ⟨a, unread⟩).follow limit ∧
        (turn limit clock line ⟨a, unread⟩).GetsOn clock line ⟨a, unread⟩ := by
  intro a
  have positive : 0 < config.timing.silence := Nat.zero_lt_of_lt config.short_timing
  have sound : a.Sound config.timing := Assembler.sound_run config.timing uses
  exact ⟨sound.poll_iff positive, sound.deadline_eq_none_iff, fun clock line unread =>
    ⟨idle_of_pending (r := ⟨a, unread⟩) sound clock line,
      fun limit => ⟨next_eq limit clock line _, getsOn_turn (r := ⟨a, unread⟩) sound limit clock line⟩⟩⟩

end BurstReader

end Modbus
