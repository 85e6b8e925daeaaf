import Modbus.Line.Assembler
import Modbus.Proofs.History

/-!
# Assemblers in any use

An assembler need not be polled before a character is pushed, nor emptied when a frame is complete, and its clock may run
backwards. Whatever is done with it, it holds bytes exactly while it is receiving a frame or has one complete, and the
frames that are taken of it are separate stretches of what was pushed, in order.
-/

namespace Modbus.Assembler

inductive Use
  | push (byte : UInt8) (time : Nat)
  | poll (time : Nat)
  | take

def Use.byte? : Use → Option UInt8
  | push b _ => some b
  | poll _ | take => none

def use (a : Assembler) : Use → Option Bytes × Assembler
  | .push b time => (none, a.push b time)
  | .poll time => (none, a.poll time)
  | .take => a.take

variable {timing : Timing} {a : Assembler}

/-! ## Shapes -/

/-- The shapes in which an assembler can be found. -/
inductive Sound (timing : Timing) : Assembler → Prop
  | idle (last : Option Nat) : Sound timing ⟨timing, .idle, [], last⟩
  | receiving {buffer : Bytes} (last : Nat) (begun : 1 ≤ buffer.length) (room : buffer.length ≤ 256) :
      Sound timing ⟨timing, .receiving, buffer, some last⟩
  | complete {buffer : Bytes} (last : Nat) (begun : 1 ≤ buffer.length) (room : buffer.length ≤ 256) :
      Sound timing ⟨timing, .complete, buffer, some last⟩
  | spoiled (last : Nat) : Sound timing ⟨timing, .spoiled, [], some last⟩

theorem Sound.push_cases (h : a.Sound timing) (b : UInt8) (now : Nat) :
    a.push b now = ⟨timing, .receiving, [b], some now⟩ ∨
      a.buffer.length < 256 ∧ a.push b now = ⟨timing, .receiving, a.buffer ++ [b], some now⟩ ∨
      a.push b now = ⟨timing, .spoiled, [], some now⟩ := by
  cases h with
  | idle last => exact .inl rfl
  | complete last begun room => exact .inl rfl
  | spoiled last => exact .inr (.inr rfl)
  | @receiving buffer last begun room =>
      by_cases lost : longGap ⟨timing, .receiving, buffer, some last⟩ now = true ∨ Rtu.maxSize ≤ buffer.length
      · exact .inr (.inr (if_pos lost))
      · rw [not_or] at lost
        exact .inr (.inl ⟨Nat.lt_of_not_le lost.2, if_neg (not_or.mpr lost)⟩)

theorem Sound.poll_cases (h : a.Sound timing) (now : Nat) : a.poll now = a ∨
    a.state = .receiving ∧ a.poll now = { a with state := .complete } ∨
    a.state = .spoiled ∧ a.poll now = { a with state := .idle } := by
  cases h with
  | idle last => exact .inl rfl
  | complete last begun room => exact .inl rfl
  | @receiving buffer last begun room =>
      by_cases silent : silentFor ⟨timing, .receiving, buffer, some last⟩ timing.silence now = true
      · exact .inr (.inl ⟨rfl, if_pos silent⟩)
      · exact .inl (if_neg silent)
  | spoiled last =>
      by_cases silent : silentFor ⟨timing, .spoiled, [], some last⟩ timing.silence now = true
      · exact .inr (.inr ⟨rfl, if_pos silent⟩)
      · exact .inl (if_neg silent)

namespace Sound

theorem push (h : a.Sound timing) (b : UInt8) (now : Nat) : (a.push b now).Sound timing := by
  obtain hpush | ⟨room, hpush⟩ | hpush := h.push_cases b now
  · rw [hpush]
    exact .receiving now (Nat.le_refl 1) (by rw [List.length_singleton]; decide)
  · rw [hpush]
    refine .receiving now ?_ ?_ <;> rw [List.length_append, List.length_singleton] <;> omega
  · rw [hpush]
    exact .spoiled now

theorem pushAll (h : a.Sound timing) (bs : Bytes) (now : Nat) : (a.pushAll bs now).Sound timing := by
  induction bs generalizing a with
  | nil => exact h
  | cons b bs ih => exact ih (h.push b now)

theorem poll (h : a.Sound timing) (now : Nat) : (a.poll now).Sound timing := by
  obtain hpoll | ⟨hstate, hpoll⟩ | ⟨hstate, hpoll⟩ := h.poll_cases now
  · rwa [hpoll]
  · rw [hpoll]
    cases h with
    | receiving last begun room => exact .complete last begun room
    | _ => cases hstate
  · rw [hpoll]
    cases h with
    | spoiled last => exact .idle last
    | _ => cases hstate

theorem take (h : a.Sound timing) : a.take.2.Sound timing := by
  cases h with
  | idle last => exact .idle last
  | receiving last begun room => exact .receiving last begun room
  | complete last begun room => exact .idle last
  | spoiled last => exact .spoiled last

theorem use (h : a.Sound timing) (u : Use) : (a.use u).2.Sound timing := by
  cases u with
  | push b time => exact h.push b time
  | poll time => exact h.poll time
  | take => exact h.take

end Sound

/-- However it has been used, an assembler is in one of these shapes. -/
theorem sound_run (timing : Timing) (uses : List Use) : (History.run use { timing } uses).2.Sound timing :=
  History.run_induction (P := fun _ a => Sound timing a) (.idle none) (fun _ _ u h => h.use u) uses

/-! ## Frames apart -/

/-- The bytes can be cut into parts, the last of which is what is held, and the frames are some of the others in order. -/
def Apart (bytes : Bytes) (frames : List Bytes) (held : Bytes) : Prop :=
  ∃ parts : List Bytes, parts.flatten ++ held = bytes ∧ frames.Sublist parts

namespace Apart

variable {bytes held : Bytes} {frames : List Bytes}

theorem hold (h : Apart bytes frames held) (b : UInt8) : Apart (bytes ++ [b]) frames (held ++ [b]) := by
  obtain ⟨parts, hparts, hframes⟩ := h
  exact ⟨parts, by rw [← List.append_assoc, hparts], hframes⟩

theorem drop (h : Apart bytes frames held) : Apart bytes frames [] := by
  obtain ⟨parts, hparts, hframes⟩ := h
  refine ⟨parts ++ [held], ?_, hframes.trans (List.sublist_append_left parts [held])⟩
  rw [List.flatten_append, List.flatten_singleton, List.append_nil, hparts]

theorem take (h : Apart bytes frames held) : Apart bytes (frames ++ [held]) [] := by
  obtain ⟨parts, hparts, hframes⟩ := h
  refine ⟨parts ++ [held], ?_, hframes.append_right [held]⟩
  rw [List.flatten_append, List.flatten_singleton, List.append_nil, hparts]

end Apart

theorem apart_push {bytes : Bytes} {frames : List Bytes} (sound : a.Sound timing) (h : Apart bytes frames a.buffer)
    (b : UInt8) (now : Nat) : Apart (bytes ++ [b]) frames (a.push b now).buffer := by
  obtain hpush | ⟨-, hpush⟩ | hpush := sound.push_cases b now
  · rw [hpush]
    exact h.drop.hold b
  · rw [hpush]
    exact h.hold b
  · rw [hpush]
    exact (h.hold b).drop

theorem apart_poll {bytes : Bytes} {frames : List Bytes} (sound : a.Sound timing) (h : Apart bytes frames a.buffer)
    (now : Nat) : Apart bytes frames (a.poll now).buffer := by
  obtain hpoll | ⟨-, hpoll⟩ | ⟨-, hpoll⟩ := sound.poll_cases now <;> rwa [hpoll]

theorem apart_take {bytes : Bytes} {frames : List Bytes} (h : Apart bytes frames a.buffer) :
    Apart bytes (frames ++ a.take.1.toList) a.take.2.buffer := by
  unfold Assembler.take
  split
  · exact h.take
  · rw [Option.toList_none, List.append_nil]
    exact h

def pushed (uses : List Use) : Bytes := uses.filterMap Use.byte?

def taken (log : List (Use × Option Bytes)) : List Bytes := log.filterMap (·.2)

theorem apart_use {uses : List Use} {frames : List Bytes} (sound : a.Sound timing)
    (h : Apart (pushed uses) frames a.buffer) (u : Use) :
    Apart (pushed (uses ++ [u])) (frames ++ (a.use u).1.toList) (a.use u).2.buffer := by
  rw [pushed, List.filterMap_append]
  cases u with
  | push b time =>
      rw [use, Option.toList_none, List.append_nil]
      exact apart_push sound h b time
  | poll time =>
      rw [use, Option.toList_none, List.append_nil]
      exact (List.append_nil (pushed uses)).symm ▸ apart_poll sound h time
  | take =>
      rw [use]
      exact (List.append_nil (pushed uses)).symm ▸ apart_take h

theorem apart_run (timing : Timing) (uses : List Use) :
    Apart (pushed uses) (taken (History.run use { timing } uses).1) (History.run use { timing } uses).2.buffer := by
  have kept : (History.run use { timing } uses).2.Sound timing ∧
      Apart (pushed ((History.run use { timing } uses).1.map (·.1))) (taken (History.run use { timing } uses).1)
        (History.run use { timing } uses).2.buffer := by
    refine History.run_induction (P := fun log a => Sound timing a ∧ Apart (pushed (log.map (·.1))) (taken log) a.buffer)
      ⟨.idle none, [], rfl, .slnil⟩ (fun log a u ⟨sound, apart⟩ => ⟨sound.use u, ?_⟩) uses
    rw [List.map_append, taken, History.filterMap_snoc]
    exact apart_use sound apart u
  rw [History.log_run] at kept
  exact kept.2

theorem Sound.empty (h : a.Sound timing) (quiet : a.state = .idle ∨ a.state = .spoiled) : a.buffer = [] := by
  cases h with
  | idle | spoiled => rfl
  | receiving | complete => exact nomatch quiet

theorem Sound.filled (h : a.Sound timing) (busy : a.state = .receiving ∨ a.state = .complete) :
    1 ≤ a.buffer.length ∧ a.buffer.length ≤ 256 := by
  cases h with
  | idle | spoiled => exact nomatch busy
  | receiving last begun room | complete last begun room => exact ⟨begun, room⟩

theorem take_eq_some_iff {frame : Bytes} : a.take.1 = some frame ↔ a.state = .complete ∧ a.buffer = frame := by
  unfold take
  split
  · rename_i complete
    exact ⟨fun h => ⟨complete, Option.some.inj h⟩, fun h => congrArg some h.2⟩
  · rename_i incomplete
    exact iff_of_false nofun fun h => incomplete h.1

/-- However an assembler is used, and whatever the times, it holds bytes exactly while it is receiving or has a frame, at
most 256 of them; a frame is there to be taken exactly when it is complete; and the frames that are taken are stretches of
what was pushed, in order, which have no byte in common. -/
theorem run_keeps_apart (timing : Timing) (uses : List Use) :
    let log := (History.run use { timing } uses).1
    let a := (History.run use { timing } uses).2
    (a.state = .idle ∨ a.state = .spoiled → a.buffer = []) ∧
    (a.state = .receiving ∨ a.state = .complete → 1 ≤ a.buffer.length ∧ a.buffer.length ≤ 256) ∧
    (∀ frame, a.take.1 = some frame ↔ a.state = .complete ∧ a.buffer = frame) ∧
    Apart (pushed uses) (taken log) a.buffer := by
  intro log a
  have sound : a.Sound timing := sound_run timing uses
  exact ⟨sound.empty, sound.filled, fun frame => take_eq_some_iff, apart_run timing uses⟩

end Modbus.Assembler
