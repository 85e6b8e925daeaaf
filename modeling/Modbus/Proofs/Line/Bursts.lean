import Mathlib.Data.List.SplitBy
import Modbus.Line.Assembler

/-!
# Bursts on a serial line

Silence cuts what arrives on a serial line into bursts, and a burst is a frame if it is short enough and no gap in it is
too long. This is said of the characters alone. An assembler that is polled and emptied before each character finds
exactly these frames, whenever else it is polled.
-/

namespace Modbus

structure Character where
  time : Nat
  byte : UInt8
  deriving DecidableEq

namespace Timing

section

variable {α : Type} (timing : Timing) (time : α → Nat)

/-- What arrives, cut wherever the line has been silent. -/
def bursts (arrivals : List α) : List (List α) :=
  arrivals.splitBy fun x y => time y < time x + timing.silence

def Steady (arrivals : List α) : Prop := arrivals.IsChain fun x y => time y ≤ time x + timing.longestGap

instance (arrivals : List α) : Decidable (timing.Steady time arrivals) :=
  inferInstanceAs (Decidable (List.IsChain _ _))

variable {timing time}

theorem bursts_append {front back : List α} (apart : ∀ x ∈ front, ∀ y ∈ back, time x + timing.silence ≤ time y) :
    timing.bursts time (front ++ back) = timing.bursts time front ++ timing.bursts time back := by
  refine List.splitBy_append fun x hx y hy => decide_eq_false (Nat.not_lt.mpr ?_)
  exact apart x (List.mem_of_getLast? hx) y (List.mem_of_head? hy)

theorem mem_of_mem_bursts {arrivals burst : List α} (h : burst ∈ timing.bursts time arrivals) {x : α} (hx : x ∈ burst) :
    x ∈ arrivals := by
  rw [← List.flatten_splitBy (fun x y => decide (time y < time x + timing.silence)) arrivals]
  exact List.mem_flatten.mpr ⟨burst, h, hx⟩

theorem bursts_eq_singleton {burst : List α} (some : burst ≠ [])
    (unbroken : burst.IsChain fun x y => time y < time x + timing.silence) : timing.bursts time burst = [burst] :=
  List.splitBy_of_isChain some (unbroken.imp fun _ _ h => decide_eq_true h)

variable (timing) in
theorem exists_burst {x : α} {xs : List α} (sorted : (x :: xs).Pairwise fun x y => time x ≤ time y) :
    ∃ burst rest, x :: xs = (x :: burst) ++ rest ∧
      (x :: burst).IsChain (fun x y => time y < time x + timing.silence) ∧
      ∀ y ∈ x :: burst, ∀ z ∈ rest, time y + timing.silence ≤ time z := by
  induction xs generalizing x with
  | nil => exact ⟨[], [], rfl, List.isChain_singleton _, fun _ _ _ h => absurd h List.not_mem_nil⟩
  | cons y ys ih =>
      obtain ⟨hx, hys⟩ := List.pairwise_cons.mp sorted
      by_cases hgap : time y < time x + timing.silence
      · obtain ⟨burst, rest, heq, unbroken, apart⟩ := ih hys
        refine ⟨y :: burst, rest, by rw [heq]; rfl, List.isChain_cons_cons.mpr ⟨hgap, unbroken⟩, ?_⟩
        refine List.forall_mem_cons.mpr ⟨fun z hz => ?_, apart⟩
        exact Nat.le_trans (Nat.add_le_add_right (hx y List.mem_cons_self) _) (apart y List.mem_cons_self z hz)
      · refine ⟨[], y :: ys, rfl, List.isChain_singleton _, fun w hw z hz => ?_⟩
        rw [List.mem_singleton.mp hw]
        rcases List.mem_cons.mp hz with rfl | hz
        · exact Nat.le_of_not_lt hgap
        · exact Nat.le_trans (Nat.le_of_not_lt hgap) ((List.pairwise_cons.mp hys).1 z hz)

variable (timing) in
theorem bursts_induction {P : List α → Prop} (nil : P [])
    (burst : ∀ burst rest, burst ≠ [] → burst.IsChain (fun x y => time y < time x + timing.silence) →
      (∀ x ∈ burst, ∀ y ∈ rest, time x + timing.silence ≤ time y) → P rest → P (burst ++ rest))
    {arrivals : List α} (sorted : arrivals.Pairwise fun x y => time x ≤ time y) : P arrivals := by
  induction h : arrivals.length using Nat.strongRecOn generalizing arrivals with
  | ind n ih =>
      cases arrivals with
      | nil => exact nil
      | cons x xs =>
          obtain ⟨front, rest, heq, unbroken, apart⟩ := exists_burst timing sorted
          rw [heq] at sorted h ⊢
          have hlt : rest.length < n := by
            rw [List.length_append, List.length_cons] at h
            omega
          exact burst _ _ (List.cons_ne_nil _ _) unbroken apart (ih _ hlt (List.pairwise_append.mp sorted).2.1 rfl)

end

/-- A burst that a receiver takes as a frame. -/
def IsFrame (timing : Timing) (burst : List Character) : Prop :=
  burst.length ≤ 256 ∧ timing.Steady Character.time burst

instance (timing : Timing) (burst : List Character) : Decidable (timing.IsFrame burst) :=
  inferInstanceAs (Decidable (_ ∧ _))

def frames (timing : Timing) (characters : List Character) : List Bytes :=
  ((timing.bursts Character.time characters).filter (timing.IsFrame ·)).map (·.map Character.byte)

/-- A message whose characters follow each other as fast as they can. -/
def spaced (timing : Timing) (start : Nat) (message : Bytes) : List Character :=
  message.mapIdx fun i b => ⟨start + i * timing.character, b⟩

variable {timing : Timing}

theorem frames_append {front back : List Character}
    (apart : ∀ x ∈ front, ∀ y ∈ back, x.time + timing.silence ≤ y.time) :
    timing.frames (front ++ back) = timing.frames front ++ timing.frames back := by
  rw [frames, bursts_append apart, List.filter_append, List.map_append, frames, frames]

theorem frames_burst {burst : List Character} (some : burst ≠ [])
    (unbroken : burst.IsChain fun x y => y.time < x.time + timing.silence) :
    timing.frames burst = if timing.IsFrame burst then [burst.map Character.byte] else [] := by
  rw [frames, bursts_eq_singleton some unbroken, List.filter_singleton]
  by_cases h : timing.IsFrame burst <;> simp [h]

theorem isFrame_singleton (c : Character) : timing.IsFrame [c] :=
  ⟨by simp, List.isChain_singleton _⟩

/-- A burst goes on being a frame as long as there is room and no gap is too long. -/
theorem isFrame_snoc {burst : List Character} {last c : Character} :
    timing.IsFrame (burst ++ [last, c]) ↔
      timing.IsFrame (burst ++ [last]) ∧ (burst ++ [last]).length < 256 ∧
        c.time ≤ last.time + timing.longestGap := by
  have hlength : (burst ++ [last, c]).length = (burst ++ [last]).length + 1 := by simp
  unfold IsFrame Steady
  rw [List.isChain_append_cons_cons, hlength]
  constructor
  · rintro ⟨hroom, hfront, hgap, -⟩
    exact ⟨⟨by omega, hfront⟩, by omega, hgap⟩
  · rintro ⟨⟨-, hfront⟩, hroom, hgap⟩
    exact ⟨by omega, hfront, hgap, List.isChain_singleton _⟩

/-- At every baud rate a message without gaps is one burst, and a frame if it is not too long. -/
theorem frames_spaced (baud : UInt32) (start : Nat) {message : Bytes} (some : message ≠ [])
    (room : message.length ≤ 256) :
    (ofBaud baud).frames ((ofBaud baud).spaced start message) = [message] := by
  have hgap := character_le_ofBaud baud
  have hshort := short_ofBaud baud
  have hstep (i : Nat) : start + (i + 1) * (ofBaud baud).character =
      start + i * (ofBaud baud).character + (ofBaud baud).character := by
    rw [Nat.add_mul, Nat.one_mul, Nat.add_assoc]
  have hsome : (ofBaud baud).spaced start message ≠ [] := by simpa [spaced] using some
  have hunbroken : ((ofBaud baud).spaced start message).IsChain fun x y => y.time < x.time + (ofBaud baud).silence := by
    rw [List.isChain_iff_getElem]
    intro i hi
    simp only [spaced, List.getElem_mapIdx, hstep]
    omega
  have hframe : (ofBaud baud).IsFrame ((ofBaud baud).spaced start message) := by
    refine ⟨by rwa [spaced, List.length_mapIdx], ?_⟩
    rw [Steady, List.isChain_iff_getElem]
    intro i hi
    simp only [spaced, List.getElem_mapIdx, hstep]
    omega
  have hbytes : ((ofBaud baud).spaced start message).map Character.byte = message := by
    apply List.ext_getElem <;> simp [spaced]
  rw [frames_burst hsome hunbroken, if_pos hframe, hbytes]

end Timing

namespace Assembler

def attend (a : Assembler) (now : Nat) : Option Bytes × Assembler := (a.poll now).take

inductive Event
  /-- A character is pushed after the assembler has been polled and emptied at its time. -/
  | character (c : Character)
  | poll (time : Nat)

namespace Event

def time : Event → Nat
  | character c => c.time
  | poll time => time

def character? : Event → Option Character
  | character c => some c
  | poll _ => none

end Event

def characters (events : List Event) : List Character := events.filterMap Event.character?

def hear (a : Assembler) : Event → Option Bytes × Assembler
  | .character c => ((a.attend c.time).1, (a.attend c.time).2.push c.byte c.time)
  | .poll time => a.attend time

def run (a : Assembler) : List Event → List Bytes × Assembler
  | [] => ([], a)
  | e :: es => ((a.hear e).1.toList ++ ((a.hear e).2.run es).1, ((a.hear e).2.run es).2)

/-! ## Within a burst -/

/-- An assembler that has heard a burst so far, and the last character of it at the given time. -/
def within (timing : Timing) (burst : List Character) (last : Nat) : Assembler :=
  if timing.IsFrame burst then ⟨timing, .receiving, burst.map Character.byte, some last⟩
  else ⟨timing, .spoiled, [], some last⟩

variable {timing : Timing} {now : Nat}

theorem silentFor_iff {state : LineState} {buffer : Bytes} {last d : Nat} :
    silentFor ⟨timing, state, buffer, some last⟩ d now = true ↔ d ≤ now - last := decide_eq_true_iff

theorem push_idle (c : Character) (last : Option Nat) :
    push ⟨timing, .idle, [], last⟩ c.byte c.time = within timing [c] c.time :=
  (if_pos (Timing.isFrame_singleton c)).symm

theorem push_within (burst : List Character) (last c : Character) :
    (within timing (burst ++ [last]) last.time).push c.byte c.time = within timing (burst ++ [last, c]) c.time := by
  by_cases hframe : timing.IsFrame (burst ++ [last])
  · rw [within, if_pos hframe]
    have hiff : (longGap ⟨timing, .receiving, (burst ++ [last]).map Character.byte, some last.time⟩ c.time = true ∨
        Rtu.maxSize ≤ ((burst ++ [last]).map Character.byte).length) ↔ ¬ timing.IsFrame (burst ++ [last, c]) := by
      have hmax : Rtu.maxSize = 256 := rfl
      simp only [Timing.isFrame_snoc, hframe, true_and, longGap, silentFor_iff, List.length_map]
      omega
    by_cases hnext : timing.IsFrame (burst ++ [last, c])
    · rw [within, if_pos hnext]
      have hmap : (burst ++ [last, c]).map Character.byte = (burst ++ [last]).map Character.byte ++ [c.byte] := by simp
      rw [hmap]
      exact if_neg fun h => hiff.mp h hnext
    · rw [within, if_neg hnext]
      exact if_pos (hiff.mpr hnext)
  · rw [within, if_neg hframe, within, if_neg fun h => hframe (Timing.isFrame_snoc.mp h).1]
    rfl

theorem attend_within_of_lt (burst : List Character) {last : Nat} (present : last ≤ now)
    (soon : now < last + timing.silence) :
    (within timing burst last).attend now = (none, within timing burst last) := by
  have hnot : ¬ timing.silence ≤ now - last := by omega
  unfold within
  split
  · exact congrArg take (if_neg (mt silentFor_iff.mp hnot))
  · exact congrArg take (if_neg (mt silentFor_iff.mp hnot))

theorem attend_within_of_le (burst : List Character) {last : Nat} (silent : last + timing.silence ≤ now) :
    (within timing burst last).attend now =
      (if timing.IsFrame burst then some (burst.map Character.byte) else none, ⟨timing, .idle, [], some last⟩) := by
  have hle : timing.silence ≤ now - last := by omega
  unfold within
  split
  · exact congrArg take (if_pos (silentFor_iff.mpr hle))
  · exact congrArg take (if_pos (silentFor_iff.mpr hle))

theorem deadline_within (burst : List Character) (last : Nat) :
    (within timing burst last).deadline = some (last + timing.silence) := by
  unfold within
  split <;> rfl

/-! ## What an assembler has heard -/

/-- After polling at the given time, which characters have been heard, which frames were taken of them and what is held
of the rest. -/
inductive Tracks (timing : Timing) (now : Nat) : List Character → List Bytes → Assembler → Prop
  | quiet {heard last} (silent : ∀ c ∈ heard, c.time + timing.silence ≤ now) :
      Tracks timing now heard (timing.frames heard) ⟨timing, .idle, [], last⟩
  | within {heard burst last} (apart : ∀ c ∈ heard, ∀ d ∈ burst ++ [last], c.time + timing.silence ≤ d.time)
      (unbroken : (burst ++ [last]).IsChain fun c d => d.time < c.time + timing.silence)
      (latest : ∀ c ∈ burst, c.time ≤ last.time) (present : last.time ≤ now) (soon : now < last.time + timing.silence) :
      Tracks timing now (heard ++ (burst ++ [last])) (timing.frames heard)
        (Assembler.within timing (burst ++ [last]) last.time)

namespace Tracks

variable {heard : List Character} {found : List Bytes} {a : Assembler}

theorem start (timing : Timing) : Tracks timing 0 [] [] { timing } :=
  quiet fun _ h => absurd h List.not_mem_nil

theorem attend (h : Tracks timing now heard found a) {later : Nat} (le : now ≤ later) :
    Tracks timing later heard (found ++ (a.attend later).1.toList) (a.attend later).2 := by
  cases h with
  | quiet silent =>
      rw [Assembler.attend, show Option.toList _ = [] from rfl, List.append_nil]
      exact quiet fun c hc => Nat.le_trans (silent c hc) le
  | @within heard burst last apart unbroken latest present soon =>
      by_cases hsoon : later < last.time + timing.silence
      · rw [attend_within_of_lt _ (Nat.le_trans present le) hsoon, Option.toList_none, List.append_nil]
        exact within apart unbroken latest (Nat.le_trans present le) hsoon
      · have hsilent : last.time + timing.silence ≤ later := Nat.le_of_not_lt hsoon
        have hframes : timing.frames heard ++ Option.toList (if timing.IsFrame (burst ++ [last]) then
            some ((burst ++ [last]).map Character.byte) else none) = timing.frames (heard ++ (burst ++ [last])) := by
          rw [Timing.frames_append apart, Timing.frames_burst (by simp) unbroken]
          split <;> rfl
        rw [attend_within_of_le _ hsilent, hframes]
        refine quiet fun c hc => ?_
        rcases List.mem_append.mp hc with hc | hc
        · have := apart c hc last (by simp)
          omega
        · rcases List.mem_append.mp hc with hc | hc
          · have := latest c hc
            omega
          · rw [List.mem_singleton.mp hc]
            exact hsilent

theorem push (h : Tracks timing now heard found a) (positive : 0 < timing.silence) {c : Character}
    (time : c.time = now) : Tracks timing now (heard ++ [c]) found (a.push c.byte c.time) := by
  have hsoon : now < c.time + timing.silence := by omega
  cases h with
  | quiet silent =>
      rw [push_idle]
      refine @within timing now heard [] c (fun d hd e he => ?_) (List.isChain_singleton _) (by simp) (by omega) hsoon
      rw [List.nil_append, List.mem_singleton] at he
      rw [he, time]
      exact silent d hd
  | @within heard burst last apart unbroken latest present soon =>
      have hburst : burst ++ [last, c] = (burst ++ [last]) ++ [c] := by simp
      rw [push_within, hburst, List.append_assoc]
      have hgap : c.time < last.time + timing.silence := by omega
      refine within (fun d hd e he => ?_) ?_ (fun d hd => ?_) (by omega) hsoon
      · rcases List.mem_append.mp he with he | he
        · exact apart d hd e he
        · have := apart d hd last (by simp)
          rw [List.mem_singleton.mp he]
          omega
      · rw [← hburst, List.isChain_append_cons_cons]
        exact ⟨unbroken, hgap, List.isChain_singleton _⟩
      · rcases List.mem_append.mp hd with hd | hd
        · have := latest d hd
          omega
        · rw [List.mem_singleton.mp hd]
          omega

theorem pushAll (h : Tracks timing now heard found a) (positive : 0 < timing.silence) (bs : Bytes) :
    Tracks timing now (heard ++ bs.map (Character.mk now)) found (a.pushAll bs now) := by
  induction bs generalizing heard a with
  | nil => rwa [List.map_nil, List.append_nil]
  | cons b bs ih =>
      rw [List.map_cons, ← List.singleton_append, ← List.append_assoc]
      exact ih (@push _ _ _ _ _ h positive ⟨now, b⟩ rfl)

theorem hear (h : Tracks timing now heard found a) (positive : 0 < timing.silence) (e : Event) (le : now ≤ e.time) :
    Tracks timing e.time (heard ++ e.character?.toList) (found ++ (a.hear e).1.toList) (a.hear e).2 := by
  cases e with
  | character c => exact (h.attend le).push positive rfl
  | poll time =>
      rw [show (Event.poll time).character?.toList = [] from rfl, List.append_nil]
      exact h.attend le

theorem run {events : List Event} {final : Nat} (h : Tracks timing now heard found a) (positive : 0 < timing.silence)
    (sorted : (now :: (events ++ [Event.poll final]).map Event.time).Pairwise (· ≤ ·)) :
    Tracks timing final (heard ++ characters events) (found ++ (a.run (events ++ [.poll final])).1)
      (a.run (events ++ [.poll final])).2 := by
  induction events generalizing now heard found a with
  | nil =>
      have le : now ≤ final := List.rel_of_pairwise_cons sorted (List.mem_singleton_self _)
      simpa [Assembler.run, characters, Assembler.hear] using h.attend le
  | cons e events ih =>
      obtain ⟨hfirst, hrest⟩ := List.pairwise_cons.mp sorted
      have hstep := h.hear positive e (hfirst e.time (by simp))
      have hcharacters : characters (e :: events) = e.character?.toList ++ characters events := by
        cases e <;> rfl
      rw [hcharacters, List.cons_append, Assembler.run, ← List.append_assoc, ← List.append_assoc]
      exact ih hstep hrest

theorem silent (h : Tracks timing now heard found a) (silent : ∀ c ∈ heard, c.time + timing.silence ≤ now) :
    found = timing.frames heard := by
  cases h with
  | quiet => rfl
  | @within heard burst last apart unbroken latest present soon =>
      have := silent last (by simp)
      omega

end Tracks

/-- Whatever the baud rate, the frames that are taken are the bursts that are short and steady enough, in order. -/
theorem run_frames (baud : UInt32) {events : List Event} {final : Nat}
    (sorted : ((events ++ [Event.poll final]).map Event.time).Pairwise (· ≤ ·))
    (silent : ∀ c ∈ characters events, c.time + (Timing.ofBaud baud).silence ≤ final) :
    (run { timing := Timing.ofBaud baud } (events ++ [.poll final])).1 =
        (Timing.ofBaud baud).frames (characters events) ∧
      ∀ start message, 1 ≤ message.length → message.length ≤ 256 →
        characters events = (Timing.ofBaud baud).spaced start message →
        (run { timing := Timing.ofBaud baud } (events ++ [.poll final])).1 = [message] := by
  have positive : 0 < (Timing.ofBaud baud).silence := Nat.zero_lt_of_lt (Timing.short_ofBaud baud)
  have tracks := (Tracks.start (Timing.ofBaud baud)).run positive
    (List.pairwise_cons.mpr ⟨fun t _ => Nat.zero_le t, sorted⟩)
  have hframes := tracks.silent silent
  refine ⟨hframes, fun start message some room hspaced => ?_⟩
  rw [List.nil_append, List.nil_append, hspaced] at hframes
  rw [hframes]
  exact Timing.frames_spaced baud start (List.length_pos_iff.mp some) room

/-- A gap as long as a frame admits, then silence as short as may be, a gap that is too long, and one more frame. -/
theorem run_frames_gaps :
    let events : List Event :=
      [.character ⟨1000, 1⟩, .character ⟨751000, 2⟩, .poll 2500999, .character ⟨2501000, 3⟩, .poll 3000000,
        .character ⟨3251001, 4⟩, .character ⟨5001001, 5⟩]
    ((events ++ [Event.poll 6751001]).map Event.time).Pairwise (· ≤ ·) ∧
      (∀ c ∈ characters events, c.time + (Timing.ofBaud 115200).silence ≤ 6751001) ∧
      (run { timing := Timing.ofBaud 115200 } (events ++ [.poll 6751001])).1 = [[1, 2], [5]] := by
  intro events
  have sorted : ((events ++ [Event.poll 6751001]).map Event.time).Pairwise (· ≤ ·) := by decide
  have silent : ∀ c ∈ characters events, c.time + (Timing.ofBaud 115200).silence ≤ 6751001 := by decide
  have hframes : (Timing.ofBaud 115200).frames (characters events) = [[1, 2], [5]] := by decide
  exact ⟨sorted, silent, (run_frames 115200 sorted silent).1.trans hframes⟩

end Assembler

end Modbus
