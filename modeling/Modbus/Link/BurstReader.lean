import Modbus.Line.Assembler
import Modbus.Link.Stream

/-!
# Reading bursts from a stream

A frame on a serial line ends with silence. The reader polls its assembler, hands it everything that has been read,
and waits for more bytes until the assembler's deadline; bytes that arrive at the deadline are read but belong
to the next frame. `weight_next` says that every burst uses up some of what was to be read.
-/

namespace Modbus

structure BurstReader where
  assembler : Assembler
  /-- Bytes that have been read and not been handed to the assembler. -/
  unread : Bytes := []
  deriving DecidableEq

namespace BurstReader

inductive Turn
  | ends (reading : Reading BurstReader Bytes)
  | moved (clock : Nat) (line : Stream) (r : BurstReader)
  /-- The deadline of the assembler has come with nothing to read. -/
  | woken (clock : Nat) (line : Stream) (r : BurstReader)

/-- The turn goes on where `P` holds, or ends with a reading for which `Q` holds. -/
def Turn.Leads (P : Nat → Stream → BurstReader → Prop) (Q : Reading BurstReader Bytes → Prop) : Turn → Prop
  | ends reading => Q reading
  | moved clock line r | woken clock line r => P clock line r

def turn (limit : Option Nat) (clock : Nat) (line : Stream) (r : BurstReader) : Turn :=
  let a := r.assembler.poll clock
  match a.take with
  | (some frame, a) => .ends ⟨.done frame, clock, line, { r with assembler := a }⟩
  | (none, _) =>
    match r.unread with
    | b :: bs => .moved clock line ⟨a.pushAll (b :: bs) clock, []⟩
    | [] =>
      match line.read clock (earlier limit a.deadline) with
      | .bytes t bs line' => .moved t line' ⟨a, bs⟩
      | .closed t => .ends ⟨.failed .serialStreamClosed, t, line, ⟨a, []⟩⟩
      | .pending =>
        match a.deadline with
        | some d =>
          if Within d limit then .woken (max clock d) line ⟨a, []⟩
          else .ends ⟨.pending, waited clock limit, line, ⟨a, []⟩⟩
        | none => .ends ⟨.pending, waited clock limit, line, ⟨a, []⟩⟩

/-- Every turn takes pieces off the stream, hands bytes on, or leaves the assembler without a deadline. -/
theorem turn_less (limit : Option Nat) (clock : Nat) (line : Stream) (r : BurstReader) :
    (turn limit clock line r).Leads (fun clock' line' r' =>
      Prod.Lex (· < ·) (Prod.Lex (· < ·) (· < ·))
        (line'.arrivals.length, r'.unread.length, (r'.assembler.poll clock').deadline.isSome.toNat)
        (line.arrivals.length, r.unread.length, (r.assembler.poll clock).deadline.isSome.toNat)) fun _ => True := by
  fun_cases turn limit clock line r with
  | case1 | case4 | case6 | case7 => trivial
  | case2 a _ _ b bs unread =>
    rw [unread]
    exact .right _ (.left _ _ (Nat.succ_pos bs.length))
  | case3 a _ _ unread t bs line' read => exact .left _ _ (Stream.length_arrivals_read read)
  | case5 a _ _ unread _ d deadline _ =>
    have passed : (a.poll (max clock d)).deadline = none := Assembler.deadline_poll deadline (Nat.le_max_right ..)
    rw [unread]
    refine .right _ (.right _ ?_)
    show (a.poll (max clock d)).deadline.isSome.toNat < a.deadline.isSome.toNat
    rw [passed, deadline]
    exact Nat.one_pos

def next (limit : Option Nat) (clock : Nat) (line : Stream) (r : BurstReader) : Reading BurstReader Bytes :=
  match _ : turn limit clock line r with
  | .ends reading => reading
  | .moved clock' line' r' | .woken clock' line' r' => next limit clock' line' r'
termination_by (line.arrivals.length, r.unread.length, (r.assembler.poll clock).deadline.isSome.toNat)
decreasing_by
  all_goals
    rename_i h
    have := turn_less limit clock line r
    rw [h] at this
    exact this

def Turn.follow (limit : Option Nat) : Turn → Reading BurstReader Bytes
  | ends reading => reading
  | moved clock line r | woken clock line r => next limit clock line r

theorem next_eq (limit : Option Nat) (clock : Nat) (line : Stream) (r : BurstReader) :
    next limit clock line r = (turn limit clock line r).follow limit := by
  rw [next]
  generalize turn limit clock line r = t
  cases t <;> rfl

/-- What every turn keeps holds until the reader ends. -/
theorem next_keeps {limit : Option Nat} {P : Nat → Stream → BurstReader → Prop} {Q : Reading BurstReader Bytes → Prop}
    (step : ∀ clock line r, P clock line r → (turn limit clock line r).Leads P Q) {clock : Nat} {line : Stream}
    {r : BurstReader} (h : P clock line r) : Q (next limit clock line r) := by
  fun_induction next limit clock line r with
  | case1 clock line r reading heq =>
    have := step clock line r h
    rwa [heq] at this
  | case2 clock line r clock' line' r' heq ih | case3 clock line r clock' line' r' heq ih =>
    have := step clock line r h
    rw [heq] at this
    exact ih this

/-- A frame has begun and has not been taken. -/
def begun : LineState → Nat
  | .receiving | .complete => 1
  | .idle | .spoiled => 0

def started (a : Assembler) : Nat := begun a.state

theorem started_le (a : Assembler) : started a ≤ 1 := by
  unfold started begun
  split <;> omega

theorem started_poll (a : Assembler) (now : Nat) : started (a.poll now) = started a := by
  unfold started Assembler.poll
  split <;> (try split) <;> simp_all [begun]

theorem started_take {a b : Assembler} {frame : Bytes} (h : a.take = (some frame, b)) :
    started a = 1 ∧ started b = 0 := by
  unfold Assembler.take at h
  split at h
  · rename_i hs
    simp only [Prod.mk.injEq, Option.some.injEq] at h
    obtain ⟨-, rfl⟩ := h
    simp [started, begun, hs]
  · simp at h

/-- What a reader can still find: twice the bytes it has not looked at, and the frame it has begun. -/
def weight (r : BurstReader) : Nat := 2 * r.unread.length + started r.assembler

/-- What a reader finds is taken from the stream and from what it holds; nothing is sent meanwhile. -/
theorem next_spends (limit : Option Nat) (clock : Nat) (line : Stream) (r : BurstReader) :
    (next limit clock line r).line.sent = line.sent ∧
      (next limit clock line r).reader.weight + 2 * (next limit clock line r).line.weight
        ≤ r.weight + 2 * line.weight ∧
      ((next limit clock line r).outcome.GoesOn →
        (next limit clock line r).reader.weight + 2 * (next limit clock line r).line.weight
          < r.weight + 2 * line.weight) := by
  refine next_keeps (P := fun _ line' r' => line'.sent = line.sent ∧
      r'.weight + 2 * line'.weight ≤ r.weight + 2 * line.weight)
    (Q := fun reading => reading.line.sent = line.sent ∧
      reading.reader.weight + 2 * reading.line.weight ≤ r.weight + 2 * line.weight ∧
      (reading.outcome.GoesOn → reading.reader.weight + 2 * reading.line.weight < r.weight + 2 * line.weight))
    (fun clock line' r' h => ?_) ⟨rfl, Nat.le_refl _⟩
  obtain ⟨hsent, hle⟩ := h
  unfold weight at hle ⊢
  fun_cases turn limit clock line' r' with
  | case1 a frame b take =>
    have hp : started a = started r'.assembler := started_poll r'.assembler clock
    have ht : started a = 1 ∧ started b = 0 := started_take take
    exact ⟨hsent, by dsimp only; omega, fun _ => by dsimp only; omega⟩
  | case2 a _ take b bs unread =>
    have hl := started_le (a.pushAll (b :: bs) clock)
    rw [unread, List.length_cons] at hle
    exact ⟨hsent, by dsimp only [List.length_nil]; omega⟩
  | case3 a _ take unread t bs line'' read =>
    have hp : started a = started r'.assembler := started_poll r'.assembler clock
    have hw := Stream.weight_read read
    rw [unread, List.length_nil] at hle
    exact ⟨(Stream.sent_read read).trans hsent, by dsimp only; omega⟩
  | case5 a _ take unread read d deadline within =>
    have hp : started a = started r'.assembler := started_poll r'.assembler clock
    rw [unread, ← hp] at hle
    exact ⟨hsent, hle⟩
  | case4 a _ take unread | case6 a _ take unread | case7 a _ take unread =>
    have hp : started a = started r'.assembler := started_poll r'.assembler clock
    rw [unread, ← hp] at hle
    exact ⟨hsent, hle, nofun⟩

theorem weight_next (limit : Option Nat) (clock : Nat) (line : Stream) (r : BurstReader)
    (h : (next limit clock line r).outcome.GoesOn) :
    (next limit clock line r).reader.weight + 2 * (next limit clock line r).line.weight
      < r.weight + 2 * line.weight :=
  (next_spends limit clock line r).2.2 h

theorem next_le (limit : Option Nat) (clock : Nat) (line : Stream) (r : BurstReader) :
    (next limit clock line r).line.sent = line.sent ∧
      (next limit clock line r).reader.weight + 2 * (next limit clock line r).line.weight
        ≤ r.weight + 2 * line.weight :=
  ⟨(next_spends limit clock line r).1, (next_spends limit clock line r).2.1⟩

end BurstReader

end Modbus
