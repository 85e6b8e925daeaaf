import Modbus.Frame.Ascii
import Modbus.Frame.Mbap
import Modbus.Link.Stream

/-!
# Reading frames from a stream

Bytes are collected in a buffer and frames are taken off as soon as they are there. The buffer has a fixed size, and
the places that frames have left are used again only when the end of the buffer is reached; a read brings no more than
there is room for behind the bytes that are held, so a long burst is looked at in pieces. Behind the end of the stream
what is left is decoded once more; if it is no frame, that is reported once and from then on the stream is closed.
`weight_next` says that every frame and every report uses something up, so a finite stream is read to its end.
-/

namespace Modbus

def bufferSize : Nat := 8192

/-- Where bytes begin that more are to be read behind: they are moved to the front if there is no room left. -/
def bufferStart (start length : Nat) : Nat := if start + length < bufferSize then start else 0

theorem bufferStart_add_lt {length : Nat} (start : Nat) (h : length < bufferSize) :
    bufferStart start length + length < bufferSize := by
  unfold bufferStart
  split <;> omega

structure Envelope where
  decode : Bytes → Option Frame × Bytes
  /-- How far the front of a buffer moves when it is decoded. -/
  passed : Bytes → Nat
  unfinished : Fault
  closed : Fault
  decode_shorter : ∀ b, (decode b).1.isSome → (decode b).2.length < b.length
  decode_le : ∀ b, (decode b).2.length ≤ b.length
  decode_none : ∀ b, (decode b).1 = none → (decode b).2.length < bufferSize
  closed_isFatal : closed.isFatal = true

namespace Envelope

/-- Takes the next frame off a buffer to which nothing will be added. -/
def decodeLast (env : Envelope) (buffer : Bytes) : Except Fault (Option Frame) × Bytes :=
  match env.decode buffer with
  | (some frame, rest) => (.ok (some frame), rest)
  | (none, []) => (.ok none, [])
  | (none, b :: rest) => (.error env.unfinished, b :: rest)

theorem decodeLast_le (env : Envelope) (b : Bytes) : (env.decodeLast b).2.length ≤ b.length := by
  have := env.decode_le b
  unfold decodeLast
  split <;> rename_i heq <;> simp_all

theorem decodeLast_shorter {env : Envelope} {b rest : Bytes} {frame : Frame}
    (h : env.decodeLast b = (.ok (some frame), rest)) : rest.length < b.length := by
  have := env.decode_shorter b
  unfold decodeLast at h
  split at h <;> rename_i heq <;> simp_all

end Envelope

namespace Mbap

theorem decode_le (b : Bytes) : (decode b).2.length ≤ b.length := by
  unfold decode
  split
  · dsimp only
    split
    · simp
    · split
      · simp
      · split <;> simp <;> omega
  · simp

theorem decode_shorter (b : Bytes) (h : (decode b).1.isSome) : (decode b).2.length < b.length := by
  unfold decode at h ⊢
  split
  · dsimp only at h ⊢
    split
    · simp
    · rename_i hl
      split
      · rename_i hb
        rw [if_neg hl, if_pos hb] at h
        cases h
      · split <;> simp <;> omega
  · simp at h

theorem decode_none (b : Bytes) (h : (decode b).1 = none) : (decode b).2.length < bufferSize := by
  unfold decode at h ⊢
  unfold bufferSize
  split
  · rename_i t₁ t₀ p₁ p₀ l₁ l₀ unit body
    dsimp only at h ⊢
    by_cases hl : (word l₁ l₀).toNat < 2 ∨ Pdu.maxSize < (word l₁ l₀).toNat - 1
    · rw [if_pos hl] at h
      cases h
    · by_cases hb : body.length < (word l₁ l₀).toNat - 1
      · rw [if_neg hl, if_pos hb]
        have : Pdu.maxSize = 253 := rfl
        simp only [List.length_cons]
        omega
      · rw [if_neg hl, if_neg hb] at h
        split at h <;> cases h
  · rename_i hb
    match b, hb with
    | [], _ | [_], _ | [_, _], _ | [_, _, _], _ | [_, _, _, _], _ | [_, _, _, _, _], _ | [_, _, _, _, _, _], _ => simp
    | _ :: _ :: _ :: _ :: _ :: _ :: _ :: _, hb => exact absurd rfl (hb _ _ _ _ _ _ _ _)

def envelope : Envelope where
  decode := decode
  passed := passed
  unfinished := .streamClosedInFrame
  closed := .connectionClosed
  decode_shorter := decode_shorter
  decode_le := decode_le
  decode_none := decode_none
  closed_isFatal := rfl

end Mbap

namespace Ascii

theorem splitLine_length {b line rest : Bytes} (h : splitLine b = some (line, rest)) :
    line.length + 2 + rest.length = b.length := by
  induction b generalizing line with
  | nil => simp [splitLine] at h
  | cons c cs ih =>
    unfold splitLine at h
    split at h
    · rename_i hc
      simp only [Option.some.injEq, Prod.mk.injEq] at h
      obtain ⟨rfl, rfl⟩ := h
      cases cs with
      | nil => simp at hc
      | cons d ds => simp; omega
    · simp only [Option.map_eq_some_iff] at h
      obtain ⟨⟨line', rest'⟩, hs, he⟩ := h
      simp only [Prod.mk.injEq] at he
      obtain ⟨rfl, rfl⟩ := he
      have := ih hs
      simp only [List.length_cons]
      omega

theorem decode_le (b : Bytes) : (decode b).2.length ≤ b.length := by
  have hd := (List.dropWhile_sublist (fun c => decide (c ≠ start)) (l := b)).length_le
  unfold decode
  dsimp only
  split
  · rename_i line rest h
    have := splitLine_length h
    simp only
    omega
  · split
    · simp
    · exact hd

theorem decode_shorter (b : Bytes) (h : (decode b).1.isSome) : (decode b).2.length < b.length := by
  have hd := (List.dropWhile_sublist (fun c => decide (c ≠ start)) (l := b)).length_le
  unfold decode at h ⊢
  dsimp only at h ⊢
  cases hs : splitLine (b.dropWhile fun c => decide (c ≠ start)) with
  | some found =>
    obtain ⟨line, rest⟩ := found
    have := splitLine_length hs
    simp only
    omega
  | none =>
    simp only [hs] at h
    split at h
    · rename_i hl
      simp only [if_pos hl, List.length_nil]
      omega
    · cases h

theorem decode_none (b : Bytes) (h : (decode b).1 = none) : (decode b).2.length < bufferSize := by
  unfold decode at h ⊢
  dsimp only at h ⊢
  cases hs : splitLine (b.dropWhile fun c => decide (c ≠ start)) with
  | some found =>
    simp only [hs] at h
    cases h
  | none =>
    simp only [hs] at h
    split at h
    · cases h
    · rename_i hl
      have hm : maxSize = 513 := rfl
      simp only [if_neg hl, bufferSize]
      omega

def envelope : Envelope where
  decode := decode
  passed := passed
  unfinished := .bytesRemaining
  closed := .serialStreamClosed
  decode_shorter := decode_shorter
  decode_le := decode_le
  decode_none := decode_none
  closed_isFatal := rfl

end Ascii

inductive ReadPhase
  | reading
  /-- The end has been seen; the buffer may hold frames. -/
  | ending
  /-- It has been reported that the last frame is incomplete. -/
  | reported
  | closed
  deriving DecidableEq

structure FrameReader where
  buffer : Bytes := []
  /-- The place of the first byte that is held. -/
  start : Nat := 0
  phase : ReadPhase := .reading
  deriving DecidableEq

namespace FrameReader

def finish (env : Envelope) (clock : Nat) (line : Stream) (buffer : Bytes) : Reading FrameReader Frame :=
  match env.decodeLast buffer with
  | (.ok (some frame), rest) => ⟨.done frame, clock, line, { buffer := rest, phase := .ending }⟩
  | (.ok none, rest) => ⟨.failed env.closed, clock, line, { buffer := rest, phase := .closed }⟩
  | (.error f, rest) => ⟨.failed f, clock, line, { buffer := rest, phase := .reported }⟩

/-- How a reader gets on when it looks into its buffer once and, if there is no frame, reads once. -/
inductive Turn
  | ends (reading : Reading FrameReader Frame)
  | moved (clock : Nat) (line : Stream) (buffer : Bytes) (start : Nat)

/-- The turn goes on where `P` holds, or ends with a reading for which `Q` holds. -/
def Turn.Leads (P : Nat → Stream → Bytes → Nat → Prop) (Q : Reading FrameReader Frame → Prop) : Turn → Prop
  | ends reading => Q reading
  | moved clock line buffer start => P clock line buffer start

def turn (env : Envelope) (limit : Option Nat) (clock : Nat) (line : Stream) (buffer : Bytes) (start : Nat) : Turn :=
  match env.decode buffer with
  | (some frame, rest) => .ends ⟨.done frame, clock, line, ⟨rest, start + env.passed buffer, .reading⟩⟩
  | (none, rest) =>
    let front := bufferStart (start + env.passed buffer) rest.length
    match line.readInto (bufferSize - (front + rest.length)) clock limit with
    | .pending => .ends ⟨.pending, waited clock limit, line, ⟨rest, front, .reading⟩⟩
    | .closed t => .ends (finish env t line rest)
    | .bytes t bs line' => .moved t line' (rest ++ bs) front

/-- There is always room, so every read takes something off the stream. -/
theorem turn_less (env : Envelope) (limit : Option Nat) (clock : Nat) (line : Stream) (buffer : Bytes) (start : Nat) :
    (turn env limit clock line buffer start).Leads (fun _ line' _ _ => line'.weight < line.weight) fun _ => True := by
  fun_cases turn env limit clock line buffer start with
  | case1 | case2 | case3 => trivial
  | case4 rest heq front t bs line' hr =>
    have hd := env.decode_none buffer (by rw [heq])
    rw [heq] at hd
    exact (Stream.weight_readInto hr).2 (Nat.sub_pos_of_lt (bufferStart_add_lt _ hd))

def read (env : Envelope) (limit : Option Nat) (clock : Nat) (line : Stream) (buffer : Bytes) (start : Nat) :
    Reading FrameReader Frame :=
  match _ : turn env limit clock line buffer start with
  | .ends reading => reading
  | .moved clock' line' buffer' start' => read env limit clock' line' buffer' start'
termination_by line.weight
decreasing_by
  rename_i h
  have := turn_less env limit clock line buffer start
  rw [h] at this
  exact this

def Turn.follow (env : Envelope) (limit : Option Nat) : Turn → Reading FrameReader Frame
  | ends reading => reading
  | moved clock line buffer start => read env limit clock line buffer start

theorem read_eq (env : Envelope) (limit : Option Nat) (clock : Nat) (line : Stream) (buffer : Bytes) (start : Nat) :
    read env limit clock line buffer start = (turn env limit clock line buffer start).follow env limit := by
  rw [read]
  generalize turn env limit clock line buffer start = t
  cases t <;> rfl

/-- What every turn keeps holds until the reader ends. -/
theorem read_keeps {env : Envelope} {limit : Option Nat} {P : Nat → Stream → Bytes → Nat → Prop}
    {Q : Reading FrameReader Frame → Prop}
    (step : ∀ clock line buffer start, P clock line buffer start →
      (turn env limit clock line buffer start).Leads P Q) {clock : Nat} {line : Stream} {buffer : Bytes} {start : Nat}
    (h : P clock line buffer start) : Q (read env limit clock line buffer start) := by
  fun_induction read env limit clock line buffer start with
  | case1 clock line buffer start reading heq =>
    have := step clock line buffer start h
    rwa [heq] at this
  | case2 clock line buffer start clock' line' buffer' start' heq ih =>
    have := step clock line buffer start h
    rw [heq] at this
    exact ih this

def next (env : Envelope) (limit : Option Nat) (clock : Nat) (line : Stream) (r : FrameReader) :
    Reading FrameReader Frame :=
  match r.phase with
  | .reading => read env limit clock line r.buffer r.start
  | .ending => finish env clock line r.buffer
  | .reported | .closed => ⟨.failed env.closed, clock, line, { r with phase := .closed }⟩

/-- What a reader can still find: the bytes it holds, and the report of an incomplete frame. -/
def weight (r : FrameReader) : Nat :=
  r.buffer.length + match r.phase with
    | .reading | .ending => 1
    | .reported | .closed => 0

theorem weight_finish (env : Envelope) (clock : Nat) (line : Stream) (buffer : Bytes)
    (h : (finish env clock line buffer).outcome.GoesOn) :
    (finish env clock line buffer).line = line ∧
      (finish env clock line buffer).reader.weight < buffer.length + 1 := by
  have hl := env.decodeLast_le buffer
  unfold finish at h ⊢
  split
  · rename_i frame rest heq
    have := Envelope.decodeLast_shorter heq
    exact ⟨rfl, by simp only [weight]; omega⟩
  · rename_i rest heq
    simp only [heq, Outcome.GoesOn] at h
    rw [env.closed_isFatal] at h
    cases h
  · rename_i f rest heq
    simp only [heq] at hl
    exact ⟨rfl, by simp only [weight]; omega⟩

theorem finish_le (env : Envelope) (clock : Nat) (line : Stream) (buffer : Bytes) :
    (finish env clock line buffer).line = line ∧
      (finish env clock line buffer).reader.weight ≤ buffer.length + 1 := by
  have hl := env.decodeLast_le buffer
  unfold finish
  split <;> rename_i heq <;> simp only [heq] at hl <;> exact ⟨rfl, by simp only [weight]; omega⟩

theorem read_spends (env : Envelope) (limit : Option Nat) (clock : Nat) (line : Stream) (buffer : Bytes)
    (start : Nat) :
    (read env limit clock line buffer start).line.sent = line.sent ∧
      (read env limit clock line buffer start).reader.weight + (read env limit clock line buffer start).line.weight
        ≤ buffer.length + 1 + line.weight ∧
      ((read env limit clock line buffer start).outcome.GoesOn →
        (read env limit clock line buffer start).reader.weight + (read env limit clock line buffer start).line.weight
          < buffer.length + 1 + line.weight) := by
  refine read_keeps (P := fun _ line' buffer' _ => line'.sent = line.sent ∧
      buffer'.length + line'.weight ≤ buffer.length + line.weight)
    (Q := fun reading => reading.line.sent = line.sent ∧
      reading.reader.weight + reading.line.weight ≤ buffer.length + 1 + line.weight ∧
      (reading.outcome.GoesOn → reading.reader.weight + reading.line.weight < buffer.length + 1 + line.weight))
    (fun clock line' buffer' start h => ?_) ⟨rfl, Nat.le_refl _⟩
  obtain ⟨hsent, hle⟩ := h
  have hl := env.decode_le buffer'
  fun_cases turn env limit clock line' buffer' start with
  | case1 frame rest heq =>
    have hlt := env.decode_shorter buffer'
    rw [heq] at hlt
    have hlt : rest.length < buffer'.length := hlt rfl
    exact ⟨hsent, by simp only [weight]; omega, fun _ => by simp only [weight]; omega⟩
  | case2 rest heq front hr =>
    simp only [heq] at hl
    exact ⟨hsent, by simp only [weight]; omega, nofun⟩
  | case3 rest heq front t hr =>
    simp only [heq] at hl
    obtain ⟨hline, hfinish⟩ := finish_le env t line' rest
    refine ⟨(congrArg Stream.sent hline).trans hsent, ?_, fun goesOn => ?_⟩
    · rw [hline]
      omega
    · have hlt := (weight_finish env t line' rest goesOn).2
      rw [hline]
      omega
  | case4 rest heq front t bs line'' hr =>
    simp only [heq] at hl
    have hw := (Stream.weight_readInto hr).1
    refine ⟨(Stream.sent_readInto hr).trans hsent, ?_⟩
    rw [List.length_append]
    omega

theorem weight_next (env : Envelope) (limit : Option Nat) (clock : Nat) (line : Stream) (r : FrameReader)
    (h : (next env limit clock line r).outcome.GoesOn) :
    (next env limit clock line r).reader.weight + (next env limit clock line r).line.weight
      < r.weight + line.weight := by
  unfold next at h ⊢
  split <;> rename_i hp <;> simp only [hp] at h
  · have := (read_spends env limit clock line r.buffer r.start).2.2 h
    simp only [weight, hp] at this ⊢
    omega
  · have := weight_finish env clock line r.buffer h
    rw [this.1]
    have := this.2
    simp only [weight, hp] at this ⊢
    omega
  · simp only [Outcome.GoesOn] at h
    rw [env.closed_isFatal] at h
    cases h
  · simp only [Outcome.GoesOn] at h
    rw [env.closed_isFatal] at h
    cases h

theorem next_le (env : Envelope) (limit : Option Nat) (clock : Nat) (line : Stream) (r : FrameReader) :
    (next env limit clock line r).line.sent = line.sent ∧
      (next env limit clock line r).reader.weight + (next env limit clock line r).line.weight
        ≤ r.weight + line.weight := by
  unfold next
  split <;> rename_i hp
  · obtain ⟨hsent, hle, _⟩ := read_spends env limit clock line r.buffer r.start
    simp only [weight, hp] at hle ⊢
    exact ⟨hsent, hle⟩
  · have := finish_le env clock line r.buffer
    rw [this.1]
    have := this.2
    simp only [weight, hp] at this ⊢
    exact ⟨trivial, by omega⟩
  · simp [weight, hp]
  · simp [weight, hp]

end FrameReader

end Modbus
