import Modbus.Link.Basic
import Modbus.Total

/-!
# Byte streams

One end of a byte stream, with everything that will arrive there if nothing more is done. A read takes all that
has arrived at its time, or as much of it as there is room for. `weight_read` and `weight_readInto` say that what
is read is used up.
-/

namespace Modbus

/-- Bytes that pass the end of a stream at one time. -/
structure Chunk where
  time : Nat
  bytes : Bytes
  deriving DecidableEq

structure Stream where
  arrivals : List Chunk := []
  closing : Option Nat := none
  /-- The far side still takes what is sent to it after it has closed its own direction. -/
  listening : Bool := false
  shut : Bool := false
  sent : List Chunk := []
  deriving DecidableEq

namespace Stream

inductive Read
  | bytes (time : Nat) (bs : Bytes) (rest : Stream)
  | closed (time : Nat)
  | pending

def read (s : Stream) (now : Nat) (limit : Option Nat) : Read :=
  match s.arrivals with
  | [] =>
    match s.closing with
    | none => .pending
    | some c => if Within (max now c) limit then .closed (max now c) else .pending
  | a :: rest =>
    let t := max now a.time
    if Within t limit then
      .bytes t (a.bytes ++ (rest.takeWhile (·.time ≤ t)).flatMap (·.bytes))
        { s with arrivals := rest.dropWhile (·.time ≤ t) }
    else .pending

/-- Leaves bytes to the next read that a read has found no room for. -/
def putBack (s : Stream) (time : Nat) (bs : Bytes) : Stream :=
  if bs.isEmpty then s else { s with arrivals := ⟨time, bs⟩ :: s.arrivals }

/-- Waits like `read` and takes at most as many bytes as there is room for. -/
def readInto (s : Stream) (room now : Nat) (limit : Option Nat) : Read :=
  match s.read now limit with
  | .bytes t bs rest => .bytes t (bs.take room) (rest.putBack t (bs.drop room))
  | .closed t => .closed t
  | .pending => .pending

def isClosed (s : Stream) (now : Nat) : Bool := s.shut || !s.listening && s.closing.any (· ≤ now)

def write (s : Stream) (now : Nat) (bs : Bytes) : Except Fault Stream :=
  if s.isClosed now then .error .brokenPipe else .ok { s with sent := s.sent ++ [⟨now, bs⟩] }

def deliver (s : Stream) (chunk : Chunk) : Stream := { s with arrivals := s.arrivals ++ [chunk] }

def weight (s : Stream) : Nat := total (fun a => a.bytes.length + 1) s.arrivals

theorem total_dropWhile_le (p : Chunk → Bool) (as : List Chunk) :
    ((as.takeWhile p).flatMap (·.bytes)).length +
      total (fun a => a.bytes.length + 1) (as.dropWhile p) ≤ total (fun a => a.bytes.length + 1) as := by
  induction as with
  | nil => simp
  | cons a as ih =>
    by_cases h : p a
    · simp only [h, List.takeWhile_cons_of_pos, List.dropWhile_cons_of_pos, List.flatMap_cons,
        List.length_append, total_cons] at ih ⊢
      omega
    · simp [h]

theorem weight_read {s rest : Stream} {now t : Nat} {limit : Option Nat} {bs : Bytes}
    (h : s.read now limit = .bytes t bs rest) : rest.weight + bs.length < s.weight := by
  unfold read at h
  split at h
  · split at h <;> (try split at h) <;> cases h
  · rename_i a as heq
    simp only at h
    split at h
    · cases h
      have := total_dropWhile_le (fun c => decide (c.time ≤ max now a.time)) as
      simp only [weight, heq, total_cons, List.length_append]
      omega
    · cases h

theorem length_arrivals_read {s rest : Stream} {now t : Nat} {limit : Option Nat} {bs : Bytes}
    (h : s.read now limit = .bytes t bs rest) : rest.arrivals.length < s.arrivals.length := by
  unfold read at h
  split at h
  · split at h <;> (try split at h) <;> cases h
  · rename_i a as heq
    simp only at h
    split at h
    · cases h
      have := (List.dropWhile_sublist (fun c => decide (c.time ≤ max now a.time)) (l := as)).length_le
      simp only [heq, List.length_cons]
      omega
    · cases h

theorem sent_read {s rest : Stream} {now t : Nat} {limit : Option Nat} {bs : Bytes}
    (h : s.read now limit = .bytes t bs rest) : rest.sent = s.sent := by
  unfold read at h
  split at h
  · split at h <;> (try split at h) <;> cases h
  · simp only at h
    split at h <;> cases h
    rfl

theorem sent_putBack (s : Stream) (t : Nat) (bs : Bytes) : (s.putBack t bs).sent = s.sent := by
  unfold putBack
  split <;> rfl

theorem weight_putBack_le (s : Stream) (t : Nat) (bs : Bytes) :
    (s.putBack t bs).weight ≤ s.weight + bs.length + 1 := by
  unfold putBack
  split
  · omega
  · simp only [weight, total_cons]
    omega

theorem weight_putBack_nil (s : Stream) (t : Nat) {bs : Bytes} (h : bs.length = 0) :
    (s.putBack t bs).weight = s.weight := by
  have : bs = [] := List.eq_nil_of_length_eq_zero h
  subst this
  rfl

theorem weight_readInto {s rest : Stream} {room now t : Nat} {limit : Option Nat} {bs : Bytes}
    (h : s.readInto room now limit = .bytes t bs rest) :
    rest.weight + bs.length ≤ s.weight ∧ (0 < room → rest.weight < s.weight) := by
  unfold readInto at h
  split at h
  · rename_i t' all line hr
    cases h
    have hw := weight_read hr
    have hp := weight_putBack_le line t (all.drop room)
    have hn := @weight_putBack_nil line t (all.drop room)
    simp only [List.length_take, List.length_drop] at hp hn ⊢
    constructor
    · omega
    · intro hroom
      by_cases hl : all.length ≤ room
      · have := hn (by omega)
        omega
      · omega
  · cases h
  · cases h

theorem sent_readInto {s rest : Stream} {room now t : Nat} {limit : Option Nat} {bs : Bytes}
    (h : s.readInto room now limit = .bytes t bs rest) : rest.sent = s.sent := by
  unfold readInto at h
  split at h
  · rename_i t' all line hr
    cases h
    exact (sent_putBack ..).trans (sent_read hr)
  · cases h
  · cases h

end Stream

/-- What a reader has found, when, and what it leaves of the stream. -/
structure Reading (ρ : Type) (α : Type) where
  outcome : Outcome α
  clock : Nat
  line : Stream
  reader : ρ

end Modbus
