import Modbus.Link.FrameReader

/-!
# Streams in pieces

A receiver appends each piece of a stream to the bytes it holds and takes frames off until there is none. What it finds
is described by an invariant between the stream so far, the frames that were found in it and the bytes that are held;
an invariant that decoding keeps holds for every way of cutting a stream.
-/

namespace Modbus.Envelope

def drain (env : Envelope) (buffer : Bytes) : List Frame × Bytes :=
  match _ : env.decode buffer with
  | (some frame, rest) => (frame :: (env.drain rest).1, (env.drain rest).2)
  | (none, rest) => ([], rest)
termination_by buffer.length
decreasing_by
  all_goals
    rename_i h
    have := env.decode_shorter buffer
    rw [h] at this
    exact this rfl

/-- Takes in the next piece of a stream, after some frames were found and some bytes were left. -/
def feed (env : Envelope) (found : List Frame × Bytes) (piece : Bytes) : List Frame × Bytes :=
  let more := env.drain (found.2 ++ piece)
  (found.1 ++ more.1, more.2)

/-- The frames that are found in a stream that arrives in pieces, and the bytes that are left in the end. -/
def collect (env : Envelope) (pieces : List Bytes) : List Frame × Bytes := pieces.foldl env.feed ([], [])

variable {env : Envelope}

theorem drain_some {buffer rest : Bytes} {frame : Frame} (h : env.decode buffer = (some frame, rest)) :
    env.drain buffer = (frame :: (env.drain rest).1, (env.drain rest).2) := by
  rw [drain]
  split <;> rename_i heq <;> rw [h] at heq <;> cases heq
  rfl

theorem drain_none {buffer rest : Bytes} (h : env.decode buffer = (none, rest)) : env.drain buffer = ([], rest) := by
  rw [drain]
  split <;> rename_i heq <;> rw [h] at heq <;> cases heq
  rfl

/-- What holds of the stream so far, of the frames found in it and of the bytes that are held, whatever arrives next. -/
structure IsInvariant (env : Envelope) (P : Bytes → List Frame → Bytes → Prop) : Prop where
  start : P [] [] []
  append {stream frames buffer} (piece : Bytes) : P stream frames buffer → P (stream ++ piece) frames (buffer ++ piece)
  found {stream frames buffer frame rest} :
    env.decode buffer = (some frame, rest) → P stream frames buffer → P stream (frames ++ [frame]) rest
  nothing {stream frames buffer rest} :
    env.decode buffer = (none, rest) → P stream frames buffer → P stream frames rest

namespace IsInvariant

variable {P : Bytes → List Frame → Bytes → Prop} {stream : Bytes} {frames : List Frame}

theorem drain (invariant : env.IsInvariant P) {buffer : Bytes} (h : P stream frames buffer) :
    P stream (frames ++ (env.drain buffer).1) (env.drain buffer).2 := by
  fun_induction Envelope.drain env buffer generalizing frames with
  | case1 buffer frame rest heq ih =>
      have := ih (invariant.found heq h)
      rwa [List.append_assoc, List.singleton_append] at this
  | case2 buffer rest heq =>
      rw [List.append_nil]
      exact invariant.nothing heq h

theorem foldl_feed (invariant : env.IsInvariant P) (pieces : List Bytes) {found : List Frame × Bytes}
    (h : P stream found.1 found.2) :
    P (stream ++ pieces.flatten) (pieces.foldl env.feed found).1 (pieces.foldl env.feed found).2 := by
  induction pieces generalizing stream found with
  | nil => rwa [List.flatten_nil, List.append_nil]
  | cons piece pieces ih =>
      rw [List.flatten_cons, ← List.append_assoc]
      exact ih (invariant.drain (invariant.append piece h))

theorem collect (invariant : env.IsInvariant P) (pieces : List Bytes) :
    P pieces.flatten (env.collect pieces).1 (env.collect pieces).2 := by
  show P ([] ++ pieces.flatten) _ _
  exact invariant.foldl_feed pieces invariant.start

end IsInvariant

def Trims (env : Envelope) : Prop := ∀ buffer, (env.decode buffer).2 <:+ buffer

theorem Trims.of_decode (trims : env.Trims) {buffer rest : Bytes} {frame : Option Frame}
    (h : env.decode buffer = (frame, rest)) : rest <:+ buffer := by
  have := trims buffer
  rwa [h] at this

theorem Trims.exists_of_mem_collect (trims : env.Trims) {pieces : List Bytes} {frame : Frame}
    (h : frame ∈ (env.collect pieces).1) :
    ∃ buffer rest, buffer <:+: pieces.flatten ∧ env.decode buffer = (some frame, rest) := by
  have invariant : env.IsInvariant fun stream frames buffer => buffer <:+ stream ∧
      ∀ frame ∈ frames, ∃ buffer rest, buffer <:+: stream ∧ env.decode buffer = (some frame, rest) :=
    { start := ⟨List.suffix_rfl, nofun⟩
      append := fun piece ⟨⟨front, hfront⟩, found⟩ => by
        refine ⟨⟨front, by rw [← hfront, List.append_assoc]⟩, fun frame hmem => ?_⟩
        obtain ⟨buffer, rest, hinfix, hdecode⟩ := found frame hmem
        exact ⟨buffer, rest, hinfix.trans (List.prefix_append ..).isInfix, hdecode⟩
      found := fun hdecode ⟨hbuffer, found⟩ =>
        ⟨(trims.of_decode hdecode).trans hbuffer, List.forall_mem_append.mpr ⟨found,
          List.forall_mem_singleton.mpr ⟨_, _, hbuffer.isInfix, hdecode⟩⟩⟩
      nothing := fun hdecode ⟨hbuffer, found⟩ => ⟨(trims.of_decode hdecode).trans hbuffer, found⟩ }
  exact (invariant.collect pieces).2 frame h

def Settles (env : Envelope) : Prop :=
  ∀ buffer rest, env.decode buffer = (none, rest) → env.decode rest = (none, rest)

theorem Settles.drain (settles : env.Settles) (buffer : Bytes) :
    env.decode (env.drain buffer).2 = (none, (env.drain buffer).2) := by
  fun_induction Envelope.drain env buffer with
  | case1 buffer frame rest heq ih => exact ih
  | case2 buffer rest heq => exact settles buffer rest heq

theorem Settles.collect (settles : env.Settles) (empty : env.decode [] = (none, [])) (pieces : List Bytes) :
    env.decode (env.collect pieces).2 = (none, (env.collect pieces).2) := by
  suffices ∀ found : List Frame × Bytes, env.decode found.2 = (none, found.2) →
      env.decode (pieces.foldl env.feed found).2 = (none, (pieces.foldl env.feed found).2) from this _ empty
  induction pieces with
  | nil => exact fun _ h => h
  | cons piece pieces ih => exact fun found _ => ih _ (settles.drain (found.2 ++ piece))

end Modbus.Envelope
