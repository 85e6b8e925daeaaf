import Modbus.Link.Endpoint
import Modbus.Proofs.Frame.Boundaries

/-!
# Delivery of a frame

What a reader makes of a frame that arrives in pieces, whatever the pieces are. On a stream of MBAP or ASCII frames the
message is there with the last piece. On a line with bursts it is there when the line has been silent for long enough,
provided that no gap between two pieces spoils it.
-/

namespace Modbus

def bytesOf (pieces : List Chunk) : Bytes := pieces.flatMap (·.bytes)

def lastArrival (now : Nat) (pieces : List Chunk) : Nat := pieces.foldl (fun t c => max t c.time) now

/-- Every piece comes soon after what is before it; the time is that of the latest piece so far. -/
def Paced (gap : Nat) : Nat → List Chunk → Prop
  | _, [] => True
  | t, c :: cs => c.time ≤ t + gap ∧ Paced gap (max t c.time) cs

def Burst (gap : Nat) : List Chunk → Prop
  | [] => True
  | c :: cs => Paced gap c.time cs

@[simp] theorem bytesOf_nil : bytesOf [] = [] := rfl

@[simp] theorem bytesOf_cons (c : Chunk) (cs : List Chunk) : bytesOf (c :: cs) = c.bytes ++ bytesOf cs := rfl

@[simp] theorem lastArrival_nil (now : Nat) : lastArrival now [] = now := rfl

@[simp] theorem lastArrival_cons (now : Nat) (c : Chunk) (cs : List Chunk) :
    lastArrival now (c :: cs) = lastArrival (max now c.time) cs := rfl

theorem le_lastArrival (now : Nat) (cs : List Chunk) : now ≤ lastArrival now cs := by
  induction cs generalizing now with
  | nil => exact Nat.le_refl _
  | cons c cs ih => exact Nat.le_trans (Nat.le_max_left _ _) (ih _)

theorem time_le_lastArrival {now : Nat} {c : Chunk} {cs : List Chunk} (h : c ∈ cs) :
    c.time ≤ lastArrival now cs := by
  induction h generalizing now with
  | head cs => exact Nat.le_trans (Nat.le_max_right _ _) (le_lastArrival _ cs)
  | tail d _ ih => exact ih

theorem lastArrival_le {now most : Nat} {cs : List Chunk} (hnow : now ≤ most) (h : ∀ c ∈ cs, c.time ≤ most) :
    lastArrival now cs ≤ most := by
  induction cs generalizing now with
  | nil => exact hnow
  | cons c cs ih =>
      obtain ⟨hc, hcs⟩ := List.forall_mem_cons.mp h
      exact ih (Nat.max_le.mpr ⟨hnow, hc⟩) hcs

theorem Paced.mono {gap t t' : Nat} {cs : List Chunk} (h : Paced gap t cs) (hle : t ≤ t') : Paced gap t' cs := by
  induction cs generalizing t t' with
  | nil => trivial
  | cons c cs ih => exact ⟨by have := h.1; omega, ih h.2 (by omega)⟩

/-! ## What one read takes -/

theorem dropWhile_spec (t : Nat) (cs : List Chunk) :
    bytesOf (cs.takeWhile (·.time ≤ t)) ++ bytesOf (cs.dropWhile (·.time ≤ t)) = bytesOf cs ∧
      lastArrival t (cs.dropWhile (·.time ≤ t)) = lastArrival t cs ∧
      (∀ gap, Paced gap t cs → Paced gap t (cs.dropWhile (·.time ≤ t))) := by
  induction cs with
  | nil => exact ⟨rfl, rfl, fun _ h => h⟩
  | cons c cs ih =>
      by_cases hc : c.time ≤ t
      · obtain ⟨hb, hl, hp⟩ := ih
        have hmax : max t c.time = t := Nat.max_eq_left hc
        rw [List.takeWhile_cons_of_pos (by simpa using hc), List.dropWhile_cons_of_pos (by simpa using hc)]
        refine ⟨by rw [bytesOf_cons, bytesOf_cons, List.append_assoc, hb], by rw [lastArrival_cons, hmax, hl], ?_⟩
        intro gap h
        exact hp gap (hmax ▸ h.2)
      · rw [List.takeWhile_cons_of_neg (by simpa using hc), List.dropWhile_cons_of_neg (by simpa using hc)]
        exact ⟨rfl, rfl, fun _ h => h⟩

/-- Pieces with nothing in them do not arrive. -/
def Filled (cs : List Chunk) : Prop := ∀ c ∈ cs, c.bytes ≠ []

section

variable {s rest : Stream} {room now t : Nat} {limit : Option Nat} {bs : Bytes}

/-- A read that brought bytes took them off the front of the pieces, and the rest arrives as before. -/
theorem Stream.read_rest (h : s.read now limit = .bytes t bs rest) :
    bs ++ bytesOf rest.arrivals = bytesOf s.arrivals ∧ lastArrival t rest.arrivals = lastArrival now s.arrivals ∧
      rest = { s with arrivals := rest.arrivals } := by
  unfold Stream.read at h
  split at h
  · split at h <;> (try split at h) <;> cases h
  · rename_i c cs hs
    dsimp only at h
    split at h <;> cases h
    obtain ⟨hb, hl, -⟩ := dropWhile_spec (max now c.time) cs
    refine ⟨?_, by rw [hl, hs, lastArrival_cons], rfl⟩
    rw [hs, List.append_assoc, bytesOf_cons]
    exact congrArg (c.bytes ++ ·) hb

theorem Stream.read_filled (h : s.read now limit = .bytes t bs rest) (filled : Filled s.arrivals) :
    bs ≠ [] ∧ Filled rest.arrivals := by
  unfold Stream.read at h
  split at h
  · split at h <;> (try split at h) <;> cases h
  · rename_i c cs hs
    dsimp only at h
    split at h <;> cases h
    obtain ⟨hc, hcs⟩ := List.forall_mem_cons.mp (hs ▸ filled)
    exact ⟨by simp [hc], fun d hd => hcs d ((List.dropWhile_sublist _).subset hd)⟩

theorem Stream.readInto_rest (h : s.readInto room now limit = .bytes t bs rest) :
    bs ++ bytesOf rest.arrivals = bytesOf s.arrivals ∧ lastArrival t rest.arrivals = lastArrival now s.arrivals ∧
      rest = { s with arrivals := rest.arrivals } := by
  unfold Stream.readInto at h
  split at h <;> cases h
  rename_i all line hr
  obtain ⟨hb, hl, hrest⟩ := read_rest hr
  unfold Stream.putBack
  split
  · rename_i hempty
    have hdrop : all.drop room = [] := List.isEmpty_iff.mp hempty
    rw [← List.take_append_drop room all, hdrop, List.append_nil] at hb
    exact ⟨hb, hl, hrest⟩
  · refine ⟨?_, ?_, by rw [hrest]⟩
    · rw [bytesOf_cons, ← List.append_assoc, List.take_append_drop]
      exact hb
    · rw [lastArrival_cons, Nat.max_self]
      exact hl

theorem Stream.readInto_filled (h : s.readInto room now limit = .bytes t bs rest) (filled : Filled s.arrivals) :
    Filled rest.arrivals := by
  unfold Stream.readInto at h
  split at h <;> cases h
  obtain ⟨-, hf⟩ := read_filled ‹_› filled
  unfold Stream.putBack
  split
  · exact hf
  · rename_i some
    exact List.forall_mem_cons.mpr ⟨by simpa using some, hf⟩

end

theorem Stream.read_cons {s : Stream} {c : Chunk} {cs : List Chunk} {now : Nat} {limit : Option Nat}
    (hs : s.arrivals = c :: cs) (within : Within (max now c.time) limit) :
    s.read now limit = .bytes (max now c.time) (c.bytes ++ bytesOf (cs.takeWhile (·.time ≤ max now c.time)))
      { s with arrivals := cs.dropWhile (·.time ≤ max now c.time) } := by
  unfold Stream.read
  simp only [hs, if_pos within]
  rfl

theorem Stream.readInto_isBytes {s : Stream} {room now : Nat} {limit : Option Nat} (some : s.arrivals ≠ [])
    (within : Within (lastArrival now s.arrivals) limit) :
    ∃ t bs rest, s.readInto room now limit = .bytes t bs rest := by
  obtain ⟨c, cs, hs⟩ := List.exists_cons_of_ne_nil some
  rw [hs, lastArrival_cons] at within
  have hw : Within (max now c.time) limit := fun l hl => Nat.le_trans (le_lastArrival _ cs) (within l hl)
  have h := read_cons hs hw
  unfold Stream.readInto
  simp only [h]
  exact ⟨_, _, _, rfl⟩

/-! ## Frames that show where they end -/

theorem bytesOf_ne_nil {cs : List Chunk} (filled : Filled cs) (some : cs ≠ []) : bytesOf cs ≠ [] := by
  obtain ⟨c, cs, rfl⟩ := List.exists_cons_of_ne_nil some
  simp [filled c List.mem_cons_self]

/-- The message is there with the last piece of its frame. -/
theorem FrameReader.read_delivers {env : Envelope} {bytes : Bytes} {adu : Adu} (delimits : env.Delimits bytes adu)
    {limit : Option Nat} {clock : Nat} {line : Stream} {buffer : Bytes} (start : Nat)
    (arriving : buffer ++ bytesOf line.arrivals = bytes) (filled : Filled line.arrivals)
    (within : Within (lastArrival clock line.arrivals) limit) :
    ∃ start', read env limit clock line buffer start =
      ⟨.done (.ok adu), lastArrival clock line.arrivals, { line with arrivals := [] }, ⟨[], start', .reading⟩⟩ := by
  have arrives {buffer rest : Bytes} {line : Stream} (heq : env.decode buffer = (none, rest))
      (arriving : buffer ++ bytesOf line.arrivals = bytes) : line.arrivals ≠ [] := by
    intro hall
    rw [hall, bytesOf_nil, List.append_nil] at arriving
    have hcomplete := delimits.complete
    rw [← arriving, heq] at hcomplete
    cases hcomplete
  refine read_keeps (P := fun clock' line' buffer' _ => buffer' ++ bytesOf line'.arrivals = bytes ∧
      Filled line'.arrivals ∧ lastArrival clock' line'.arrivals = lastArrival clock line.arrivals ∧
      { line' with arrivals := [] } = { line with arrivals := [] })
    (Q := fun reading => ∃ start', reading =
      ⟨.done (.ok adu), lastArrival clock line.arrivals, { line with arrivals := [] }, ⟨[], start', .reading⟩⟩)
    (fun clock' line' buffer' start h => ?_) ⟨arriving, filled, rfl, rfl⟩
  obtain ⟨arriving, filled, hlast, hline⟩ := h
  have pending {rest : Bytes} (heq : env.decode buffer' = (none, rest)) {room : Nat} :
      ∃ t bs line'', line'.readInto room clock' limit = .bytes t bs line'' :=
    line'.readInto_isBytes (arrives heq arriving) (hlast ▸ within)
  fun_cases turn env limit clock' line' buffer' start with
  | case1 frame rest heq =>
      by_cases hall : line'.arrivals = []
      · rw [hall, bytesOf_nil, List.append_nil] at arriving
        have hcomplete := delimits.complete
        rw [← arriving, heq] at hcomplete
        cases hcomplete
        rw [hall, lastArrival_nil] at hlast
        exact ⟨_, by rw [hlast, ← hline, ← hall]⟩
      · have hnone := delimits.incomplete buffer' _ arriving (bytesOf_ne_nil filled hall)
        rw [heq] at hnone
        cases hnone
  | case2 rest heq front hr =>
      obtain ⟨t, bs, line'', h⟩ := pending heq
      rw [hr] at h
      cases h
  | case3 rest heq front t hr =>
      obtain ⟨t, bs, line'', h⟩ := pending heq
      rw [hr] at h
      cases h
  | case4 rest heq front t bs line'' hr =>
      have hrest := delimits.incomplete buffer' _ arriving (bytesOf_ne_nil filled (arrives heq arriving))
      rw [heq] at hrest
      cases hrest
      obtain ⟨hb, hl, hline'⟩ := Stream.readInto_rest hr
      exact ⟨by rw [List.append_assoc, hb, arriving], Stream.readInto_filled hr filled, hl.trans hlast,
        by rw [← hline, hline']⟩

theorem FrameReader.next_delivers {env : Envelope} {bytes : Bytes} {adu : Adu} (delimits : env.Delimits bytes adu)
    {limit : Option Nat} {clock : Nat} {s : Stream} (start : Nat) (arriving : bytesOf s.arrivals = bytes)
    (filled : Filled s.arrivals) (within : Within (lastArrival clock s.arrivals) limit) :
    ∃ start', next env limit clock s ⟨[], start, .reading⟩ =
      ⟨.done (.ok adu), lastArrival clock s.arrivals, { s with arrivals := [] }, ⟨[], start', .reading⟩⟩ :=
  read_delivers delimits start arriving filled within

theorem FrameReader.next_nothing {env : Envelope} (empty : env.decode [] = (none, [])) (limit : Option Nat)
    (clock : Nat) {s : Stream} (start : Nat) (arrivals : s.arrivals = []) (closing : s.closing = none) :
    ∃ start', next env limit clock s ⟨[], start, .reading⟩ =
      ⟨.pending, waited clock limit, s, ⟨[], start', .reading⟩⟩ := by
  have hread (room : Nat) : s.readInto room clock limit = .pending := by
    unfold Stream.readInto Stream.read
    simp only [arrivals, closing]
  show ∃ start', read env limit clock s [] start = _
  rw [read_eq, turn, empty]
  simp only [hread]
  exact ⟨_, rfl⟩

/-! ## Frames that end with silence -/

namespace Assembler

theorem pushAll_together {timing : Timing} {front bs : Bytes} {t : Nat}
    (room : front.length + bs.length ≤ Rtu.maxSize) :
    pushAll ⟨timing, .receiving, front, some t⟩ bs t = ⟨timing, .receiving, front ++ bs, some t⟩ := by
  induction bs generalizing front with
  | nil => simp [pushAll]
  | cons b bs ih =>
      rw [List.length_cons] at room
      have hgap : ¬ (longGap ⟨timing, .receiving, front, some t⟩ t = true ∨ Rtu.maxSize ≤ front.length) := by
        simp only [longGap, silentFor, Nat.sub_self, decide_eq_true_eq]
        omega
      have hpush : push ⟨timing, .receiving, front, some t⟩ b t = ⟨timing, .receiving, front ++ [b], some t⟩ :=
        if_neg hgap
      have hroom : (front ++ [b]).length + bs.length ≤ Rtu.maxSize := by
        rw [List.length_append, List.length_singleton]
        omega
      have h := ih hroom
      rw [List.append_assoc, List.singleton_append] at h
      rw [← h, pushAll, List.foldl_cons, hpush]
      rfl

theorem pushAll_receiving {timing : Timing} {front bs : Bytes} {last t : Nat} (gap : t ≤ last + timing.longestGap)
    (room : front.length + bs.length ≤ Rtu.maxSize) (some : bs ≠ []) :
    pushAll ⟨timing, .receiving, front, .some last⟩ bs t = ⟨timing, .receiving, front ++ bs, .some t⟩ := by
  obtain ⟨b, bs, rfl⟩ := List.exists_cons_of_ne_nil some
  rw [List.length_cons] at room
  have hgap : ¬ (longGap ⟨timing, .receiving, front, .some last⟩ t = true ∨ Rtu.maxSize ≤ front.length) := by
    simp only [longGap, silentFor, decide_eq_true_eq]
    omega
  have hpush : push ⟨timing, .receiving, front, .some last⟩ b t = ⟨timing, .receiving, front ++ [b], .some t⟩ :=
    if_neg hgap
  have hroom : (front ++ [b]).length + bs.length ≤ Rtu.maxSize := by
    rw [List.length_append, List.length_singleton]
    omega
  have h := @pushAll_together timing (front ++ [b]) bs t hroom
  rw [List.append_assoc, List.singleton_append] at h
  rw [← h, pushAll, List.foldl_cons, hpush]
  rfl

theorem pushAll_idle {timing : Timing} {bs : Bytes} {last : Option Nat} {t : Nat} (room : bs.length ≤ Rtu.maxSize)
    (some : bs ≠ []) :
    pushAll ⟨timing, .idle, [], last⟩ bs t = ⟨timing, .receiving, bs, .some t⟩ := by
  obtain ⟨b, bs, rfl⟩ := List.exists_cons_of_ne_nil some
  rw [List.length_cons] at room
  have hroom : [b].length + bs.length ≤ Rtu.maxSize := by
    rw [List.length_singleton]
    omega
  exact pushAll_together hroom

theorem poll_receiving {timing : Timing} {front : Bytes} {last t : Nat} (h : t - last < timing.silence) :
    poll ⟨timing, .receiving, front, some last⟩ t = ⟨timing, .receiving, front, some last⟩ := by
  have hs : ¬ silentFor ⟨timing, .receiving, front, some last⟩ timing.silence t = true := by
    simp only [silentFor, decide_eq_true_eq]
    omega
  exact if_neg hs

theorem poll_silence {timing : Timing} {front : Bytes} {last : Nat} :
    poll ⟨timing, .receiving, front, some last⟩ (last + timing.silence) =
      ⟨timing, .complete, front, some last⟩ := by
  have hs : silentFor ⟨timing, .receiving, front, some last⟩ timing.silence (last + timing.silence) = true := by
    simp only [silentFor, decide_eq_true_eq]
    omega
  exact if_pos hs

end Assembler

theorem Within.earlier {t : Nat} {a b : Option Nat} (ha : Within t a) (hb : Within t b) : Within t (earlier a b) := by
  intro l hl
  cases a with
  | none => exact hb l hl
  | some m =>
      cases b with
      | none => exact ha l hl
      | some n =>
          cases hl
          exact Nat.le_min.mpr ⟨ha m rfl, hb n rfl⟩

namespace BurstReader

theorem next_unread {limit : Option Nat} {clock : Nat} {line : Stream} {a : Assembler} {bs : Bytes}
    (poll : a.poll clock = a) (open_ : a.state ≠ .complete) (some : bs ≠ []) :
    next limit clock line ⟨a, bs⟩ = next limit clock line ⟨a.pushAll bs clock, []⟩ := by
  obtain ⟨b, bs, rfl⟩ := List.exists_cons_of_ne_nil some
  have htake : a.take = (none, a) := if_neg open_
  rw [next_eq, turn]
  simp only [poll, htake, Turn.follow]

theorem next_read {limit : Option Nat} {clock t : Nat} {line line' : Stream} {a : Assembler} {bs : Bytes}
    (poll : a.poll clock = a) (open_ : a.state ≠ .complete)
    (read : line.read clock (earlier limit a.deadline) = .bytes t bs line') :
    next limit clock line ⟨a, []⟩ = next limit t line' ⟨a, bs⟩ := by
  have htake : a.take = (none, a) := if_neg open_
  rw [next_eq, turn]
  simp only [poll, htake, read, Turn.follow]

theorem next_receiving {timing : Timing} (short : timing.longestGap < timing.silence) {limit : Option Nat} {n : Nat}
    {clock : Nat} {s : Stream} {front bytes : Bytes} (hn : s.arrivals.length = n)
    (arriving : front ++ bytesOf s.arrivals = bytes) (room : bytes.length ≤ Rtu.maxSize)
    (filled : Filled s.arrivals) (paced : Paced timing.longestGap clock s.arrivals)
    (closing : s.closing = none) (within : Within (lastArrival clock s.arrivals + timing.silence) limit) :
    next limit clock s ⟨⟨timing, .receiving, front, some clock⟩, []⟩ =
      ⟨.done bytes, lastArrival clock s.arrivals + timing.silence, { s with arrivals := [] },
        ⟨⟨timing, .idle, [], some (lastArrival clock s.arrivals)⟩, []⟩⟩ := by
  induction n using Nat.strongRecOn generalizing clock s front with
  | ind n ih =>
      have hpoll : Assembler.poll ⟨timing, .receiving, front, some clock⟩ clock =
          ⟨timing, .receiving, front, some clock⟩ := Assembler.poll_receiving (by omega)
      have hdeadline : Assembler.deadline ⟨timing, .receiving, front, some clock⟩ = some (clock + timing.silence) := rfl
      have htake : Assembler.take ⟨timing, .receiving, front, some clock⟩ = (none, ⟨timing, .receiving, front, some clock⟩) :=
        rfl
      cases hs : s.arrivals with
      | nil =>
          have hread : s.read clock (earlier limit (some (clock + timing.silence))) = .pending := by
            unfold Stream.read
            simp only [hs, closing]
          rw [hs, lastArrival_nil] at within
          rw [hs, bytesOf_nil, List.append_nil] at arriving
          rw [next_eq, turn]
          simp only [hpoll, htake, hdeadline, hread, if_pos within, Nat.max_eq_right (Nat.le_add_right clock _),
            Turn.follow]
          rw [next_eq, turn]
          simp only [Assembler.poll_silence, arriving]
          rw [lastArrival_nil, ← hs]
          rfl
      | cons c cs =>
          rw [hs] at arriving filled paced within hn
          obtain ⟨hgap, hpaced⟩ := paced
          obtain ⟨hc, hcs⟩ := List.forall_mem_cons.mp filled
          obtain ⟨hb, hl, hp⟩ := dropWhile_spec (max clock c.time) cs
          have hw : Within (max clock c.time) (earlier limit (some (clock + timing.silence))) := by
            refine Within.earlier (fun l h => ?_) (fun l h => ?_)
            · have := within l h
              have := le_lastArrival (max clock c.time) cs
              rw [lastArrival_cons] at *
              omega
            · cases h
              omega
          have hpoll' : Assembler.poll ⟨timing, .receiving, front, some clock⟩ (max clock c.time) =
              ⟨timing, .receiving, front, some clock⟩ := Assembler.poll_receiving (by omega)
          have hroom : front.length + (c.bytes ++ bytesOf (cs.takeWhile (·.time ≤ max clock c.time))).length ≤
              Rtu.maxSize := by
            have := congrArg List.length arriving
            have := congrArg List.length hb
            simp only [bytesOf_cons, List.length_append] at *
            omega
          have hsome : c.bytes ++ bytesOf (cs.takeWhile (·.time ≤ max clock c.time)) ≠ [] := by simp [hc]
          rw [next_read hpoll (by simp) (Stream.read_cons hs hw), next_unread hpoll' (by simp) hsome,
            Assembler.pushAll_receiving (by omega) hroom hsome]
          have hlt : (cs.dropWhile (·.time ≤ max clock c.time)).length < n := by
            have := (List.dropWhile_sublist (fun d : Chunk => decide (d.time ≤ max clock c.time)) (l := cs)).length_le
            rw [← hn, List.length_cons]
            omega
          have harriving : front ++ (c.bytes ++ bytesOf (cs.takeWhile (·.time ≤ max clock c.time))) ++
              bytesOf (cs.dropWhile (·.time ≤ max clock c.time)) = bytes := by
            rw [List.append_assoc, List.append_assoc, hb]
            exact arriving
          have h := ih _ hlt
            (s := { s with arrivals := cs.dropWhile (·.time ≤ max clock c.time) }) rfl
            harriving
            (fun d hd => hcs d ((List.dropWhile_sublist _).subset hd)) (hp _ hpaced) closing
            (by rw [hl]; exact within)
          rw [h, hl, lastArrival_cons]

theorem next_delivers {timing : Timing} (short : timing.longestGap < timing.silence) {limit : Option Nat}
    {clock : Nat} {s : Stream} (last : Option Nat) (some : s.arrivals ≠ [])
    (room : (bytesOf s.arrivals).length ≤ Rtu.maxSize) (filled : Filled s.arrivals)
    (burst : Burst timing.longestGap s.arrivals) (closing : s.closing = none)
    (within : Within (lastArrival clock s.arrivals + timing.silence) limit) :
    next limit clock s ⟨⟨timing, .idle, [], last⟩, []⟩ =
      ⟨.done (bytesOf s.arrivals), lastArrival clock s.arrivals + timing.silence, { s with arrivals := [] },
        ⟨⟨timing, .idle, [], .some (lastArrival clock s.arrivals)⟩, []⟩⟩ := by
  obtain ⟨c, cs, hs⟩ := List.exists_cons_of_ne_nil some
  rw [hs] at room filled burst within ⊢
  obtain ⟨hc, hcs⟩ := List.forall_mem_cons.mp filled
  obtain ⟨hb, hl, hp⟩ := dropWhile_spec (max clock c.time) cs
  have hw : Within (max clock c.time) limit := by
    intro l h
    have := within l h
    have := le_lastArrival (max clock c.time) cs
    rw [lastArrival_cons] at *
    omega
  have hroom : (c.bytes ++ bytesOf (cs.takeWhile (·.time ≤ max clock c.time))).length ≤ Rtu.maxSize := by
    have := congrArg List.length hb
    simp only [bytesOf_cons, List.length_append] at *
    omega
  have hsome : c.bytes ++ bytesOf (cs.takeWhile (·.time ≤ max clock c.time)) ≠ [] := by simp [hc]
  have hearlier : earlier limit none = limit := by cases limit <;> rfl
  have hread : s.read clock (earlier limit (Assembler.deadline ⟨timing, .idle, [], last⟩)) = _ :=
    (congrArg _ hearlier).trans (Stream.read_cons hs hw)
  rw [next_read rfl (by simp) hread, next_unread rfl (by simp) hsome, Assembler.pushAll_idle hroom hsome]
  have harriving : (c.bytes ++ bytesOf (cs.takeWhile (·.time ≤ max clock c.time))) ++
      bytesOf (cs.dropWhile (·.time ≤ max clock c.time)) = bytesOf (c :: cs) := by
    rw [List.append_assoc, hb, bytesOf_cons]
  have h := next_receiving short (s := { s with arrivals := cs.dropWhile (·.time ≤ max clock c.time) }) rfl
    harriving room (fun d hd => hcs d ((List.dropWhile_sublist _).subset hd))
    (hp _ (burst.mono (Nat.le_max_right _ _))) closing (by rw [hl]; exact within)
  rw [h, hl, lastArrival_cons]

theorem next_nothing (timing : Timing) (limit : Option Nat) (clock : Nat) {s : Stream} (last : Option Nat)
    (arrivals : s.arrivals = []) (closing : s.closing = none) :
    next limit clock s ⟨⟨timing, .idle, [], last⟩, []⟩ =
      ⟨.pending, waited clock limit, s, ⟨⟨timing, .idle, [], last⟩, []⟩⟩ := by
  have hread (limit : Option Nat) : s.read clock limit = .pending := by
    unfold Stream.read
    simp only [arrivals, closing]
  rw [next_eq, turn]
  simp only [Assembler.poll, Assembler.take, Assembler.deadline, LineState.isOpen, hread, reduceCtorEq, if_false,
    Bool.false_eq_true, Turn.follow]

end BurstReader

end Modbus
