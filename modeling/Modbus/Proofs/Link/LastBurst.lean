import Modbus.Proofs.Link.BurstStream
import Modbus.Proofs.Link.StreamEnd

/-!
# The last burst of a stream

A serial line that is closed breaks off the burst that it is in the middle of: only silence ends a burst, and behind the
end of a stream nobody waits for silence. Every burst before that has been over for long, and is received as on a line
that stays open.
-/

namespace Modbus

/-! ## Bursts that are over -/

namespace Timing

section

variable {α : Type} (timing : Timing) (time : α → Nat) (closing : Nat)

/-- Behind everything in the burst the line was silent, until something else arrived or the line was closed. -/
def Over (arrivals burst : List α) : Prop :=
  ∀ x ∈ burst, time x + timing.silence < closing ∨ ∃ y ∈ arrivals, time x + timing.silence ≤ time y

instance (arrivals burst : List α) : Decidable (timing.Over time closing arrivals burst) :=
  inferInstanceAs (Decidable (∀ x ∈ burst, _))

end

def framesBefore (timing : Timing) (closing : Nat) (characters : List Character) : List Bytes :=
  ((timing.bursts Character.time characters).filter fun burst =>
    timing.IsFrame burst ∧ timing.Over Character.time closing characters burst).map (·.map Character.byte)

variable {timing : Timing} {closing : Nat}

theorem framesBefore_silent {characters : List Character}
    (silent : ∀ x ∈ characters, x.time + timing.silence < closing) :
    timing.framesBefore closing characters = timing.frames characters := by
  rw [framesBefore, frames]
  refine congrArg _ (List.filter_congr fun burst hburst => decide_eq_decide.mpr (and_iff_left fun x hx => ?_))
  exact .inl (silent x (mem_of_mem_bursts hburst hx))

/-- A burst that is broken off is no frame, and makes no difference to those before it. -/
theorem framesBefore_within {heard burst : List Character} {last : Character}
    (apart : ∀ x ∈ heard, ∀ y ∈ burst ++ [last], x.time + timing.silence ≤ y.time)
    (unbroken : (burst ++ [last]).IsChain fun x y => y.time < x.time + timing.silence)
    (latest : ∀ x ∈ burst, x.time ≤ last.time) (early : closing ≤ last.time + timing.silence)
    (positive : 0 < timing.silence) :
    timing.framesBefore closing (heard ++ (burst ++ [last])) = timing.frames heard := by
  have hlast : last ∈ burst ++ [last] := by simp
  have hearlier : ∀ x ∈ heard ++ (burst ++ [last]), x.time < last.time + timing.silence := by
    intro x hx
    suffices x.time ≤ last.time by omega
    simp only [List.mem_append, List.mem_singleton] at hx
    rcases hx with hx | hx | rfl
    · exact Nat.le_trans (Nat.le_add_right _ _) (apart x hx last hlast)
    · exact latest x hx
    · exact Nat.le_refl _
  have hbroken : ¬ timing.Over Character.time closing (heard ++ (burst ++ [last])) (burst ++ [last]) := by
    intro silent
    obtain hover | ⟨x, hx, hover⟩ := silent last hlast
    · omega
    · have := hearlier x hx
      omega
  have hheard : ∀ front ∈ timing.bursts Character.time heard,
      timing.Over Character.time closing (heard ++ (burst ++ [last])) front := fun front hfront x hx =>
    .inr ⟨last, List.mem_append_right _ hlast, apart x (mem_of_mem_bursts hfront hx) last hlast⟩
  rw [framesBefore, frames, bursts_append apart, bursts_eq_singleton (by simp) unbroken, List.filter_append,
    List.filter_singleton, decide_eq_false fun h => hbroken h.2, cond_false, List.append_nil]
  refine congrArg _ (List.filter_congr fun front hfront => decide_eq_decide.mpr ?_)
  exact and_iff_left (hheard front hfront)

theorem over_charactersOf {pieces burst : List Chunk} (filled : Filled pieces) (filled' : Filled burst) :
    timing.Over Character.time closing (charactersOf pieces) (charactersOf burst) ↔
      timing.Over Chunk.time closing pieces burst := by
  have htimes {pieces : List Chunk} (filled : Filled pieces) (c : Chunk) (hc : c ∈ pieces) :
      ∃ x ∈ charactersOf pieces, x.time = c.time := by
    obtain ⟨b, bs, hbytes⟩ := List.exists_cons_of_ne_nil (filled c hc)
    exact ⟨⟨c.time, b⟩, List.mem_flatMap.mpr ⟨c, hc, by simp [Chunk.characters, hbytes]⟩, rfl⟩
  have hlater (t : Nat) : (∃ y ∈ charactersOf pieces, t ≤ y.time) ↔ ∃ d ∈ pieces, t ≤ d.time := by
    constructor
    · rintro ⟨y, hy, hle⟩
      obtain ⟨d, hd, hdy⟩ := mem_charactersOf hy
      exact ⟨d, hd, hdy ▸ hle⟩
    · rintro ⟨d, hd, hle⟩
      obtain ⟨y, hy, hyd⟩ := htimes filled d hd
      exact ⟨y, hy, hyd ▸ hle⟩
  unfold Over
  simp only [hlater]
  constructor
  · intro silent c hc
    obtain ⟨x, hx, hxc⟩ := htimes filled' c hc
    exact hxc ▸ silent x hx
  · intro silent x hx
    obtain ⟨c, hc, hcx⟩ := mem_charactersOf hx
    exact hcx ▸ silent c hc

theorem framesBefore_charactersOf (positive : 0 < timing.silence) {pieces : List Chunk} (filled : Filled pieces)
    (sorted : pieces.Pairwise fun c d => c.time ≤ d.time) :
    timing.framesBefore closing (charactersOf pieces) = ((timing.bursts Chunk.time pieces).filter fun burst =>
      timing.Admits burst ∧ timing.Over Chunk.time closing pieces burst).map bytesOf := by
  have hframe : ∀ burst ∈ timing.bursts Chunk.time pieces,
      decide (timing.IsFrame (charactersOf burst) ∧
        timing.Over Character.time closing (charactersOf pieces) (charactersOf burst)) =
      decide (timing.Admits burst ∧ timing.Over Chunk.time closing pieces burst) := by
    intro burst hburst
    have hfilled : Filled burst := fun c hc => filled c (mem_of_mem_bursts hburst hc)
    exact decide_eq_decide.mpr (and_congr (isFrame_charactersOf hfilled) (over_charactersOf filled hfilled))
  rw [framesBefore, bursts_charactersOf positive filled sorted, List.filter_map, List.map_map]
  simp only [Function.comp_def, map_byte_charactersOf]
  rw [List.filter_congr hframe]

end Timing

/-! ## Reading to the end -/

namespace Stream

variable {s rest : Stream} {now t closing : Nat} {limit : Option Nat} {bs : Bytes}

/-- The stream as it would be if it stayed open. -/
def opened (s : Stream) : Stream := { s with closing := none }

theorem read_opened_bytes (h : s.read now limit = .bytes t bs rest) :
    s.opened.read now limit = .bytes t bs rest.opened := by
  unfold read at h
  split at h
  · split at h <;> (try split at h) <;> cases h
  · rename_i c cs hs
    dsimp only at h
    split at h <;> cases h
    exact read_cons hs ‹_›

theorem read_opened_pending (h : s.read now limit = .pending) : s.opened.read now limit = .pending := by
  unfold read at h ⊢
  split at h
  · rename_i hs
    rw [show s.opened.arrivals = [] from hs]
    rfl
  · rename_i c cs hs
    dsimp only at h
    split at h
    · cases h
    · rename_i late
      rw [show s.opened.arrivals = c :: cs from hs]
      exact if_neg late

theorem read_closed (h : s.read now limit = .closed t) (closes : s.closing = some closing) :
    Within (max now closing) limit := by
  unfold read at h
  split at h
  · rw [closes] at h
    dsimp only at h
    split at h
    · assumption
    · cases h
  · dsimp only at h
    split at h <;> cases h

theorem read_pending_end (h : s.read now limit = .pending) (arrivals : s.arrivals = [])
    (closes : s.closing = some closing) : ¬ Within (max now closing) limit := by
  unfold read at h
  rw [arrivals, closes] at h
  dsimp only at h
  split at h
  · cases h
  · assumption

end Stream

namespace BurstReader

/-- A stream that is going to be closed is read as if it stayed open, and nobody waits for longer than it lasts. -/
structure ReadsBefore (timing : Timing) (closing : Nat) (characters : List Character) (found : List Bytes) (clock : Nat)
    (line : Stream) (r : BurstReader) : Prop where
  reads : r.Reads timing characters found clock line.opened
  filled : Filled line.arrivals
  closes : line.closing = some closing
  lasts : characters ≠ [] → clock < closing ∨ ∃ x ∈ characters, clock ≤ x.time

variable {timing : Timing} {closing : Nat} {characters : List Character} {found : List Bytes} {clock : Nat}
  {line : Stream} {r : BurstReader}

namespace ReadsBefore

theorem taken (h : r.ReadsBefore timing closing characters found clock line) {frame : Bytes} {a : Assembler}
    (take : (r.assembler.poll clock).take = (some frame, a)) :
    ReadsBefore timing closing characters (found ++ [frame]) clock line ⟨a, r.unread⟩ :=
  ⟨h.reads.taken take, h.filled, h.closes, h.lasts⟩

theorem pushAll (positive : 0 < timing.silence) (h : r.ReadsBefore timing closing characters found clock line)
    {a : Assembler} (take : (r.assembler.poll clock).take = (none, a)) :
    ReadsBefore timing closing characters found clock line ⟨(r.assembler.poll clock).pushAll r.unread clock, []⟩ :=
  ⟨h.reads.pushAll positive take, h.filled, h.closes, h.lasts⟩

theorem read (h : r.ReadsBefore timing closing characters found clock line) {a : Assembler}
    (take : (r.assembler.poll clock).take = (none, a)) (unread : r.unread = []) {limit : Option Nat} {t : Nat}
    {bs : Bytes} {line' : Stream} (read : line.read clock limit = .bytes t bs line') :
    ReadsBefore timing closing characters found t line' ⟨r.assembler.poll clock, bs⟩ := by
  have reads := h.reads.read take unread (Stream.read_opened_bytes read)
  obtain ⟨-, -, hline⟩ := Stream.read_rest read
  obtain ⟨hsome, hfilled⟩ := Stream.read_filled read h.filled
  refine ⟨reads, hfilled, by rw [hline]; exact h.closes, fun _ => .inr ?_⟩
  obtain ⟨_, heard, _, _, hcharacters⟩ := reads.heard
  obtain ⟨b, bs, rfl⟩ := List.exists_cons_of_ne_nil hsome
  exact ⟨⟨t, b⟩, hcharacters ▸ by simp, Nat.le_refl t⟩

theorem wait (h : r.ReadsBefore timing closing characters found clock line) {a : Assembler}
    (take : (r.assembler.poll clock).take = (none, a)) (unread : r.unread = []) {d : Nat}
    (read : line.read clock (some d) = .pending) :
    ReadsBefore timing closing characters found (max clock d) line ⟨r.assembler.poll clock, []⟩ := by
  have hlater : ∀ c ∈ line.arrivals, d ≤ c.time := by
    intro c hc
    obtain ⟨l, hl, hle⟩ := Stream.read_pending (Stream.read_opened_pending read) h.reads.sorted h.reads.later c hc
    cases hl
    exact hle
  have hboth : ∀ c ∈ line.arrivals, max clock d ≤ c.time := fun c hc =>
    Nat.max_le.mpr ⟨h.reads.later c hc, hlater c hc⟩
  refine ⟨h.reads.wait take unread (Nat.le_max_left _ _) hboth, h.filled, h.closes, fun some => ?_⟩
  cases harrivals : line.arrivals with
  | nil =>
      -- nothing arrives any more, so the deadline is before the end of the stream
      have hend := Stream.read_pending_end read harrivals h.closes
      rw [within_some, Nat.not_le] at hend
      obtain hlasts | ⟨x, hx, hlasts⟩ := h.lasts some
      · exact .inl (by omega)
      · by_cases hclosing : clock < closing
        · exact .inl (by omega)
        · exact .inr ⟨x, hx, by omega⟩
  | cons c cs =>
      obtain ⟨_, heard, _, _, hcharacters⟩ := h.reads.heard
      obtain ⟨b, bs, hbytes⟩ := List.exists_cons_of_ne_nil (h.filled c (harrivals ▸ List.mem_cons_self))
      refine .inr ⟨⟨c.time, b⟩, ?_, hboth c (harrivals ▸ List.mem_cons_self)⟩
      rw [← hcharacters]
      simp [Stream.opened, harrivals, Chunk.characters, hbytes]

theorem found_eq (h : r.ReadsBefore timing closing characters found clock line) {a : Assembler}
    (take : (r.assembler.poll clock).take = (none, a)) (unread : r.unread = []) {t : Nat}
    (read : line.read clock (earlier none (r.assembler.poll clock).deadline) = .closed t)
    (positive : 0 < timing.silence) : found = timing.framesBefore closing characters := by
  obtain ⟨heard, tracks, hcharacters⟩ := h.reads.tracks_poll take
  have harrivals : line.opened.arrivals = [] := (Stream.arrivals_of_read_closed read :)
  rw [unread, harrivals, List.map_nil, charactersOf_nil, List.append_nil, List.append_nil] at hcharacters
  subst hcharacters
  have hwithin := Stream.read_closed read h.closes
  generalize r.assembler.poll clock = b at tracks hwithin
  cases tracks with
  | quiet silent =>
      refine (Timing.framesBefore_silent fun x hx => ?_).symm
      have := silent x hx
      obtain hlasts | ⟨y, hy, hlasts⟩ := h.lasts (List.ne_nil_of_mem hx)
      · omega
      · have := silent y hy
        omega
  | within apart unbroken latest present soon =>
      rw [Assembler.deadline_within] at hwithin
      have hend := hwithin _ rfl
      exact (Timing.framesBefore_within apart unbroken latest (by omega) positive).symm

end ReadsBefore

theorem next_readsBefore (positive : 0 < timing.silence)
    (h : r.ReadsBefore timing closing characters found clock line) :
    (∃ frame, (next none clock line r).outcome = .done frame ∧
      (next none clock line r).reader.ReadsBefore timing closing characters (found ++ [frame])
        (next none clock line r).clock (next none clock line r).line) ∨
    (next none clock line r).outcome = .failed .serialStreamClosed ∧
      found = timing.framesBefore closing characters := by
  refine next_keeps (P := fun clock line r => r.ReadsBefore timing closing characters found clock line)
    (Q := fun reading => (∃ frame, reading.outcome = .done frame ∧
        reading.reader.ReadsBefore timing closing characters (found ++ [frame]) reading.clock reading.line) ∨
      reading.outcome = .failed .serialStreamClosed ∧ found = timing.framesBefore closing characters)
    (fun clock line r h => ?_) h
  fun_cases turn none clock line r with
  | case1 a frame b take => exact .inl ⟨frame, rfl, h.taken take⟩
  | case2 a _ take b bs unread =>
      have hpush := h.pushAll positive take
      rwa [unread] at hpush
  | case3 a _ take unread t bs line' read => exact h.read take unread read
  | case4 a _ take unread t read => exact .inr ⟨rfl, h.found_eq take unread read positive⟩
  | case5 a _ take unread read d deadline within =>
      rw [show a.deadline = some d from deadline] at read
      exact h.wait take unread read
  | case6 a _ take unread read d deadline late => exact absurd (within_none d) late
  | case7 a _ take unread read deadline =>
      rw [show a.deadline = none from deadline] at read
      exact absurd (Stream.closing_of_read_pending read) (by simp [h.closes])

end BurstReader

namespace Endpoint

theorem ends_of_readsBefore {timing : Timing} (positive : 0 < timing.silence) {closing : Nat}
    {characters : List Character} {found : List Bytes} {p : Endpoint} {r : BurstReader} (receiver : p.receiver = .rtu r)
    (h : r.ReadsBefore timing closing characters found p.clock p.line) :
    ∃ results q, Ends p results .serialStreamClosed q ∧ (found.map (Frame.adu? ∘ Rtu.decode)) ++ results =
      (timing.framesBefore closing characters).map (Frame.adu? ∘ Rtu.decode) := by
  induction hn : p.weight using Nat.strongRecOn generalizing p r found with
  | ind n ih =>
      have hreceive := receive_rtu receiver
      obtain ⟨frame, hdone, hreads⟩ | ⟨hfailed, rfl⟩ := BurstReader.next_readsBefore positive h
      · rw [hdone] at hreceive
        have hlt := p.weight_receive none (by rw [hreceive]; trivial)
        rw [hreceive, hn] at hlt
        obtain ⟨results, q, ends, heq⟩ := ih _ hlt rfl hreads rfl
        refine ⟨_, q, .message hreceive ends, ?_⟩
        rw [← heq, List.map_append, List.append_assoc]
        rfl
      · rw [hfailed] at hreceive
        exact ⟨[], _, .failure hreceive, List.append_nil _⟩

/-- However the pieces come, each burst that is a frame and is over before the stream is closed is received once, in
order, and then the end of the stream. -/
theorem ends_bursts (config : SerialConfig) (line : Stream) {closing : Nat} (filled : Filled line.arrivals)
    (sorted : line.arrivals.Pairwise fun c d => c.time ≤ d.time) (closes : line.closing = some closing) :
    ∃ results q, Ends (fresh .rtu config line) results .serialStreamClosed q ∧
      List.Forall₂ (fun burst result => ∀ adu, result = some adu ↔ Rtu.Carries (bytesOf burst) adu)
        ((config.timing.bursts Chunk.time line.arrivals).filter fun burst =>
          config.timing.Admits burst ∧ config.timing.Over Chunk.time closing line.arrivals burst) results := by
  have positive : 0 < config.timing.silence := Nat.zero_lt_of_lt config.short_timing
  have reads : BurstReader.Reads config.timing (charactersOf line.arrivals) [] 0 line.opened
      ⟨{ timing := config.timing }, []⟩ :=
    ⟨⟨0, [], Nat.le_refl _, .start _, rfl⟩, sorted, fun _ _ => Nat.zero_le _, rfl⟩
  have lasts : charactersOf line.arrivals ≠ [] → 0 < closing ∨ ∃ x ∈ charactersOf line.arrivals, 0 ≤ x.time :=
    fun some => .inr ⟨_, List.head_mem some, Nat.zero_le _⟩
  obtain ⟨results, q, ends, heq⟩ := ends_of_readsBefore (p := fresh .rtu config line) positive rfl
    ⟨reads, filled, closes, lasts⟩
  refine ⟨results, q, ends, ?_⟩
  rw [List.map_nil, List.nil_append, Timing.framesBefore_charactersOf positive filled sorted, List.map_map] at heq
  rw [heq, List.forall₂_map_right_iff, List.forall₂_same]
  intro burst _ adu
  rw [← Rtu.decode_eq_ok_iff, Function.comp_apply, Function.comp_apply]
  cases Rtu.decode (bytesOf burst) <;> simp [Frame.adu?]

end Endpoint

end Modbus
