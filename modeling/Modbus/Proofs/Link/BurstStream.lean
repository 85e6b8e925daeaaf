import Modbus.Proofs.Line.Bursts
import Modbus.Proofs.Link.Delivery

/-!
# Streams of bursts

The bytes of a serial line reach a receiver in pieces, each of them all at once. A receiver that is asked again and again
hands every character to its assembler after the silence before it has been noticed, so each burst of pieces that is
short and steady enough is received once, and no other.
-/

namespace Modbus

def Chunk.characters (c : Chunk) : List Character := c.bytes.map (Character.mk c.time)

def charactersOf (pieces : List Chunk) : List Character := pieces.flatMap (·.characters)

@[simp] theorem charactersOf_nil : charactersOf [] = [] := rfl

@[simp] theorem charactersOf_cons (c : Chunk) (cs : List Chunk) :
    charactersOf (c :: cs) = c.characters ++ charactersOf cs := rfl

@[simp] theorem charactersOf_append (front back : List Chunk) :
    charactersOf (front ++ back) = charactersOf front ++ charactersOf back := List.flatMap_append

theorem map_byte_charactersOf (pieces : List Chunk) : (charactersOf pieces).map Character.byte = bytesOf pieces := by
  induction pieces with
  | nil => rfl
  | cons c cs ih =>
      have hc : c.characters.map Character.byte = c.bytes := by simp [Chunk.characters, Function.comp_def]
      rw [charactersOf_cons, List.map_append, hc, ih, bytesOf_cons]

theorem mem_charactersOf {x : Character} {pieces : List Chunk} (h : x ∈ charactersOf pieces) :
    ∃ c ∈ pieces, c.time = x.time := by
  obtain ⟨c, hc, hx⟩ := List.mem_flatMap.mp h
  obtain ⟨b, _, rfl⟩ := List.mem_map.mp hx
  exact ⟨c, hc, rfl⟩

theorem charactersOf_eq_map {t : Nat} {pieces : List Chunk} (h : ∀ c ∈ pieces, c.time = t) :
    charactersOf pieces = (bytesOf pieces).map (Character.mk t) := by
  induction pieces with
  | nil => rfl
  | cons c cs ih =>
      obtain ⟨hc, hcs⟩ := List.forall_mem_cons.mp h
      rw [charactersOf_cons, ih hcs, Chunk.characters, hc, bytesOf_cons, List.map_append]

/-! ## Bursts of pieces -/

theorem head_charactersOf {pieces : List Chunk} (filled : Filled pieces) :
    (charactersOf pieces).head?.map Character.time = pieces.head?.map Chunk.time := by
  cases pieces with
  | nil => rfl
  | cons c cs =>
      obtain ⟨b, bs, hbytes⟩ := List.exists_cons_of_ne_nil (filled c List.mem_cons_self)
      simp [Chunk.characters, hbytes]

/-- Between the characters of a piece there is no gap, so the gaps are those between the pieces. -/
theorem isChain_charactersOf {S : Nat → Nat → Prop} (refl : ∀ t, S t t) {pieces : List Chunk} (filled : Filled pieces) :
    (charactersOf pieces).IsChain (fun x y => S x.time y.time) ↔ pieces.IsChain fun c d => S c.time d.time := by
  induction pieces with
  | nil => simp
  | cons c cs ih =>
      obtain ⟨hc, hcs⟩ := List.forall_mem_cons.mp filled
      have htime : ∀ x ∈ c.characters, x.time = c.time := by simp [Chunk.characters]
      have hpiece : c.characters.IsChain fun x y => S x.time y.time := by
        refine (List.pairwise_of_forall_mem_list fun x hx y hy => ?_).isChain
        rw [htime x hx, htime y hy]
        exact refl _
      have hsome : c.characters ≠ [] := by simpa [Chunk.characters] using hc
      have hjoint : (∀ x ∈ c.characters.getLast?, ∀ y ∈ (charactersOf cs).head?, S x.time y.time) ↔
          ∀ d ∈ cs.head?, S c.time d.time := by
        rw [List.getLast?_eq_some_getLast hsome]
        have hlast := htime _ (List.getLast_mem hsome)
        have hhead := head_charactersOf hcs
        cases hx : (charactersOf cs).head? <;> cases hd : cs.head? <;> simp_all
      rw [charactersOf_cons, List.isChain_append, List.isChain_cons, ih hcs, hjoint, and_iff_right hpiece, and_comm]

namespace Timing

def Admits (timing : Timing) (burst : List Chunk) : Prop :=
  (bytesOf burst).length ≤ 256 ∧ timing.Steady Chunk.time burst

instance (timing : Timing) (burst : List Chunk) : Decidable (timing.Admits burst) :=
  inferInstanceAs (Decidable (_ ∧ _))

theorem isFrame_charactersOf {timing : Timing} {burst : List Chunk} (filled : Filled burst) :
    timing.IsFrame (charactersOf burst) ↔ timing.Admits burst := by
  have hlength : (charactersOf burst).length = (bytesOf burst).length := by
    rw [← map_byte_charactersOf, List.length_map]
  unfold IsFrame Admits Steady
  rw [hlength, @isChain_charactersOf (fun s t => t ≤ s + timing.longestGap) (fun t => Nat.le_add_right t _) _ filled]

/-- The bursts of the characters are the characters of the bursts. -/
theorem bursts_charactersOf {timing : Timing} (positive : 0 < timing.silence) {pieces : List Chunk}
    (filled : Filled pieces) (sorted : pieces.Pairwise fun c d => c.time ≤ d.time) :
    timing.bursts Character.time (charactersOf pieces) = (timing.bursts Chunk.time pieces).map charactersOf := by
  refine bursts_induction timing (P := fun pieces => Filled pieces → timing.bursts Character.time (charactersOf pieces) =
    (timing.bursts Chunk.time pieces).map charactersOf) ?nil ?burst sorted filled
  case nil => exact fun _ => rfl
  case burst =>
    intro burst rest some unbroken apart ih filled
    obtain ⟨hburst, hrest⟩ := List.forall_mem_append.mp filled
    have hsome : charactersOf burst ≠ [] := by
      intro hnil
      exact bytesOf_ne_nil hburst some (by rw [← map_byte_charactersOf, hnil, List.map_nil])
    have hunbroken : (charactersOf burst).IsChain fun x y => y.time < x.time + timing.silence :=
      (@isChain_charactersOf (fun s t => t < s + timing.silence) (fun t => Nat.lt_add_of_pos_right positive) _
        hburst).mpr unbroken
    have hapart : ∀ x ∈ charactersOf burst, ∀ y ∈ charactersOf rest, x.time + timing.silence ≤ y.time := by
      intro x hx y hy
      obtain ⟨c, hc, hcx⟩ := mem_charactersOf hx
      obtain ⟨d, hd, hdy⟩ := mem_charactersOf hy
      rw [← hcx, ← hdy]
      exact apart c hc d hd
    rw [charactersOf_append, bursts_append hapart, bursts_eq_singleton hsome hunbroken, ih hrest, bursts_append apart,
      bursts_eq_singleton some unbroken, List.map_append, List.map_singleton]

theorem frames_charactersOf {timing : Timing} (positive : 0 < timing.silence) {pieces : List Chunk}
    (filled : Filled pieces) (sorted : pieces.Pairwise fun c d => c.time ≤ d.time) :
    timing.frames (charactersOf pieces) =
      ((timing.bursts Chunk.time pieces).filter (timing.Admits ·)).map bytesOf := by
  have hframe : ∀ burst ∈ timing.bursts Chunk.time pieces,
      decide (timing.IsFrame (charactersOf burst)) = decide (timing.Admits burst) := fun burst hburst =>
    decide_eq_decide.mpr (isFrame_charactersOf fun c hc => filled c (mem_of_mem_bursts hburst hc))
  rw [frames, bursts_charactersOf positive filled sorted, List.filter_map, List.map_map]
  simp only [Function.comp_def, map_byte_charactersOf]
  rw [List.filter_congr hframe]

end Timing

/-! ## Reading -/

namespace Stream

variable {s rest : Stream} {now t : Nat} {limit : Option Nat} {bs : Bytes}

theorem read_characters (h : s.read now limit = .bytes t bs rest)
    (sorted : s.arrivals.Pairwise fun c d => c.time ≤ d.time) (later : ∀ c ∈ s.arrivals, now ≤ c.time) :
    now ≤ t ∧ bs.map (Character.mk t) ++ charactersOf rest.arrivals = charactersOf s.arrivals ∧
      rest.arrivals.Pairwise (fun c d => c.time ≤ d.time) ∧ (∀ c ∈ rest.arrivals, t ≤ c.time) ∧
      rest.closing = s.closing := by
  unfold read at h
  split at h
  · split at h <;> (try split at h) <;> cases h
  · rename_i c cs hs
    rw [hs] at sorted later ⊢
    obtain ⟨hc, hcs⟩ := List.pairwise_cons.mp sorted
    have hmax : max now c.time = c.time := Nat.max_eq_right (later c List.mem_cons_self)
    simp only [hmax] at h
    split at h
    · cases h
      have hrest := List.dropWhile_sublist (fun d : Chunk => decide (d.time ≤ c.time)) (l := cs)
      have htogether : ∀ d ∈ c :: cs.takeWhile (·.time ≤ c.time), d.time = c.time := by
        refine List.forall_mem_cons.mpr ⟨rfl, fun d hd => ?_⟩
        have hle := hc d ((List.takeWhile_sublist _).subset hd)
        have hge := of_decide_eq_true (List.all_eq_true.mp List.all_takeWhile d hd)
        exact Nat.le_antisymm hge hle
      refine ⟨later c List.mem_cons_self, ?_, hcs.sublist hrest, fun d hd => hc d (hrest.subset hd), rfl⟩
      show (bytesOf (c :: cs.takeWhile (·.time ≤ c.time))).map _ ++ charactersOf (cs.dropWhile (·.time ≤ c.time)) = _
      rw [← charactersOf_eq_map htogether, ← charactersOf_append, List.cons_append, List.takeWhile_append_dropWhile]
    · cases h

theorem read_ne_closed (closing : s.closing = none) : s.read now limit ≠ .closed t := by
  unfold read
  rw [closing]
  split
  · exact nofun
  · dsimp only
    split <;> exact nofun

theorem read_pending (h : s.read now limit = .pending) (sorted : s.arrivals.Pairwise fun c d => c.time ≤ d.time)
    (later : ∀ c ∈ s.arrivals, now ≤ c.time) : ∀ c ∈ s.arrivals, ∃ l, limit = some l ∧ l ≤ c.time := by
  unfold read at h
  split at h
  · rename_i hs
    rw [hs]
    exact fun c hc => absurd hc List.not_mem_nil
  · rename_i c cs hs
    rw [hs] at sorted later ⊢
    obtain ⟨hc, -⟩ := List.pairwise_cons.mp sorted
    have hmax : max now c.time = c.time := Nat.max_eq_right (later c List.mem_cons_self)
    simp only [hmax] at h
    split at h
    · cases h
    · rename_i hwithin
      cases limit with
      | none => exact absurd (within_none _) hwithin
      | some l =>
          have hlt : l ≤ c.time := by
            rw [within_some] at hwithin
            omega
          refine List.forall_mem_cons.mpr ⟨⟨l, rfl, hlt⟩, fun d hd => ⟨l, rfl, Nat.le_trans hlt (hc d hd)⟩⟩

end Stream

namespace BurstReader

/-- Of the characters that a line brings, those that the assembler has heard have been tracked; the others have been read
or are still to come. -/
structure Reads (timing : Timing) (characters : List Character) (found : List Bytes) (clock : Nat) (line : Stream)
    (r : BurstReader) : Prop where
  heard : ∃ now heard, now ≤ clock ∧ Assembler.Tracks timing now heard found r.assembler ∧
    heard ++ (r.unread.map (Character.mk clock) ++ charactersOf line.arrivals) = characters
  sorted : line.arrivals.Pairwise fun c d => c.time ≤ d.time
  later : ∀ c ∈ line.arrivals, clock ≤ c.time
  closing : line.closing = none

variable {timing : Timing} {characters : List Character} {found : List Bytes} {clock : Nat} {line : Stream}
  {r : BurstReader}

namespace Reads

theorem attend (h : r.Reads timing characters found clock line) :
    ∃ heard, Assembler.Tracks timing clock heard (found ++ (r.assembler.attend clock).1.toList)
        (r.assembler.attend clock).2 ∧
      heard ++ (r.unread.map (Character.mk clock) ++ charactersOf line.arrivals) = characters := by
  obtain ⟨now, heard, le, tracks, heq⟩ := h.heard
  exact ⟨heard, tracks.attend le, heq⟩

theorem taken (h : r.Reads timing characters found clock line) {frame : Bytes} {a : Assembler}
    (take : (r.assembler.poll clock).take = (some frame, a)) :
    Reads timing characters (found ++ [frame]) clock line ⟨a, r.unread⟩ := by
  obtain ⟨heard, tracks, heq⟩ := h.attend
  rw [show r.assembler.attend clock = _ from take] at tracks
  exact ⟨⟨clock, heard, Nat.le_refl _, tracks, heq⟩, h.sorted, h.later, h.closing⟩

theorem tracks_poll (h : r.Reads timing characters found clock line) {a : Assembler}
    (take : (r.assembler.poll clock).take = (none, a)) :
    ∃ heard, Assembler.Tracks timing clock heard found (r.assembler.poll clock) ∧
      heard ++ (r.unread.map (Character.mk clock) ++ charactersOf line.arrivals) = characters := by
  obtain ⟨heard, tracks, heq⟩ := h.attend
  rw [show r.assembler.attend clock = _ from take, Option.toList_none, List.append_nil] at tracks
  obtain rfl : a = r.assembler.poll clock := by
    unfold Assembler.take at take
    split at take <;> cases take
    rfl
  exact ⟨heard, tracks, heq⟩

theorem pushAll (positive : 0 < timing.silence) (h : r.Reads timing characters found clock line) {a : Assembler}
    (take : (r.assembler.poll clock).take = (none, a)) :
    Reads timing characters found clock line ⟨(r.assembler.poll clock).pushAll r.unread clock, []⟩ := by
  obtain ⟨heard, tracks, heq⟩ := h.tracks_poll take
  refine ⟨⟨clock, _, Nat.le_refl _, tracks.pushAll positive r.unread, ?_⟩, h.sorted, h.later, h.closing⟩
  rw [List.append_assoc]
  exact heq

theorem wait (h : r.Reads timing characters found clock line) {a : Assembler}
    (take : (r.assembler.poll clock).take = (none, a)) (unread : r.unread = []) {t : Nat} (le : clock ≤ t)
    (later : ∀ c ∈ line.arrivals, t ≤ c.time) :
    Reads timing characters found t line ⟨r.assembler.poll clock, []⟩ := by
  obtain ⟨heard, tracks, heq⟩ := h.tracks_poll take
  rw [unread] at heq
  exact ⟨⟨clock, heard, le, tracks, heq⟩, h.sorted, later, h.closing⟩

theorem read (h : r.Reads timing characters found clock line) {a : Assembler}
    (take : (r.assembler.poll clock).take = (none, a)) (unread : r.unread = []) {limit : Option Nat} {t : Nat}
    {bs : Bytes} {line' : Stream} (read : line.read clock limit = .bytes t bs line') :
    Reads timing characters found t line' ⟨r.assembler.poll clock, bs⟩ := by
  obtain ⟨heard, tracks, heq⟩ := h.tracks_poll take
  obtain ⟨le, hcharacters, hsorted, hlater, hclosing⟩ := Stream.read_characters read h.sorted h.later
  rw [unread, List.map_nil, List.nil_append, ← hcharacters] at heq
  exact ⟨⟨clock, heard, le, tracks, heq⟩, hsorted, hlater, hclosing.trans h.closing⟩

theorem found_eq (h : r.Reads timing characters found clock line) {a : Assembler}
    (take : (r.assembler.poll clock).take = (none, a)) (unread : r.unread = []) (arrivals : line.arrivals = [])
    (deadline : (r.assembler.poll clock).deadline = none) : found = timing.frames characters := by
  obtain ⟨heard, tracks, heq⟩ := h.tracks_poll take
  rw [unread, arrivals, List.map_nil, charactersOf_nil, List.append_nil, List.append_nil] at heq
  subst heq
  generalize r.assembler.poll clock = b at tracks deadline
  cases tracks with
  | quiet => rfl
  | within =>
      rw [Assembler.deadline_within] at deadline
      cases deadline

end Reads

theorem next_reads (positive : 0 < timing.silence) (h : r.Reads timing characters found clock line) :
    (∃ frame, (next none clock line r).outcome = .done frame ∧
      (next none clock line r).reader.Reads timing characters (found ++ [frame]) (next none clock line r).clock
        (next none clock line r).line) ∨
    (next none clock line r).outcome = .pending ∧ found = timing.frames characters := by
  refine next_keeps (P := fun clock line r => r.Reads timing characters found clock line)
    (Q := fun reading => (∃ frame, reading.outcome = .done frame ∧
        reading.reader.Reads timing characters (found ++ [frame]) reading.clock reading.line) ∨
      reading.outcome = .pending ∧ found = timing.frames characters) (fun clock line r h => ?_) h
  fun_cases turn none clock line r with
  | case1 a frame b take => exact .inl ⟨frame, rfl, h.taken take⟩
  | case2 a _ take b bs unread =>
      have hpush := h.pushAll positive take
      rwa [unread] at hpush
  | case3 a _ take unread t bs line' read => exact h.read take unread read
  | case4 a _ take unread t read => exact absurd read (Stream.read_ne_closed h.closing)
  | case5 a _ take unread read d deadline within =>
      rw [show a.deadline = some d from deadline] at read
      have hlater : ∀ c ∈ line.arrivals, max clock d ≤ c.time := by
        intro c hc
        obtain ⟨l, hl, hle⟩ := Stream.read_pending read h.sorted h.later c hc
        cases hl
        exact Nat.max_le.mpr ⟨h.later c hc, hle⟩
      exact h.wait take unread (Nat.le_max_left _ _) hlater
  | case6 a _ take unread read d deadline late => exact absurd (within_none d) late
  | case7 a _ take unread read deadline =>
      rw [show a.deadline = none from deadline] at read
      have hnone : line.arrivals = [] := by
        refine List.eq_nil_iff_forall_not_mem.mpr fun c hc => ?_
        obtain ⟨l, hl, -⟩ := Stream.read_pending read h.sorted h.later c hc
        cases hl
      exact .inr ⟨rfl, h.found_eq take unread hnone deadline⟩

end BurstReader

namespace Endpoint

/-- What an endpoint receives that is asked again and again, until it would wait for ever. -/
inductive Hears : Endpoint → List (Option Adu) → Prop
  | silence {p p'} (nothing : p.receive none = (.pending, p')) : Hears p []
  | message {p p' result results} (received : p.receive none = (.done result, p')) :
      Hears p' results → Hears p (result :: results)

theorem receive_rtu {p : Endpoint} {r : BurstReader} (receiver : p.receiver = .rtu r) : p.receive none =
    ((BurstReader.next none p.clock p.line r).outcome.map (Frame.adu? ∘ Rtu.decode),
      { p with
        clock := (BurstReader.next none p.clock p.line r).clock
        line := (BurstReader.next none p.clock p.line r).line
        receiver := .rtu (BurstReader.next none p.clock p.line r).reader
        bus := busMarked p.bus (BurstReader.next none p.clock p.line r).clock
          (BurstReader.next none p.clock p.line r).outcome }) := by
  unfold receive
  rw [if_neg (not_not_intro (within_none _)), receiver]

theorem hears_of_reads {timing : Timing} (positive : 0 < timing.silence) {characters : List Character}
    {found : List Bytes} {p : Endpoint} {r : BurstReader} (receiver : p.receiver = .rtu r)
    (h : r.Reads timing characters found p.clock p.line) :
    ∃ results, Hears p results ∧
      (found.map (Frame.adu? ∘ Rtu.decode)) ++ results = (timing.frames characters).map (Frame.adu? ∘ Rtu.decode) := by
  induction hn : p.weight using Nat.strongRecOn generalizing p r found with
  | ind n ih =>
      have hreceive := receive_rtu receiver
      obtain ⟨frame, hdone, hreads⟩ | ⟨hpending, rfl⟩ := BurstReader.next_reads positive h
      · rw [hdone] at hreceive
        have hlt := p.weight_receive none (by rw [hreceive]; trivial)
        rw [hreceive, hn] at hlt
        obtain ⟨results, hears, heq⟩ := ih _ hlt rfl hreads rfl
        refine ⟨_, .message hreceive hears, ?_⟩
        rw [← heq, List.map_append, List.append_assoc]
        rfl
      · rw [hpending] at hreceive
        exact ⟨[], .silence hreceive, List.append_nil _⟩

/-- Whatever the pieces are and whenever they come, each burst that is a frame is received once, in order. -/
theorem hears_bursts (config : SerialConfig) {line : Stream} (filled : Filled line.arrivals)
    (sorted : line.arrivals.Pairwise fun c d => c.time ≤ d.time) (closing : line.closing = none) :
    ∃ results, Hears (fresh .rtu config line) results ∧
      List.Forall₂ (fun burst result => ∀ adu, result = some adu ↔ Rtu.Carries (bytesOf burst) adu)
        ((config.timing.bursts Chunk.time line.arrivals).filter (config.timing.Admits ·)) results := by
  have positive : 0 < config.timing.silence := Nat.zero_lt_of_lt config.short_timing
  have reads : BurstReader.Reads config.timing (charactersOf line.arrivals) [] 0 line ⟨{ timing := config.timing }, []⟩ :=
    ⟨⟨0, [], Nat.le_refl _, .start _, rfl⟩, sorted, fun _ _ => Nat.zero_le _, closing⟩
  obtain ⟨results, hears, heq⟩ := hears_of_reads (p := fresh .rtu config line) positive rfl reads
  refine ⟨results, hears, ?_⟩
  rw [List.map_nil, List.nil_append, Timing.frames_charactersOf positive filled sorted, List.map_map] at heq
  rw [heq, List.forall₂_map_right_iff, List.forall₂_same]
  intro burst _ adu
  rw [← Rtu.decode_eq_ok_iff, Function.comp_apply, Function.comp_apply]
  cases Rtu.decode (bytesOf burst) <;> simp [Frame.adu?]

/-- A message in two pieces; at its deadline a burst with a wrong checksum; two pieces too far apart for a message; and at
their deadline a message again. -/
theorem hears_bursts_deadlines :
    let line : Stream := { arrivals := [⟨1000, [1, 17]⟩, ⟨751000, [192, 44]⟩, ⟨2501000, [2, 17, 192, 44]⟩,
      ⟨5000000, [1]⟩, ⟨5750001, [17, 192, 44]⟩, ⟨7500001, [1, 17, 192, 44]⟩] }
    Filled line.arrivals ∧ (line.arrivals.Pairwise fun c d => c.time ≤ d.time) ∧ line.closing = none ∧
      Hears (fresh .rtu { baud := 115200 } line) [some ⟨⟨0, 1⟩, [17]⟩, none, some ⟨⟨0, 1⟩, [17]⟩] := by
  intro line
  have filled : Filled line.arrivals := by simp [line, Filled]
  have sorted : line.arrivals.Pairwise fun c d => c.time ≤ d.time := by decide
  have hbursts : ((SerialConfig.timing { baud := 115200 }).bursts Chunk.time line.arrivals).filter
      ((SerialConfig.timing { baud := 115200 }).Admits ·) =
      [[⟨1000, [1, 17]⟩, ⟨751000, [192, 44]⟩], [⟨2501000, [2, 17, 192, 44]⟩], [⟨7500001, [1, 17, 192, 44]⟩]] := by
    decide
  have good : Rtu.Carries [1, 17, 192, 44] ⟨⟨0, 1⟩, [17]⟩ :=
    ⟨rfl, by decide, by decide, by decide +kernel⟩
  have bad (adu : Adu) : ¬ Rtu.Carries [2, 17, 192, 44] adu := by
    have hdecode : Rtu.decode [2, 17, 192, 44] = .error .crcMismatch := by decide +kernel
    rw [← Rtu.decode_eq_ok_iff, hdecode]
    exact nofun
  obtain ⟨results, hears, delivers⟩ := hears_bursts { baud := 115200 } filled sorted rfl
  rw [hbursts] at delivers
  rcases delivers with _ | ⟨hfirst, _ | ⟨hsecond, _ | ⟨hthird, _ | _⟩⟩⟩
  rw [(hfirst _).mpr good, Option.eq_none_iff_forall_ne_some.mpr fun adu h => bad adu ((hsecond adu).mp h),
    (hthird _).mpr good] at hears
  exact ⟨filled, sorted, rfl, hears⟩

end Endpoint

end Modbus
