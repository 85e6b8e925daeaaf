import Modbus.Proofs.Frame.AsciiStream

/-!
# Frames behind interrupted ones

Until a line ends a receiver holds what has arrived since the first colon, and throws it away when that is too long for
a frame. What is held of an interrupted frame counts with the frame behind it, so that it depends on the places where
the stream is cut whether that frame gets through.
-/

namespace Modbus.Ascii

/-! ## What is held -/

def started (buffer : Bytes) : Bytes := buffer.dropWhile (· ≠ start)

theorem started_suffix (buffer : Bytes) : started buffer <:+ buffer := List.dropWhile_suffix _

theorem started_quiet {buffer : Bytes} (quiet : start ∉ buffer) : started buffer = [] := by
  have := dropWhile_append_noise quiet []
  rwa [List.append_nil] at this

theorem started_append {buffer : Bytes} (h : start ∈ buffer) (more : Bytes) :
    started (buffer ++ more) = started buffer ++ more := by
  obtain ⟨noise, line, rfl, quiet⟩ := List.eq_append_cons_of_mem h
  rw [started, started, List.append_assoc, List.cons_append, dropWhile_noise quiet, dropWhile_noise quiet,
    List.cons_append]

theorem started_append_start (buffer line : Bytes) :
    started (buffer ++ start :: line) = started buffer ++ start :: line := by
  by_cases h : start ∈ buffer
  · exact started_append h _
  · rw [started_quiet h, started, dropWhile_noise h, List.nil_append]

theorem started_started_append (buffer more : Bytes) : started (started buffer ++ more) = started (buffer ++ more) := by
  by_cases h : start ∈ buffer
  · obtain ⟨noise, line, rfl, quiet⟩ := List.eq_append_cons_of_mem h
    rw [started, started, started, dropWhile_noise quiet, List.append_assoc, List.cons_append, dropWhile_noise quiet,
      List.dropWhile_cons_of_neg (by simp)]
  · rw [started_quiet h, List.nil_append, started, started, dropWhile_append_noise h]

/-- What is held of bytes in which no line ends. -/
def keep (buffer : Bytes) : Bytes := if 513 < (started buffer).length then [] else started buffer

theorem keep_suffix (buffer : Bytes) : keep buffer <:+ buffer := by
  unfold keep
  split
  · exact List.nil_suffix
  · exact started_suffix buffer

theorem decode_unended {buffer : Bytes} (unended : ¬ ending <:+: buffer) :
    decode buffer = (if 513 < (started buffer).length then some (.error .frameTooLong) else none, keep buffer) := by
  have hsplit : splitLine (buffer.dropWhile (· ≠ start)) = none :=
    unended_iff.mp (unended_part unended (started_suffix buffer).isInfix)
  have hmax : maxSize = 513 := rfl
  unfold decode keep
  simp only [hsplit, hmax]
  show (if 513 < (started buffer).length then _ else _) = _
  split <;> rfl

theorem drain_nil : envelope.drain [] = ([], []) := Envelope.drain_none rfl

theorem drain_unended {buffer : Bytes} (unended : ¬ ending <:+: buffer) :
    ∃ n, envelope.drain buffer = (tooLong n, keep buffer) := by
  have hdecode : envelope.decode buffer = _ := decode_unended unended
  by_cases hlong : 513 < (started buffer).length
  · rw [if_pos hlong] at hdecode
    have hkeep : keep buffer = [] := if_pos hlong
    refine ⟨1, ?_⟩
    rw [Envelope.drain_some hdecode, hkeep, drain_nil]
    rfl
  · rw [if_neg hlong] at hdecode
    exact ⟨0, Envelope.drain_none hdecode⟩

def hold (buffer : Bytes) (pieces : List Bytes) : Bytes :=
  pieces.foldl (fun buffer piece => keep (buffer ++ piece)) buffer

theorem hold_append (buffer : Bytes) (front back : List Bytes) :
    hold buffer (front ++ back) = hold (hold buffer front) back := List.foldl_append

theorem hold_suffix (buffer : Bytes) (pieces : List Bytes) : hold buffer pieces <:+ buffer ++ pieces.flatten := by
  induction pieces generalizing buffer with
  | nil => simp [hold]
  | cons piece pieces ih =>
      obtain ⟨front, hfront⟩ := keep_suffix (buffer ++ piece)
      refine (ih (keep (buffer ++ piece))).trans ⟨front, ?_⟩
      rw [← List.append_assoc, hfront, List.flatten_cons, List.append_assoc]

theorem foldl_feed_unended (frames : List Frame) {buffer : Bytes} {pieces : List Bytes}
    (unended : ¬ ending <:+: buffer ++ pieces.flatten) :
    ∃ n, pieces.foldl envelope.feed (frames, buffer) = (frames ++ tooLong n, hold buffer pieces) := by
  induction pieces generalizing frames buffer with
  | nil => exact ⟨0, by simp [tooLong, hold]⟩
  | cons piece pieces ih =>
      rw [List.flatten_cons, ← List.append_assoc] at unended
      have hpiece : ¬ ending <:+: buffer ++ piece := unended_part unended (List.prefix_append ..).isInfix
      obtain ⟨front, hfront⟩ := keep_suffix (buffer ++ piece)
      have hrest : ¬ ending <:+: keep (buffer ++ piece) ++ pieces.flatten :=
        unended_part unended (List.IsSuffix.isInfix ⟨front, by rw [← List.append_assoc, hfront]⟩)
      obtain ⟨m, hdrain⟩ := drain_unended hpiece
      obtain ⟨n, hfold⟩ := ih (frames ++ tooLong m) hrest
      refine ⟨m + n, ?_⟩
      rw [List.foldl_cons, Envelope.feed, hdrain]
      dsimp only
      rw [hfold, List.append_assoc, tooLong, tooLong, tooLong, List.replicate_append_replicate]
      rfl

/-- Of bytes that go on without a colon only the length matters. -/
theorem keep_keep_append {buffer piece : Bytes} (h : start ∈ buffer) (quiet : start ∉ piece) :
    keep (keep buffer ++ piece) = keep (buffer ++ piece) := by
  by_cases hlong : 513 < (started buffer).length
  · have hmore : 513 < (started (buffer ++ piece)).length := by
      rw [started_append h, List.length_append]
      omega
    rw [keep, keep, keep, if_pos hlong, if_pos hmore, List.nil_append, started_quiet quiet, ite_self]
  · rw [keep, keep, keep, if_neg hlong, started_started_append]

theorem hold_keep {buffer : Bytes} {pieces : List Bytes} (h : start ∈ buffer) (quiet : start ∉ pieces.flatten) :
    hold (keep buffer) pieces = keep (buffer ++ pieces.flatten) := by
  induction pieces generalizing buffer with
  | nil => rw [List.flatten_nil, List.append_nil, hold, List.foldl_nil]
  | cons piece pieces ih =>
      rw [List.flatten_cons, List.mem_append, not_or] at quiet
      have hpiece : start ∈ buffer ++ piece := List.mem_append_left _ h
      rw [hold, List.foldl_cons, ← hold, keep_keep_append h quiet.1, ih hpiece quiet.2, List.flatten_cons,
        List.append_assoc]

/-! ## The frame -/

theorem foldl_feed_quiet {frames : List Frame} {pieces : List Bytes} (quiet : start ∉ pieces.flatten) :
    pieces.foldl envelope.feed (frames, []) = (frames, []) := by
  induction pieces with
  | nil => rfl
  | cons piece pieces ih =>
      rw [List.flatten_cons, List.mem_append, not_or] at quiet
      have hdecode : envelope.decode ([] ++ piece) = (none, []) := decode_noise quiet.1
      rw [List.foldl_cons, Envelope.feed, Envelope.drain_none hdecode, List.append_nil, ih quiet.2]

/-- A frame gets through whatever is held in front of it. -/
theorem drain_encode {adu : Adu} (h : adu.IsSendable) {lead : Bytes} (unended : ¬ ending <:+: lead) :
    envelope.drain (lead ++ encode adu) = ([.ok adu.anonymous], []) := by
  have hframe : envelope.decode (lead ++ encode adu) = (some (.ok adu.anonymous), []) := by
    obtain ⟨noise, quiet, rfl | ⟨line, -, rfl⟩ | ⟨line, rest, -, rfl⟩⟩ := exists_noise lead
    · have := decode_line quiet (unended_text adu) []
      rwa [List.append_nil, read_text h, segment_text] at this
    · have hline : ¬ ending <:+: line :=
        unended_part unended ((List.suffix_cons start line).trans (List.suffix_append noise _)).isInfix
      have hread : read (line ++ start :: text adu) = .ok adu.anonymous := by
        rw [read, ← List.cons_append, afterStart_append (text_quiet adu)]
        exact decodeText_encode h
      have := decode_line quiet (unended_append_start hline (unended_text adu)) []
      rw [List.append_nil, hread] at this
      rw [← segment_text, ← this]
      show decode _ = decode _
      simp [segment]
    · exact absurd ⟨noise ++ start :: line, rest, by simp [segment]⟩ unended
  rw [Envelope.drain_some hframe, drain_nil]

theorem unended_front {adu : Adu} {front back : Bytes} (h : front ++ back = encode adu) (hback : back ≠ []) :
    ¬ ending <:+: front := by
  have hline : ∀ c ∈ start :: text adu, c ≠ 13 :=
    List.forall_mem_cons.mpr ⟨by decide, fun c hc => (isText_encode _ c hc).2⟩
  exact splitLine_eq_none (splitLine_front hline h hback)

theorem feed_completes {adu : Adu} (h : adu.IsSendable) {buffer piece lead : Bytes} (unended : ¬ ending <:+: lead)
    (hlead : buffer ++ piece = lead ++ encode adu) (frames : List Frame) :
    envelope.feed (frames, buffer) piece = (frames ++ [.ok adu.anonymous], []) := by
  rw [Envelope.feed, hlead, drain_encode h unended]

theorem exists_eq_start_cons {adu : Adu} {head back : Bytes} (h : head ++ back = encode adu) (begun : head ≠ []) :
    ∃ more, head = start :: more ∧ start ∉ back := by
  obtain ⟨c, more, rfl⟩ := List.exists_cons_of_ne_nil begun
  obtain ⟨rfl, hmore⟩ := List.cons.inj h
  refine ⟨more, rfl, fun hmem => ?_⟩
  have hframe : start ∈ text adu ++ ending := by
    rw [text, ← hmore]
    exact List.mem_append_right _ hmem
  rcases List.mem_append.mp hframe with htext | hending
  · exact text_quiet adu _ htext rfl
  · exact absurd hending (by decide)

/-! ## Where the stream is cut -/

/-- The pieces bring the junk and then the frame, and `head`, the first bytes of the frame, come in one piece with
`rest`, the last of the junk. -/
structure Arrives (pieces : List Bytes) (junk frame : Bytes) (front : List Bytes) (rest head : Bytes)
    (back : List Bytes) : Prop where
  pieces_eq : pieces = front ++ (rest ++ head) :: back
  junk_eq : front.flatten ++ rest = junk
  frame_eq : head ++ back.flatten = frame
  begun : head ≠ []

theorem Arrives.exists {pieces : List Bytes} {junk frame : Bytes} (h : pieces.flatten = junk ++ frame)
    (hframe : frame ≠ []) : ∃ front rest head back, Arrives pieces junk frame front rest head back := by
  induction pieces generalizing junk with
  | nil => exact absurd (List.append_eq_nil_iff.mp h.symm).2 hframe
  | cons piece pieces ih =>
      rw [List.flatten_cons] at h
      rcases Nat.lt_or_ge junk.length piece.length with hlt | hge
      · obtain ⟨head, rfl⟩ := List.prefix_of_prefix_length_le ⟨frame, h.symm⟩ ⟨pieces.flatten, rfl⟩ (Nat.le_of_lt hlt)
        refine ⟨[], junk, head, pieces, rfl, rfl, ?_, ?_⟩
        · rw [List.append_assoc] at h
          exact List.append_cancel_left h
        · rintro rfl
          simp at hlt
      · obtain ⟨junk', rfl⟩ := List.prefix_of_prefix_length_le ⟨pieces.flatten, h⟩ ⟨frame, rfl⟩ hge
        rw [List.append_assoc] at h
        obtain ⟨front, rest, head, back, arrives⟩ := ih (List.append_cancel_left h)
        refine ⟨piece :: front, rest, head, back, ?_, ?_, arrives.frame_eq, arrives.begun⟩
        · rw [arrives.pieces_eq, List.cons_append]
        · rw [List.flatten_cons, List.append_assoc, arrives.junk_eq]

/-- What is held in front of the frame when the frame begins. -/
def leading (front : List Bytes) (rest : Bytes) : Bytes := started (hold [] front ++ rest)

/-- Wherever the stream is cut inside of the frame, the front of the frame and what is held before it are together
short enough for a frame. -/
def Spared (lead head : Bytes) (back : List Bytes) : Prop :=
  ∀ early late, back = early ++ late → late.flatten ≠ [] → lead.length + (head ++ early.flatten).length ≤ 513

theorem exists_last_piece {pieces : List Bytes} (h : pieces.flatten ≠ []) :
    ∃ early last empties, pieces = early ++ last :: empties ∧ last ≠ [] ∧ empties.flatten = [] := by
  induction pieces with
  | nil => exact absurd rfl h
  | cons piece pieces ih =>
      by_cases hpieces : pieces.flatten = []
      · refine ⟨[], piece, pieces, rfl, ?_, hpieces⟩
        rwa [List.flatten_cons, hpieces, List.append_nil] at h
      · obtain ⟨early, last, empties, rfl, hlast, hempties⟩ := ih hpieces
        exact ⟨piece :: early, last, empties, rfl, hlast, hempties⟩

theorem spared_whole {lead head : Bytes} {back : List Bytes} (h : back.flatten = []) : Spared lead head back := by
  rintro early late rfl hlate
  rw [List.flatten_append, List.append_eq_nil_iff] at h
  exact absurd h.2 hlate

theorem spared_short {lead head : Bytes} {back : List Bytes}
    (h : lead.length + (head ++ back.flatten).length ≤ 514) : Spared lead head back := by
  rintro early late rfl hlate
  have hpos := List.length_pos_iff.mpr hlate
  simp only [List.flatten_append, List.length_append] at h ⊢
  omega

/-- It is the last cut inside of the frame that counts. -/
theorem spared_iff {lead head last : Bytes} {early empties : List Bytes} (hlast : last ≠ [])
    (hempties : empties.flatten = []) :
    Spared lead head (early ++ last :: empties) ↔ lead.length + (head ++ early.flatten).length ≤ 513 := by
  constructor
  · exact fun spared => spared early (last :: empties) rfl (by simp [hlast])
  · intro hshort early' late heq hlate
    have hprefix : early' <+: early := by
      obtain ⟨c, rfl, hc⟩ | ⟨c, rfl, -⟩ := List.append_eq_append_iff.mp heq
      · cases c with
        | nil => simp
        | cons piece c =>
            rw [List.cons_append, List.cons.injEq] at hc
            obtain ⟨rfl, rfl⟩ := hc
            rw [List.flatten_append, List.append_eq_nil_iff] at hempties
            exact absurd hempties.2 hlate
      · exact List.prefix_append ..
    obtain ⟨more, rfl⟩ := hprefix
    simp only [List.flatten_append, List.length_append] at hshort ⊢
    omega

section
variable {adu : Adu} {front back : List Bytes} {rest head : Bytes}

theorem unended_hold (unended : ¬ ending <:+: front.flatten ++ rest) : ¬ ending <:+: hold [] front ++ rest := by
  obtain ⟨gone, hgone⟩ := hold_suffix [] front
  refine unended_part unended (List.IsSuffix.isInfix ⟨gone, ?_⟩)
  rw [← List.append_assoc, hgone, List.nil_append]

theorem unended_leading (unended : ¬ ending <:+: front.flatten ++ rest) : ¬ ending <:+: leading front rest :=
  unended_part (unended_hold unended) (started_suffix _).isInfix

theorem collect_whole (h : adu.IsSendable) (unended : ¬ ending <:+: front.flatten ++ rest)
    (hback : back.flatten = []) :
    ∃ n, envelope.collect (front ++ (rest ++ encode adu) :: back) = (tooLong n ++ [.ok adu.anonymous], []) := by
  have hfront : ¬ ending <:+: [] ++ front.flatten := unended_part unended (List.prefix_append ..).isInfix
  obtain ⟨n, hfold⟩ := foldl_feed_unended [] hfront
  refine ⟨n, ?_⟩
  rw [Envelope.collect, List.foldl_append, hfold, List.foldl_cons,
    feed_completes h (unended_hold unended) (List.append_assoc ..).symm, foldl_feed_quiet (by simp [hback]),
    List.nil_append]

/-- As long as a frame is not complete, it is held behind what was held before it, or nothing is. -/
theorem collect_begun {early : List Bytes} {late : Bytes} (hframe : head ++ early.flatten ++ late = encode adu)
    (begun : head ≠ []) (hlate : late ≠ []) (unended : ¬ ending <:+: front.flatten ++ rest) :
    ∃ n, envelope.collect (front ++ (rest ++ head) :: early) =
      (tooLong n, if 513 < (leading front rest).length + (head ++ early.flatten).length then []
        else leading front rest ++ (head ++ early.flatten)) := by
  obtain ⟨more, rfl, hquiet⟩ := exists_eq_start_cons ((List.append_assoc ..).symm.trans hframe) begun
  rw [List.mem_append, not_or] at hquiet
  have hstream : (front ++ (rest ++ start :: more) :: early).flatten =
      front.flatten ++ rest ++ start :: (more ++ early.flatten) := by simp
  have hmore : ¬ ending <:+: more ++ early.flatten :=
    unended_part (unended_front hframe hlate) (List.suffix_cons start _).isInfix
  have hunended : ¬ ending <:+: [] ++ (front ++ (rest ++ start :: more) :: early).flatten := by
    rw [List.nil_append, hstream]
    exact unended_append_start unended hmore
  obtain ⟨n, hfold⟩ := foldl_feed_unended [] hunended
  have hhold : hold [] (front ++ (rest ++ start :: more) :: early) =
      keep (hold [] front ++ rest ++ start :: (more ++ early.flatten)) := by
    have hpiece : start ∈ hold [] front ++ (rest ++ start :: more) := by simp
    rw [hold_append, hold, List.foldl_cons, ← hold, hold_keep hpiece hquiet.1]
    simp
  have hstarted : started (hold [] front ++ rest ++ start :: (more ++ early.flatten)) =
      leading front rest ++ (start :: more ++ early.flatten) := started_append_start _ _
  refine ⟨n, ?_⟩
  rw [Envelope.collect, hfold, hhold, keep, hstarted, List.length_append, List.nil_append]

theorem collect_arrives (h : adu.IsSendable) {junk : Bytes} (unended : ¬ ending <:+: junk) {pieces : List Bytes}
    (arrives : Arrives pieces junk (encode adu) front rest head back) :
    (Spared (leading front rest) head back →
      ∃ n, envelope.collect pieces = (tooLong n ++ [.ok adu.anonymous], [])) ∧
    (¬ Spared (leading front rest) head back → ∃ n, envelope.collect pieces = (tooLong n, [])) := by
  obtain ⟨rfl, rfl, hframe, begun⟩ := arrives
  by_cases hback : back.flatten = []
  · rw [hback, List.append_nil] at hframe
    obtain rfl := hframe
    exact ⟨fun _ => collect_whole h unended hback, fun hnot => absurd (spared_whole hback) hnot⟩
  · obtain ⟨early, last, empties, rfl, hlast, hempties⟩ := exists_last_piece hback
    have hflatten : (early ++ last :: empties).flatten = early.flatten ++ last := by simp [hempties]
    rw [hflatten, ← List.append_assoc] at hframe
    have hquiet : start ∉ (last :: empties).flatten := by
      rw [List.append_assoc] at hframe
      obtain ⟨-, -, hquiet⟩ := exists_eq_start_cons hframe begun
      rw [List.flatten_cons, hempties, List.append_nil]
      exact fun hmem => hquiet (List.mem_append_right _ hmem)
    obtain ⟨n, hbegun⟩ := collect_begun hframe begun hlast unended
    have hcollect : envelope.collect (front ++ (rest ++ head) :: (early ++ last :: empties)) =
        (last :: empties).foldl envelope.feed (envelope.collect (front ++ (rest ++ head) :: early)) := by
      rw [Envelope.collect, Envelope.collect, ← List.foldl_append]
      simp
    rw [spared_iff hlast hempties, hcollect, hbegun]
    refine ⟨fun hshort => ⟨n, ?_⟩, fun hlong => ⟨n, ?_⟩⟩
    · have hlead : leading front rest ++ (head ++ early.flatten) ++ last = leading front rest ++ encode adu := by
        rw [List.append_assoc, hframe]
      rw [if_neg (Nat.not_lt.mpr hshort), List.foldl_cons, feed_completes h (unended_leading unended) hlead,
        foldl_feed_quiet (by simp [hempties])]
    · rw [if_pos (Nat.lt_of_not_le hlong), foldl_feed_quiet hquiet]

theorem dropLast_encode (adu : Adu) : (encode adu).dropLast ++ [10] = encode adu := by
  have hencode : encode adu = start :: text adu ++ [13] ++ [10] := by simp [encode, text, ending]
  rw [hencode, List.dropLast_concat]

/-- A frame of the full size does not get through if its last byte is late and so much as two bytes are held in front of
it. -/
theorem collect_full_size (h : adu.IsSendable) (hfull : adu.pdu.length = 253) {junk : Bytes}
    (unended : ¬ ending <:+: junk) (hjunk : 2 ≤ (started junk).length) :
    ∃ n, envelope.collect [junk ++ (encode adu).dropLast, [10]] = (tooLong n, []) := by
  have hlength : (encode adu).dropLast.length = 512 := by
    simp [encode, ending, hfull]
  have arrives : Arrives [junk ++ (encode adu).dropLast, [10]] junk (encode adu) [] junk (encode adu).dropLast [[10]] :=
    ⟨rfl, rfl, by rw [List.flatten_singleton, dropLast_encode], List.ne_nil_of_length_pos (by omega)⟩
  refine (collect_arrives h unended arrives).2 fun spared => ?_
  have hshort := spared [] [[10]] rfl (by simp)
  have hlead : leading [] junk = started junk := rfl
  rw [List.flatten_nil, List.append_nil, hlength, hlead] at hshort
  omega

end

/-- Behind junk in which no line ends a frame gets through if and only if it is spared. Nothing else is delivered, and
nothing is left. -/
theorem collect_interrupted {adu : Adu} (h : adu.IsSendable) {junk : Bytes} (unended : ¬ ending <:+: junk)
    {pieces : List Bytes} (hpieces : pieces.flatten = junk ++ encode adu) :
    (∃ front rest head back, Arrives pieces junk (encode adu) front rest head back) ∧
      ∀ front rest head back, Arrives pieces junk (encode adu) front rest head back →
        (Spared (leading front rest) head back →
          ∃ n, envelope.collect pieces = (tooLong n ++ [.ok adu.anonymous], [])) ∧
        (¬ Spared (leading front rest) head back → ∃ n, envelope.collect pieces = (tooLong n, [])) :=
  ⟨Arrives.exists hpieces (by simp [encode]), fun _ _ _ _ arrives => collect_arrives h unended arrives⟩

/-- A frame behind the front of one that was interrupted, cut in both and in the line ending. -/
theorem collect_interrupted_small :
    ∃ n, envelope.collect [[58, 48], [49, 58, 48, 49], [48, 51, 70, 67, 13], [10]] =
      (tooLong n ++ [.ok ⟨⟨0, 1⟩, [3]⟩], []) := by
  have sendable : Adu.IsSendable ⟨⟨0, 1⟩, [3]⟩ := ⟨by decide, by decide⟩
  have arrives : Arrives [[58, 48], [49, 58, 48, 49], [48, 51, 70, 67, 13], [10]] [58, 48, 49]
      (encode ⟨⟨0, 1⟩, [3]⟩) [[58, 48]] [49] [58, 48, 49] [[48, 51, 70, 67, 13], [10]] :=
    ⟨rfl, rfl, by decide, by decide⟩
  exact ((collect_interrupted sendable (by decide) (by decide)).2 _ _ _ _ arrives).1 (spared_short (by decide))

/-- The front of a frame that was interrupted and a frame of the full size without its last byte arrive together. -/
theorem collect_interrupted_lost :
    let adu : Adu := ⟨⟨0, 1⟩, List.replicate 253 0⟩
    let junk : Bytes := [58, 48, 49, 48, 51]
    let pieces : List Bytes := [junk ++ (encode adu).dropLast, [10]]
    adu.IsSendable ∧ ¬ ending <:+: junk ∧ pieces.flatten = junk ++ encode adu ∧
      ∀ other, .ok other ∉ (envelope.collect pieces).1 := by
  intro adu junk pieces
  have hfull : adu.pdu.length = 253 := List.length_replicate
  have sendable : adu.IsSendable := ⟨List.cons_ne_nil 0 (List.replicate 252 0), Nat.le_of_eq hfull⟩
  have unended : ¬ ending <:+: junk := by decide
  obtain ⟨n, hcollect⟩ := collect_full_size sendable hfull unended (by decide)
  refine ⟨sendable, unended, ?_, fun other hmem => ?_⟩
  · rw [List.flatten_cons, List.flatten_singleton, List.append_assoc, dropLast_encode]
  · rw [hcollect] at hmem
    cases List.eq_of_mem_replicate hmem

end Modbus.Ascii
