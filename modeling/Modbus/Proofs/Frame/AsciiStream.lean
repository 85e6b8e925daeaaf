import Mathlib.Data.List.Forall2
import Modbus.Proofs.Frame.AsciiLines

/-!
# Streams of ASCII frames

A receiver finds one frame for each segment of a stream, however the stream is cut, unless a segment is too long for a
frame. Of such a segment bytes are thrown away, and the cuts decide how often and whether its end is still read; the
segments before it and behind it are found all the same.
-/

namespace Modbus.Ascii

/-! ## What is found in a stream -/

/-- So many times bytes were thrown away. -/
def tooLong (n : Nat) : List Frame := List.replicate n (.error .frameTooLong)

/-- What comes of a line: its frame. Of a line that is too long for a frame something is thrown away, at least once, and
what is left of it at its end may still be read. -/
inductive ComesTo (line : Bytes) : List Frame → Prop
  | frame : ComesTo line [read line]
  | lost (n : Nat) (long : 513 < (segment line).length) : ComesTo line (tooLong (n + 1))
  | rest (n : Nat) (long : 513 < (segment line).length) : ComesTo line (tooLong (n + 1) ++ [read line])

/-- The stream begins with these lines and goes on with the bytes that are held, whatever arrives next. -/
def GoesOn (stream : Bytes) (lines : List Bytes) (held : Bytes) : Prop :=
  ∀ more lines' tail, Segments (held ++ more) lines' tail → Segments (stream ++ more) (lines ++ lines') tail

namespace GoesOn

variable {stream noise line rest : Bytes} {lines : List Bytes}

theorem append {held : Bytes} (h : GoesOn stream lines held) (piece : Bytes) :
    GoesOn (stream ++ piece) lines (held ++ piece) := by
  intro more lines' tail segments
  rw [List.append_assoc] at segments ⊢
  exact h _ _ _ segments

theorem skip (h : GoesOn stream lines (noise ++ rest)) (quiet : start ∉ noise) : GoesOn stream lines rest := by
  intro more lines' tail segments
  refine h _ _ _ ?_
  rw [List.append_assoc]
  exact segments.noise_append quiet

theorem ended (h : GoesOn stream lines (noise ++ segment line ++ rest)) (quiet : start ∉ noise)
    (unended : ¬ ending <:+: line) : GoesOn stream (lines ++ [line]) rest := by
  intro more lines' tail segments
  rw [List.append_assoc]
  refine h _ _ _ ?_
  rw [List.append_assoc]
  exact .line quiet unended segments

end GoesOn

/-- Each of the lines so far has come to its frames, and the next one is held from its colon on, or else it is too long
and what has been thrown away of it is known. -/
inductive Follows (stream : Bytes) (frames : List Frame) (buffer : Bytes) : Prop
  | held (lines : List Bytes) (parts : List (List Frame)) (come : List.Forall₂ ComesTo lines parts)
      (heq : frames = parts.flatten) (goes : GoesOn stream lines buffer)
  | thrown (lines : List Bytes) (parts : List (List Frame)) (n : Nat) (gone : Bytes)
      (come : List.Forall₂ ComesTo lines parts) (heq : frames = parts.flatten ++ tooLong (n + 1))
      (unended : ¬ ending <:+: gone) (long : 513 ≤ gone.length) (goes : GoesOn stream lines (start :: gone ++ buffer))

theorem comes_snoc {lines : List Bytes} {parts : List (List Frame)} (come : List.Forall₂ ComesTo lines parts)
    {line : Bytes} {part : List Frame} (h : ComesTo line part) :
    List.Forall₂ ComesTo (lines ++ [line]) (parts ++ [part]) := List.rel_append come (.cons h .nil)

theorem gone_append {gone noise : Bytes} (unended : ¬ ending <:+: gone) (quiet : start ∉ noise) :
    ¬ ending <:+: gone ++ noise ∨ ∃ line more, gone ++ noise = line ++ ending ++ more ∧ ¬ ending <:+: line ∧
      start ∉ more ∧ gone.length < line.length + 2 := by
  cases hsplit : splitLine (gone ++ noise) with
  | none => exact .inl (splitLine_eq_none hsplit)
  | some found =>
      obtain ⟨line, more⟩ := found
      obtain ⟨heq, hline⟩ := splitLine_eq_some hsplit
      have hlength : gone.length < line.length + 2 := by
        by_contra hshort
        have hprefix : line ++ ending <+: gone := by
          refine List.prefix_of_prefix_length_le ⟨more, heq.symm⟩ ⟨noise, rfl⟩ ?_
          simp only [ending, List.length_append, List.length_cons, List.length_nil]
          omega
        obtain ⟨behind, rfl⟩ := hprefix
        exact unended ⟨line, behind, rfl⟩
      refine .inr ⟨line, more, heq, hline, fun hmem => quiet ?_, hlength⟩
      have hsuffix : more <:+ noise := by
        refine List.suffix_of_suffix_length_le ⟨line ++ ending, heq.symm⟩ ⟨gone, rfl⟩ ?_
        have := congrArg List.length heq
        simp only [ending, List.length_append, List.length_cons, List.length_nil] at this
        omega
      exact hsuffix.subset hmem

namespace Follows

variable {stream buffer rest : Bytes} {lines : List Bytes} {parts : List (List Frame)} {found : Option Frame}

theorem of_held (come : List.Forall₂ ComesTo lines parts) (goes : GoesOn stream lines buffer)
    (hdecode : decode buffer = (found, rest)) : Follows stream (parts.flatten ++ found.toList) rest := by
  obtain ⟨noise, quiet, rfl | ⟨line, unended, rfl⟩ | ⟨line, rest', unended, rfl⟩⟩ := exists_noise buffer
  · cases hdecode.symm.trans (decode_noise quiet)
    rw [← List.append_nil buffer] at goes
    exact .held lines parts come (List.append_nil _) (goes.skip quiet)
  · have hline := hdecode.symm.trans (decode_unfinished quiet unended)
    split at hline <;> cases hline
    · rename_i long
      refine .thrown lines parts 0 line come rfl unended long ?_
      rw [List.append_nil]
      exact goes.skip quiet
    · exact .held lines parts come (List.append_nil _) (goes.skip quiet)
  · cases hdecode.symm.trans (decode_line quiet unended rest')
    refine .held _ _ (comes_snoc come .frame) ?_ (goes.ended quiet unended)
    rw [List.flatten_append, List.flatten_singleton]
    rfl

theorem of_gone {n : Nat} {gone noise begun : Bytes} (come : List.Forall₂ ComesTo lines parts)
    (unended : ¬ ending <:+: gone) (long : 513 ≤ gone.length) (quiet : start ∉ noise)
    (goes : GoesOn stream lines (start :: gone ++ (noise ++ begun))) (hdecode : decode (noise ++ begun) = (found, rest)) :
    (¬ ending <:+: gone ++ noise ∧ GoesOn stream lines (start :: (gone ++ noise) ++ begun)) ∨
      Follows stream (parts.flatten ++ tooLong (n + 1) ++ found.toList) rest := by
  rw [← List.append_assoc, List.cons_append] at goes
  obtain unended' | ⟨line, more, heq, hline, hmore, hlength⟩ := gone_append unended quiet
  · exact .inl ⟨unended', goes⟩
  · have hends : GoesOn stream lines ([] ++ segment line ++ (more ++ begun)) := by
      rw [heq] at goes
      simpa [segment] using goes
    have lost : ComesTo line (tooLong (n + 1)) := by
      refine .lost n ?_
      simp only [segment, ending, List.length_append, List.length_cons, List.length_nil]
      omega
    rw [decode_append_noise quiet] at hdecode
    have follows := of_held (comes_snoc come lost) ((hends.ended List.not_mem_nil hline).skip hmore) hdecode
    rw [List.flatten_append, List.flatten_singleton] at follows
    exact .inr follows

theorem of_thrown {n : Nat} {gone : Bytes} (come : List.Forall₂ ComesTo lines parts) (unended : ¬ ending <:+: gone)
    (long : 513 ≤ gone.length) (goes : GoesOn stream lines (start :: gone ++ buffer))
    (hdecode : decode buffer = (found, rest)) :
    Follows stream (parts.flatten ++ tooLong (n + 1) ++ found.toList) rest := by
  have longer (more : Bytes) : 513 ≤ (gone ++ more).length := by
    rw [List.length_append]
    omega
  obtain ⟨noise, quiet, rfl | ⟨line, hline, rfl⟩ | ⟨line, rest', hline, rfl⟩⟩ := exists_noise buffer
  · rw [← List.append_nil buffer] at goes hdecode
    obtain ⟨unended', goes'⟩ | follows := of_gone come unended long quiet goes hdecode
    · rw [List.append_nil] at hdecode
      cases hdecode.symm.trans (decode_noise quiet)
      exact .thrown lines parts n _ come (List.append_nil _) unended' (longer _) goes'
    · exact follows
  · obtain ⟨unended', goes'⟩ | follows := of_gone come unended long quiet goes hdecode
    · have hfound := hdecode.symm.trans (decode_unfinished quiet hline)
      split at hfound <;> cases hfound
      · refine .thrown lines parts (n + 1) (gone ++ noise ++ start :: line) come ?_
          (unended_append_start unended' hline) ?_ ?_
        · rw [List.append_assoc]
          exact congrArg _ List.replicate_succ'.symm
        · rw [List.append_assoc]
          exact longer _
        · rw [List.append_nil]
          exact goes'
      · exact .thrown lines parts n _ come (List.append_nil _) unended' (longer _) goes'
    · exact follows
  · rw [List.append_assoc] at goes hdecode
    obtain ⟨unended', goes'⟩ | follows := of_gone come unended long quiet goes hdecode
    · rw [← List.append_assoc] at hdecode
      cases hdecode.symm.trans (decode_line quiet hline rest')
      -- the frame is read from the last colon on, though its line began long before
      have hends : GoesOn stream lines ([] ++ segment (gone ++ noise ++ start :: line) ++ rest) := by
        simpa [segment] using goes'
      have comes : ComesTo (gone ++ noise ++ start :: line) (tooLong (n + 1) ++ [read line]) := by
        rw [← read_append_start (gone ++ noise) line]
        refine .rest n ?_
        simp only [segment, List.length_append, List.length_cons]
        omega
      refine .held _ _ (comes_snoc come comes) ?_ (hends.ended List.not_mem_nil (unended_append_start unended' hline))
      rw [List.flatten_append, List.flatten_singleton, List.append_assoc]
      rfl
    · exact follows

theorem step {frames : List Frame} (h : Follows stream frames buffer) (hdecode : decode buffer = (found, rest)) :
    Follows stream (frames ++ found.toList) rest := by
  cases h with
  | held lines parts come heq goes => exact heq ▸ of_held come goes hdecode
  | thrown lines parts n gone come heq unended long goes => exact heq ▸ of_thrown come unended long goes hdecode

end Follows

theorem invariant_follows : envelope.IsInvariant Follows where
  start := .held [] [] .nil rfl fun _ _ _ h => h
  append piece h := by
    cases h with
    | held lines parts come heq goes => exact .held lines parts come heq (goes.append piece)
    | thrown lines parts n gone come heq unended long goes =>
        refine .thrown lines parts n gone come heq unended long ?_
        rw [← List.append_assoc]
        exact goes.append piece
  found hdecode h := h.step hdecode
  nothing hdecode h := by
    have := h.step hdecode
    rwa [Option.toList_none, List.append_nil] at this

/-- However a stream is cut, its lines come to the frames, in order, and what is unfinished at its end is left unless it
is too long. -/
theorem collect_comes {pieces : List Bytes} {lines : List Bytes} {tail : Bytes}
    (h : Segments pieces.flatten lines tail) :
    ∃ parts n, List.Forall₂ ComesTo lines parts ∧ (envelope.collect pieces).1 = parts.flatten ++ tooLong n ∧
      (tail.length ≤ 513 → n = 0 ∧ (envelope.collect pieces).2 = tail) := by
  have settled := settles.collect rfl pieces
  cases invariant_follows.collect pieces with
  | held lines' parts come heq goes =>
      have hgoes := goes [] _ _ (by
        rw [List.append_nil]
        exact segments_settled settled)
      rw [List.append_nil, List.append_nil] at hgoes
      obtain ⟨rfl, rfl⟩ := hgoes.unique h
      exact ⟨parts, 0, come, by rw [heq, tooLong, List.replicate_zero, List.append_nil], fun _ => ⟨rfl, rfl⟩⟩
  | thrown lines' parts n gone come heq unended long goes =>
      have unended' : ¬ ending <:+: gone ++ (envelope.collect pieces).2 := by
        obtain hnil | ⟨line, hline, hbuffer⟩ := eq_of_settled settled
        · rwa [hnil, List.append_nil]
        · rw [hbuffer]
          exact unended_append_start unended hline
      have hgoes := goes [] _ _ (by
        rw [List.append_nil, List.cons_append]
        exact @Segments.unfinished [] _ List.not_mem_nil unended')
      rw [List.append_nil, List.append_nil] at hgoes
      obtain ⟨rfl, rfl⟩ := hgoes.unique h
      refine ⟨parts, n + 1, come, heq, fun short => ?_⟩
      rw [List.length_cons, List.length_append] at short
      omega

theorem flatten_parts {lines : List Bytes} {parts : List (List Frame)}
    (fit : ∀ line ∈ lines, (segment line).length ≤ 513) (come : List.Forall₂ ComesTo lines parts) :
    parts.flatten = lines.map read := by
  induction come with
  | nil => rfl
  | @cons line part lines parts h _ ih =>
      obtain ⟨short, rest⟩ := List.forall_mem_cons.mp fit
      have hpart : part = [read line] := by
        cases h with
        | frame => rfl
        | lost _ long => exact absurd short (Nat.not_le.mpr long)
        | rest _ long => exact absurd short (Nat.not_le.mpr long)
      rw [List.flatten_cons, hpart, ih rest, List.map_cons, List.singleton_append]

theorem collect_eq {pieces : List Bytes} {lines : List Bytes} {tail : Bytes}
    (h : Segments pieces.flatten lines tail) (fit : Fit lines tail) :
    envelope.collect pieces = (lines.map read, tail) := by
  obtain ⟨parts, n, come, hfound, htail⟩ := collect_comes h
  obtain ⟨rfl, hleft⟩ := htail fit.2
  rw [flatten_parts fit.1 come, tooLong, List.replicate_zero, List.append_nil] at hfound
  exact Prod.ext hfound hleft

/-- The frame is the message that the text behind the last colon of a segment carries, and is discarded if the text
carries none. -/
def Yields (line : Bytes) (frame : Frame) : Prop :=
  ∃ before text, segment line = before ++ start :: text ++ ending ∧ start ∉ text ∧
    ∀ adu, frame = .ok adu ↔ Carries text adu

theorem yields_read (line : Bytes) : Yields line (read line) := by
  obtain ⟨before, text, hline, quiet⟩ := exists_text line
  refine ⟨before, text, by rw [segment, hline], fun hmem => quiet _ hmem rfl, fun adu => ?_⟩
  rw [read, hline, afterStart_append quiet, decodeText_eq_ok_iff]

/-! ## Messages -/

def text (adu : Adu) : Bytes := Hex.encode (adu.header.unit :: adu.pdu ++ [lrc (adu.header.unit :: adu.pdu)])

theorem segment_text (adu : Adu) : segment (text adu) = encode adu := rfl

theorem text_quiet (adu : Adu) : ∀ c ∈ text adu, c ≠ start := fun c hc => (isText_encode _ c hc).1

theorem unended_text (adu : Adu) : ¬ ending <:+: text adu := fun hinside =>
  (isText_encode _ 13 (hinside.subset (by simp [ending]))).2 rfl

theorem read_text {adu : Adu} (h : adu.IsSendable) : read (text adu) = .ok adu.anonymous := by
  rw [read, afterStart_cons (text_quiet adu)]
  exact decodeText_encode h

theorem length_segment_text {adu : Adu} (h : adu.IsSendable) : (segment (text adu)).length ≤ 513 := by
  have hmax : adu.pdu.length ≤ 253 := h.2
  simp only [segment, ending, text, List.length_append, List.length_cons, List.length_nil, Hex.length_encode]
  omega

/-- Messages that are appended one after the other, with noise in front of the first and behind each. -/
def appendAll (noise : Bytes) (adus : List (Adu × Bytes)) : Except Fault Bytes :=
  adus.foldlM (fun buffer x => (append x.1 buffer).map (· ++ x.2)) noise

theorem segments_appendAll {noise : Bytes} {adus : List (Adu × Bytes)} (quiet : start ∉ noise)
    (sendable : ∀ x ∈ adus, x.1.IsSendable ∧ start ∉ x.2) :
    ∃ stream, appendAll noise adus = .ok stream ∧ Segments stream (adus.map fun x => text x.1) [] := by
  suffices ∀ (buffer noise : Bytes), start ∉ noise → ∃ stream,
      adus.foldlM (fun buffer x => (append x.1 buffer).map (· ++ x.2)) (buffer ++ noise) = .ok (buffer ++ stream) ∧
      Segments stream (adus.map fun x => text x.1) [] from this [] noise quiet
  induction adus with
  | nil => exact fun buffer noise quiet => ⟨noise, rfl, .noise quiet⟩
  | cons x adus ih =>
      intro buffer noise quiet
      obtain ⟨⟨hx, quiet'⟩, hadus⟩ := List.forall_mem_cons.mp sendable
      obtain ⟨stream, hstream, segments⟩ := ih hadus (buffer ++ (noise ++ encode x.1)) x.2 quiet'
      refine ⟨noise ++ segment (text x.1) ++ stream, ?_, .line quiet (unended_text x.1) segments⟩
      have happend : append x.1 (buffer ++ noise) = .ok (buffer ++ noise ++ encode x.1) :=
        Adu.append_eq_ok_iff.mpr ⟨hx.2, rfl⟩
      rw [List.foldlM_cons, happend, segment_text, ← List.append_assoc, List.append_assoc buffer]
      exact hstream

/-- However a stream is cut, it yields one frame for each segment, in order, and nothing else, unless a segment or what
is unfinished at its end is too long. Messages that are appended with noise between them all arrive. -/
theorem collect_yields :
    (∀ stream, ∃ lines tail, Segments stream lines tail ∧
      (∀ lines' tail', Segments stream lines' tail' → lines' = lines ∧ tail' = tail) ∧
      (Fit lines tail → ∀ pieces, pieces.flatten = stream →
        List.Forall₂ Yields lines (envelope.collect pieces).1 ∧ (envelope.collect pieces).2 = tail)) ∧
    ∀ noise adus, start ∉ noise → (∀ x ∈ adus, x.1.IsSendable ∧ start ∉ x.2) →
      ∃ stream, appendAll noise adus = .ok stream ∧ ∀ pieces, pieces.flatten = stream →
        envelope.collect pieces = (adus.map fun x => .ok x.1.anonymous, []) := by
  refine ⟨fun stream => ?_, fun noise adus quiet sendable => ?_⟩
  · obtain ⟨lines, tail, segments⟩ := Segments.exists stream
    refine ⟨lines, tail, segments, fun lines' tail' h => segments.unique h, ?_⟩
    rintro fit pieces rfl
    rw [collect_eq segments fit, List.forall₂_map_right_iff, List.forall₂_same]
    exact ⟨fun line _ => yields_read line, rfl⟩
  · obtain ⟨stream, hstream, segments⟩ := segments_appendAll quiet sendable
    refine ⟨stream, hstream, ?_⟩
    rintro pieces rfl
    have fit : Fit (adus.map fun x => text x.1) [] := by
      refine ⟨List.forall_mem_map.mpr fun x hx => length_segment_text (sendable x hx).1, by simp⟩
    rw [collect_eq segments fit, List.map_map]
    refine congrArg (·, []) (List.map_congr_left fun x hx => ?_)
    exact read_text (sendable x hx).1

/-- A frame that was interrupted and sent again in lower case, a frame that is too short and the front of a third, cut
within a line ending; two messages with noise around them. -/
theorem collect_yields_cut :
    let again : Bytes := [48, 49, 58, 48, 49, 48, 51, 102, 99]
    let cut : List Bytes := [[120, 58, 48, 49], [58, 48, 49, 48, 51, 102, 99, 13], [10, 13, 58, 48, 13, 10, 58], [48, 49]]
    let messages : List (Adu × Bytes) := [(⟨⟨0, 1⟩, [3]⟩, [13, 10]), (⟨⟨0, 2⟩, [131, 2]⟩, [48])]
    Segments cut.flatten [again, [48]] [58, 48, 49] ∧ Fit [again, [48]] [58, 48, 49] ∧
      List.Forall₂ Yields [again, [48]] (envelope.collect cut).1 ∧ (envelope.collect cut).2 = [58, 48, 49] ∧
      (∀ x ∈ messages, x.1.IsSendable ∧ start ∉ x.2) ∧ ∃ stream, appendAll [10] messages = .ok stream ∧
        envelope.collect [stream.take 5, stream.drop 5] = ([.ok ⟨⟨0, 1⟩, [3]⟩, .ok ⟨⟨0, 2⟩, [131, 2]⟩], []) := by
  intro again cut messages
  have segments : Segments cut.flatten [again, [48]] [58, 48, 49] := by
    show Segments ([120] ++ segment again ++ ([13] ++ segment [48] ++ ([] ++ start :: [48, 49]))) _ _
    exact .line (by decide) (by decide) (.line (by decide) (by decide) (.unfinished (by decide) (by decide)))
  have fit : Fit [again, [48]] [58, 48, 49] := ⟨by simp [again, segment, ending], by decide⟩
  have sendable : ∀ x ∈ messages, x.1.IsSendable ∧ start ∉ x.2 := by
    simp [messages, Adu.IsSendable, Pdu.maxSize, start]
  obtain ⟨lines, tail, _, unique, found⟩ := collect_yields.1 cut.flatten
  obtain ⟨rfl, rfl⟩ := unique _ _ segments
  obtain ⟨yields, left⟩ := found fit cut rfl
  obtain ⟨stream, happend, arrive⟩ := collect_yields.2 [10] messages (by decide) sendable
  exact ⟨segments, fit, yields, left, sendable, stream, happend, arrive _ (by simp)⟩

end Modbus.Ascii
