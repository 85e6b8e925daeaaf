import Modbus.Proofs.Frame.AsciiText
import Modbus.Proofs.Frame.Boundaries
import Modbus.Proofs.Frame.Pieces

/-!
# Lines of ASCII frames

A stream of ASCII frames consists of segments, each from a colon to the next line ending, with noise between them. What
a stream consists of is said without the decoder, which takes the first step of it.
-/

namespace Modbus.Ascii

/-! ## Lines -/

theorem splitLine_eq_some {b line rest : Bytes} (h : splitLine b = some (line, rest)) :
    b = line ++ ending ++ rest ∧ ¬ ending <:+: line := by
  induction b generalizing line with
  | nil => cases h
  | cons c cs ih =>
      unfold splitLine at h
      split at h
      · rename_i hc
        cases h
        obtain ⟨rfl, hhead⟩ := hc
        obtain ⟨cs, rfl⟩ := List.head?_eq_some_iff.mp hhead
        exact ⟨rfl, by simp [ending]⟩
      · rename_i hc
        obtain ⟨⟨line', rest'⟩, hsplit, heq⟩ := Option.map_eq_some_iff.mp h
        cases heq
        obtain ⟨rfl, hline⟩ := ih hsplit
        refine ⟨rfl, fun hinside => ?_⟩
        obtain hprefix | hinside := List.infix_cons_iff.mp hinside
        · obtain ⟨more, hmore⟩ := hprefix
          simp only [ending, List.cons_append, List.cons.injEq, List.nil_append] at hmore
          obtain ⟨rfl, hline'⟩ := hmore
          exact hc ⟨rfl, by rw [← hline']; rfl⟩
        · exact hline hinside

theorem splitLine_eq_none {b : Bytes} (h : splitLine b = none) : ¬ ending <:+: b := by
  induction b with
  | nil => simp [ending]
  | cons c cs ih =>
      unfold splitLine at h
      split at h
      · cases h
      · rename_i hc
        intro hinside
        obtain hprefix | hinside := List.infix_cons_iff.mp hinside
        · obtain ⟨more, hmore⟩ := hprefix
          simp only [ending, List.cons_append, List.cons.injEq, List.nil_append] at hmore
          obtain ⟨rfl, rfl⟩ := hmore
          exact hc ⟨rfl, rfl⟩
        · exact ih (Option.map_eq_none_iff.mp h) hinside

theorem splitLine_append {line : Bytes} (h : ¬ ending <:+: line) (rest : Bytes) :
    splitLine (line ++ ending ++ rest) = some (line, rest) := by
  induction line with
  | nil => simp [ending, splitLine]
  | cons c line ih =>
      have hline : ¬ ending <:+: line := fun hinside => h (List.infix_cons_iff.mpr (.inr hinside))
      have hc : ¬ (c = 13 ∧ (line ++ ending ++ rest).head? = some 10) := by
        rintro ⟨rfl, hhead⟩
        cases line with
        | nil => simp [ending] at hhead
        | cons d line =>
            obtain rfl : d = 10 := by simpa using hhead
            exact h ⟨[], line, rfl⟩
      show splitLine (c :: (line ++ ending ++ rest)) = _
      rw [splitLine, if_neg hc, ih hline]
      rfl

theorem splitLine_open {line : Bytes} (h : ¬ ending <:+: line) : splitLine line = none := by
  cases hsplit : splitLine line with
  | none => rfl
  | some found =>
      obtain ⟨rfl, _⟩ := splitLine_eq_some hsplit
      exact absurd ⟨found.1, found.2, rfl⟩ h

theorem unended_iff {bytes : Bytes} : ¬ ending <:+: bytes ↔ splitLine bytes = none :=
  ⟨splitLine_open, splitLine_eq_none⟩

theorem unended_part {bytes part : Bytes} (unended : ¬ ending <:+: bytes) (h : part <:+: bytes) :
    ¬ ending <:+: part := fun hinside => unended (hinside.trans h)

theorem unended_append_start {front back : Bytes} (unended : ¬ ending <:+: front) (unended' : ¬ ending <:+: back) :
    ¬ ending <:+: front ++ start :: back := by
  rw [unended_iff] at unended' ⊢
  induction front with
  | nil => rw [List.nil_append, splitLine, if_neg fun h => absurd h.1 (by decide), unended', Option.map_none]
  | cons c front ih =>
      have hfront : ¬ ending <:+: front := unended_part unended (List.suffix_cons c front).isInfix
      have hc : ¬ (c = 13 ∧ (front ++ start :: back).head? = some 10) := by
        rintro ⟨rfl, hhead⟩
        cases front with
        | nil => exact absurd (Option.some.inj hhead) (by decide)
        | cons d front =>
            obtain rfl : d = 10 := by simpa using hhead
            exact unended ⟨[], front, rfl⟩
      rw [List.cons_append, splitLine, if_neg hc, ih hfront, Option.map_none]

theorem dropWhile_append_noise {noise : Bytes} (quiet : start ∉ noise) (rest : Bytes) :
    (noise ++ rest).dropWhile (· ≠ start) = rest.dropWhile (· ≠ start) := by
  refine List.dropWhile_append_of_pos fun c hc => ?_
  simpa using ne_of_mem_of_not_mem hc quiet

theorem dropWhile_noise {noise : Bytes} (quiet : start ∉ noise) (rest : Bytes) :
    (noise ++ start :: rest).dropWhile (· ≠ start) = start :: rest := by
  rw [dropWhile_append_noise quiet, List.dropWhile_cons_of_neg (by simp)]

theorem noise_inj {noise noise' rest rest' : Bytes} (quiet : start ∉ noise) (quiet' : start ∉ noise')
    (h : noise ++ start :: rest = noise' ++ start :: rest') : rest = rest' := by
  have hdrop := congrArg (List.dropWhile (· ≠ start)) h
  rw [dropWhile_noise quiet, dropWhile_noise quiet'] at hdrop
  exact (List.cons.inj hdrop).2

/-! ## What a stream consists of -/

/-- The bytes from a colon to the end of the line. -/
def segment (line : Bytes) : Bytes := start :: line ++ ending

/-- The stream consists of noise and of the segments of these lines, with what is unfinished at its end. -/
inductive Segments : Bytes → List Bytes → Bytes → Prop
  | noise {noise} (quiet : start ∉ noise) : Segments noise [] []
  | unfinished {noise line} (quiet : start ∉ noise) (unended : ¬ ending <:+: line) :
      Segments (noise ++ start :: line) [] (start :: line)
  | line {noise line rest lines tail} (quiet : start ∉ noise) (unended : ¬ ending <:+: line) :
      Segments rest lines tail → Segments (noise ++ segment line ++ rest) (line :: lines) tail

/-- All segments and what is unfinished are short enough for a frame. -/
def Fit (lines : List Bytes) (tail : Bytes) : Prop :=
  (∀ line ∈ lines, (segment line).length ≤ 513) ∧ tail.length ≤ 513

theorem Segments.noise_append {noise stream : Bytes} {lines : List Bytes} {tail : Bytes} (quiet : start ∉ noise)
    (h : Segments stream lines tail) : Segments (noise ++ stream) lines tail := by
  have hquiet {noise'} (quiet' : start ∉ noise') : start ∉ noise ++ noise' := by simp [quiet, quiet']
  cases h with
  | noise quiet' => exact .noise (hquiet quiet')
  | unfinished quiet' unended =>
      rw [← List.append_assoc]
      exact .unfinished (hquiet quiet') unended
  | line quiet' unended h =>
      rw [← List.append_assoc, ← List.append_assoc]
      exact .line (hquiet quiet') unended h

/-- A buffer holds noise, or a line that has no end yet, or one that has. -/
theorem exists_noise (buffer : Bytes) : ∃ noise, start ∉ noise ∧
    (buffer = noise ∨ (∃ line, ¬ ending <:+: line ∧ buffer = noise ++ start :: line) ∨
      ∃ line rest, ¬ ending <:+: line ∧ buffer = noise ++ segment line ++ rest) := by
  by_cases hstart : start ∈ buffer
  · obtain ⟨noise, behind, rfl, quiet⟩ := List.eq_append_cons_of_mem hstart
    refine ⟨noise, quiet, .inr ?_⟩
    cases hsplit : splitLine behind with
    | none => exact .inl ⟨behind, splitLine_eq_none hsplit, rfl⟩
    | some found =>
        obtain ⟨rfl, unended⟩ := splitLine_eq_some hsplit
        exact .inr ⟨found.1, found.2, unended, by simp [segment]⟩
  · exact ⟨buffer, hstart, .inl rfl⟩

theorem Segments.exists (stream : Bytes) : ∃ lines tail, Segments stream lines tail := by
  induction h : stream.length using Nat.strongRecOn generalizing stream with
  | ind n ih =>
      obtain ⟨noise, quiet, rfl | ⟨line, unended, rfl⟩ | ⟨line, rest, unended, rfl⟩⟩ := exists_noise stream
      · exact ⟨_, _, .noise quiet⟩
      · exact ⟨_, _, .unfinished quiet unended⟩
      · have hlt : rest.length < n := by
          rw [← h, segment]
          simp only [List.length_append, List.length_cons]
          omega
        obtain ⟨lines, tail, hrest⟩ := ih _ hlt rest rfl
        exact ⟨_, _, .line quiet unended hrest⟩

theorem start_mem_segment (noise line rest : Bytes) : start ∈ noise ++ segment line ++ rest := by simp [segment]

theorem segment_append (noise line rest : Bytes) :
    noise ++ segment line ++ rest = noise ++ start :: (line ++ ending ++ rest) := by simp [segment]

section
variable {noise line rest : Bytes} {lines : List Bytes} {tail : Bytes}

theorem Segments.of_noise (quiet : start ∉ noise) (h : Segments noise lines tail) : lines = [] ∧ tail = [] := by
  cases h with
  | noise _ => exact ⟨rfl, rfl⟩
  | unfinished _ _ => exact absurd (by simp) quiet
  | line _ _ _ => exact absurd (start_mem_segment ..) quiet

theorem Segments.of_unfinished (quiet : start ∉ noise) (unended : ¬ ending <:+: line)
    (h : Segments (noise ++ start :: line) lines tail) : lines = [] ∧ tail = start :: line := by
  generalize hstream : noise ++ start :: line = stream at h
  cases h with
  | noise quiet' => exact absurd (hstream ▸ by simp) quiet'
  | unfinished quiet' _ => exact ⟨rfl, congrArg _ (noise_inj quiet' quiet hstream.symm)⟩
  | line quiet' _ _ =>
      rw [segment_append] at hstream
      exact absurd ⟨_, _, (noise_inj quiet quiet' hstream).symm⟩ unended

theorem Segments.of_line (quiet : start ∉ noise) (unended : ¬ ending <:+: line)
    (h : Segments (noise ++ segment line ++ rest) lines tail) :
    ∃ lines', lines = line :: lines' ∧ Segments rest lines' tail := by
  generalize hstream : noise ++ segment line ++ rest = stream at h
  cases h with
  | noise quiet' => exact absurd (hstream ▸ start_mem_segment ..) quiet'
  | unfinished quiet' unended' =>
      rw [segment_append] at hstream
      exact absurd ⟨_, _, noise_inj quiet quiet' hstream⟩ unended'
  | line quiet' unended' h =>
      rw [segment_append, segment_append] at hstream
      have hsplit := congrArg splitLine (noise_inj quiet quiet' hstream)
      rw [splitLine_append unended, splitLine_append unended'] at hsplit
      cases hsplit
      exact ⟨_, rfl, h⟩

end

theorem Segments.unique {stream : Bytes} {lines lines' : List Bytes} {tail tail' : Bytes}
    (h : Segments stream lines tail) (h' : Segments stream lines' tail') : lines' = lines ∧ tail' = tail := by
  induction h generalizing lines' with
  | noise quiet => exact h'.of_noise quiet
  | unfinished quiet unended => exact h'.of_unfinished quiet unended
  | line quiet unended _ ih =>
      obtain ⟨lines'', rfl, hrest⟩ := h'.of_line quiet unended
      obtain ⟨rfl, rfl⟩ := ih hrest
      exact ⟨rfl, rfl⟩

/-! ## What is made of a buffer -/

def read (line : Bytes) : Frame := decodeText (afterStart (start :: line))

theorem decode_noise {noise : Bytes} (quiet : start ∉ noise) : decode noise = (none, []) := by
  have hdrop : noise.dropWhile (· ≠ start) = [] := by
    simpa only [List.append_nil, List.dropWhile_nil] using dropWhile_append_noise quiet []
  unfold decode
  rw [hdrop]
  rfl

theorem decode_unfinished {noise line : Bytes} (quiet : start ∉ noise) (unended : ¬ ending <:+: line) :
    decode (noise ++ start :: line) =
      if 513 ≤ line.length then (some (.error .frameTooLong), []) else (none, start :: line) := by
  have hsplit : splitLine (start :: line) = none := by
    rw [splitLine, if_neg fun h => absurd h.1 (by decide), splitLine_open unended]
    rfl
  have hmax : maxSize = 513 := rfl
  unfold decode
  rw [dropWhile_noise quiet]
  simp only [hsplit, hmax, List.length_cons, Nat.lt_add_one_iff]

theorem decode_line {noise line : Bytes} (quiet : start ∉ noise) (unended : ¬ ending <:+: line) (rest : Bytes) :
    decode (noise ++ segment line ++ rest) = (some (read line), rest) := by
  have hsplit : splitLine (start :: (line ++ ending ++ rest)) = some (start :: line, rest) := by
    rw [splitLine, if_neg fun h => absurd h.1 (by decide), splitLine_append unended]
    rfl
  unfold decode
  rw [segment_append, dropWhile_noise quiet]
  simp only [hsplit]
  rfl

theorem decode_append_noise {noise : Bytes} (quiet : start ∉ noise) (rest : Bytes) :
    decode (noise ++ rest) = decode rest := by
  unfold decode
  rw [dropWhile_append_noise quiet]

theorem settles : envelope.Settles := by
  intro buffer rest hdecode
  obtain ⟨noise, quiet, rfl | ⟨line, unended, rfl⟩ | ⟨line, rest', unended, rfl⟩⟩ := exists_noise buffer
  · cases hdecode.symm.trans (decode_noise quiet)
    rfl
  · have hline := hdecode.symm.trans (decode_unfinished quiet unended)
    split at hline <;> cases hline
    rename_i short
    exact (decode_unfinished List.not_mem_nil unended).trans (if_neg short)
  · cases hdecode.symm.trans (decode_line quiet unended rest')

theorem eq_of_settled {buffer : Bytes} (h : decode buffer = (none, buffer)) :
    buffer = [] ∨ ∃ line, ¬ ending <:+: line ∧ buffer = start :: line := by
  obtain ⟨noise, quiet, rfl | ⟨line, unended, rfl⟩ | ⟨line, rest', unended, rfl⟩⟩ := exists_noise buffer
  · have hbuffer := (decode_noise quiet).symm.trans h
    simp only [Prod.mk.injEq, true_and] at hbuffer
    exact .inl hbuffer.symm
  · have hbuffer := (decode_unfinished quiet unended).symm.trans h
    split at hbuffer
    · cases hbuffer
    · simp only [Prod.mk.injEq, true_and] at hbuffer
      exact .inr ⟨line, unended, hbuffer.symm⟩
  · cases (decode_line quiet unended rest').symm.trans h

theorem segments_settled {buffer : Bytes} (h : decode buffer = (none, buffer)) : Segments buffer [] buffer := by
  obtain rfl | ⟨line, unended, rfl⟩ := eq_of_settled h
  · exact .noise List.not_mem_nil
  · exact @Segments.unfinished [] line List.not_mem_nil unended

theorem exists_text (line : Bytes) :
    ∃ before text, start :: line = before ++ start :: text ∧ ∀ c ∈ text, c ≠ start := by
  obtain ⟨text, before, hline, quiet⟩ :=
    List.eq_append_cons_of_mem (show start ∈ (start :: line).reverse by simp)
  refine ⟨before.reverse, text.reverse, ?_, fun c hc => ne_of_mem_of_not_mem (List.mem_reverse.mp hc) quiet⟩
  rw [← List.reverse_reverse (start :: line), hline]
  simp

theorem read_append_start (front line : Bytes) : read (front ++ start :: line) = read line := by
  obtain ⟨before, text, hline, quiet⟩ := exists_text line
  rw [read, read, ← List.cons_append, hline, ← List.append_assoc, afterStart_append quiet, afterStart_append quiet]

end Modbus.Ascii
