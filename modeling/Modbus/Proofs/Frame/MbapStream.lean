import Modbus.Proofs.Frame.Boundaries
import Modbus.Proofs.Frame.Pieces

/-!
# Streams of MBAP frames

A stream of MBAP frames is read from its first byte on, and every header tells where the next one begins. What a stream
consists of is said without the decoder, and a receiver finds exactly that, however the stream is cut; only behind a
header with an impossible length, where everything that has arrived is dropped, the cuts matter.
-/

namespace Modbus.Mbap

def header (transaction protocol length : Word) (unit : UInt8) : Bytes :=
  Bytes.ofWord transaction ++ Bytes.ofWord protocol ++ Bytes.ofWord length ++ [unit]

/-- The length is that of a unit id and a PDU. -/
def IsLength (length : Word) : Prop := 2 ≤ length.toNat ∧ length.toNat ≤ 254

/-- The stream consists of these frames, with what is incomplete at its end; nothing is known of what stands behind an
impossible length. -/
inductive Parses : Bytes → List Frame → Option Bytes → Prop
  | inHeader {stream} (short : stream.length < 7) : Parses stream [] (some stream)
  | inBody {transaction protocol length unit body} (valid : IsLength length) (short : 1 + body.length < length.toNat) :
      Parses (header transaction protocol length unit ++ body) [] (some (header transaction protocol length unit ++ body))
  | lost {transaction protocol length unit rest} (invalid : ¬ IsLength length) :
      Parses (header transaction protocol length unit ++ rest) [.error .invalidLength] none
  | delivered {transaction length unit pdu rest frames tail} (valid : IsLength length)
      (whole : 1 + pdu.length = length.toNat) : Parses rest frames tail →
      Parses (header transaction 0 length unit ++ pdu ++ rest) (.ok ⟨⟨transaction, unit⟩, pdu⟩ :: frames) tail
  | discarded {transaction protocol length unit pdu rest frames tail} (foreign : protocol ≠ 0) (valid : IsLength length)
      (whole : 1 + pdu.length = length.toNat) : Parses rest frames tail →
      Parses (header transaction protocol length unit ++ pdu ++ rest) (.error .invalidProtocol :: frames) tail

/-- The results up to and including the first frame with an impossible length. -/
def uptoLost : List Frame → List Frame
  | [] => []
  | .error .invalidLength :: _ => [.error .invalidLength]
  | frame :: frames => frame :: uptoLost frames

theorem uptoLost_cons {frame : Frame} (h : frame ≠ .error .invalidLength) (frames : List Frame) :
    uptoLost (frame :: frames) = frame :: uptoLost frames := by
  rw [uptoLost]
  exact fun heq => h heq

theorem uptoLost_append {frames : List Frame} (h : .error .invalidLength ∉ frames) (more : List Frame) :
    uptoLost (frames ++ more) = frames ++ uptoLost more := by
  induction frames with
  | nil => rfl
  | cons frame frames ih =>
      rw [List.mem_cons, not_or] at h
      rw [List.cons_append, uptoLost_cons (Ne.symm h.1), ih h.2, List.cons_append]

/-! ## Headers -/

theorem exists_header {stream : Bytes} (h : 7 ≤ stream.length) :
    ∃ transaction protocol length unit body, stream = header transaction protocol length unit ++ body := by
  rcases stream with _ | ⟨t₁, _ | ⟨t₀, _ | ⟨p₁, _ | ⟨p₀, _ | ⟨l₁, _ | ⟨l₀, _ | ⟨unit, body⟩⟩⟩⟩⟩⟩⟩
  case cons.cons.cons.cons.cons.cons.cons =>
    exact ⟨word t₁ t₀, word p₁ p₀, word l₁ l₀, unit, body, by simp [header, Bytes.ofWord]⟩
  all_goals
    simp only [List.length_cons, List.length_nil] at h
    omega

theorem decode_short {stream : Bytes} (h : stream.length < 7) : decode stream = (none, stream) := by
  rcases stream with _ | ⟨t₁, _ | ⟨t₀, _ | ⟨p₁, _ | ⟨p₀, _ | ⟨l₁, _ | ⟨l₀, _ | ⟨unit, body⟩⟩⟩⟩⟩⟩⟩
  case cons.cons.cons.cons.cons.cons.cons =>
    simp only [List.length_cons] at h
    omega
  all_goals rfl

theorem not_isLength_iff (length : Word) :
    (length.toNat < 2 ∨ Pdu.maxSize < length.toNat - 1) ↔ ¬ IsLength length := by
  have hmax : Pdu.maxSize = 253 := rfl
  unfold IsLength
  omega

variable {transaction protocol length : Word} {unit : UInt8} {body : Bytes}

theorem decode_lost (invalid : ¬ IsLength length) (rest : Bytes) :
    decode (header transaction protocol length unit ++ rest) = (some (.error .invalidLength), []) := by
  simp only [header, Bytes.ofWord, List.cons_append, List.nil_append, decode, word_high_low]
  rw [if_pos ((not_isLength_iff length).mpr invalid)]

theorem decode_inBody (valid : IsLength length) (short : 1 + body.length < length.toNat) :
    decode (header transaction protocol length unit ++ body) =
      (none, header transaction protocol length unit ++ body) := by
  simp only [header, Bytes.ofWord, List.cons_append, List.nil_append, decode, word_high_low]
  rw [if_neg fun h => (not_isLength_iff length).mp h valid, if_pos (by omega)]

theorem decode_whole (valid : IsLength length) {pdu : Bytes} (whole : 1 + pdu.length = length.toNat) (rest : Bytes) :
    decode (header transaction protocol length unit ++ pdu ++ rest) =
      (some (if protocol = 0 then .ok ⟨⟨transaction, unit⟩, pdu⟩ else .error .invalidProtocol), rest) := by
  have hsize : length.toNat - 1 = pdu.length := by omega
  simp only [header, Bytes.ofWord, List.cons_append, List.nil_append, decode, word_high_low, hsize]
  rw [if_neg fun h => (not_isLength_iff length).mp (by rwa [hsize]) valid, if_neg (by simp), List.drop_left,
    List.take_left]
  by_cases hp : protocol = 0 <;> simp [hp]

/-- Decoding a buffer takes the first step of what every stream that begins with it consists of. -/
theorem decode_cases (buffer : Bytes) :
    (decode buffer = (none, buffer) ∧ Parses buffer [] (some buffer)) ∨
    (decode buffer = (some (.error .invalidLength), []) ∧
      ∀ more, Parses (buffer ++ more) [.error .invalidLength] none) ∨
    ∃ frame rest, decode buffer = (some frame, rest) ∧ frame ≠ .error .invalidLength ∧
      ∀ more frames tail, Parses (rest ++ more) frames tail → Parses (buffer ++ more) (frame :: frames) tail := by
  by_cases hshort : buffer.length < 7
  · exact .inl ⟨decode_short hshort, .inHeader hshort⟩
  obtain ⟨transaction, protocol, length, unit, body, rfl⟩ := exists_header (Nat.le_of_not_lt hshort)
  by_cases valid : IsLength length
  · by_cases hbody : 1 + body.length < length.toNat
    · exact .inl ⟨decode_inBody valid hbody, .inBody valid hbody⟩
    · have whole : 1 + (body.take (length.toNat - 1)).length = length.toNat := by
        have := valid.1
        rw [List.length_take]
        omega
      refine .inr (.inr ?_)
      rw [← List.take_append_drop (length.toNat - 1) body, ← List.append_assoc]
      refine ⟨_, _, decode_whole valid whole _, by split <;> simp, fun more frames tail h => ?_⟩
      rw [List.append_assoc]
      split
      · rename_i hp
        exact hp ▸ .delivered valid whole h
      · rename_i hp
        exact .discarded hp valid whole h
  · exact .inr (.inl ⟨decode_lost valid body, fun more => by rw [List.append_assoc]; exact .lost valid⟩)

/-! ## What a stream consists of -/

theorem Parses.exists (stream : Bytes) : ∃ frames tail, Parses stream frames tail := by
  induction h : stream.length using Nat.strongRecOn generalizing stream with
  | ind n ih =>
      obtain ⟨_, parses⟩ | ⟨_, parses⟩ | ⟨frame, rest, hdecode, _, parses⟩ := decode_cases stream
      · exact ⟨_, _, parses⟩
      · exact ⟨_, _, List.append_nil stream ▸ parses []⟩
      · have hlt := decode_shorter stream (by rw [hdecode]; rfl)
        rw [hdecode] at hlt
        obtain ⟨frames, tail, hrest⟩ := ih _ (h ▸ hlt) rest rfl
        refine ⟨frame :: frames, tail, ?_⟩
        have := parses [] frames tail
        rw [List.append_nil, List.append_nil] at this
        exact this hrest

/-- What was found is what the stream consists of, as far as that can be told from the cuts. -/
def Accounts (found : List Frame × Bytes) (frames : List Frame) : Option Bytes → Prop
  | some tail => .error .invalidLength ∉ frames ∧ found = (frames, tail)
  | none => .error .invalidLength ∈ frames ∧ uptoLost found.1 = frames

theorem Accounts.cons {found : List Frame × Bytes} {frames : List Frame} {tail : Option Bytes}
    (h : Accounts found frames tail) {frame : Frame} (hframe : frame ≠ .error .invalidLength) :
    Accounts (frame :: found.1, found.2) (frame :: frames) tail := by
  cases tail with
  | some tail =>
      obtain ⟨hmem, rfl⟩ := h
      exact ⟨List.not_mem_cons_of_ne_of_not_mem (Ne.symm hframe) hmem, rfl⟩
  | none =>
      obtain ⟨hmem, rfl⟩ := h
      exact ⟨List.mem_cons_of_mem _ hmem, uptoLost_cons hframe _⟩

theorem Accounts.uptoLost_eq {found : List Frame × Bytes} {frames : List Frame} {tail : Option Bytes}
    (h : Accounts found frames tail) : uptoLost found.1 = frames := by
  cases tail with
  | some tail =>
      obtain ⟨hmem, rfl⟩ := h
      simpa only [List.append_nil, uptoLost] using uptoLost_append hmem []
  | none => exact h.2

theorem Accounts.unique {found : List Frame × Bytes} {frames frames' : List Frame} {tail tail' : Option Bytes}
    (h : Accounts found frames tail) (h' : Accounts found frames' tail') : frames' = frames ∧ tail' = tail := by
  obtain rfl : frames' = frames := h'.uptoLost_eq.symm.trans h.uptoLost_eq
  refine ⟨rfl, ?_⟩
  cases tail with
  | some tail =>
      cases tail' with
      | some tail' => exact congrArg (some ·.2) (h'.2.symm.trans h.2)
      | none => exact absurd h'.1 h.1
  | none =>
      cases tail' with
      | some tail' => exact absurd h.1 h'.1
      | none => rfl

theorem Parses.drain {stream : Bytes} {frames : List Frame} {tail : Option Bytes} (h : Parses stream frames tail) :
    Accounts (envelope.drain stream) frames tail := by
  have found {stream rest frames tail} {frame : Frame} (hdecode : decode stream = (some frame, rest))
      (hframe : frame ≠ .error .invalidLength) (ih : Accounts (envelope.drain rest) frames tail) :
      Accounts (envelope.drain stream) (frame :: frames) tail := by
    rw [Envelope.drain_some (show envelope.decode stream = _ from hdecode)]
    exact ih.cons hframe
  induction h with
  | inHeader short => exact ⟨List.not_mem_nil, Envelope.drain_none (decode_short short)⟩
  | inBody valid short => exact ⟨List.not_mem_nil, Envelope.drain_none (decode_inBody valid short)⟩
  | lost invalid =>
      rw [Envelope.drain_some (decode_lost invalid _)]
      exact ⟨List.mem_cons_self, rfl⟩
  | delivered valid whole _ ih => exact found ((decode_whole valid whole _).trans (by rw [if_pos rfl])) (by simp) ih
  | discarded foreign valid whole _ ih =>
      exact found ((decode_whole valid whole _).trans (by rw [if_neg foreign])) (by simp) ih

theorem Parses.unique {stream : Bytes} {frames frames' : List Frame} {tail tail' : Option Bytes}
    (h : Parses stream frames tail) (h' : Parses stream frames' tail') : frames' = frames ∧ tail' = tail :=
  h.drain.unique h'.drain

/-! ## What is found in a stream -/

/-- After some frames without a lost one, whatever the bytes that are held turn out to be is what the stream goes on
with; after a lost one nothing matters any more. -/
inductive Follows (stream : Bytes) (frames : List Frame) (buffer : Bytes) : Prop
  | on (hmem : .error .invalidLength ∉ frames)
      (goes : ∀ more rest tail, Parses (buffer ++ more) rest tail → Parses (stream ++ more) (frames ++ rest) tail)
  | lost {front back : List Frame} (heq : frames = front ++ .error .invalidLength :: back)
      (hmem : .error .invalidLength ∉ front)
      (parses : ∀ more, Parses (stream ++ more) (front ++ [.error .invalidLength]) none)

theorem invariant_follows : envelope.IsInvariant Follows where
  start := .on List.not_mem_nil fun more rest tail h => h
  append piece h := by
    cases h with
    | on hmem goes =>
        refine .on hmem fun more rest tail h => ?_
        rw [List.append_assoc] at h ⊢
        exact goes _ _ _ h
    | lost heq hmem parses =>
        refine .lost heq hmem fun more => ?_
        rw [List.append_assoc]
        exact parses _
  found {stream frames buffer frame rest} hdecode h := by
    cases h with
    | on hmem goes =>
        obtain ⟨hnone, _⟩ | ⟨hlost, parses⟩ | ⟨frame', rest', hsome, hframe, parses⟩ := decode_cases buffer
        · cases hdecode.symm.trans hnone
        · cases hdecode.symm.trans hlost
          exact .lost rfl hmem fun more => goes _ _ _ (parses more)
        · cases hdecode.symm.trans hsome
          refine .on ?_ fun more rest tail h => ?_
          · rw [List.mem_append, List.mem_singleton, not_or]
            exact ⟨hmem, Ne.symm hframe⟩
          · rw [List.append_assoc]
            exact goes _ _ _ (parses _ _ _ h)
    | lost heq hmem parses => exact .lost (by rw [heq, List.append_assoc, List.cons_append]) hmem parses
  nothing {stream frames buffer rest} hdecode h := by
    obtain ⟨hnone, _⟩ | ⟨hlost, _⟩ | ⟨_, _, hsome, _, _⟩ := decode_cases buffer
    · cases hdecode.symm.trans hnone
      exact h
    · cases hdecode.symm.trans hlost
    · cases hdecode.symm.trans hsome

theorem settles : envelope.Settles := by
  intro buffer rest hdecode
  obtain ⟨hnone, _⟩ | ⟨hlost, _⟩ | ⟨_, _, hsome, _, _⟩ := decode_cases buffer
  · cases hdecode.symm.trans hnone
    exact hnone
  · cases hdecode.symm.trans hlost
  · cases hdecode.symm.trans hsome

theorem collect_accounts {pieces : List Bytes} {frames : List Frame} {tail : Option Bytes}
    (h : Parses pieces.flatten frames tail) : Accounts (envelope.collect pieces) frames tail := by
  have hsettled := settles.collect rfl pieces
  cases invariant_follows.collect pieces with
  | on hmem goes =>
      obtain ⟨_, parses⟩ | ⟨hlost, _⟩ | ⟨_, _, hsome, _, _⟩ := decode_cases (envelope.collect pieces).2
      · have hparses := goes [] [] _ (by rwa [List.append_nil])
        rw [List.append_nil, List.append_nil] at hparses
        obtain ⟨rfl, rfl⟩ := hparses.unique h
        exact ⟨hmem, rfl⟩
      · cases hsettled.symm.trans hlost
      · cases hsettled.symm.trans hsome
  | lost heq hmem parses =>
      obtain ⟨rfl, rfl⟩ := (List.append_nil pieces.flatten ▸ parses []).unique h
      refine ⟨by simp, ?_⟩
      rw [heq, uptoLost_append hmem]
      rfl

/-! ## Messages -/

theorem encode_eq_header (adu : Adu) : encode adu =
    header adu.header.transaction 0 (UInt16.ofNat (adu.pdu.length + 1)) adu.header.unit ++ adu.pdu := by
  simp [encode, header]

theorem length_encode (adu : Adu) : (encode adu).length = adu.pdu.length + 7 := by
  simp [encode, Bytes.ofWord]

theorem length_encoded {adu : Adu} (h : adu.IsSendable) :
    IsLength (UInt16.ofNat (adu.pdu.length + 1)) ∧ 1 + adu.pdu.length = (UInt16.ofNat (adu.pdu.length + 1)).toNat := by
  have hpos := List.length_pos_iff.mpr h.1
  have hmax : adu.pdu.length ≤ 253 := h.2
  have hlength : (UInt16.ofNat (adu.pdu.length + 1)).toNat = adu.pdu.length + 1 :=
    (congrArg UInt16.toNat (word_high_low _)).symm.trans (toNat_length h)
  exact ⟨⟨by omega, by omega⟩, by omega⟩

theorem parses_encode {adu : Adu} (h : adu.IsSendable) {rest : Bytes} {frames : List Frame} {tail : Option Bytes}
    (parses : Parses rest frames tail) : Parses (encode adu ++ rest) (.ok adu :: frames) tail := by
  obtain ⟨valid, whole⟩ := length_encoded h
  rw [encode_eq_header]
  exact .delivered valid whole parses

theorem decode_encode {adu : Adu} (h : adu.IsSendable) (rest : Bytes) :
    decode (encode adu ++ rest) = (some (.ok adu), rest) := by
  obtain ⟨valid, whole⟩ := length_encoded h
  rw [encode_eq_header, decode_whole valid whole]
  rfl

theorem decode_eq_ok_iff {buffer rest : Bytes} {adu : Adu} :
    decode buffer = (some (.ok adu), rest) ↔ adu.IsSendable ∧ buffer = encode adu ++ rest := by
  constructor
  · intro h
    by_cases hshort : buffer.length < 7
    · cases h.symm.trans (decode_short hshort)
    obtain ⟨transaction, protocol, length, unit, body, rfl⟩ := exists_header (Nat.le_of_not_lt hshort)
    by_cases valid : IsLength length
    · by_cases hbody : 1 + body.length < length.toNat
      · cases h.symm.trans (decode_inBody valid hbody)
      obtain ⟨pdu, rest', rfl, whole⟩ : ∃ pdu rest', body = pdu ++ rest' ∧ 1 + pdu.length = length.toNat := by
        have := valid.1
        refine ⟨_, _, (List.take_append_drop (length.toNat - 1) body).symm, ?_⟩
        rw [List.length_take]
        omega
      rw [← List.append_assoc, decode_whole valid whole] at h
      split at h <;> cases h
      rename_i hprotocol
      have hlength : UInt16.ofNat (pdu.length + 1) = length := by
        rw [Nat.add_comm, whole, UInt16.ofNat_toNat]
      obtain ⟨hmin, hmax⟩ := valid
      have hpos : 0 < pdu.length := by omega
      have hfits : pdu.length ≤ 253 := by omega
      exact ⟨⟨List.ne_nil_of_length_pos hpos, hfits⟩, by rw [encode_eq_header, hlength, hprotocol, List.append_assoc]⟩
    · cases h.symm.trans (decode_lost valid body)
  · rintro ⟨sendable, rfl⟩
    exact decode_encode sendable rest

theorem decodeDatagram_eq_ok_iff {datagram : Bytes} {adu : Adu} :
    decodeDatagram datagram = .ok adu ↔ adu.IsSendable ∧ datagram = encode adu := by
  rw [← List.append_nil (encode adu), ← decode_eq_ok_iff]
  unfold decodeDatagram
  generalize decode datagram = decoded
  obtain ⟨_ | frame, _ | ⟨b, rest⟩⟩ := decoded <;> simp

def appendAll (adus : List Adu) : Except Fault Bytes := adus.foldlM (fun buffer adu => append adu buffer) []

theorem parses_appendAll {adus : List Adu} (sendable : ∀ adu ∈ adus, adu.IsSendable) :
    ∃ stream, appendAll adus = .ok stream ∧ Parses stream (adus.map .ok) (some []) := by
  suffices ∀ buffer : Bytes, ∃ stream, adus.foldlM (fun buffer adu => append adu buffer) buffer = .ok (buffer ++ stream) ∧
      Parses stream (adus.map .ok) (some []) from this []
  induction adus with
  | nil => exact fun buffer => ⟨[], by rw [List.append_nil]; rfl, .inHeader (by decide)⟩
  | cons adu adus ih =>
      intro buffer
      obtain ⟨hadu, hadus⟩ := List.forall_mem_cons.mp sendable
      obtain ⟨stream, hstream, parses⟩ := ih hadus (buffer ++ encode adu)
      refine ⟨encode adu ++ stream, ?_, parses_encode hadu parses⟩
      have happend : append adu buffer = .ok (buffer ++ encode adu) := Adu.append_eq_ok_iff.mpr ⟨hadu.2, rfl⟩
      rw [List.foldlM_cons, happend, ← List.append_assoc]
      exact hstream

/-- However a stream is cut, what is found in it is what it consists of, up to the first impossible length. Without one
the bytes that are left are the incomplete frame at its end, and the end of the stream is an error exactly if there are
any. Messages that are appended one after the other all arrive. -/
theorem collect_parses :
    (∀ stream, ∃ frames tail, Parses stream frames tail ∧
      (∀ frames' tail', Parses stream frames' tail' → frames' = frames ∧ tail' = tail) ∧
      ∀ pieces, pieces.flatten = stream →
        uptoLost (envelope.collect pieces).1 = frames ∧
        ∀ rest, tail = some rest → envelope.collect pieces = (frames, rest) ∧
          ((∃ fault, (envelope.decodeLast (envelope.collect pieces).2).1 = .error fault ∧ fault.kind = .unexpectedEof) ↔
            rest ≠ [])) ∧
    ∀ adus, (∀ adu ∈ adus, adu.IsSendable) → ∃ stream, appendAll adus = .ok stream ∧
      ∀ pieces, pieces.flatten = stream → envelope.collect pieces = (adus.map .ok, []) := by
  refine ⟨fun stream => ?_, fun adus sendable => ?_⟩
  · obtain ⟨frames, tail, parses⟩ := Parses.exists stream
    refine ⟨frames, tail, parses, fun frames' tail' h => parses.unique h, ?_⟩
    rintro pieces rfl
    have accounts := collect_accounts parses
    refine ⟨accounts.uptoLost_eq, ?_⟩
    rintro rest rfl
    have hsettled := settles.collect rfl pieces
    rw [accounts.2] at hsettled ⊢
    refine ⟨rfl, ?_⟩
    unfold Envelope.decodeLast
    rw [hsettled]
    cases rest with
    | nil => simp
    | cons b rest => simp [envelope, Fault.kind]
  · obtain ⟨stream, hstream, parses⟩ := parses_appendAll sendable
    refine ⟨stream, hstream, ?_⟩
    rintro pieces rfl
    exact (collect_accounts parses).2

/-- A frame of another protocol, a message and the front of a third frame, cut within both headers; two messages. -/
theorem collect_parses_cut :
    let cut : List Bytes := [[0, 1, 0, 1, 0], [2, 9, 17, 0, 2, 0, 0, 0, 3], [1, 131, 2, 0], [3, 0]]
    let messages : List Adu := [⟨⟨1, 9⟩, [17]⟩, ⟨⟨2, 1⟩, [131, 2]⟩]
    let joined : Bytes := [0, 1, 0, 0, 0, 2, 9, 17, 0, 2, 0, 0, 0, 3, 1, 131, 2]
    envelope.collect cut = ([.error .invalidProtocol, .ok ⟨⟨2, 1⟩, [131, 2]⟩], [0, 3, 0]) ∧
      (∀ adu ∈ messages, adu.IsSendable) ∧ appendAll messages = .ok joined ∧
      envelope.collect [joined.take 4, joined.drop 4] = (messages.map .ok, []) := by
  intro cut messages joined
  have parses : Parses cut.flatten [.error .invalidProtocol, .ok ⟨⟨2, 1⟩, [131, 2]⟩] (some [0, 3, 0]) := by
    show Parses (header 1 1 2 9 ++ [17] ++ (header 2 0 3 1 ++ [131, 2] ++ [0, 3, 0])) _ _
    exact .discarded (by decide) ⟨by decide, by decide⟩ rfl
      (.delivered ⟨by decide, by decide⟩ rfl (.inHeader (by decide)))
  have sendable : ∀ adu ∈ messages, adu.IsSendable := by
    simp [messages, Adu.IsSendable, Pdu.maxSize]
  obtain ⟨frames, tail, _, unique, found⟩ := collect_parses.1 cut.flatten
  obtain ⟨rfl, rfl⟩ := unique _ _ parses
  obtain ⟨stream, happend, arrive⟩ := collect_parses.2 messages sendable
  obtain rfl : joined = stream := by
    have hjoined : appendAll messages = .ok joined := by rfl
    exact Except.ok.inj (hjoined.symm.trans happend)
  exact ⟨((found cut rfl).2 _ rfl).1, sendable, happend, arrive _ (by simp)⟩

end Modbus.Mbap
