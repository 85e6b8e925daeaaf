import Modbus.Proofs.Frame.AsciiStream
import Modbus.Proofs.Frame.MbapStream

/-!
# What is delivered can be sent

A PDU has at least one byte and at most 253 in every framing. Decoders of MBAP frames, datagrams and bursts deliver no
other. The decoder of ASCII frames looks at the length of a frame only as long as the frame has no end: what it delivers
has a PDU, but one that is too long if the end of a frame that is too long is there the first time it is looked at.
-/

namespace Modbus

namespace Mbap

theorem trims : envelope.Trims := by
  intro buffer
  show (decode buffer).2 <:+ buffer
  unfold decode
  split
  · rename_i t₁ t₀ p₁ p₀ l₁ l₀ unit body
    have hbody (n : Nat) : body.drop n <:+ t₁ :: t₀ :: p₁ :: p₀ :: l₁ :: l₀ :: unit :: body :=
      (List.drop_suffix n body).trans ⟨[t₁, t₀, p₁, p₀, l₁, l₀, unit], rfl⟩
    dsimp only
    split
    · exact List.nil_suffix
    split
    · exact List.suffix_rfl
    split
    · exact hbody _
    · exact hbody _
  · exact List.suffix_rfl

theorem isSendable_of_decode {buffer rest : Bytes} {adu : Adu} (h : decode buffer = (some (.ok adu), rest)) :
    adu.IsSendable :=
  (decode_eq_ok_iff.mp h).1

theorem isSendable_of_decodeDatagram {datagram : Bytes} {adu : Adu} (h : decodeDatagram datagram = .ok adu) :
    adu.IsSendable :=
  (decodeDatagram_eq_ok_iff.mp h).1

end Mbap

theorem Rtu.isSendable_of_decode {frame : Bytes} {adu : Adu} (h : decode frame = .ok adu) : adu.IsSendable := by
  obtain ⟨_, hpos, hmax, _⟩ := decode_eq_ok_iff.mp h
  exact ⟨List.ne_nil_of_length_pos hpos, hmax⟩

namespace Ascii

theorem trims : envelope.Trims := by
  intro buffer
  show (decode buffer).2 <:+ buffer
  obtain ⟨noise, quiet, rfl | ⟨line, unended, rfl⟩ | ⟨line, rest, unended, rfl⟩⟩ := exists_noise buffer
  · rw [decode_noise quiet]
    exact List.nil_suffix
  · rw [decode_unfinished quiet unended]
    split
    · exact List.nil_suffix
    · exact List.suffix_append ..
  · rw [decode_line quiet unended]
    exact List.suffix_append ..

theorem exists_text_of_decode {buffer rest : Bytes} {adu : Adu} (h : decode buffer = (some (.ok adu), rest)) :
    ∃ text, start :: text ++ ending <:+: buffer ∧ Carries text adu := by
  obtain ⟨noise, quiet, rfl | ⟨line, unended, rfl⟩ | ⟨line, rest', unended, rfl⟩⟩ := exists_noise buffer
  · cases h.symm.trans (decode_noise quiet)
  · have hline := h.symm.trans (decode_unfinished quiet unended)
    split at hline <;> cases hline
  · have hread := h.symm.trans (decode_line quiet unended rest')
    obtain ⟨before, text, hsegment, _, hcarries⟩ := yields_read line
    simp only [Prod.mk.injEq, Option.some.injEq] at hread
    refine ⟨text, ?_, (hcarries adu).mp hread.1.symm⟩
    rw [hsegment]
    exact ⟨noise ++ before, rest', by simp⟩

theorem Carries.length_eq {text : Bytes} {adu : Adu} (h : Carries text adu) :
    text.length = 2 * (adu.pdu.length + 2) := by
  obtain ⟨_, _, check, hspells, _⟩ := h
  rw [hspells.length_eq]
  simp

theorem Carries.isSendable_iff {text : Bytes} {adu : Adu} (h : Carries text adu) :
    adu.IsSendable ↔ (start :: text ++ ending).length ≤ 513 := by
  have hlength := h.length_eq
  have hmax : Pdu.maxSize = 253 := rfl
  simp only [Adu.IsSendable, ending, List.length_append, List.length_cons, List.length_nil]
  constructor
  · rintro ⟨_, hpdu⟩
    omega
  · intro hframe
    exact ⟨h.2.1, by omega⟩

end Ascii

/-- Whatever is delivered from a stream of MBAP frames, from a datagram or from a burst can be sent. What is delivered
from a stream of ASCII frames has a PDU and stands in the stream as a frame, and it can be sent exactly if that frame
has at most 513 characters. -/
theorem Adu.delivered_isSendable (pieces : List Bytes) (bytes : Bytes) (adu : Adu) :
    (.ok adu ∈ (Mbap.envelope.collect pieces).1 → adu.IsSendable) ∧
      (Mbap.decodeDatagram bytes = .ok adu → adu.IsSendable) ∧
      (Rtu.decode bytes = .ok adu → adu.IsSendable) ∧
      (.ok adu ∈ (Ascii.envelope.collect pieces).1 → adu.pdu ≠ [] ∧
        ∃ text, Ascii.start :: text ++ Ascii.ending <:+: pieces.flatten ∧ Ascii.Carries text adu ∧
          (adu.IsSendable ↔ (Ascii.start :: text ++ Ascii.ending).length ≤ 513)) := by
  refine ⟨fun h => ?_, Mbap.isSendable_of_decodeDatagram, Rtu.isSendable_of_decode, fun h => ?_⟩
  · obtain ⟨_, _, _, hdecode⟩ := Mbap.trims.exists_of_mem_collect h
    exact Mbap.isSendable_of_decode hdecode
  · obtain ⟨_, _, hinfix, hdecode⟩ := Ascii.trims.exists_of_mem_collect h
    obtain ⟨text, htext, carries⟩ := Ascii.exists_text_of_decode hdecode
    exact ⟨carries.2.1, text, htext.trans hinfix, carries, carries.isSendable_iff⟩

/-- A frame of 515 characters is there as a whole the first time it is looked at. -/
theorem Ascii.delivers_oversized :
    let frame : Bytes := start :: List.replicate 512 48 ++ ending
    let adu : Adu := ⟨⟨0, 0⟩, List.replicate 254 0⟩
    envelope.collect [frame] = ([.ok adu], []) ∧ ¬ adu.IsSendable := by
  intro frame adu
  have hdecode : envelope.decode frame = (some (.ok adu), []) := by decide +kernel
  refine ⟨?_, fun h => absurd h.2 (by decide +kernel)⟩
  show Envelope.feed _ ([], []) frame = _
  simp only [Envelope.feed, List.nil_append, Envelope.drain_some hdecode]
  rw [Envelope.drain_none (show envelope.decode [] = (none, []) from rfl)]

end Modbus
