import Modbus.Link.Datagram
import Modbus.Proofs.Frame.MbapStream

/-!
# What a datagram carries

A datagram is the frame of one message and nothing else. What is received is as long as the longest frame, so of a
longer datagram the rest is never seen: behind a frame of the greatest length anything may stand.
-/

namespace Modbus

namespace Datagram

/-- The message that a datagram is the frame of. Bytes behind a frame of the greatest length are lost. -/
def Carries (d : Datagram) (adu : Adu) : Prop :=
  adu.pdu ≠ [] ∧ ∃ frame lost, Mbap.append adu [] = .ok frame ∧ d.bytes = frame ++ lost ∧
    (lost = [] ∨ adu.pdu.length = Pdu.maxSize)

variable {d : Datagram} {adu : Adu}

theorem carries_iff_take :
    d.Carries adu ↔ adu.IsSendable ∧ d.bytes.take DatagramEndpoint.maxDatagram = Mbap.encode adu := by
  have hlength : (Mbap.encode adu).length = adu.pdu.length + 7 := Mbap.length_encode adu
  have hmax : DatagramEndpoint.maxDatagram = 7 + Pdu.maxSize := rfl
  constructor
  · rintro ⟨hpdu, frame, lost, happend, hbytes, hlost⟩
    obtain ⟨hshort, rfl⟩ := Adu.append_eq_ok_iff.mp happend
    refine ⟨⟨hpdu, hshort⟩, ?_⟩
    rw [hbytes, List.nil_append]
    obtain rfl | hlong := hlost
    · rw [List.append_nil]
      exact List.take_of_length_le (by omega)
    · exact List.take_left' (by omega)
  · rintro ⟨⟨hpdu, hshort⟩, htake⟩
    refine ⟨hpdu, _, d.bytes.drop DatagramEndpoint.maxDatagram, Adu.append_eq_ok_iff.mpr ⟨hshort, rfl⟩, ?_, ?_⟩
    · rw [List.nil_append, ← htake, List.take_append_drop]
    · by_cases hlong : d.bytes.length ≤ DatagramEndpoint.maxDatagram
      · exact .inl (List.drop_of_length_le hlong)
      · have htaken := congrArg List.length htake
        rw [List.length_take, hlength] at htaken
        exact .inr (by omega)

theorem decode_take_iff :
    (Mbap.decodeDatagram (d.bytes.take DatagramEndpoint.maxDatagram)).adu? = some adu ↔ d.Carries adu := by
  rw [carries_iff_take, ← Mbap.decodeDatagram_eq_ok_iff]
  cases Mbap.decodeDatagram (d.bytes.take DatagramEndpoint.maxDatagram) <;> simp [Frame.adu?]

end Datagram

namespace DatagramEndpoint

variable {p : DatagramEndpoint} {d : Datagram} {rest : List Datagram}

theorem receive_cons (arrivals : p.arrivals = d :: rest) {limit : Option Nat} (within : Within (max p.clock d.time) limit) :
    ∃ frame, p.receive limit = (.done frame,
        { p with
          arrivals := rest, clock := max p.clock d.time, peer := if p.connected then p.peer else some d.peer }) ∧
      ∀ adu, frame = some adu ↔ d.Carries adu := by
  unfold receive
  simp only [arrivals]
  rw [if_pos within]
  exact ⟨_, rfl, fun _ => Datagram.decode_take_iff⟩

/-- A message is received exactly if the next datagram carries it. -/
theorem receive_eq_some_iff (p : DatagramEndpoint) (d : Datagram) (rest : List Datagram) :
    ∃ frame p', receive none { p with arrivals := d :: rest } = (.done frame, p') ∧ p'.arrivals = rest ∧
      ∀ adu, frame = some adu ↔ d.Carries adu := by
  have always : Within (max p.clock d.time) none := nofun
  obtain ⟨frame, hreceive, hcarries⟩ := receive_cons (p := { p with arrivals := d :: rest }) rfl always
  exact ⟨frame, _, hreceive, rfl, hcarries⟩

/-- Of a datagram with a byte behind the longest frame the message is received, though the datagram is no frame. -/
theorem receives_overlong :
    let adu : Adu := ⟨⟨7, 1⟩, List.replicate 253 0x41⟩
    let d : Datagram := ⟨0, 0, Mbap.encode adu ++ [0xFF]⟩
    (receive none { arrivals := [d] }).1 = .done (some adu) ∧
      ∀ message, Mbap.append message [] ≠ .ok d.bytes := by
  intro adu d
  have hpdu : adu.pdu.length = 253 := List.length_replicate
  have hcarries : d.Carries adu :=
    ⟨List.ne_nil_of_length_pos (by omega), _, _, Adu.append_eq_ok_iff.mpr ⟨Nat.le_of_eq hpdu, rfl⟩, rfl, .inr hpdu⟩
  refine ⟨?_, fun message happend => ?_⟩
  · rw [← Datagram.decode_take_iff.mpr hcarries]
    rfl
  · obtain ⟨hshort, hbytes⟩ := Adu.append_eq_ok_iff.mp happend
    have hshort : message.pdu.length ≤ 253 := hshort
    have hlength := congrArg List.length hbytes
    rw [List.nil_append, List.length_append, Mbap.length_encode, Mbap.length_encode, hpdu, List.length_singleton]
      at hlength
    omega

end DatagramEndpoint

end Modbus
