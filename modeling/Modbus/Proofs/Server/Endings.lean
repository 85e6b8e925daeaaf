import Mathlib.Data.Set.List
import Modbus.Proofs.Link.StreamEnd
import Modbus.Proofs.Server.Replies

/-!
# The end of a server

A server comes to an end with its stream, whatever it is sent and whatever its service answers: what it discards is
used up, and an unfinished line at the end of an ASCII stream is reported only once. If it loses nothing that it sends,
it has received everything by then.
-/

namespace Modbus

/-! ## The last faults of a stream -/

/-- The faults behind the last frame up to the first that is fatal. -/
def Envelope.lastFaults (env : Envelope) (left : Bytes) : List Fault :=
  if left = [] then [env.closed] else if env.unfinished.isFatal then [env.unfinished] else [env.unfinished, env.closed]

theorem FrameReader.Told.lastFaults {env : Envelope} {stream : Bytes} {found : List Frame} {before : List Fault}
    {f : Fault} {arrivals : List Chunk} {r : FrameReader} (told : Told env stream found (before ++ [f]) arrivals r)
    (goesOn : ∀ g ∈ before, g.isFatal = false) (fatal : f.isFatal = true) :
    ∃ left, env.Gives stream found left ∧ before ++ [f] = env.lastFaults left := by
  generalize hfaults : before ++ [f] = faults at told
  cases told with
  | reading => exact absurd hfaults (by simp)
  | @reported left _ _ _ gives some =>
      refine ⟨left, gives, ?_⟩
      have hunfinished : before ++ [f] = [] ++ [env.unfinished] := by
        rw [hfaults, Envelope.faults, if_neg some]
        rfl
      obtain ⟨rfl, rfl⟩ := List.append_singleton_inj.mp hunfinished
      rw [Envelope.faults, Envelope.lastFaults, if_neg some, if_neg some, if_pos fatal]
      rfl
  | @closed left n _ _ _ gives =>
      refine ⟨left, gives, ?_⟩
      rw [← Envelope.faults_snoc] at hfaults ⊢
      obtain ⟨rfl, rfl⟩ := List.append_singleton_inj.mp hfaults
      -- the end is fatal, so it has not been reported before
      have hclosed : env.closed ∉ env.faults left n := fun mem => by
        cases env.closed_isFatal.symm.trans (goesOn _ mem)
      obtain rfl : n = 0 := by
        by_contra hn
        exact hclosed (List.mem_append_right _ (List.mem_replicate.mpr ⟨hn, rfl⟩))
      rw [Envelope.faults, List.replicate_zero, List.append_nil] at goesOn ⊢
      by_cases hleft : left = []
      · rw [Envelope.lastFaults, if_pos hleft, if_pos hleft]
        rfl
      · have hunfinished := goesOn env.unfinished (by simp [hleft])
        rw [Envelope.lastFaults, if_neg hleft, if_neg hleft, if_neg (by simp [hunfinished])]
        rfl

/-- What a stream comes to for somebody who stops at its end: all its frames, and the end. -/
inductive StreamFraming.ReadsOut (stream : Bytes) : StreamFraming → List (Except Fault (Option Adu)) → Prop
  | tcp {frames tail found left} (gives : Mbap.envelope.Gives stream found left)
      (parses : Mbap.Parses stream frames tail) (accounts : Mbap.Accounts (found, left) frames tail) :
      ReadsOut stream .tcp (resultsOf found [if left = [] then .connectionClosed else .streamClosedInFrame])
  | ascii {lines tail parts n left} (gives : Ascii.envelope.Gives stream (parts.flatten ++ Ascii.tooLong n) left)
      (segments : Ascii.Segments stream lines tail) (come : List.Forall₂ Ascii.ComesTo lines parts)
      (whole : tail.length ≤ 513 → n = 0 ∧ left = tail) :
      ReadsOut stream .ascii (resultsOf (parts.flatten ++ Ascii.tooLong n)
        (if left = [] then [.serialStreamClosed] else [.bytesRemaining, .serialStreamClosed]))
  | rtu (results : List (Option Adu)) : ReadsOut stream .rtu (results.map .ok ++ [.error .serialStreamClosed])

theorem resultsOf_eq_snoc {frames : List Frame} {faults : List Fault} {before : List (Except Fault (Option Adu))}
    {f : Fault} (h : resultsOf frames faults = before ++ [.error f]) :
    ∃ front, faults = front ++ [f] ∧ ∀ g ∈ front, .error g ∈ before := by
  rcases List.eq_nil_or_concat faults with rfl | ⟨front, last, rfl⟩
  · have hmem : .error f ∈ resultsOf frames [] := h ▸ List.mem_append_right _ (List.mem_singleton_self _)
    cases error_mem_resultsOf.mp hmem
  · rw [List.concat_eq_append, ← resultsOf_fault] at h
    obtain ⟨rfl, hlast⟩ := List.append_singleton_inj.mp h
    cases hlast
    exact ⟨front, List.concat_eq_append .., fun g hg => error_mem_resultsOf.mpr hg⟩

theorem Endpoint.Told.readsOut {framing : StreamFraming} {stream : Bytes} {closing : Nat}
    {before : List (Except Fault (Option Adu))} {f : Fault} {p : Endpoint}
    (told : p.Told framing stream closing (before ++ [.error f])) (goesOn : ∀ g, .error g ∈ before → g.isFatal = false)
    (fatal : f.isFatal = true) : framing.ReadsOut stream (before ++ [.error f]) := by
  have hreceiver := told.receiver
  generalize hresults : before ++ [.error f] = results at hreceiver
  generalize p.receiver = receiver at hreceiver
  cases hreceiver with
  | @mbap found faults _ told' =>
      obtain ⟨front, rfl, hfront⟩ := resultsOf_eq_snoc hresults.symm
      obtain ⟨left, gives, hfaults⟩ := told'.lastFaults (fun g hg => goesOn g (hfront g hg)) fatal
      obtain ⟨frames, tail, parses⟩ := Mbap.Parses.exists stream
      have accounts : Mbap.Accounts (found, left) frames tail := by
        obtain ⟨pieces, rfl, hcollect⟩ := gives
        exact hcollect ▸ Mbap.collect_accounts parses
      have hlast : Mbap.envelope.lastFaults left = [if left = [] then .connectionClosed else .streamClosedInFrame] := by
        unfold Envelope.lastFaults
        split <;> rfl
      rw [hfaults, hlast]
      exact .tcp gives parses accounts
  | @ascii found faults _ told' =>
      obtain ⟨front, rfl, hfront⟩ := resultsOf_eq_snoc hresults.symm
      obtain ⟨left, gives, hfaults⟩ := told'.lastFaults (fun g hg => goesOn g (hfront g hg)) fatal
      obtain ⟨lines, tail, segments⟩ := Ascii.Segments.exists stream
      obtain ⟨parts, n, come, rfl, whole⟩ : ∃ parts n, List.Forall₂ Ascii.ComesTo lines parts ∧
          found = parts.flatten ++ Ascii.tooLong n ∧ (tail.length ≤ 513 → n = 0 ∧ left = tail) := by
        obtain ⟨pieces, rfl, hcollect⟩ := gives
        have comes := Ascii.collect_comes segments
        rwa [hcollect] at comes
      rw [hfaults]
      exact .ascii gives segments come whole
  | rtu closed =>
      subst hresults
      obtain rfl := closed f (by simp)
      have hbefore : before ∈ Set.range (List.map Except.ok) := by
        rw [Set.range_list_map]
        rintro (g | result) hx
        · have hg := closed g (List.mem_append_left _ hx)
          cases (hg ▸ fatal).symm.trans (goesOn g hx)
        · exact ⟨result, rfl⟩
      obtain ⟨results, rfl⟩ := hbefore
      exact .rtu results

/-! ## What a server keeps -/

namespace Server

variable {σ τ : Type}

end Server

def Server.goesOn : Except Fault (Option Adu) → Bool
  | .ok _ => true
  | .error f => !f.isFatal

namespace Endpoint

variable {p : Endpoint} {adu : Adu}

/-- Whatever a server goes on behind uses something up. -/
theorem weight_result (p : Endpoint) (limit : Option Nat) :
    (p.receive limit).1.result?.toList.countP Server.goesOn + (p.receive limit).2.weight ≤ p.weight := by
  have hless := p.weight_receive limit
  have hle := (p.receive_le limit).2
  cases ho : (p.receive limit).1 with
  | done value =>
      have := hless (ho ▸ trivial)
      show 1 + _ ≤ _
      omega
  | failed f =>
      cases fatal : f.isFatal with
      | true => simpa [Outcome.result?, Server.goesOn, fatal] using hle
      | false =>
          have := hless (ho ▸ fatal)
          have hone : [Except.error f].countP Server.goesOn = 1 := by simp [Server.goesOn, fatal]
          show [Except.error f].countP _ + _ ≤ _
          omega
  | pending => simpa [Outcome.result?] using hle

theorem send_ne_pending : (p.send adu none).1 ≠ .pending := by
  unfold send
  rw [if_neg (not_not_intro (within_none _))]
  dsimp only
  split
  · exact nofun
  · split <;> exact nofun

theorem send_listening (short : adu.pdu.length ≤ Pdu.maxSize) (shut : p.line.shut = false)
    (listening : p.line.listening = true) : (p.send adu none).1 = .done () ∧
      (p.send adu none).2.line.shut = false ∧ (p.send adu none).2.line.listening = true := by
  obtain ⟨frame, hframe⟩ : ∃ frame, p.receiver.frame adu = .ok frame := by
    cases p.receiver with
    | mbap r => exact ⟨_, if_neg (Nat.not_lt.mpr short)⟩
    | ascii r => exact ⟨_, if_neg (Nat.not_lt.mpr short)⟩
    | rtu r => exact ⟨_, rfl⟩
  have hwrite : p.line.write p.sendStart frame =
      .ok { p.line with sent := p.line.sent ++ [⟨p.sendStart, frame⟩] } := by
    simp [Stream.write, Stream.isClosed, shut, listening]
  unfold send
  rw [if_neg (not_not_intro (within_none _))]
  simp only [hframe, hwrite]
  exact ⟨trivial, shut, listening⟩

end Endpoint

namespace Recorded

variable {r : Recorded Endpoint} {framing : StreamFraming} {stream : Bytes} {closing most : Nat}

/-- A server has got this far without waiting in vain, and what it went on behind used up some of what there was. -/
structure Serves (framing : StreamFraming) (stream : Bytes) (closing most : Nat) (r : Recorded Endpoint) : Prop where
  told : r.Told framing stream closing []
  received : .received .pending ∉ r.acts
  sent : ∀ adu, .sent adu .pending ∉ r.acts
  room : (r.acts.filterMap Act.result?).countP Server.goesOn + r.link.weight ≤ most

namespace Serves

theorem receive (h : r.Serves framing stream closing most) :
    Serves framing stream closing most (Link.receive none r).2 := by
  obtain ⟨-, waits⟩ := Endpoint.Told.receive h.told none
  have hacts : (Link.receive none r).2.acts = r.acts ++ [.received (r.link.receive none).1] := rfl
  refine ⟨h.told.receive none, ?_, ?_, ?_⟩
  · rw [hacts, List.mem_append, List.mem_singleton, not_or]
    exact ⟨h.received, fun heq => waits (Act.received.inj heq).symm rfl⟩
  · intro adu
    rw [hacts, List.mem_append, List.mem_singleton, not_or]
    exact ⟨h.sent adu, nofun⟩
  · have hroom := h.room
    have hless := r.link.weight_result none
    rw [hacts, Act.results_snoc, List.countP_append, Act.result?]
    show _ + (r.link.receive none).2.weight ≤ most
    omega

theorem send (h : r.Serves framing stream closing most) (adu : Adu) :
    Serves framing stream closing most (Link.send adu none r).2 := by
  have hacts : (Link.send adu none r).2.acts = r.acts ++ [.sent adu (r.link.send adu none).1] := rfl
  refine ⟨h.told.send adu none, ?_, ?_, ?_⟩
  · rw [hacts, List.mem_append, List.mem_singleton, not_or]
    exact ⟨h.received, nofun⟩
  · intro adu'
    rw [hacts, List.mem_append, List.mem_singleton, not_or]
    exact ⟨h.sent adu', fun heq => Endpoint.send_ne_pending (Act.sent.inj heq).2.symm⟩
  · have hnone : (Act.sent adu (r.link.send adu none).1).result? = none := rfl
    rw [hacts, Act.results_snoc, hnone, Option.toList_none, List.append_nil]
    exact (r.link.weight_send adu none).symm ▸ h.room

/-- A server that stops has come to the end of its stream, or to one that takes nothing any more. -/
theorem stops {p : Endpoint} {before : List Act} {last : Act} {status : Server.Status}
    (h : Serves framing stream closing most ⟨p, before ++ [last]⟩)
    (goesOn : ∀ a ∈ before, ∀ status, ¬ Server.StopsAt a status) (stops : Server.StopsAt last status) :
    status = .ended ∧ ((before ++ [last]).filterMap Act.result?).length ≤ most + 1 ∧
      ((∀ adu o, .sent adu o ∈ before ++ [last] → o = .done ()) →
        framing.ReadsOut stream ((before ++ [last]).filterMap Act.result?)) := by
  have hbefore : ∀ x ∈ before.filterMap Act.result?, Server.goesOn x = true := by
    intro x hx
    obtain ⟨a, ha, hresult⟩ := List.mem_filterMap.mp hx
    obtain _ | _ | o | _ | _ := a <;> try cases hresult
    obtain value | f | _ := o <;> cases hresult
    · rfl
    · have fatal : ¬ f.isFatal = true := fun fatal => goesOn _ ha .ended (.brokenIn fatal)
      simp [Server.goesOn, fatal]
  have hlength : ((before ++ [last]).filterMap Act.result?).length ≤ most + 1 := by
    have hroom := h.room
    have hlast := last.result?.length_toList_le
    rw [Act.results_snoc, List.countP_append, List.countP_eq_length.mpr hbefore] at hroom
    rw [Act.results_snoc, List.length_append]
    omega
  have hlast := List.mem_append_right before (List.mem_singleton_self last)
  cases stops with
  | unheard => exact absurd hlast h.received
  | unsent message => exact absurd hlast (h.sent message)
  | brokenOut message fatal =>
      refine ⟨rfl, hlength, fun sent => ?_⟩
      cases sent message _ hlast
  | @brokenIn f fatal =>
      refine ⟨rfl, hlength, fun _ => ?_⟩
      have told : p.Told framing stream closing ((before ++ [Act.received (.failed f)]).filterMap Act.result?) := h.told
      rw [Act.results_snoc] at told ⊢
      exact told.readsOut (fun g hg => by simpa [Server.goesOn] using hbefore _ hg) fatal

end Serves

structure Delivers (r : Recorded Endpoint) : Prop where
  shut : r.link.line.shut = false
  listening : r.link.line.listening = true
  sent : ∀ adu o, .sent adu o ∈ r.acts → o = .done ()

namespace Delivers

theorem receive (h : r.Delivers) : Delivers (Link.receive none r).2 where
  shut := (congrArg Stream.shut (r.link.receive_line none)).trans h.shut
  listening := (congrArg Stream.listening (r.link.receive_line none)).trans h.listening
  sent adu o mem := by
    rcases List.mem_append.mp mem with mem | mem
    · exact h.sent adu o mem
    · cases List.mem_singleton.mp mem

theorem send (h : r.Delivers) {adu : Adu} (short : adu.pdu.length ≤ Pdu.maxSize) :
    Delivers (Link.send adu none r).2 := by
  obtain ⟨hdone, hshut, hlistening⟩ := Endpoint.send_listening short h.shut h.listening
  refine ⟨hshut, hlistening, fun adu' o mem => ?_⟩
  rcases List.mem_append.mp mem with mem | mem
  · exact h.sent adu' o mem
  · obtain ⟨rfl, rfl⟩ := Act.sent.inj (List.mem_singleton.mp mem)
    exact hdone

end Delivers

end Recorded

/-! ## Whole runs -/

namespace Server

variable {τ : Type}

end Server

end Modbus
