import Modbus.Proofs.Frame.AsciiStream
import Modbus.Proofs.Frame.MbapStream
import Modbus.Proofs.Link.Reconnection
import Modbus.Proofs.Link.Recorded

/-!
# The end of a stream

A stream that is closed has given what a cutting of it gives: its frames, and bytes that are left. Then a reader reports
bytes that are left, once, and that the stream is closed, from then on. What an endpoint tells of a stream is a front of
all that, whatever else is done with the endpoint.
-/

namespace Modbus

/-! ## What a read changes -/

namespace Stream

variable {s : Stream} {now room t : Nat} {limit : Option Nat}

theorem arrivals_of_read_closed (h : s.read now limit = .closed t) : s.arrivals = [] := by
  unfold read at h
  split at h
  · assumption
  · dsimp only at h
    split at h <;> cases h

theorem arrivals_of_readInto_closed (h : s.readInto room now limit = .closed t) : s.arrivals = [] := by
  unfold readInto at h
  split at h <;> cases h
  exact arrivals_of_read_closed ‹_›

theorem closing_of_read_pending (h : s.read now none = .pending) : s.closing = none := by
  unfold read at h
  split at h
  · split at h
    · assumption
    · rw [if_pos (within_none _)] at h
      cases h
  · dsimp only at h
    rw [if_pos (within_none _)] at h
    cases h

theorem closing_of_readInto_pending (h : s.readInto room now none = .pending) : s.closing = none := by
  unfold readInto at h
  split at h <;> cases h
  exact closing_of_read_pending ‹_›

end Stream

theorem FrameReader.next_line (env : Envelope) (limit : Option Nat) (clock : Nat) (line : Stream) (r : FrameReader) :
    (next env limit clock line r).line = { line with arrivals := (next env limit clock line r).line.arrivals } := by
  have hfinish (clock : Nat) (line : Stream) (buffer : Bytes) : (finish env clock line buffer).line = line :=
    (finish_le env clock line buffer).1
  have hread (buffer : Bytes) (start : Nat) : (read env limit clock line buffer start).line =
      { line with arrivals := (read env limit clock line buffer start).line.arrivals } := by
    refine read_keeps (P := fun _ line' _ _ => line' = { line with arrivals := line'.arrivals })
      (Q := fun reading => reading.line = { line with arrivals := reading.line.arrivals })
      (fun clock line' buffer start h => ?_) rfl
    fun_cases turn env limit clock line' buffer start with
    | case1 | case2 => exact h
    | case3 rest heq front t hr => rwa [Turn.Leads, hfinish]
    | case4 rest heq front t bs rest' hr =>
        rw [h] at hr
        exact (Stream.readInto_rest hr).2.2
  unfold next
  split
  · exact hread _ _
  · rw [hfinish]
  · rfl
  · rfl

theorem BurstReader.next_line (limit : Option Nat) (clock : Nat) (line : Stream) (r : BurstReader) :
    (next limit clock line r).line = { line with arrivals := (next limit clock line r).line.arrivals } := by
  refine next_keeps (P := fun _ line' _ => line' = { line with arrivals := line'.arrivals })
    (Q := fun reading => reading.line = { line with arrivals := reading.line.arrivals }) (fun clock line' r h => ?_) rfl
  fun_cases turn limit clock line' r with
  | case3 a _ _ _ t bs rest hr =>
      rw [h] at hr
      exact (Stream.read_rest hr).2.2
  | case1 | case2 | case4 | case5 | case6 | case7 => exact h

theorem Endpoint.receive_line (p : Endpoint) (limit : Option Nat) :
    (p.receive limit).2.line = { p.line with arrivals := (p.receive limit).2.line.arrivals } := by
  unfold receive
  split
  · rfl
  · cases p.receiver with
    | mbap r => exact FrameReader.next_line Mbap.envelope limit p.clock p.line r
    | ascii r => exact FrameReader.next_line Ascii.envelope limit p.clock p.line r
    | rtu r => exact BurstReader.next_line limit p.clock p.line r

/-! ## What a reader of frames tells -/

namespace Envelope

variable {env : Envelope} {stream : Bytes} {found frames : List Frame} {buffer left rest bs : Bytes}
  {arrivals arrivals' : List Chunk}

/-- The stream, cut in some way, gives these frames, and these bytes are left. -/
def Gives (env : Envelope) (stream : Bytes) (frames : List Frame) (left : Bytes) : Prop :=
  ∃ pieces : List Bytes, pieces.flatten = stream ∧ env.collect pieces = (frames, left)

/-- What has been read of the stream, cut in some way, gives the frames that were found and those in the buffer. -/
def Cuts (env : Envelope) (stream : Bytes) (found : List Frame) (buffer : Bytes) (arrivals : List Chunk) : Prop :=
  ∃ pieces : List Bytes, pieces.flatten ++ bytesOf arrivals = stream ∧
    env.collect pieces = (found ++ (env.drain buffer).1, (env.drain buffer).2)

/-- What is said behind the last frame, the first time and then `n` times more. -/
def faults (env : Envelope) (left : Bytes) (n : Nat) : List Fault :=
  (if left = [] then [] else [env.unfinished]) ++ List.replicate n env.closed

theorem faults_snoc (env : Envelope) (left : Bytes) (n : Nat) :
    env.faults left n ++ [env.closed] = env.faults left (n + 1) := by
  rw [faults, faults, List.replicate_succ', List.append_assoc]

theorem collect_snoc (env : Envelope) (pieces : List Bytes) (piece : Bytes) :
    env.collect (pieces ++ [piece]) = env.feed (env.collect pieces) piece := List.foldl_append

theorem cuts_start (empty : env.decode [] = (none, [])) (arrivals : List Chunk) :
    env.Cuts (bytesOf arrivals) [] [] arrivals :=
  ⟨[], rfl, by rw [drain_none empty]; rfl⟩

namespace Cuts

theorem frame {frame : Frame} (h : env.Cuts stream found buffer arrivals)
    (decode : env.decode buffer = (some frame, rest)) : env.Cuts stream (found ++ [frame]) rest arrivals := by
  obtain ⟨pieces, hstream, hcollect⟩ := h
  refine ⟨pieces, hstream, ?_⟩
  rw [hcollect, drain_some decode, List.append_assoc, List.singleton_append]

theorem settled (settles : env.Settles) (h : env.Cuts stream found buffer arrivals)
    (decode : env.decode buffer = (none, rest)) : env.Cuts stream found rest arrivals := by
  obtain ⟨pieces, hstream, hcollect⟩ := h
  refine ⟨pieces, hstream, ?_⟩
  rw [hcollect, drain_none decode, drain_none (settles buffer rest decode)]

theorem read (h : env.Cuts stream found rest arrivals) (decode : env.decode rest = (none, rest))
    (bytes : bs ++ bytesOf arrivals' = bytesOf arrivals) : env.Cuts stream found (rest ++ bs) arrivals' := by
  obtain ⟨pieces, hstream, hcollect⟩ := h
  refine ⟨pieces ++ [bs], ?_, ?_⟩
  · rw [List.flatten_append, List.flatten_singleton, List.append_assoc, bytes, hstream]
  · rw [collect_snoc, hcollect, drain_none decode, List.append_nil]
    rfl

theorem gives (h : env.Cuts stream found rest []) (decode : env.decode rest = (none, rest)) :
    env.Gives stream found rest := by
  obtain ⟨pieces, hstream, hcollect⟩ := h
  rw [drain_none decode, List.append_nil] at hcollect
  rw [bytesOf_nil, List.append_nil] at hstream
  exact ⟨pieces, hstream, hcollect⟩

/-- What has been found comes first in what a cutting of the whole stream gives. -/
theorem front (h : env.Cuts stream found buffer arrivals) :
    ∃ frames left, env.Gives stream frames left ∧ found <+: frames := by
  obtain ⟨pieces, hstream, hcollect⟩ := h
  have hwhole := env.collect_snoc pieces (bytesOf arrivals)
  rw [hcollect] at hwhole
  refine ⟨_, _, ⟨pieces ++ [bytesOf arrivals], ?_, hwhole⟩, (List.prefix_append _ _).trans (List.prefix_append _ _)⟩
  rw [List.flatten_append, List.flatten_singleton, hstream]

end Cuts

end Envelope

namespace FrameReader

variable {env : Envelope} {stream : Bytes} {found : List Frame} {faults : List Fault} {arrivals : List Chunk}
  {r : FrameReader}

/-- The reader has found these frames in the stream, and has reported these faults behind them. -/
inductive Told (env : Envelope) (stream : Bytes) : List Frame → List Fault → List Chunk → FrameReader → Prop
  | reading {found buffer start arrivals} (cuts : env.Cuts stream found buffer arrivals) :
      Told env stream found [] arrivals ⟨buffer, start, .reading⟩
  | reported {found left buffer start arrivals} (gives : env.Gives stream found left) (some : left ≠ []) :
      Told env stream found (env.faults left 0) arrivals ⟨buffer, start, .reported⟩
  | closed {found left n buffer start arrivals} (gives : env.Gives stream found left) :
      Told env stream found (env.faults left (n + 1)) arrivals ⟨buffer, start, .closed⟩

/-- The reader goes on from what it has told before: with a frame, with a fault or, if it has to wait, with nothing. -/
inductive Tells (env : Envelope) (stream : Bytes) (found : List Frame) (faults : List Fault)
    (closing limit : Option Nat) : Reading FrameReader Frame → Prop
  | frame {frame clock line r} (first : faults = []) (told : Told env stream (found ++ [frame]) [] line.arrivals r) :
      Tells env stream found faults closing limit ⟨.done frame, clock, line, r⟩
  | fault {f clock line r} (told : Told env stream found (faults ++ [f]) line.arrivals r) :
      Tells env stream found faults closing limit ⟨.failed f, clock, line, r⟩
  | nothing {clock line r} (told : Told env stream found faults line.arrivals r)
      (waits : limit = none → closing = none) : Tells env stream found faults closing limit ⟨.pending, clock, line, r⟩

theorem finish_tells {left : Bytes} (settled : env.decode left = (none, left)) (gives : env.Gives stream found left)
    (limit : Option Nat) (clock : Nat) (line : Stream) :
    Tells env stream found [] line.closing limit (finish env clock line left) := by
  unfold finish Envelope.decodeLast
  rw [settled]
  cases left with
  | nil => exact .fault (.closed (n := 0) gives)
  | cons b left => exact .fault (.reported gives (List.cons_ne_nil b left))

theorem read_tells (settles : env.Settles) (limit : Option Nat) (clock : Nat) (line : Stream) (buffer : Bytes)
    (start : Nat) (cuts : env.Cuts stream found buffer line.arrivals) :
    Tells env stream found [] line.closing limit (read env limit clock line buffer start) := by
  refine read_keeps (P := fun _ line' buffer' _ => env.Cuts stream found buffer' line'.arrivals ∧
      line'.closing = line.closing)
    (Q := Tells env stream found [] line.closing limit) (fun clock line' buffer start h => ?_) ⟨cuts, rfl⟩
  obtain ⟨cuts, closing⟩ := h
  fun_cases turn env limit clock line' buffer start with
  | case1 frame rest heq => exact .frame rfl (.reading (cuts.frame heq))
  | case2 rest heq front hr =>
      refine .nothing (.reading (cuts.settled settles heq)) fun unlimited => ?_
      rw [unlimited] at hr
      exact closing ▸ Stream.closing_of_readInto_pending hr
  | case3 rest heq front t hr =>
      have hsettled := settles buffer rest heq
      have hcuts := cuts.settled settles heq
      rw [Stream.arrivals_of_readInto_closed hr] at hcuts
      exact closing ▸ finish_tells hsettled (hcuts.gives hsettled) limit t line'
  | case4 rest heq front t bs line'' hr =>
      obtain ⟨hbytes, -, hline⟩ := Stream.readInto_rest hr
      refine ⟨(cuts.settled settles heq).read (settles buffer rest heq) hbytes, ?_⟩
      rw [hline]
      exact closing

theorem next_tells (settles : env.Settles) (limit : Option Nat) (clock : Nat) (line : Stream)
    (told : Told env stream found faults line.arrivals r) :
    Tells env stream found faults line.closing limit (next env limit clock line r) := by
  generalize harrivals : line.arrivals = arrivals at told
  cases told with
  | reading cuts => exact read_tells settles limit clock line _ _ (harrivals ▸ cuts)
  | reported gives _ =>
      refine .fault ?_
      rw [Envelope.faults_snoc]
      exact .closed gives
  | closed gives =>
      refine .fault ?_
      rw [Envelope.faults_snoc]
      exact .closed gives

end FrameReader

/-! ## What an endpoint tells -/

def Outcome.result? {α : Type} : Outcome α → Option (Except Fault α)
  | .done value => some (.ok value)
  | .failed f => some (.error f)
  | .pending => none

def resultsOf (frames : List Frame) (faults : List Fault) : List (Except Fault (Option Adu)) :=
  frames.map (fun frame => .ok frame.adu?) ++ faults.map .error

theorem resultsOf_frame (frames : List Frame) (frame : Frame) :
    resultsOf frames [] ++ [.ok frame.adu?] = resultsOf (frames ++ [frame]) [] := by
  simp [resultsOf]

theorem resultsOf_fault (frames : List Frame) (faults : List Fault) (f : Fault) :
    resultsOf frames faults ++ [.error f] = resultsOf frames (faults ++ [f]) := by
  simp [resultsOf]

/-- What a cutting of the stream gives, and then the faults of a stream that is closed, come to these results; they may
be told up to some point. -/
def Envelope.Reports (env : Envelope) (stream : Bytes) (results : List (Except Fault (Option Adu))) : Prop :=
  ∃ frames left n, env.Gives stream frames left ∧ results <+: resultsOf frames (env.faults left n)

theorem FrameReader.Told.reports {env : Envelope} {stream : Bytes} {found : List Frame} {faults : List Fault}
    {arrivals : List Chunk} {r : FrameReader} (told : Told env stream found faults arrivals r) :
    env.Reports stream (resultsOf found faults) := by
  cases told with
  | reading cuts =>
      obtain ⟨frames, left, gives, front⟩ := cuts.front
      refine ⟨frames, left, 0, gives, ?_⟩
      rw [resultsOf, List.map_nil, List.append_nil]
      exact (front.map _).trans (List.prefix_append _ _)
  | reported gives _ => exact ⟨_, _, 0, gives, List.prefix_rfl⟩
  | closed gives => exact ⟨_, _, _, gives, List.prefix_rfl⟩

theorem FrameReader.Tells.told {env : Envelope} {stream : Bytes} {found : List Frame} {faults : List Fault}
    {closing limit : Option Nat} {f : Reading FrameReader Frame} (h : Tells env stream found faults closing limit f) :
    ∃ found' faults', Told env stream found' faults' f.line.arrivals f.reader ∧
      resultsOf found faults ++ (f.outcome.map Frame.adu?).result?.toList = resultsOf found' faults' := by
  cases h with
  | frame first told =>
      subst first
      exact ⟨_, _, told, resultsOf_frame _ _⟩
  | fault told => exact ⟨_, _, told, resultsOf_fault _ _ _⟩
  | nothing told _ => exact ⟨_, _, told, List.append_nil _⟩

theorem FrameReader.Tells.waits {env : Envelope} {stream : Bytes} {found : List Frame} {faults : List Fault}
    {closing limit : Option Nat} {f : Reading FrameReader Frame} (h : Tells env stream found faults closing limit f)
    (pending : f.outcome.map Frame.adu? = .pending) : limit = none → closing = none := by
  cases h with
  | frame => cases pending
  | fault => cases pending
  | nothing _ waits => exact waits

inductive Receiver.Told (stream : Bytes) (arrivals : List Chunk) :
    StreamFraming → List (Except Fault (Option Adu)) → Receiver → Prop
  | mbap {found faults r} (told : FrameReader.Told Mbap.envelope stream found faults arrivals r) :
      Told stream arrivals .tcp (resultsOf found faults) (.mbap r)
  | ascii {found faults r} (told : FrameReader.Told Ascii.envelope stream found faults arrivals r) :
      Told stream arrivals .ascii (resultsOf found faults) (.ascii r)
  | rtu {results r} (closed : ∀ f, .error f ∈ results → f = .serialStreamClosed) :
      Told stream arrivals .rtu results (.rtu r)

/-- What is told of a stream that is closed. -/
inductive StreamFraming.Reports (stream : Bytes) : StreamFraming → List (Except Fault (Option Adu)) → Prop
  | tcp {results} (reports : Mbap.envelope.Reports stream results) : Reports stream .tcp results
  | ascii {results} (reports : Ascii.envelope.Reports stream results) : Reports stream .ascii results
  | rtu {results} (closed : ∀ f, .error f ∈ results → f = .serialStreamClosed) : Reports stream .rtu results

theorem error_mem_resultsOf {frames : List Frame} {faults : List Fault} {f : Fault} :
    .error f ∈ resultsOf frames faults ↔ f ∈ faults := by
  simp [resultsOf]

theorem Envelope.mem_faults {env : Envelope} {left : Bytes} {n : Nat} {f : Fault} (h : f ∈ env.faults left n) :
    f = env.unfinished ∨ f = env.closed := by
  rcases List.mem_append.mp h with h | h
  · split at h
    · cases h
    · exact .inl (List.mem_singleton.mp h)
  · exact .inr (List.mem_replicate.mp h).2

/-- What fails is the end of the stream, except that an unfinished line is a fault of its own. -/
theorem StreamFraming.Reports.of_error {framing : StreamFraming} {stream : Bytes}
    {results : List (Except Fault (Option Adu))} (reports : framing.Reports stream results) {f : Fault}
    (mem : .error f ∈ results) :
    f.kind = .unexpectedEof ∧ f.isFatal = true ∨ framing = .ascii ∧ f = .bytesRemaining := by
  cases reports with
  | tcp reports =>
      obtain ⟨frames, left, n, _, front⟩ := reports
      obtain rfl | rfl := Envelope.mem_faults (error_mem_resultsOf.mp (front.subset mem))
      · exact .inl ⟨rfl, rfl⟩
      · exact .inl ⟨rfl, rfl⟩
  | ascii reports =>
      obtain ⟨frames, left, n, _, front⟩ := reports
      obtain rfl | rfl := Envelope.mem_faults (error_mem_resultsOf.mp (front.subset mem))
      · exact .inr ⟨rfl, rfl⟩
      · exact .inl ⟨rfl, rfl⟩
  | rtu closed =>
      obtain rfl := closed f mem
      exact .inl ⟨rfl, rfl⟩

theorem BurstReader.next_tells (limit : Option Nat) (clock : Nat) (line : Stream) (r : BurstReader) :
    (∃ frame, (next limit clock line r).outcome = .done frame) ∨
      (next limit clock line r).outcome = .failed .serialStreamClosed ∨
      (next limit clock line r).outcome = .pending ∧ (limit = none → line.closing = none) := by
  refine next_keeps (P := fun _ line' _ => line'.closing = line.closing)
    (Q := fun reading => (∃ frame, reading.outcome = .done frame) ∨ reading.outcome = .failed .serialStreamClosed ∨
      reading.outcome = .pending ∧ (limit = none → line.closing = none)) (fun clock line' r closing => ?_) rfl
  fun_cases turn limit clock line' r with
  | case1 a frame => exact .inl ⟨frame, rfl⟩
  | case2 => exact closing
  | case3 a _ take unread t bs rest hr =>
      rw [Turn.Leads, (Stream.read_rest hr).2.2]
      exact closing
  | case4 => exact .inr (.inl rfl)
  | case5 => exact closing
  | case6 a _ take unread hr d deadline late =>
      refine .inr (.inr ⟨rfl, fun unlimited => absurd ?_ late⟩)
      rw [unlimited]
      exact within_none d
  | case7 a _ take unread hr deadline =>
      refine .inr (.inr ⟨rfl, fun unlimited => ?_⟩)
      rw [deadline, unlimited] at hr
      exact closing ▸ Stream.closing_of_read_pending hr

namespace Endpoint

variable {p q : Endpoint} {framing : StreamFraming} {stream : Bytes} {closing : Nat}
  {results : List (Except Fault (Option Adu))}

/-- An endpoint on a stream that is closed at some time has told these results. -/
structure Told (framing : StreamFraming) (stream : Bytes) (closing : Nat) (results : List (Except Fault (Option Adu)))
    (p : Endpoint) : Prop where
  receiver : p.receiver.Told stream p.line.arrivals framing results
  closing : p.line.closing = some closing

theorem told_fresh (framing : StreamFraming) (config : SerialConfig) (arrivals : List Chunk) (closing : Nat)
    (listening : Bool) :
    Told framing (bytesOf arrivals) closing []
      (fresh framing config { arrivals, closing := some closing, listening }) where
  receiver := by
    cases framing with
    | tcp => exact .mbap (.reading (Envelope.cuts_start rfl arrivals))
    | ascii => exact .ascii (.reading (Envelope.cuts_start rfl arrivals))
    | rtu => exact .rtu nofun
  closing := rfl

theorem Told.of_hearsLike (told : Told framing stream closing results q) (alike : p.HearsLike q) :
    Told framing stream closing results p := by
  obtain ⟨harrivals, hclosing, -, -, -⟩ := Stream.mk.inj alike.incoming
  exact ⟨by rw [alike.receiver, harrivals]; exact told.receiver, hclosing.trans told.closing⟩

theorem Told.receive (told : Told framing stream closing results p) (limit : Option Nat) :
    Told framing stream closing (results ++ (p.receive limit).1.result?.toList) (p.receive limit).2 ∧
      ((p.receive limit).1 = .pending → limit ≠ none) := by
  -- the closing time is that of the same stream before and after
  suffices (p.receive limit).2.receiver.Told stream (p.receive limit).2.line.arrivals framing
        (results ++ (p.receive limit).1.result?.toList) ∧
      ((p.receive limit).1 = .pending → limit = none → p.line.closing = none) by
    obtain ⟨receiver, waits⟩ := this
    refine ⟨⟨receiver, ?_⟩, fun pending unlimited => ?_⟩
    · rw [receive_line]
      exact told.closing
    · exact Option.some_ne_none closing (told.closing.symm.trans (waits pending unlimited))
  have hreceiver := told.receiver
  unfold Endpoint.receive
  split
  · rename_i late
    refine ⟨(List.append_nil results).symm ▸ hreceiver, fun _ unlimited => absurd ?_ late⟩
    rw [unlimited]
    exact within_none _
  · cases hr : p.receiver with
    | mbap r =>
        rw [hr] at hreceiver
        cases hreceiver with
        | mbap told' =>
            have tells := FrameReader.next_tells Mbap.settles limit p.clock p.line told'
            obtain ⟨_, _, told', hresults⟩ := tells.told
            exact ⟨hresults ▸ .mbap told', tells.waits⟩
    | ascii r =>
        rw [hr] at hreceiver
        cases hreceiver with
        | ascii told' =>
            have tells := FrameReader.next_tells Ascii.settles limit p.clock p.line told'
            obtain ⟨_, _, told', hresults⟩ := tells.told
            exact ⟨hresults ▸ .ascii told', tells.waits⟩
    | rtu r =>
        rw [hr] at hreceiver
        cases hreceiver with
        | rtu closed =>
            have hclosed {more : List (Except Fault (Option Adu))}
                (hmore : ∀ f, .error f ∈ more → f = .serialStreamClosed) :
                ∀ f, .error f ∈ results ++ more → f = .serialStreamClosed :=
              fun f hf => (List.mem_append.mp hf).elim (closed f) (hmore f)
            dsimp only
            obtain ⟨frame, hdone⟩ | hfailed | ⟨hpending, waits⟩ := BurstReader.next_tells limit p.clock p.line r
            · rw [hdone]
              exact ⟨.rtu (hclosed (by simp [Outcome.map, Outcome.result?])), fun h => by cases h⟩
            · rw [hfailed]
              exact ⟨.rtu (hclosed (by simp [Outcome.map, Outcome.result?])), fun h => by cases h⟩
            · rw [hpending]
              exact ⟨.rtu (hclosed (by simp [Outcome.map, Outcome.result?])), fun _ => waits⟩

theorem Told.uses (told : Told framing stream closing results p) (uses : List Use) :
    Told framing stream closing (results ++ (p.receipts uses).filterMap (·.outcome.result?)) (uses.foldl use p) := by
  induction uses generalizing p results with
  | nil =>
      rw [receipts, List.filterMap_nil, List.append_nil]
      exact told
  | cons u uses ih =>
      by_cases asked : ∃ limit, u = .step (.receive limit)
      · obtain ⟨limit, rfl⟩ := asked
        have rest := ih (told.receive limit).1
        rw [List.append_assoc] at rest
        have hreceipts : (p.receipts (.step (.receive limit) :: uses)).filterMap (·.outcome.result?) =
            (p.receive limit).1.result?.toList ++
              ((p.receive limit).2.receipts uses).filterMap (·.outcome.result?) := by
          rw [receipts, List.filterMap_cons]
          cases hresult : (p.receive limit).1.result? <;> simp [receipt, hresult]
        rw [hreceipts]
        exact rest
      · have unasked : ∀ limit, u ≠ .step (.receive limit) := not_exists.mp asked
        rw [p.receipts_cons_unasked unasked]
        exact ih (told.of_hearsLike (p.hearsLike_use unasked))

/-- What an endpoint receives that is asked again and again, and the fault that it comes to. -/
inductive Ends : Endpoint → List (Option Adu) → Fault → Endpoint → Prop
  | failure {p q fault} (failed : p.receive none = (.failed fault, q)) : Ends p [] fault q
  | message {p p' q result results fault} (received : p.receive none = (.done result, p')) :
      Ends p' results fault q → Ends p (result :: results) fault q

/-- An endpoint that is asked again and again comes to the end of a stream that is closed. -/
theorem Told.ends (told : Told framing stream closing results p) :
    ∃ rest fault q, Ends p rest fault q ∧
      Told framing stream closing (results ++ (rest.map .ok ++ [.error fault])) q := by
  induction hn : p.weight using Nat.strongRecOn generalizing p results with
  | ind n ih =>
      obtain ⟨told', waits⟩ := told.receive none
      cases hreceive : p.receive none with
      | mk outcome p' =>
          rw [hreceive] at told' waits
          cases outcome with
          | done result =>
              have hlt := p.weight_receive none (by rw [hreceive]; trivial)
              rw [hreceive, hn] at hlt
              obtain ⟨rest, fault, q, ends, htold⟩ := ih _ hlt told' rfl
              refine ⟨result :: rest, fault, q, .message hreceive ends, ?_⟩
              rw [List.append_assoc] at htold
              exact htold
          | failed fault => exact ⟨[], fault, p', .failure hreceive, told'⟩
          | pending => exact absurd rfl (waits rfl)

theorem Told.reports (told : Told framing stream closing results p) : framing.Reports stream results := by
  have hreceiver := told.receiver
  generalize p.receiver = receiver at hreceiver
  cases hreceiver with
  | mbap told' => exact .tcp told'.reports
  | ascii told' => exact .ascii told'.reports
  | rtu closed => exact .rtu closed

end Endpoint

/-! ## On record -/

def Act.result? : Act → Option (Except Fault (Option Adu))
  | .received outcome => outcome.result?
  | _ => none

theorem Act.results_snoc (acts : List Act) (a : Act) :
    (acts ++ [a]).filterMap result? = acts.filterMap result? ++ a.result?.toList := by
  rw [List.filterMap_append]
  cases h : a.result? <;> simp [h]

namespace Recorded

variable {r : Recorded Endpoint} {framing : StreamFraming} {stream : Bytes} {closing : Nat}
  {before : List (Except Fault (Option Adu))}

/-- An endpoint has told these results, and after them those on record. -/
def Told (framing : StreamFraming) (stream : Bytes) (closing : Nat) (before : List (Except Fault (Option Adu)))
    (r : Recorded Endpoint) : Prop :=
  r.link.Told framing stream closing (before ++ r.acts.filterMap Act.result?)

namespace Told

theorem note {a : Act} {p : Endpoint}
    (told : p.Told framing stream closing (before ++ r.acts.filterMap Act.result? ++ a.result?.toList)) :
    (r.note a p).Told framing stream closing before := by
  unfold Told Recorded.note
  rw [Act.results_snoc, ← List.append_assoc]
  exact told

theorem unasked (told : r.Told framing stream closing before) {a : Act} (nothing : a.result? = none) {p : Endpoint}
    (alike : p.HearsLike r.link) : (r.note a p).Told framing stream closing before := by
  refine note ?_
  rw [nothing, Option.toList_none, List.append_nil]
  exact Endpoint.Told.of_hearsLike told alike

theorem pause (told : r.Told framing stream closing before) (d : Nat) :
    Told framing stream closing before (Link.pause d r) := told.unasked rfl ⟨rfl, rfl⟩

theorem send (told : r.Told framing stream closing before) (adu : Adu) (limit : Option Nat) :
    Told framing stream closing before (Link.send adu limit r).2 :=
  told.unasked rfl (r.link.hearsLike_send adu limit)

theorem receive (told : r.Told framing stream closing before) (limit : Option Nat) :
    Told framing stream closing before (Link.receive limit r).2 := note (Endpoint.Told.receive told limit).1

theorem reconnect (told : r.Told framing stream closing before) :
    Told framing stream closing before (Link.reconnect r).2 := told.unasked rfl ⟨rfl, rfl⟩

end Told

end Recorded

end Modbus
