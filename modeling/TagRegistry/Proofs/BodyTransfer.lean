import Mathlib.Data.List.Induction
import TagRegistry.Proofs.CompressedStream
import TagRegistry.Proofs.LimitedSink
import TagRegistry.Proofs.MissingReference

/-! The transfer of an archive to a receiver.

The archive is written by a worker and received by somebody else, at their own pace. The channel
between them holds a bounded number of chunks, and a worker that finds it full waits. The receiver
may leave at any moment; from then on nothing is taken any more. What the worker does next depends
on nothing but on how many chunks were taken, so a run is any order of sending, receiving, leaving
and closing. -/

namespace TagRegistry

/-! ## Runs -/

/-- A body under way. -/
structure Transfer where
  /-- What the channel has taken, in order. -/
  accepted : List Chunk
  /-- What waits in the channel. -/
  waiting : List Chunk
  received : List Chunk
  /-- Is the receiver still there? -/
  present : Bool
  /-- Has the worker let go of the channel? -/
  closed : Bool

namespace Transfer

def start : Transfer := ⟨[], [], [], true, false⟩

/-- What may happen next. The channel holds at most `depth` chunks, and `next?` is what the worker
sends after so many chunks, if it goes on then. -/
inductive Step (depth : Nat) (next? : Nat → Option Chunk) : Transfer → Transfer → Prop where
  | send {t : Transfer} {chunk : Chunk} (there : t.present = true) (unclosed : t.closed = false)
      (room : t.waiting.length < depth) (next : next? t.accepted.length = some chunk) :
      Step depth next? t
        { t with accepted := t.accepted ++ [chunk], waiting := t.waiting ++ [chunk] }
  | receive {t : Transfer} {chunk : Chunk} {rest : List Chunk} (there : t.present = true)
      (first : t.waiting = chunk :: rest) :
      Step depth next? t { t with waiting := rest, received := t.received ++ [chunk] }
  /-- What waits is lost. -/
  | leave {t : Transfer} (there : t.present = true) :
      Step depth next? t { t with waiting := [], present := false }
  /-- The worker is done when there is nothing more to send, or nobody to send it to. -/
  | close {t : Transfer} (unclosed : t.closed = false)
      (done : t.present = true → next? t.accepted.length = none) :
      Step depth next? t { t with closed := true }

inductive Reachable (depth : Nat) (next? : Nat → Option Chunk) : Transfer → Prop where
  | start : Reachable depth next? start
  | step {t u : Transfer} : Reachable depth next? t → Step depth next? t u →
      Reachable depth next? u

/-! ## What holds all the time -/

/-- Chunks are taken in the order in which the worker makes them, and none is lost or doubled on
the way to a receiver who stays. -/
structure Orderly (next? : Nat → Option Chunk) (t : Transfer) : Prop where
  produced : ∀ n < t.accepted.length, t.accepted[n]? = next? n
  queued : t.present = true → t.received ++ t.waiting = t.accepted
  arrived : t.received <+: t.accepted
  ended : t.present = true → t.closed = true → next? t.accepted.length = none

section

variable {depth : Nat} {next? : Nat → Option Chunk} {t u : Transfer}

theorem Step.orderly (h : Step depth next? t u) (ht : t.Orderly next?) : u.Orderly next? := by
  cases h with
  | @send chunk there unclosed room next =>
    refine ⟨fun n hn => ?_, fun _ => ?_, ?_, fun _ hclosed => ?_⟩
    · rw [List.length_append, List.length_singleton] at hn
      rcases Nat.lt_succ_iff_lt_or_eq.mp hn with hlt | rfl
      · rw [List.getElem?_append_left hlt]
        exact ht.produced n hlt
      · rw [List.getElem?_concat_length, next]
    · rw [← List.append_assoc, ht.queued there]
    · exact ht.arrived.trans (List.prefix_append _ _)
    · exact absurd (unclosed.symm.trans hclosed) Bool.false_ne_true
  | @receive chunk rest there first =>
    have hqueued := ht.queued there
    rw [first, List.append_cons] at hqueued
    exact ⟨ht.produced, fun _ => hqueued, ⟨rest, hqueued⟩, ht.ended⟩
  | leave => exact ⟨ht.produced, nofun, ht.arrived, nofun⟩
  | close unclosed done => exact ⟨ht.produced, ht.queued, ht.arrived, fun there _ => done there⟩

theorem Reachable.orderly (h : Reachable depth next? t) : t.Orderly next? := by
  induction h with
  | start => exact ⟨nofun, fun _ => rfl, List.prefix_rfl, nofun⟩
  | step _ hstep ih => exact hstep.orderly ih

/-- A receiver who takes every chunk at once gets as many of them as it stays for. -/
theorem Reachable.of_front (hdepth : 0 < depth) {chunks : List Chunk}
    (h : ∀ n < chunks.length, next? n = chunks[n]?) :
    Reachable depth next? ⟨chunks, [], chunks, true, false⟩ := by
  induction chunks using List.reverseRecOn with
  | nil => exact .start
  | append_singleton front chunk ih =>
    rw [List.length_append, List.length_singleton] at h
    have hnext : next? front.length = some chunk := by
      rw [h front.length (Nat.lt_succ_self _), List.getElem?_concat_length]
    have hfront : Reachable depth next? ⟨front, [], front, true, false⟩ := ih fun n hn => by
      rw [h n (Nat.lt_succ_of_lt hn), List.getElem?_append_left hn]
    exact .step (.step hfront (.send rfl rfl hdepth hnext)) (.receive rfl rfl)

/-- A transfer to a receiver who stays is over, or goes on. -/
theorem progress (hdepth : 0 < depth) (hthere : t.present = true) :
    (t.closed = true ∧ t.waiting = []) ∨ ∃ u, Step depth next? t u ∧ u.present = true := by
  cases hwaiting : t.waiting with
  | cons chunk rest => exact .inr ⟨_, .receive hthere hwaiting, hthere⟩
  | nil =>
    cases hclosed : t.closed with
    | true => exact .inl ⟨rfl, rfl⟩
    | false =>
      cases hnext : next? t.accepted.length with
      | none => exact .inr ⟨_, .close hclosed fun _ => hnext, hthere⟩
      | some chunk =>
        have hroom : t.waiting.length < depth := by rwa [hwaiting]
        exact .inr ⟨_, .send hthere hclosed hroom hnext, hthere⟩

end

end Transfer

/-! ## The worker that sends an archive -/

/-- What is sent of an archive after so many chunks: the last chunk that a receiver gets who stays
for one more. -/
def ServedModule.nextChunk? (m : ServedModule) (s : ObjectStore) (v : Version) (count : Nat) :
    Option Chunk :=
  (m.sendArchive s v (.fresh (some (count + 1)))).1.sent[count]?

namespace ServedModule

variable {m : ServedModule} {s : ObjectStore} {v : Version}

theorem nextChunk?_eq (count : Nat) : m.nextChunk? s v count = (Archive.body s v)[count]? := by
  rw [nextChunk?, sendArchive_sent, Channel.arriving]
  exact List.getElem?_take_of_lt (Nat.lt_succ_self count)

/-- The channel has taken a front part of the body. -/
theorem accepted_front {t : Transfer} (h : t.Orderly (m.nextChunk? s v)) :
    t.accepted <+: Archive.body s v := by
  refine List.prefix_iff_getElem?.mpr fun n hn => ?_
  rw [← nextChunk?_eq, ← h.produced n hn, List.getElem?_eq_getElem hn]

section

variable {depth : Nat} {chunks : List Chunk} {chunk : Chunk}

/-- Every front part of a body can be received. -/
theorem reachable_front (hdepth : 0 < depth) (h : chunks <+: Archive.body s v) :
    Transfer.Reachable depth (m.nextChunk? s v) ⟨chunks, [], chunks, true, false⟩ :=
  .of_front hdepth fun n hn => by
    rw [nextChunk?_eq, List.prefix_iff_getElem?.mp h n hn, List.getElem?_eq_getElem hn]

/-- The whole body can be received, and then the worker is done. -/
theorem reachable_body (hdepth : 0 < depth) : Transfer.Reachable depth (m.nextChunk? s v)
    ⟨Archive.body s v, [], Archive.body s v, true, true⟩ :=
  .step (reachable_front hdepth List.prefix_rfl) <| .close rfl fun _ => by
    rw [nextChunk?_eq, List.getElem?_eq_none le_rfl]

/-- A receiver may go away behind every front part of a body. -/
theorem reachable_left (hdepth : 0 < depth) (h : chunks <+: Archive.body s v) :
    Transfer.Reachable depth (m.nextChunk? s v) ⟨chunks, [], chunks, false, true⟩ :=
  .step (.step (reachable_front hdepth h) (.leave rfl)) (.close rfl nofun)

/-- A chunk that waits for a receiver who goes away is lost. -/
theorem reachable_lost (hdepth : 0 < depth) (h : chunks ++ [chunk] <+: Archive.body s v) :
    Transfer.Reachable depth (m.nextChunk? s v) ⟨chunks ++ [chunk], [], chunks, false, true⟩ := by
  have hnext : m.nextChunk? s v chunks.length = some chunk := by
    have hlast := List.prefix_iff_getElem?.mp h chunks.length (by simp)
    rw [nextChunk?_eq, hlast, List.getElem_concat_length rfl]
  have hfront : Transfer.Reachable depth (m.nextChunk? s v) ⟨chunks, [], chunks, true, false⟩ :=
    reachable_front hdepth ((List.prefix_append chunks [chunk]).trans h)
  exact .step (.step (.step hfront (.send rfl rfl hdepth hnext)) (.leave rfl)) (.close rfl nofun)

end

end ServedModule

/-! ## What a receiver can rely on -/

/-- Chunks are data from the front of a stream, and perhaps an abort behind a whole stream that is
none of an archive. -/
inductive Carries (outcome : Except ArchiveError Unit) (stream : Bytes) : List Chunk → Prop where
  | part {data : List Bytes} : data.flatten <+: stream → Carries outcome stream (data.map .octets)
  | aborted {data : List Bytes} {cause : ArchiveError} : outcome = .error cause →
      data.flatten = stream → Carries outcome stream (data.map .octets ++ [.abort])

/-- Chunks are a complete stream of an archive, or one that is not complete and an abort behind
it. -/
inductive Delivers (outcome : Except ArchiveError Unit) (stream : Bytes) : List Chunk → Prop where
  | complete {data : List Bytes} : outcome = .ok () → data.flatten = stream →
      Delivers outcome stream (data.map .octets)
  | aborted {data : List Bytes} {cause : ArchiveError} : outcome = .error cause →
      data.flatten = stream → Gzip.decompress? data.flatten = none →
      Delivers outcome stream (data.map .octets ++ [.abort])

theorem Carries.ok {stream : Bytes} {chunks : List Chunk} (h : Carries (.ok ()) stream chunks) :
    ∃ data : List Bytes, chunks = data.map .octets ∧ data.flatten <+: stream := by
  cases h with
  | part hfront => exact ⟨_, rfl, hfront⟩
  | aborted hcause => cases hcause

theorem Delivers.ok {stream : Bytes} {chunks : List Chunk} (h : Delivers (.ok ()) stream chunks) :
    ∃ data : List Bytes, chunks = data.map .octets ∧ data.flatten = stream := by
  cases h with
  | complete _ hdata => exact ⟨_, rfl, hdata⟩
  | aborted hcause => cases hcause

theorem Delivers.error {cause : ArchiveError} {stream : Bytes} {chunks : List Chunk}
    (h : Delivers (.error cause) stream chunks) :
    ∃ data : List Bytes, chunks = data.map .octets ++ [.abort] ∧ data.flatten = stream ∧
      Gzip.decompress? data.flatten = none := by
  cases h with
  | complete hok => cases hok
  | aborted _ hdata hnone => exact ⟨_, rfl, hdata, hnone⟩

namespace Archive

variable {s : ObjectStore} {v : Version} {chunks : List Chunk}

/-- A body is the chunks of the stream, and an abort behind a stream that is not complete. -/
theorem body_eq (s : ObjectStore) (v : Version) :
    ∃ data : List Bytes, data.flatten = (stream s v).events.flatten ∧
      body s v = data.map .octets ++ aborts (stream s v).outcome := by
  refine ⟨_, ?_, rfl⟩
  rw [List.flatten_filter_not_isEmpty, Buffered.passedAll_flatten]

/-- A front part of a body is data, or all of it and the abort. -/
theorem carries_of_front (h : chunks <+: body s v) :
    Carries (stream s v).outcome (stream s v).events.flatten chunks := by
  obtain ⟨data, hdata, hbody⟩ := body_eq s v
  obtain ⟨rest, hrest⟩ := h
  rw [hbody] at hrest
  rcases List.append_eq_append_iff.mp hrest with ⟨cut, hcut, -⟩ | ⟨more, rfl, hmore⟩
  · obtain ⟨front, back, rfl, rfl, rfl⟩ := List.map_eq_append_iff.mp hcut
    refine .part ⟨back.flatten, ?_⟩
    rw [← hdata, List.flatten_append]
  · cases houtcome : (stream s v).outcome with
    | ok u =>
      rw [houtcome, aborts] at hmore
      obtain ⟨rfl, -⟩ := List.append_eq_nil_iff.mp hmore.symm
      rw [List.append_nil]
      exact .part (hdata ▸ List.prefix_rfl)
    | error cause =>
      rw [houtcome, aborts] at hmore
      rcases List.singleton_eq_append_iff.mp hmore with ⟨rfl, -⟩ | ⟨rfl, -⟩
      · rw [List.append_nil]
        exact .part (hdata ▸ List.prefix_rfl)
      · exact .aborted rfl hdata

theorem stream_outcome (s : ObjectStore) (v : Version) :
    (stream s v).outcome = (versionTrace s (s.treeIds.length + 2) v).outcome :=
  encodedTrace_outcome _

/-- A whole body is a complete stream, or ends in an abort. -/
theorem delivers_body (s : ObjectStore) (v : Version) :
    Delivers (stream s v).outcome (stream s v).events.flatten (body s v) := by
  obtain ⟨data, hdata, hbody⟩ := body_eq s v
  rw [hbody]
  cases houtcome : (stream s v).outcome with
  | ok u =>
    rw [aborts, List.append_nil]
    exact .complete rfl hdata
  | error cause =>
    rw [stream_outcome] at houtcome
    refine .aborted rfl hdata ?_
    rw [hdata]
    exact decompress?_encodedTrace houtcome

/-- The stream of an archive as it is written where nothing is refused. -/
theorem writeCompressed_stream (s : ObjectStore) (v : Version) :
    ∃ out, writeCompressed s v Collected.unlimited = ((stream s v).outcome, out) ∧
      out.toList = (stream s v).events.flatten := by
  have hready : Collected.takesAll.ready .unlimited := rfl
  obtain ⟨out, hwrite, -, htaken⟩ := feed_takesAll Collected.takesAll (stream s v) hready
  exact ⟨out, by rw [writeCompressed_eq_stream rfl, hwrite], htaken⟩

/-- The header of a stream leaves with what is written first. -/
theorem octetsOf_encodedTrace_ne_nil {t : Trace Bytes ArchiveError} (h : t.events ≠ []) :
    octetsOf (encodedTrace t) ≠ [] := by
  obtain ⟨part, parts, hevents⟩ := List.exists_cons_of_ne_nil h
  have hheader : Gzip.header ∈ (encodedTrace t).events := by
    have hfirst : Gzip.header ∈ (relayed Gzip.Encoder.encoded (false, .empty) t.events).1 := by
      rw [hevents, relayed, Gzip.Encoder.encoded, Gzip.Encoder.opening]
      exact List.mem_append_left _ (List.mem_append_left _ (List.mem_singleton_self _))
    cases houtcome : t.outcome with
    | error cause => rwa [encodedTrace, houtcome, Trace.error_andThen]
    | ok u =>
      rw [encodedTrace, houtcome, Trace.ok_andThen]
      exact List.mem_append_left _ hfirst
  intro hnil
  have hempty := List.flatten_eq_nil_iff.mp hnil _ hheader
  cases hempty

/-- The octets of some data are a stream that is not empty. -/
theorem data_ne_nil {data : List Bytes} {stream : Collected} {outcome : Except ArchiveError Unit}
    (hwrite : writeCompressed s v Collected.unlimited = (outcome, stream))
    (hdata : data.flatten = stream.toList)
    (hevents : (versionTrace s (s.treeIds.length + 2) v).events ≠ []) : data ≠ [] := by
  obtain ⟨out, hwritten, hstream⟩ := writeCompressed_stream s v
  cases hwrite.symm.trans hwritten
  rintro rfl
  exact octetsOf_encodedTrace_ne_nil hevents (hstream.symm.trans hdata.symm)

theorem outcome_of_writeCompressed {stream : Collected} {outcome outcome' : Except ArchiveError Unit}
    (hwrite : writeCompressed s v Collected.unlimited = (outcome, stream))
    (h : (versionTrace s (s.treeIds.length + 2) v).outcome = outcome') : outcome = outcome' := by
  obtain ⟨out, hwritten, -⟩ := writeCompressed_stream s v
  rw [stream_outcome, h] at hwritten
  exact congrArg Prod.fst (hwrite.symm.trans hwritten)

end Archive

/-- Whatever the worker, the connection and the receiver do in turn: what the channel takes is a
front part of the stream in order, and reaches a receiver who stays without loss or doubling. When
the worker is done and the receiver is still there, the stream was taken as a whole; if the archive
is not complete, this is no stream that could be taken for one, and exactly one abort follows. -/
theorem transfer_faithful (m : ServedModule) (s : ObjectStore) (v : Version) (depth : Nat)
    {t : Transfer} (h : t.Reachable depth (m.nextChunk? s v)) :
    ∃ outcome stream, Archive.writeCompressed s v Collected.unlimited = (outcome, stream) ∧
      Carries outcome stream.toList t.accepted ∧
      (m.sendArchive s v (.fresh (some t.accepted.length))).1.sent = t.accepted ∧
      t.received <+: t.accepted ∧
      (t.present = true → t.received ++ t.waiting = t.accepted) ∧
      (t.present = true → t.closed = true → Delivers outcome stream.toList t.accepted) ∧
      (t.present = true → 0 < depth → (t.closed = true ∧ t.waiting = []) ∨
        ∃ u, Transfer.Step depth (m.nextChunk? s v) t u ∧ u.present = true) := by
  obtain ⟨out, hwrite, hstream⟩ := Archive.writeCompressed_stream s v
  have horderly := h.orderly
  have hfront := ServedModule.accepted_front horderly
  refine ⟨(Archive.stream s v).outcome, out, hwrite, ?_, ?_, horderly.arrived, horderly.queued, ?_,
    fun hthere hdepth => Transfer.progress hdepth hthere⟩
  · rw [hstream]
    exact Archive.carries_of_front hfront
  · rw [ServedModule.sendArchive_sent]
    exact (List.prefix_iff_eq_take.mp hfront).symm
  · intro hthere hclosed
    have hend := horderly.ended hthere hclosed
    rw [ServedModule.nextChunk?_eq, List.getElem?_eq_none_iff] at hend
    rw [hstream, hfront.eq_of_length_le hend]
    exact Archive.delivers_body s v

open Archive (toolStore danglingStore) in
/-- A receiver who stays gets the whole stream of an archive, and one who goes away behind its first
data has a front part of it. An archive that ends at a link that points nowhere is followed by an
abort, which is lost if the receiver goes away before it. -/
theorem transfer_faithful_stores :
    (∃ data stream, data ≠ [] ∧
      Transfer.Reachable 16 (servedOne.nextChunk? toolStore.view (.release 1 0 0))
        ⟨data.map .octets, [], data.map .octets, true, true⟩ ∧
      Archive.writeCompressed toolStore.view (.release 1 0 0) Collected.unlimited =
        (.ok (), stream) ∧ data.flatten = stream.toList) ∧
    (∃ first stream,
      Transfer.Reachable 16 (servedOne.nextChunk? toolStore.view (.release 1 0 0))
        ⟨[.octets first], [], [.octets first], false, true⟩ ∧
      Archive.writeCompressed toolStore.view (.release 1 0 0) Collected.unlimited =
        (.ok (), stream) ∧ first <+: stream.toList) ∧
    ∃ data cause stream, data ≠ [] ∧
      Transfer.Reachable 16 (servedOne.nextChunk? danglingStore.view (.release 1 0 0))
        ⟨data.map .octets ++ [.abort], [], data.map .octets ++ [.abort], true, true⟩ ∧
      Transfer.Reachable 16 (servedOne.nextChunk? danglingStore.view (.release 1 0 0))
        ⟨data.map .octets ++ [.abort], [], data.map .octets, false, true⟩ ∧
      Archive.writeCompressed danglingStore.view (.release 1 0 0) Collected.unlimited =
        (.error cause, stream) ∧
      data.flatten = stream.toList ∧ Gzip.decompress? data.flatten = none := by
  have hdepth : 0 < 16 := by decide
  have hwhole := ServedModule.reachable_body hdepth (m := servedOne) (s := toolStore.view)
    (v := .release 1 0 0)
  obtain ⟨outcome, stream, hwrite, -, -, -, -, hdelivers, -⟩ :=
    transfer_faithful servedOne toolStore.view (.release 1 0 0) 16 hwhole
  cases Archive.outcome_of_writeCompressed hwrite (rfl : _ = Except.ok ())
  obtain ⟨data, hbody, hdata⟩ : ∃ data : List Bytes,
      Archive.body toolStore.view (.release 1 0 0) = data.map .octets ∧
        data.flatten = stream.toList := (hdelivers rfl rfl).ok
  have hne := Archive.data_ne_nil hwrite hdata (by decide +kernel)
  refine ⟨⟨data, stream, hne, hbody ▸ hwhole, hwrite, hdata⟩, ?_, ?_⟩
  · obtain ⟨first, rest, rfl⟩ := List.exists_cons_of_ne_nil hne
    have hfront : [Chunk.octets first] <+: Archive.body toolStore.view (.release 1 0 0) :=
      ⟨rest.map .octets, hbody.symm⟩
    have hleft := ServedModule.reachable_left hdepth (m := servedOne) hfront
    obtain ⟨outcome, stream', hwrite', hcarries, -⟩ :=
      transfer_faithful servedOne toolStore.view (.release 1 0 0) 16 hleft
    cases hwrite.symm.trans hwrite'
    obtain ⟨taken, hmap, htaken⟩ := hcarries.ok
    cases taken with
    | nil => cases hmap
    | cons octets taken =>
      obtain ⟨hfirst, hnone⟩ := List.cons.inj hmap
      cases hfirst
      cases List.map_eq_nil_iff.mp hnone.symm
      exact ⟨first, stream, hleft, hwrite, by simpa using htaken⟩
  · have hcause : (Archive.versionTrace danglingStore.view
        (danglingStore.view.treeIds.length + 2) (.release 1 0 0)).outcome =
          .error (.unarchivable (Bytes.ascii "dangling")
            (.name ⟨.linkName, .noComponent, Bytes.ascii "dangling"⟩)) := by decide +kernel
    have haborted := ServedModule.reachable_body hdepth (m := servedOne) (s := danglingStore.view)
      (v := .release 1 0 0)
    obtain ⟨outcome, stream, hwrite, -, -, -, -, hdelivers, -⟩ :=
      transfer_faithful servedOne danglingStore.view (.release 1 0 0) 16 haborted
    cases Archive.outcome_of_writeCompressed hwrite hcause
    obtain ⟨data, hbody, hdata, hnone⟩ : ∃ data : List Bytes,
        Archive.body danglingStore.view (.release 1 0 0) = data.map .octets ++ [.abort] ∧
          data.flatten = stream.toList ∧ Gzip.decompress? data.flatten = none :=
      (hdelivers rfl rfl).error
    have hfront : data.map .octets ++ [.abort] <+:
        Archive.body danglingStore.view (.release 1 0 0) := hbody ▸ List.prefix_rfl
    have hlost := ServedModule.reachable_lost hdepth (m := servedOne) hfront
    have hne := Archive.data_ne_nil hwrite hdata (by decide +kernel)
    exact ⟨data, _, stream, hne, hbody ▸ haborted, hlost, hwrite, hdata, hnone⟩

end TagRegistry
