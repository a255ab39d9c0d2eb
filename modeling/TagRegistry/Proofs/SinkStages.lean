import TagRegistry.Proofs.ArchiveTrace
import TagRegistry.Service.Download

/-! Sinks in front of sinks.

An encoder and a buffer hand on what they take, in parts of their own. Which parts these are does
not depend on the sink behind, which only decides how many of them go through. So a compressed
archive is a trace like the archive itself, and what is sent of it is a list of chunks, cut off
where the receiver leaves. -/

namespace TagRegistry

/-! ## Parts -/

section

variable {τ σ μ : Type} [Sink σ]

theorem Sink.putAll_append (parts more : List Bytes) (out : σ) :
    putAll (parts ++ more) out =
      match putAll parts out with
      | (out, true) => putAll more out
      | (out, false) => (out, false) := by
  induction parts generalizing out with
  | nil => rfl
  | cons part parts ih =>
    rw [List.cons_append, putAll, putAll]
    obtain ⟨out', taken⟩ := Sink.put out part
    cases taken with
    | true => exact ih out'
    | false => rfl

theorem Sink.putAll_singleton (part : Bytes) (out : σ) : putAll [part] out = Sink.put out part := by
  rw [putAll]
  obtain ⟨out', taken⟩ := Sink.put out part
  cases taken <;> rfl

/-- A sink in front of another one came to a result: it handed these parts on, as far as they
were taken, and if they all were, this is what it remembers now. -/
structure HandsOn (behind : τ → σ) (memory : τ → μ) (a : τ) (parts : List Bytes) (m : μ)
    (result : τ × Bool) : Prop where
  sent : (behind result.1, result.2) = Sink.putAll parts (behind a)
  kept : result.2 = true → memory result.1 = m

namespace HandsOn

variable {behind : τ → σ} {memory : τ → μ} {a b : τ} {parts more : List Bytes} {m m' : μ}
  {result : τ × Bool}

theorem nothing (behind : τ → σ) (memory : τ → μ) (a : τ) :
    HandsOn behind memory a [] (memory a) (a, true) :=
  ⟨rfl, fun _ => rfl⟩

theorem trans (h : HandsOn behind memory a parts m (b, true))
    (h' : HandsOn behind memory b more m' result) :
    HandsOn behind memory a (parts ++ more) m' result where
  sent := by rw [Sink.putAll_append, ← h.sent, h'.sent]
  kept := h'.kept

/-- What comes after a refusal does not count. -/
theorem refused (h : HandsOn behind memory a parts m (b, false)) (more : List Bytes) (m' : μ) :
    HandsOn behind memory a (parts ++ more) m' (b, false) where
  sent := by rw [Sink.putAll_append, ← h.sent]
  kept := nofun

end HandsOn

/-- What is handed on of parts that come in one after the other, and what is remembered then. -/
def relayed (step : μ → Bytes → List Bytes × μ) : μ → List Bytes → List Bytes × μ
  | m, [] => ([], m)
  | m, part :: parts =>
    ((step m part).1 ++ (relayed step (step m part).2 parts).1, (relayed step (step m part).2 parts).2)

/-- A sink that hands on part by part does so with any number of them. -/
theorem HandsOn.putAll [Sink τ] {behind : τ → σ} {memory : τ → μ}
    {step : μ → Bytes → List Bytes × μ}
    (h : ∀ a part, HandsOn behind memory a (step (memory a) part).1 (step (memory a) part).2
      (Sink.put a part))
    (parts : List Bytes) (a : τ) :
    HandsOn behind memory a (relayed step (memory a) parts).1 (relayed step (memory a) parts).2
      (Sink.putAll parts a) := by
  induction parts generalizing a with
  | nil => exact .nothing behind memory a
  | cons part parts ih =>
    have hput := h a part
    rw [Sink.putAll, relayed]
    generalize Sink.put a part = result at hput
    obtain ⟨b, taken⟩ := result
    cases taken with
    | true =>
      have hrest := ih b
      rw [hput.kept rfl] at hrest
      exact hput.trans hrest
    | false => exact hput.refused _ _

end

/-! ## An encoder -/

namespace Gzip.Encoder

open Deflate

variable {σ : Type} [Sink σ]

/-- What an encoder remembers: whether the header has left, and the compressor. -/
def memory (e : Encoder σ) : Bool × Compressor := (e.begun, e.compressor)

/-- What leaves a compressor while octets come in, and what becomes of it. -/
def compressed (c : Compressor) (bs : Bytes) : List Bytes × Compressor :=
  if bs.length ≤ partSize then ([c.ready], c.takeReady.2.feed bs)
  else
    (c.ready :: (compressed (c.takeReady.2.feed (bs.take partSize)) (bs.drop partSize)).1,
      (compressed (c.takeReady.2.feed (bs.take partSize)) (bs.drop partSize)).2)
termination_by bs.length
decreasing_by
  all_goals
    simp only [partSize] at *
    simp only [List.length_drop]
    omega

/-- The header, unless it has left. -/
def opening (begun : Bool) : List Bytes := if begun then [] else [header]

/-- What leaves an encoder when octets come in. -/
def encoded (m : Bool × Compressor) (bs : Bytes) : List Bytes × (Bool × Compressor) :=
  (opening m.1 ++ (compressed m.2 bs).1, (true, (compressed m.2 bs).2))

/-- What leaves an encoder that is finished. -/
def closing (m : Bool × Compressor) : List Bytes :=
  opening m.1 ++ [m.2.finish.ready, footer m.2.content.toList]

theorem start_handsOn (e : Encoder σ) :
    HandsOn Encoder.out memory e (opening e.begun) (true, e.compressor) e.start := by
  obtain ⟨out, begun, compressor⟩ := e
  cases begun with
  | true => exact .nothing _ _ _
  | false =>
    rw [start, opening, if_neg Bool.false_ne_true]
    refine ⟨(Sink.putAll_singleton header out).symm, fun h => ?_⟩
    exact congrArg (·, compressor) h

theorem passOn_handsOn (e : Encoder σ) :
    HandsOn Encoder.out memory e [e.compressor.ready] (e.begun, e.compressor.takeReady.2)
      e.passOn where
  sent := (Sink.putAll_singleton e.compressor.ready e.out).symm
  kept _ := rfl

theorem putPart_handsOn (e : Encoder σ) (bs : Bytes) :
    HandsOn Encoder.out memory e [e.compressor.ready] (e.begun, e.compressor.takeReady.2.feed bs)
      (e.putPart bs) := by
  have hpass := passOn_handsOn e
  rw [putPart]
  generalize e.passOn = result at hpass
  obtain ⟨⟨out, begun, compressor⟩, taken⟩ := result
  cases taken with
  | true =>
    obtain ⟨hbegun, hcompressor⟩ := Prod.mk.inj (hpass.kept rfl)
    refine ⟨hpass.sent, fun _ => ?_⟩
    rw [← hcompressor, ← hbegun]
    rfl
  | false => exact hpass.refused [] _

theorem putParts_handsOn (e : Encoder σ) (bs : Bytes) :
    HandsOn Encoder.out memory e (compressed e.compressor bs).1
      (e.begun, (compressed e.compressor bs).2) (e.putParts bs) := by
  induction e, bs using putParts.induct with
  | case1 e bs hshort =>
    rw [putParts, if_pos hshort, compressed, if_pos hshort]
    exact putPart_handsOn e bs
  | case2 e bs hlong next hput ih =>
    have hpart := putPart_handsOn e (bs.take partSize)
    rw [hput] at hpart
    obtain ⟨hbegun, hcompressor⟩ := Prod.mk.inj (hpart.kept rfl)
    rw [putParts, if_neg hlong, hput, compressed, if_neg hlong]
    rw [hbegun, hcompressor] at ih
    exact hpart.trans ih
  | case3 e bs hlong next hput =>
    have hpart := putPart_handsOn e (bs.take partSize)
    rw [hput] at hpart
    rw [putParts, if_neg hlong, hput, compressed, if_neg hlong]
    exact hpart.refused _ _

theorem put_handsOn (e : Encoder σ) (bs : Bytes) :
    HandsOn Encoder.out memory e (encoded e.memory bs).1 (encoded e.memory bs).2
      (Sink.put e bs) := by
  have hstart := start_handsOn e
  change HandsOn _ _ e _ _ (e.put bs)
  rw [put]
  generalize e.start = result at hstart
  obtain ⟨next, taken⟩ := result
  cases taken with
  | true =>
    obtain ⟨hbegun, hcompressor⟩ := Prod.mk.inj (hstart.kept rfl)
    have hparts := putParts_handsOn next bs
    rw [hbegun, hcompressor] at hparts
    exact hstart.trans hparts
  | false => exact hstart.refused _ _

/-- Finishing puts the rest of the stream. -/
theorem finish_eq (e : Encoder σ) : e.finish = Sink.putAll (closing e.memory) e.out := by
  have hstart := start_handsOn e
  have hsent : Sink.putAll (opening e.memory.1) e.out = (e.start.1.out, e.start.2) :=
    hstart.sent.symm
  rw [finish, closing, Sink.putAll_append, hsent]
  clear hsent
  generalize e.start = result at hstart
  obtain ⟨⟨out, begun, compressor⟩, taken⟩ := result
  cases taken with
  | false => rfl
  | true =>
    obtain ⟨-, hcompressor⟩ := Prod.mk.inj (hstart.kept rfl)
    simp only at hcompressor
    subst hcompressor
    have hpass := passOn_handsOn (⟨out, begun, e.compressor.finish⟩ : Encoder σ)
    have hpassed : Sink.putAll [e.compressor.finish.ready] out =
        ((passOn ⟨out, begun, e.compressor.finish⟩).1.out,
          (passOn ⟨out, begun, e.compressor.finish⟩).2) := hpass.sent.symm
    change _ = Sink.putAll ([e.compressor.finish.ready] ++ [footer e.compressor.content.toList]) out
    rw [Sink.putAll_append, hpassed]
    simp only [Sink.putAll_singleton]
    generalize passOn ⟨out, begun, e.compressor.finish⟩ = result
    obtain ⟨next, taken⟩ := result
    cases taken <;> rfl

end Gzip.Encoder

/-! ## A compressed archive -/

namespace Archive

variable {σ : Type} [Sink σ]

/-- Feeding a trace is putting its events, and then its outcome counts. -/
theorem feed_eq_putAll (t : Trace Bytes ArchiveError) (out : σ) :
    (feed t : Emit σ Unit) out =
      match Sink.putAll t.events out with
      | (out, true) => (t.outcome, out)
      | (out, false) => (.error .write, out) := by
  obtain ⟨events, outcome⟩ := t
  induction events generalizing out with
  | nil => rfl
  | cons chunk chunks ih =>
    rw [Sink.putAll]
    change (match Sink.put out chunk with
      | (out, true) => (feed ⟨chunks, outcome⟩ : Emit σ Unit) out
      | (out, false) => (.error .write, out)) = _
    obtain ⟨out', taken⟩ := Sink.put out chunk
    cases taken with
    | true => exact ih out'
    | false => rfl

/-- What the archive of a version is written as. -/
def versionTrace (s : ObjectStore) (depth : Nat) (v : Version) : Trace Bytes ArchiveError :=
  match s.peel v.tagRef with
  | .ok commit => snapshotTrace s depth commit
  | .error cause => .stop (.store cause)

theorem write_eq_feed (s : ObjectStore) (v : Version) (out : σ) :
    write s v out = feed (versionTrace s (depthFor s out) v) out := by
  rw [write, versionTrace, Catalog.resolveCommit]
  cases s.peel v.tagRef with
  | ok commit => exact writeSnapshot_eq_feed s commit out
  | error cause => rfl

/-- What leaves an encoder that a trace is fed to. Only a trace that ends well is finished. -/
def encodedTrace (t : Trace Bytes ArchiveError) : Trace Bytes ArchiveError :=
  (⟨(relayed Gzip.Encoder.encoded (false, .empty) t.events).1, t.outcome⟩ : Trace _ _).andThen
    ⟨Gzip.Encoder.closing (relayed Gzip.Encoder.encoded (false, .empty) t.events).2, .ok ()⟩

theorem encodedTrace_outcome (t : Trace Bytes ArchiveError) :
    (encodedTrace t).outcome = t.outcome := by
  obtain ⟨events, outcome⟩ := t
  cases outcome <;> rfl

/-- Writing a compressed archive is feeding what leaves the encoder. -/
theorem writeCompressed_eq_feed (s : ObjectStore) (v : Version) (out : σ) :
    writeCompressed s v out =
      feed (encodedTrace (versionTrace s (depthFor s (Gzip.Encoder.onto out)) v)) out := by
  rw [writeCompressed, write_eq_feed, feed_eq_putAll, feed_eq_putAll]
  generalize versionTrace s (depthFor s (Gzip.Encoder.onto out)) v = t
  have hparts := HandsOn.putAll Gzip.Encoder.put_handsOn t.events (Gzip.Encoder.onto out)
  generalize Sink.putAll t.events (Gzip.Encoder.onto out) = result at hparts
  obtain ⟨encoder, taken⟩ := result
  have hsent : (encoder.out, taken) =
      Sink.putAll (relayed Gzip.Encoder.encoded (false, .empty) t.events).1 out := hparts.sent
  cases houtcome : t.outcome with
  | error cause =>
    rw [encodedTrace, houtcome, Trace.error_andThen, ← hsent]
    cases taken <;> rfl
  | ok u =>
    rw [encodedTrace, houtcome, Trace.ok_andThen, Sink.putAll_append, ← hsent]
    cases taken with
    | false => rfl
    | true =>
      have hmemory : encoder.memory =
        (relayed Gzip.Encoder.encoded (false, .empty) t.events).2 := hparts.kept rfl
      simp only [Gzip.Encoder.finish_eq, hmemory]
      rfl

end Archive

/-! ## A buffer -/

namespace Buffered

variable {σ : Type} [Sink σ]

/-- What a buffer remembers. -/
def memory (b : Buffered σ) : Nat × Bytes := (b.capacity, b.held)

/-- What leaves a buffer when octets come in, behind which it has no room for them. -/
def overflow (m : Nat × Bytes) (bs : Bytes) : List Bytes × (Nat × Bytes) :=
  if m.1 < m.2.length + bs.length then ([m.2], (m.1, [])) else ([], m)

/-- What leaves a buffer when octets come in. -/
def passed (m : Nat × Bytes) (bs : Bytes) : List Bytes × (Nat × Bytes) :=
  if m.1 ≤ bs.length then ((overflow m bs).1 ++ [bs], (overflow m bs).2)
  else ((overflow m bs).1, (m.1, (overflow m bs).2.2 ++ bs))

theorem flush_handsOn (b : Buffered σ) :
    HandsOn Buffered.out memory b [b.held] (b.capacity, []) b.flush := by
  rw [flush]
  obtain ⟨out, capacity, held⟩ := b
  have hput := Sink.putAll_singleton held out
  generalize Sink.put out held = result at hput ⊢
  obtain ⟨out', taken⟩ := result
  cases taken with
  | true => exact ⟨hput.symm, fun _ => rfl⟩
  | false => exact ⟨hput.symm, nofun⟩

theorem makeRoom_handsOn (b : Buffered σ) (bs : Bytes) :
    HandsOn Buffered.out memory b (overflow b.memory bs).1 (overflow b.memory bs).2
      (b.makeRoom bs) := by
  rw [makeRoom, overflow, memory]
  split
  · exact flush_handsOn b
  · exact .nothing _ _ _

theorem put_handsOn (b : Buffered σ) (bs : Bytes) :
    HandsOn Buffered.out memory b (passed b.memory bs).1 (passed b.memory bs).2
      (Sink.put b bs) := by
  have hroom := makeRoom_handsOn b bs
  have hcapacity : (overflow b.memory bs).2.1 = b.capacity := by
    rw [overflow]
    split <;> rfl
  change HandsOn _ _ b _ _ (b.put bs)
  rw [put, passed, show b.memory.1 = b.capacity from rfl]
  generalize b.makeRoom bs = result at hroom ⊢
  obtain ⟨next, taken⟩ := result
  cases taken with
  | false =>
    split
    · exact hroom.refused _ _
    · simpa only [List.append_nil] using hroom.refused [] _
  | true =>
    have hmemory : (next.capacity, next.held) = (overflow b.memory bs).2 := hroom.kept rfl
    rw [← hmemory] at hcapacity hroom ⊢
    simp only at hcapacity ⊢
    rw [hcapacity]
    split
    · exact hroom.trans ⟨(Sink.putAll_singleton bs next.out).symm, fun _ => rfl⟩
    · have hheld : HandsOn Buffered.out memory next [] (b.capacity, next.held ++ bs)
          (⟨next.out, b.capacity, next.held ++ bs⟩, true) := ⟨rfl, fun _ => rfl⟩
      simpa only [List.append_nil] using hroom.trans hheld

/-- What a buffer passes on of parts that come in, and in the end. -/
def passedAll (capacity : Nat) (parts : List Bytes) : List Bytes :=
  (relayed passed (capacity, []) parts).1 ++ [(relayed passed (capacity, []) parts).2.2]

theorem passed_flatten (m : Nat × Bytes) (bs : Bytes) :
    (passed m bs).1.flatten ++ (passed m bs).2.2 = m.2 ++ bs := by
  rw [passed, overflow]
  by_cases hroom : m.1 < m.2.length + bs.length
  · rw [if_pos hroom]
    split <;> simp
  · rw [if_neg hroom]
    split
    -- Octets that fill a buffer on their own fit behind what is held only if nothing is.
    · have hnone : m.2 = [] := List.eq_nil_of_length_eq_zero (by omega)
      simp [hnone]
    · rfl

theorem relayed_passed_flatten (m : Nat × Bytes) (parts : List Bytes) :
    (relayed passed m parts).1.flatten ++ (relayed passed m parts).2.2 =
      m.2 ++ parts.flatten := by
  induction parts generalizing m with
  | nil => simp [relayed]
  | cons part parts ih =>
    rw [relayed, List.flatten_append, List.append_assoc, ih, ← List.append_assoc, passed_flatten,
      List.flatten_cons, List.append_assoc]

/-- Nothing is lost in a buffer, and nothing comes twice. -/
theorem passedAll_flatten (capacity : Nat) (parts : List Bytes) :
    (passedAll capacity parts).flatten = parts.flatten := by
  rw [passedAll, List.flatten_append, List.flatten_singleton, relayed_passed_flatten,
    List.nil_append]

end Buffered

/-! ## A channel -/

namespace Channel

/-- The chunks that arrive at a receiver with this patience. -/
def arriving (patience : Option Nat) (chunks : List Chunk) : List Chunk :=
  match patience with
  | none => chunks
  | some n => chunks.take n

/-- Sends chunks one after the other. -/
def sendAll (ch : Channel) (chunks : List Chunk) : Channel :=
  chunks.foldl (fun ch chunk => (ch.send chunk).1) ch

theorem sendAll_append (ch : Channel) (chunks more : List Chunk) :
    ch.sendAll (chunks ++ more) = (ch.sendAll chunks).sendAll more :=
  List.foldl_append

/-- Nobody is there. -/
def Left (ch : Channel) : Prop := ch.patience = some 0

theorem send_of_left {ch : Channel} (h : ch.Left) (chunk : Chunk) : ch.send chunk = (ch, false) := by
  rw [send, h]

theorem send_of_not_left {ch : Channel} (h : ¬ch.Left) (chunk : Chunk) :
    ∃ patience, ch.send chunk = (⟨ch.sent ++ [chunk], patience⟩, true) ∧
      ∀ chunks, arriving ch.patience (chunk :: chunks) = chunk :: arriving patience chunks := by
  obtain ⟨sent, patience⟩ := ch
  match patience with
  | none => exact ⟨none, rfl, fun _ => rfl⟩
  | some 0 => exact absurd rfl h
  | some (n + 1) => exact ⟨some n, rfl, fun _ => rfl⟩

theorem sendAll_of_left {ch : Channel} (h : ch.Left) (chunks : List Chunk) :
    ch.sendAll chunks = ch := by
  induction chunks with
  | nil => rfl
  | cons chunk chunks ih => rw [sendAll, List.foldl_cons, send_of_left h]; exact ih

/-- What arrives is a front part of what is sent. -/
theorem sendAll_sent (ch : Channel) (chunks : List Chunk) :
    (ch.sendAll chunks).sent = ch.sent ++ arriving ch.patience chunks := by
  induction chunks generalizing ch with
  | nil => cases h : ch.patience <;> simp [sendAll, arriving]
  | cons chunk chunks ih =>
    by_cases h : ch.Left
    · have hnone : arriving ch.patience (chunk :: chunks) = [] := by
        rw [h]
        rfl
      rw [sendAll_of_left h, hnone, List.append_nil]
    · obtain ⟨patience, hsend, harriving⟩ := send_of_not_left h chunk
      rw [harriving, sendAll, List.foldl_cons, hsend]
      exact (ih _).trans (List.append_assoc ..)

/-- The chunks that parts make. Empty parts make none. -/
def chunksOf (parts : List Bytes) : List Chunk :=
  (parts.filter fun part => !part.isEmpty).map .octets

theorem chunksOf_append (parts more : List Bytes) :
    chunksOf (parts ++ more) = chunksOf parts ++ chunksOf more := by
  rw [chunksOf, List.filter_append, List.map_append]
  rfl

/-- Parts go through as their chunks. After one has been refused, nobody is there. -/
theorem putAll_eq (parts : List Bytes) (ch : Channel) :
    (Sink.putAll parts ch).1 = ch.sendAll (chunksOf parts) ∧
      ((Sink.putAll parts ch).2 = false → (Sink.putAll parts ch).1.Left) := by
  induction parts generalizing ch with
  | nil => exact ⟨rfl, nofun⟩
  | cons part parts ih =>
    have hput : Sink.put ch part = if part.isEmpty then (ch, true) else ch.send (.octets part) :=
      rfl
    rw [Sink.putAll, hput, chunksOf]
    by_cases hempty : part.isEmpty
    · rw [if_pos hempty, List.filter_cons_of_neg (by simp [hempty])]
      exact ih ch
    · rw [if_neg hempty, List.filter_cons_of_pos (by simp [hempty]), List.map_cons, sendAll,
        List.foldl_cons]
      by_cases h : ch.Left
      · rw [send_of_left h]
        exact ⟨(sendAll_of_left h _).symm, fun _ => h⟩
      · obtain ⟨patience, hsend, -⟩ := send_of_not_left h (.octets part)
        rw [hsend]
        exact ih _

end Channel

/-! ## Sending an archive -/

namespace Archive

/-- What an archive is written as where octets are only taken, and never refused. -/
def stream (s : ObjectStore) (v : Version) : Trace Bytes ArchiveError :=
  encodedTrace (versionTrace s (s.treeIds.length + 2) v)

/-- What is sent behind an archive: an abort if it is not complete. -/
def aborts : Except ArchiveError Unit → List Chunk
  | .ok () => []
  | .error _ => [.abort]

/-- Everything that is sent of an archive if the receiver stays. -/
def body (s : ObjectStore) (v : Version) : List Chunk :=
  Channel.chunksOf (Buffered.passedAll chunkSize (stream s v).events) ++
    aborts (stream s v).outcome

theorem writeCompressed_eq_stream {σ : Type} [Sink σ] {out : σ} (h : Sink.room out = none)
    (s : ObjectStore) (v : Version) : writeCompressed s v out = feed (stream s v) out := by
  have hroom : Sink.room (Gzip.Encoder.onto out) = none := congrArg (Option.map _) h
  rw [writeCompressed_eq_feed, depthFor, hroom]
  rfl

end Archive

namespace Buffered

theorem close_eq (b : Buffered Channel) :
    b.close = b.out.sendAll (Channel.chunksOf [b.held]) := by
  rw [close, ← (Channel.putAll_eq [b.held] b.out).1, ← (flush_handsOn b).sent]

theorem abort_of_left {b : Buffered Channel} (h : b.out.Left) : b.close.abort = b.out := by
  rw [close_eq, Channel.sendAll_of_left h]
  exact Channel.sendAll_of_left h [.abort]

end Buffered

namespace ServedModule

open Archive

/-- Sending an archive is sending its body. -/
theorem sendArchive_eq (m : ServedModule) (s : ObjectStore) (v : Version) (ch : Channel) :
    (m.sendArchive s v ch).1 = ch.sendAll (body s v) := by
  rw [sendArchive, writeCompressed_eq_stream rfl, feed_eq_putAll, body, Buffered.passedAll,
    Channel.chunksOf_append, List.append_assoc, Channel.sendAll_append]
  generalize stream s v = t
  have hparts := HandsOn.putAll Buffered.put_handsOn t.events (Buffered.onto chunkSize ch)
  obtain ⟨hsent, hleft⟩ :=
    Channel.putAll_eq (relayed Buffered.passed (chunkSize, []) t.events).1 ch
  rw [← hsent]
  have hout := hparts.sent
  change _ = Sink.putAll (relayed Buffered.passed (chunkSize, []) t.events).1 ch at hout
  rw [← hout] at hleft ⊢
  generalize Sink.putAll t.events (Buffered.onto chunkSize ch) = result at hparts hleft ⊢
  obtain ⟨b, taken⟩ := result
  cases taken with
  | false =>
    rw [Channel.sendAll_of_left (hleft rfl)]
    exact Buffered.abort_of_left (hleft rfl)
  | true =>
    have hmemory : (b.capacity, b.held) = (relayed Buffered.passed (chunkSize, []) t.events).2 :=
      hparts.kept rfl
    rw [← hmemory, Channel.sendAll_append]
    simp only
    rw [← Buffered.close_eq]
    cases houtcome : t.outcome with
    | error cause => rfl
    | ok u =>
      have hflush := Buffered.flush_handsOn b
      obtain ⟨-, hgone⟩ := Channel.putAll_eq [b.held] b.out
      rw [← hflush.sent] at hgone
      rw [Buffered.close]
      simp only
      generalize b.flush = result at hflush hgone ⊢
      obtain ⟨next, taken⟩ := result
      cases taken with
      | true => rfl
      | false => exact Buffered.abort_of_left (hgone rfl)

/-- A receiver gets a front part of the body, all of it if it stays. -/
theorem sendArchive_sent (m : ServedModule) (s : ObjectStore) (v : Version)
    (patience : Option Nat) :
    (m.sendArchive s v (.fresh patience)).1.sent = Channel.arriving patience (body s v) := by
  rw [sendArchive_eq, Channel.sendAll_sent]
  rfl

end ServedModule

end TagRegistry
