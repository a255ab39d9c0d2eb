import TagRegistry.Proofs.CompressedStream
import TagRegistry.Proofs.LimitedSink

/-! What is still written when a failure has ended everything.

A builder that is dropped writes the end of an archive, and an encoder that is dropped writes the
end of a stream. So after a failure the sink behind them is sealed first, and nothing that they
still try to write arrives. Where the sink itself has refused the end of a stream, it takes nothing
more anyway. So a stream is complete exactly if the archive in it is. -/

namespace TagRegistry

namespace Archive

section

variable {σ : Type} [Sink σ]

/-- A trace is fed through a sink that is not sealed. -/
theorem feed_onto (t : Trace Bytes ArchiveError) (out : σ) :
    ∃ failed, (feed t : Emit (Sealable σ) Unit) (.onto out) =
      (((feed t : Emit σ Unit) out).1, ⟨((feed t : Emit σ Unit) out).2, false, failed⟩) := by
  rw [feed_eq_putAll, feed_eq_putAll, Sealable.onto, Sealable.putAll_unsealed]
  obtain ⟨next, taken⟩ := Sink.putAll t.events out
  cases taken with
  | true => exact ⟨false, rfl⟩
  | false => exact ⟨true, rfl⟩

/-! ## What is dropped -/

/-- The end of an archive, and all that is left of a stream. -/
def Leftovers.endings : Leftovers σ := ⟨[Tar.trailer], fun e => Gzip.Encoder.closing e.memory⟩

/-- What is dropped only gets through where the end of a stream has been refused. -/
theorem writeCompressedSealing_eq (left : Leftovers σ) (s : ObjectStore) (v : Version) (out : σ) :
    ∃ more, writeCompressedSealing left s v out =
        ((writeCompressed s v out).1, (Sink.putAll more (writeCompressed s v out).2).1) ∧
      ((writeCompressed s v out).1 ≠ .error .write → more = []) := by
  obtain ⟨failed, hthrough⟩ :=
    feed_onto (encodedTrace (versionTrace s (depthFor s (Gzip.Encoder.onto out)) v)) out
  rw [← writeCompressed_eq_feed] at hthrough
  have hsealable : writeCompressed s v (Sealable.onto out) =
      ((writeCompressed s v out).1, ⟨(writeCompressed s v out).2, false, failed⟩) :=
    (writeCompressed_eq_feed s v (Sealable.onto out)).trans hthrough
  rw [writeCompressed] at hsealable
  rw [writeCompressedSealing, writeSealing_eq]
  generalize writeCompressed s v out = written at hsealable ⊢
  obtain ⟨result, sink⟩ := written
  generalize write s v (Gzip.Encoder.onto (Sealable.onto out)) = archive at hsealable ⊢
  obtain ⟨ends, encoder⟩ := archive
  cases ends with
  | error cause =>
    obtain ⟨rfl, hout⟩ := Prod.mk.inj hsealable
    refine ⟨[], ?_, fun _ => rfl⟩
    simp only [Sealable.putAll_sealed, hout, Sink.putAll]
  | ok u =>
    simp only at hsealable ⊢
    generalize encoder.finish = finished at hsealable ⊢
    obtain ⟨last, taken⟩ := finished
    cases taken with
    | true =>
      obtain ⟨rfl, rfl⟩ := Prod.mk.inj hsealable
      exact ⟨[], rfl, fun _ => rfl⟩
    | false =>
      obtain ⟨rfl, rfl⟩ := Prod.mk.inj hsealable
      refine ⟨left.encoder encoder, ?_, fun hne => absurd rfl hne⟩
      simp only [Sealable.putAll_unsealed]

end

end Archive

/-! ## Streams and archives -/

namespace Archive

open Gzip (decompress?)

variable {s : ObjectStore} {v : Version} {σ τ : Type} [Sink σ] [Sink τ]

/-- What a sink has accepted of the stream of an archive, and how writing it came out. The stream is
complete if all of it and of the archive could be written, and otherwise no front part of what
was accepted is a complete stream. -/
structure Delivered (archive stream : Bytes) (whole : Except ArchiveError Unit) (accepted : Bytes)
    (result : Except ArchiveError Unit) : Prop where
  ok_iff : result = .ok () ↔ whole = .ok () ∧ accepted = stream
  complete : result = .ok () → decompress? accepted = some archive
  truncated : ∀ cause, result = .error cause →
    ∀ front, front <+: accepted → decompress? front = none

/-- An archive is delivered as far as there is room for its stream. -/
theorem delivered_within (t : Trace Bytes ArchiveError) (left? : Option Nat) :
    Delivered (octetsOf t) (octetsOf (encodedTrace t)) t.outcome
      (within left? (octetsOf (encodedTrace t)))
      (if within left? (octetsOf (encodedTrace t)) = octetsOf (encodedTrace t) then t.outcome
        else .error .write) := by
  by_cases hfits : within left? (octetsOf (encodedTrace t)) = octetsOf (encodedTrace t)
  · rw [if_pos hfits, hfits]
    refine ⟨(and_iff_left rfl).symm, decompress?_encodedTrace_ok, ?_⟩
    intro cause hcause front hfront
    obtain ⟨cut, hcut⟩ := hfront
    exact decompress?_encodedTrace_front hcause hcut.symm
  · rw [if_neg hfits]
    refine ⟨iff_of_false nofun fun h => hfits h.2, nofun, ?_⟩
    intro cause _ front hfront
    obtain ⟨cut, hcut⟩ := hfront.trans (prefix_within left? (octetsOf (encodedTrace t)))
    have hne : cut ≠ [] := by
      intro hnil
      rw [hnil, List.append_nil] at hcut
      rw [hcut] at hfront
      exact hfits ((prefix_within _ _).eq_of_length_le hfront.length_le)
    exact decompress?_encodedTrace_cut hne hcut.symm

/-- What is dropped makes no difference to a sink that takes octets up to a limit. -/
theorem writeCompressedSealing_taken (upTo : TakesUpTo τ) (left : Leftovers τ) (s : ObjectStore)
    (v : Version) {out : τ} (hout : upTo.ready out) :
    (writeCompressedSealing left s v out).1 = (writeCompressed s v out).1 ∧
      upTo.taken (writeCompressedSealing left s v out).2 =
        upTo.taken (writeCompressed s v out).2 := by
  obtain ⟨more, hsealing, hmore⟩ := writeCompressedSealing_eq left s v out
  rw [hsealing]
  refine ⟨rfl, ?_⟩
  have hblame := versionTrace_ne_write s (depthFor s (Gzip.Encoder.onto out)) v
  rw [writeCompressed_eq_feed] at hmore ⊢
  rw [← encodedTrace_outcome] at hblame
  generalize encodedTrace (versionTrace s (depthFor s (Gzip.Encoder.onto out)) v) = t at *
  obtain ⟨next, hfeed, hnext, hleft, -⟩ := feed_takesUpTo upTo t hout
  rw [hfeed] at hmore ⊢
  by_cases hfits : within (upTo.left? out) (octetsOf t) = octetsOf t
  · rw [if_pos hfits] at hmore
    rw [hmore hblame]
    rfl
  · -- The sink has refused something, so it has no room left.
    obtain ⟨room, hsome, hcut⟩ := within_ne_iff.mp hfits
    rw [hsome, Option.map_some, Nat.sub_eq_zero_of_le (Nat.le_of_lt hcut)] at hleft
    obtain ⟨last, hput, -, -, htaken⟩ := upTo.putAll more hnext
    rw [hleft] at htaken
    rw [hput, htaken]
    exact List.append_nil _

/-- A compressed archive is written exactly if the archive can be written and the sink takes the
whole stream, which then is read as the archive. After any failure what the sink has is no
complete stream, whatever a builder and an encoder still try to write when they are dropped. -/
theorem compressed_complete (all : TakesAll σ) (upTo : TakesUpTo τ) (left : Leftovers τ) {whole : σ}
    {out : τ} (hwhole : all.ready whole) (hout : upTo.ready out)
    (hroot : ∀ commit, s.peel v.tagRef = .ok commit → Acyclic s commit.tree.oid) :
    ∃ archive stream,
      all.taken (write s v whole).2 = all.taken whole ++ archive ∧
      all.taken (writeCompressed s v whole).2 = all.taken whole ++ stream ∧
      (writeCompressedSealing left s v out).1 = (writeCompressed s v out).1 ∧
      upTo.taken (writeCompressedSealing left s v out).2 =
        upTo.taken (writeCompressed s v out).2 ∧
      upTo.taken (writeCompressed s v out).2 =
        upTo.taken out ++ within (upTo.left? out) stream ∧
      Delivered archive stream (write s v whole).1 (within (upTo.left? out) stream)
        (writeCompressed s v out).1 ∧
      ∀ cause, s.peel v.tagRef = .error cause →
        (writeCompressed s v out).1 = .error (.store cause) ∧
          upTo.taken (writeCompressed s v out).2 = upTo.taken out := by
  obtain ⟨hresult, htaken⟩ := writeCompressedSealing_taken upTo left s v hout
  have hlevels : versionTrace s (depthFor s (Gzip.Encoder.onto whole)) v =
      versionTrace s (depthFor s whole) v :=
    versionTrace_eq_of_acyclic hroot (lt_depthFor s _) (lt_depthFor s whole)
  have hlevels' : versionTrace s (depthFor s (Gzip.Encoder.onto out)) v =
      versionTrace s (depthFor s whole) v :=
    versionTrace_eq_of_acyclic hroot (lt_depthFor s _) (lt_depthFor s whole)
  have hmissing (cause : StoreError) (h : s.peel v.tagRef = .error cause) :
      versionTrace s (depthFor s whole) v = .stop (.store cause) := by
    rw [versionTrace, h]
  obtain ⟨last, hwrite, -, harchive⟩ :=
    feed_takesAll all (versionTrace s (depthFor s whole) v) hwhole
  obtain ⟨last', hcompressed, -, hstream⟩ :=
    feed_takesAll all (encodedTrace (versionTrace s (depthFor s whole) v)) hwhole
  obtain ⟨next, hfeed, -, -, haccepted⟩ :=
    feed_takesUpTo upTo (encodedTrace (versionTrace s (depthFor s whole) v)) hout
  have hdelivered := delivered_within (versionTrace s (depthFor s whole) v) (upTo.left? out)
  rw [← write_eq_feed] at hwrite
  rw [← hlevels, ← writeCompressed_eq_feed, hlevels] at hcompressed
  rw [← hlevels', ← writeCompressed_eq_feed, hlevels', encodedTrace_outcome] at hfeed
  rw [hfeed] at hresult htaken ⊢
  rw [hwrite, hcompressed]
  refine ⟨_, _, harchive, hstream, hresult, htaken, haccepted, hdelivered, ?_⟩
  intro cause htag
  have hnothing : within (upTo.left? out) [] = [] := List.prefix_nil.mp (prefix_within _ [])
  have hevents : octetsOf (encodedTrace (.stop (.store cause))) = [] := rfl
  rw [hmissing cause htag, hevents, hnothing] at haccepted ⊢
  rw [if_pos rfl]
  exact ⟨rfl, haccepted.trans (List.append_nil _)⟩

/-- Of a complete archive there is a complete stream. There is none of an archive that ends at a
link that points nowhere, and nothing for a sink without room or of a version that is not there. -/
theorem compressed_complete_stores :
    ((writeCompressedSealing .endings toolStore.view (.release 1 0 0) Collected.unlimited).1 =
        .ok () ∧
      decompress? (writeCompressedSealing .endings toolStore.view (.release 1 0 0)
        Collected.unlimited).2.toList =
          some (write toolStore.view (.release 1 0 0) Collected.unlimited).2.toList) ∧
    ((writeCompressedSealing .endings danglingStore.view (.release 1 0 0) Collected.unlimited).1 ≠
        .ok () ∧
      decompress? (writeCompressedSealing .endings danglingStore.view (.release 1 0 0)
        Collected.unlimited).2.toList = none) ∧
    ((writeCompressedSealing .endings toolStore.view (.release 1 0 0)
        (Collected.limited 0)).1 ≠ .ok () ∧
      (writeCompressedSealing .endings toolStore.view (.release 1 0 0)
        (Collected.limited 0)).2.toList = []) ∧
    (writeCompressedSealing .endings toolStore.view (.release 2 0 0)
      Collected.unlimited).2.toList = [] := by
  have hcollected (m : MemoryStore) (v : Version) (out : Collected)
      (hm : ∀ root, Acyclic m.view root) : ∃ stream,
      (writeCompressedSealing .endings m.view v out).2.toList =
        out.toList ++ within out.room stream ∧
      Delivered (write m.view v Collected.unlimited).2.toList stream
        (write m.view v Collected.unlimited).1 (within out.room stream)
        (writeCompressedSealing .endings m.view v out).1 ∧
      ∀ cause, m.view.peel v.tagRef = .error cause →
        (writeCompressedSealing .endings m.view v out).2.toList = out.toList := by
    have hready : Collected.takesAll.ready .unlimited := rfl
    have hopen : Collected.takesUpTo.ready out := trivial
    obtain ⟨archive, stream, harchive, -, hsame, htaken, haccepted, hdelivered, hmissing⟩ :=
      compressed_complete Collected.takesAll Collected.takesUpTo .endings hready hopen
        fun commit _ => hm commit.tree.oid
    refine ⟨stream, htaken.trans haccepted, ?_, fun cause htag => ?_⟩
    · rw [hsame]
      have hunlimited : (write m.view v Collected.unlimited).2.toList = archive := harchive
      rw [hunlimited]
      exact hdelivered
    · exact htaken.trans (hmissing cause htag).2
  refine ⟨?_, ?_, ?_, ?_⟩
  · obtain ⟨out, hwrite⟩ := write_toolStore
    obtain ⟨stream, htaken, hdelivered, -⟩ :=
      hcollected toolStore (.release 1 0 0) .unlimited acyclic_toolStore
    have hok := hdelivered.ok_iff.mpr ⟨congrArg Prod.fst hwrite, rfl⟩
    rw [htaken]
    exact ⟨hok, hdelivered.complete hok⟩
  · obtain ⟨stream, htaken, hdelivered, -⟩ :=
      hcollected danglingStore (.release 1 0 0) .unlimited acyclic_danglingStore
    obtain ⟨out, hwrite, -⟩ := write_danglingStore
    rw [hwrite] at hdelivered
    rw [htaken]
    cases hresult : (writeCompressedSealing .endings danglingStore.view (.release 1 0 0)
      Collected.unlimited).1 with
    | ok u => cases (hdelivered.ok_iff.mp hresult).1
    | error cause =>
      exact ⟨nofun, hdelivered.truncated cause hresult _ List.prefix_rfl⟩
  · obtain ⟨stream, htaken, hdelivered, -⟩ :=
      hcollected toolStore (.release 1 0 0) (.limited 0) acyclic_toolStore
    rw [htaken]
    refine ⟨fun hok => ?_, rfl⟩
    cases hdelivered.complete hok
  · obtain ⟨stream, -, -, hmissing⟩ :=
      hcollected toolStore (.release 2 0 0) .unlimited acyclic_toolStore
    exact hmissing (.refNotFound "refs/tags/v2.0.0") rfl

end Archive

end TagRegistry
