import TagRegistry.Gzip.Encoder
import TagRegistry.Proofs.ArchiveTrace

/-! What an encoder has taken.

Symbols and blocks are made from the content, and none of the content is given up before the end.
So an encoder takes everything if the sink behind it does, and its footer is that of everything. -/

namespace TagRegistry

/-! ## The content of a compressor -/

namespace Deflate.Compressor

theorem closeBlock_content (isLast : Bool) (c : Compressor) :
    (c.closeBlock isLast).content = c.content := rfl

theorem step_content (c : Compressor) : c.step.content = c.content := rfl

theorem closeIfFull_content (c : Compressor) : c.closeIfFull.content = c.content := by
  rw [closeIfFull]
  split
  · exact closeBlock_content false c
  · rfl

theorem advance_content (ahead fuel : Nat) (c : Compressor) :
    (advance ahead fuel c).content = c.content := by
  induction fuel generalizing c with
  | zero => rfl
  | succ fuel ih =>
    rw [advance]
    split
    · rfl
    · rw [ih, closeIfFull_content, step_content]

theorem feed_content (bs : Bytes) (c : Compressor) :
    (c.feed bs).content.toList = c.content.toList ++ bs := by
  rw [feed, advance_content]
  exact Array.toList_appendList

end Deflate.Compressor

/-! ## An encoder onto a sink that takes everything -/

namespace Gzip.Encoder

variable {σ : Type} [Sink σ]

/-- Everything that an encoder has taken. -/
def content (e : Encoder σ) : Bytes := e.compressor.content.toList

section

variable (all : TakesAll σ)

theorem start_takesAll (e : Encoder σ) (h : all.ready e.out) :
    ∃ e', e.start = (e', true) ∧ all.ready e'.out ∧ e'.compressor = e.compressor := by
  obtain ⟨out, begun, compressor⟩ := e
  cases begun with
  | true => exact ⟨_, rfl, h, rfl⟩
  | false =>
    obtain ⟨out', hput, hready, -⟩ := all.put header h
    refine ⟨⟨out', true, compressor⟩, ?_, hready, rfl⟩
    rw [start, hput]

theorem passOn_takesAll (e : Encoder σ) (h : all.ready e.out) :
    ∃ e', e.passOn = (e', true) ∧ all.ready e'.out ∧ e'.content = e.content := by
  obtain ⟨out, begun, compressor⟩ := e
  obtain ⟨out', hput, hready, -⟩ := all.put compressor.takeReady.1 h
  refine ⟨⟨out', begun, compressor.takeReady.2⟩, ?_, hready, rfl⟩
  simp only [passOn, hput]

theorem putPart_takesAll (e : Encoder σ) (bs : Bytes) (h : all.ready e.out) :
    ∃ e', e.putPart bs = (e', true) ∧ all.ready e'.out ∧ e'.content = e.content ++ bs := by
  obtain ⟨next, hpass, hready, hcontent⟩ := passOn_takesAll all e h
  refine ⟨⟨next.out, next.begun, next.compressor.feed bs⟩, ?_, hready, ?_⟩
  · rw [putPart, hpass]
  · rw [← hcontent]
    exact next.compressor.feed_content bs

theorem putParts_takesAll (e : Encoder σ) (bs : Bytes) (h : all.ready e.out) :
    ∃ e', e.putParts bs = (e', true) ∧ all.ready e'.out ∧ e'.content = e.content ++ bs := by
  induction e, bs using putParts.induct with
  | case1 e bs hshort =>
    rw [putParts, if_pos hshort]
    exact putPart_takesAll all e bs h
  | case2 e bs hlong next hput ih =>
    obtain ⟨next', hput', hready, hcontent⟩ := putPart_takesAll all e (bs.take partSize) h
    obtain ⟨rfl, -⟩ := Prod.mk.inj (hput.symm.trans hput')
    obtain ⟨last, hrest, hlast, hall⟩ := ih hready
    refine ⟨last, ?_, hlast, ?_⟩
    · rw [putParts, if_neg hlong, hput]
      exact hrest
    · rw [hall, hcontent, List.append_assoc, List.take_append_drop]
  | case3 e bs hlong next hput =>
    obtain ⟨next', hput', -⟩ := putPart_takesAll all e (bs.take partSize) h
    cases hput.symm.trans hput'

theorem put_takesAll (e : Encoder σ) (bs : Bytes) (h : all.ready e.out) :
    ∃ e', e.put bs = (e', true) ∧ all.ready e'.out ∧ e'.content = e.content ++ bs := by
  obtain ⟨next, hstart, hready, hcompressor⟩ := start_takesAll all e h
  obtain ⟨last, hput, hlast, hcontent⟩ := putParts_takesAll all next bs hready
  refine ⟨last, ?_, hlast, ?_⟩
  · rw [put, hstart]
    exact hput
  · rw [hcontent, content, content, hcompressor]

/-- An encoder takes everything if the sink behind it does. -/
def takesAll : TakesAll (Encoder σ) where
  ready e := all.ready e.out
  taken := content
  put {e} bs h := put_takesAll all e bs h

/-- The last octets of a finished stream are the footer of everything that was taken. -/
theorem finish_takesAll (e : Encoder σ) (h : all.ready e.out) :
    ∃ out' front, e.finish = (out', true) ∧ all.taken out' = front ++ footer e.content := by
  obtain ⟨next, hstart, hready, hcompressor⟩ := start_takesAll all e h
  obtain ⟨last, hpass, hlast, -⟩ :=
    passOn_takesAll all ⟨next.out, next.begun, next.compressor.finish⟩ hready
  obtain ⟨out', hput, -, htaken⟩ := all.put (footer e.content) hlast
  refine ⟨out', all.taken last.out, ?_, htaken⟩
  rw [finish, hstart]
  simp only [hpass]
  rw [← hput, content, hcompressor]

end

end Gzip.Encoder

/-- A stream tells the length of its content. -/
theorem Gzip.footer_length {front front' content content' : Bytes}
    (h : front ++ footer content = front' ++ footer content') :
    Bytes.littleEndian 4 content.length = Bytes.littleEndian 4 content'.length := by
  rw [footer, footer, ← List.append_assoc, ← List.append_assoc] at h
  exact (List.append_inj' h rfl).2

namespace Archive

/-- The compressed archive of a version is written where everything is taken, if its snapshot can
be written. It ends with the footer of the archive. -/
theorem writeCompressed_takesAll {σ : Type} [Sink σ] (all : TakesAll σ) {s : ObjectStore}
    {v : Version} {commit : Snapshot} {out : σ} (hready : all.ready out)
    (htag : s.peel v.tagRef = .ok commit)
    (hok : (snapshotTrace s (depthFor s (Gzip.Encoder.onto out)) commit).outcome = .ok ()) :
    ∃ out' front, writeCompressed s v out = (.ok (), out') ∧ all.taken out' = front ++ Gzip.footer
      (snapshotTrace s (depthFor s (Gzip.Encoder.onto out)) commit).events.flatten := by
  have honto : (Gzip.Encoder.takesAll all).ready (Gzip.Encoder.onto out) := hready
  obtain ⟨encoder, hwrite, hencoder, htaken⟩ :=
    write_takesAll (Gzip.Encoder.takesAll all) honto htag
  obtain ⟨out', front, hfinish, hfooter⟩ := encoder.finish_takesAll all hencoder
  have hcontent : encoder.content =
      (snapshotTrace s (depthFor s (Gzip.Encoder.onto out)) commit).events.flatten := htaken
  rw [hok] at hwrite
  refine ⟨out', front, ?_, ?_⟩
  · rw [writeCompressed, hwrite]
    simp only [hfinish]
  · rw [hfooter, hcontent]

/-- The same without a limit. -/
theorem writeCompressed_unlimited {s : ObjectStore} {v : Version} {commit : Snapshot}
    (htag : s.peel v.tagRef = .ok commit)
    (hok : (snapshotTrace s (s.treeIds.length + 2) commit).outcome = .ok ()) :
    ∃ archive front, writeCompressed s v Collected.unlimited = (.ok (), archive) ∧
      archive.toList = front ++ Gzip.footer
        (snapshotTrace s (s.treeIds.length + 2) commit).events.flatten := by
  have hready : Collected.takesAll.ready .unlimited := rfl
  exact writeCompressed_takesAll Collected.takesAll hready htag hok

end Archive

end TagRegistry
