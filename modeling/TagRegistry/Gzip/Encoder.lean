import TagRegistry.Archive
import TagRegistry.Gzip.Format

/-! A sink that compresses what it takes into another sink.

The header leaves with the first octets, and what has been compressed leaves when more octets
come or when the stream is finished. A stream that is not finished has no footer, so nobody takes
it for a complete one. -/

namespace TagRegistry.Gzip

structure Encoder (σ : Type) where
  out : σ
  begun : Bool
  compressor : Deflate.Compressor

namespace Encoder

variable {σ : Type} [Sink σ]

def onto (out : σ) : Encoder σ := ⟨out, false, .empty⟩

/-- Writes the header unless that has been done. -/
def start : Encoder σ → Encoder σ × Bool
  | ⟨out, true, compressor⟩ => (⟨out, true, compressor⟩, true)
  | ⟨out, false, compressor⟩ =>
    let (out, taken) := Sink.put out header
    (⟨out, taken, compressor⟩, taken)

/-- Writes what has been compressed. -/
def passOn : Encoder σ → Encoder σ × Bool
  | ⟨out, begun, compressor⟩ =>
    let (octets, compressor) := compressor.takeReady
    let (out, taken) := Sink.put out octets
    (⟨out, begun, compressor⟩, taken)

/-- Takes octets, if what came before them has left. -/
def putPart (e : Encoder σ) (bs : Bytes) : Encoder σ × Bool :=
  match e.passOn with
  | (⟨out, begun, compressor⟩, true) => (⟨out, begun, compressor.feed bs⟩, true)
  | (e, false) => (e, false)

def partSize : Nat := 8192

def putParts (e : Encoder σ) (bs : Bytes) : Encoder σ × Bool :=
  if bs.length ≤ partSize then e.putPart bs
  else
    match e.putPart (bs.take partSize) with
    | (e, true) => e.putParts (bs.drop partSize)
    | (e, false) => (e, false)
termination_by bs.length
decreasing_by
  simp only [partSize] at *
  simp only [List.length_drop]
  omega

/-- Takes octets; a header that was refused refuses them. -/
def put (e : Encoder σ) (bs : Bytes) : Encoder σ × Bool :=
  match e.start with
  | (e, true) => e.putParts bs
  | (e, false) => (e, false)

/-- The most octets that one octet of a stream stands for. -/
def bestRatio : Nat := 1032

/-- No block is larger than this. -/
def largestBlock : Nat := 0x20000

instance : Sink (Encoder σ) where
  put := put
  room e := (Sink.room e.out).map fun room => (room + 2 * largestBlock) * bestRatio

/-- Writes what has been held back: the rest of the compressed content, and the footer. -/
def finish (e : Encoder σ) : σ × Bool :=
  match e.start with
  | (⟨out, begun, compressor⟩, true) =>
    let content := compressor.content.toList
    match passOn ⟨out, begun, compressor.finish⟩ with
    | (e, true) => Sink.put e.out (footer content)
    | (e, false) => (e.out, false)
  | (e, false) => (e.out, false)

end Encoder

end TagRegistry.Gzip

namespace TagRegistry.Archive

variable {σ : Type} [Sink σ]

/-- Writes the compressed archive of a version. The stream is only finished if the archive
is complete. -/
def writeCompressed (s : ObjectStore) (v : Version) (out : σ) : Except ArchiveError Unit × σ :=
  match write s v (Gzip.Encoder.onto out) with
  | (.error e, encoder) => (.error e, encoder.out)
  | (.ok (), encoder) =>
    match encoder.finish with
    | (out, true) => (.ok (), out)
    | (out, false) => (.error .write, out)

/-- What is still written by what is dropped after a failure. -/
structure Leftovers (σ : Type) where
  /-- By a builder that has not come to its end. -/
  builder : List Bytes
  /-- By an encoder whose stream is not finished, or could not be. -/
  encoder : Gzip.Encoder (Sealable σ) → List Bytes

/-- Writes the compressed archive of a version through an encoder. One that is dropped before its end
tries to write the rest of its stream. After a failure of the archive what it writes to is sealed by
then; after a failure of the stream itself it is not. -/
def writeCompressedSealing (left : Leftovers σ) (s : ObjectStore) (v : Version) (out : σ) :
    Except ArchiveError Unit × σ :=
  match writeSealing left.builder s v (Gzip.Encoder.onto (Sealable.onto out)) with
  | (.error cause, encoder) =>
    (.error cause, (Sink.putAll (left.encoder encoder) encoder.out.sealed).1.inner)
  | (.ok (), encoder) =>
    match encoder.finish with
    | (out, true) => (.ok (), out.inner)
    | (out, false) => (.error .write, (Sink.putAll (left.encoder encoder) out).1.inner)

end TagRegistry.Archive
