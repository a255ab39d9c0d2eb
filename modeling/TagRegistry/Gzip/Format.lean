import TagRegistry.Deflate.Compressor
import TagRegistry.Gzip.Crc32

/-! gzip streams, written and read.

A stream is a header of ten octets, the compressed content, and a footer of checksum and
length. -/

namespace TagRegistry.Gzip

/-- Deflate, no flags, no time, unknown system. -/
def header : Bytes := [0x1f, 0x8b, 8, 0, 0, 0, 0, 0, 0, 0xff]

/-- Checksum and length of the content, modulo 2^32. -/
def footer (bs : Bytes) : Bytes :=
  Bytes.littleEndian 4 (crc32 bs).toNat ++ Bytes.littleEndian 4 bs.length

def compress (bs : Bytes) : Bytes := header ++ Deflate.deflate bs ++ footer bs

/-- The content of a complete stream: header, compressed content, the footer of that content, and
nothing after it. -/
def decompress? (bs : Bytes) : Option Bytes :=
  if bs.take header.length ≠ header then none
  else
    match Deflate.inflate (bs.drop header.length) with
    | none => none
    | some (content, rest) => if rest = footer content.toList then some content.toList else none

end TagRegistry.Gzip
