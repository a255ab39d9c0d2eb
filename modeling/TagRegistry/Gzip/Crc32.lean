import TagRegistry.Bytes

/-! The checksum of gzip: CRC-32 with the reflected polynomial `EDB88320`. -/

namespace TagRegistry.Gzip

def crcBit (crc : UInt32) : UInt32 :=
  if crc &&& 1 = 1 then (crc >>> 1) ^^^ 0xEDB88320 else crc >>> 1

/-- Takes one octet in, bit by bit. -/
def crcOctet (crc : UInt32) (b : UInt8) : UInt32 :=
  let mixed := crc ^^^ b.toUInt32
  crcBit (crcBit (crcBit (crcBit (crcBit (crcBit (crcBit (crcBit mixed)))))))

def crc32 (bs : Bytes) : UInt32 := bs.foldl crcOctet 0xFFFFFFFF ^^^ 0xFFFFFFFF

end TagRegistry.Gzip
