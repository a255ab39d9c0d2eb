import TagRegistry.Tar.Number

/-! The 512-octet header in front of every tar member. -/

namespace TagRegistry.Tar

inductive Kind where
  | file
  | symlink
  | directory
  /-- The name of the next member, too long for its header. -/
  | longName
  /-- The link target of the next member, too long for its header. -/
  | longLink
  deriving DecidableEq, Repr

def Kind.flag : Kind → UInt8
  | .file => 48
  | .symlink => 50
  | .directory => 53
  | .longName => 76
  | .longLink => 75

/-- The length of the name field and of the link field. -/
def fieldSize : Nat := 100

def blockSize : Nat := 512

structure Header where
  kind : Kind
  name : Bytes
  mode : Nat
  size : Nat
  mtime : Nat
  linkName : Bytes
  deriving DecidableEq, Repr

/-- Cuts or fills up with NULs to a length. -/
def fit (width : Nat) (bs : Bytes) : Bytes :=
  bs.take width ++ List.replicate (width - bs.length) 0

/-- The magic of the GNU format, version included. -/
def magic : Bytes := Bytes.ascii "ustar  " ++ [0]

namespace Header

/-- What stands before the checksum: name, mode, owner and group (both 0), size, time. -/
def front (h : Header) : Bytes :=
  fit fieldSize h.name ++ short h.mode ++ short 0 ++ short 0 ++ long h.size ++ long h.mtime

/-- What stands after the checksum. Owner and group have no names. -/
def back (h : Header) : Bytes :=
  h.kind.flag :: fit fieldSize h.linkName ++ magic ++ List.replicate 247 0

/-- The sum of all octets, those of the checksum taken as blanks. -/
def checksum (h : Header) : Nat :=
  (h.front ++ List.replicate 8 32 ++ h.back).foldl (fun sum (b : UInt8) => sum + b.toNat) 0

def encode (h : Header) : Bytes := h.front ++ short h.checksum ++ h.back

end Header

/-- NULs that fill a content of some length up to whole blocks. -/
def padding (length : Nat) : Bytes := List.replicate ((blockSize - length % blockSize) % blockSize) 0

/-- The two empty blocks that end an archive. -/
def trailer : Bytes := List.replicate (2 * blockSize) 0

end TagRegistry.Tar
