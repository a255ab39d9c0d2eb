import TagRegistry.Gzip.Encoder
import TagRegistry.Service.Basic
import TagRegistry.Sink.Buffered
import TagRegistry.Sink.Channel

/-! Downloading the archive of a version.

A link to an archive names the version's tree, so that it stops working when the tag is moved.
The archive is sent while it is written. The status has left by then, and so a failure can only be
told by aborting the body. -/

namespace TagRegistry

/-- What a link adds to the identifier of a tree. -/
def archiveSuffix : String := ".tgz"

/-- What a client may add to the identifier of a tree. -/
def knownSuffixes : List String := [".tar.gz", archiveSuffix]

/-- Drops the first known suffix that is there. -/
def stripSuffix (supplied : String) : String :=
  match knownSuffixes.findSome? fun suffix => Text.dropBack? suffix.toList supplied.toList with
  | some stem => String.ofList stem
  | none => supplied

/-- The link to an archive, relative to the path that it is asked for under. -/
def archiveLink (tree : TreeId) : String := "./download/" ++ tree.text ++ archiveSuffix

/-- Chunks of a body have at least this size, the last one apart. -/
def chunkSize : Nat := 32 * 1024

namespace ServedModule

/-- Goes on only if an identifier names the tree of a version. -/
def checkTree (m : ServedModule) (s : ObjectStore) (v : Version) (supplied : String) :
    Serving Unit := do
  let tree ← m.treeOf s v
  unless tree.names (stripSuffix supplied) do throw .notFound

/-- The log of a failed archive. That the client went away is no failure. -/
def archiveLog (m : ServedModule) : ArchiveError → List StoreFailure
  | .write => []
  | cause => [⟨m, cause⟩]

/-- Sends the compressed archive of a version through a channel. An archive that is not complete
is followed by an abort. -/
def sendArchive (m : ServedModule) (s : ObjectStore) (v : Version) (ch : Channel) :
    Channel × List StoreFailure :=
  match Archive.writeCompressed s v (Buffered.onto chunkSize ch) with
  | (.ok (), out) =>
    match out.flush with
    | (out, true) => (out.out, [])
    | (out, false) => (out.close.abort, [])
  | (.error e, out) => (out.close.abort, m.archiveLog e)

end ServedModule

end TagRegistry
