import TagRegistry.ObjectId
import TagRegistry.Text.Utf8

/-! A content-addressed store, seen through the four questions the registry asks it:
which references there are, which commit a reference leads to, what a directory snapshot
holds, and what a blob holds. -/

namespace TagRegistry

inductive StoreError where
  /-- There is no repository at this path. -/
  | notARepository (path : Bytes)
  /-- There is no such reference. -/
  | refNotFound (name : String)
  /-- There is no object of this name. -/
  | objectNotFound (name : String)
  /-- What is stored cannot be read. -/
  | damaged
  /-- The file of packed references cannot be read. -/
  | packedRefsCorrupt
  /-- Reading this object was made to fail. -/
  | readRefused (id : ObjectId)
  /-- Listing the references was made to fail. -/
  | listingRefused
  /-- This tree is its own descendant. -/
  | endless (tree : ObjectId)
  deriving DecidableEq, Repr

namespace StoreError

def message : StoreError → String
  | .notARepository path => s!"not a git repository: {Utf8.decodeLossy path}"
  | .refNotFound name => s!"ref not found: {name}"
  | .objectNotFound name => s!"object not found: {name}"
  | .damaged | .packedRefsCorrupt => "git error"
  | .readRefused id => s!"git error: injected read failure for {id}"
  | .listingRefused => "git error: injected enumeration failure"
  | .endless tree => s!"git error: tree {tree} contains itself"

/-- Does the error say that a reference is absent, rather than that the store is unreadable? -/
def isRefNotFound : StoreError → Bool
  | .refNotFound _ => true
  | _ => false

end StoreError

/-- The commit that a reference leads to. -/
structure Snapshot where
  tree : TreeId
  /-- Committer time in seconds since 1970. -/
  committedAt : Int64
  deriving DecidableEq, Repr

inductive EntryKind where
  | directory
  | file
  | symlink
  /-- A commit of another repository. -/
  | submodule
  deriving DecidableEq, Repr

structure TreeEntry where
  name : Bytes
  oid : ObjectId
  kind : EntryKind
  mode : UInt32
  deriving DecidableEq, Repr

/-- A store, as its answers. -/
structure ObjectStore where
  /-- Every reference name, in the store's own order. -/
  referenceNames : Except StoreError (List String)
  /-- The commit that a reference leads to, through annotated tags. -/
  peel : String → Except StoreError Snapshot
  /-- The entries of a directory snapshot, in the store's own order. -/
  readTree : ObjectId → Except StoreError (List TreeEntry)
  readBlob : ObjectId → Except StoreError Bytes
  /-- All trees that can be read. A walk nested deeper than there are trees runs in a circle. -/
  treeIds : List ObjectId
  mem_treeIds : ∀ {id : ObjectId} {entries : List TreeEntry},
    readTree id = .ok entries → id ∈ treeIds

end TagRegistry
