import TagRegistry.Store.Basic
import TagRegistry.Version.Order
import TagRegistry.Version.Parser

/-! The versions of one store, as its references name them.

Nothing is kept between two questions: each one lists the references again. -/

namespace TagRegistry

/-- Front part of the references that name versions. -/
def versionTagMark : List Char := "refs/tags/v".toList

/-- The version that a reference names, if it is shaped like one. -/
def versionOfRef? (name : String) : Option Version :=
  (Text.dropFront? versionTagMark name.toList).bind fun rest =>
    (Version.parse (String.ofList rest)).toOption

/-- The tag that a version resolves through. -/
def Version.tagRef (v : Version) : String := String.ofList (versionTagMark ++ v.chars)

namespace Catalog

/-- Drops the versions that `last` or an element before them is equivalent to, as long as they
follow each other. -/
def distinctAfter (last : Version) : List Version → List Version
  | [] => []
  | v :: rest =>
    if last.equivalent v then distinctAfter last rest else v :: distinctAfter v rest

/-- Keeps the first of each run of equivalent versions. -/
def distinct : List Version → List Version
  | [] => []
  | v :: rest => v :: distinctAfter v rest

/-- Sorts from high to low; versions of equal precedence keep their order. -/
def descending (versions : List Version) : List Version := versions.mergeSort Version.atLeast

/-- The versions that a list of reference names stands for, highest first, each class of equal
precedence once, as the first name of the class spells it. -/
def ofNames (names : List String) : List Version :=
  distinct (descending (names.filterMap versionOfRef?))

def listVersions (s : ObjectStore) : Except StoreError (List Version) := do
  return ofNames (← s.referenceNames)

def latestVersion? (s : ObjectStore) : Except StoreError (Option Version) := do
  return (← listVersions s).head?

/-- Does some version tag have the precedence of `v`? -/
def hasVersion (s : ObjectStore) (v : Version) : Except StoreError Bool := do
  return ((← s.referenceNames).filterMap versionOfRef?).any fun w => w.equivalent v

def resolveCommit (s : ObjectStore) (v : Version) : Except StoreError Snapshot := s.peel v.tagRef

def resolveTree (s : ObjectStore) (v : Version) : Except StoreError TreeId := do
  return (← resolveCommit s v).tree

end Catalog

end TagRegistry
