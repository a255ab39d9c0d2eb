import TagRegistry.Gzip.Encoder
import TagRegistry.Proofs.ArchiveRoundTrip
import TagRegistry.Proofs.Nesting

/-! What an archive depends on.

The contents of a tree are what is left of it without identifiers: names, kinds, permission bits and
octets, in the order of the store. Two trees may have the same contents in different stores, or
under different identifiers, with subtrees that are shared in one and not in the other. An archive
is written from the contents and the time of the commit, and so nothing else can show in it. -/

namespace TagRegistry

open Bytes (slash)

/-! ## Contents -/

/-- What a directory holds: its first entry, and the others next to it. -/
inductive Contents where
  | nil
  | directory (name : Bytes) (inside next : Contents)
  | file (name : Bytes) (permissions : UInt32) (content : Bytes) (next : Contents)
  | symlink (name target : Bytes) (next : Contents)
  deriving DecidableEq, Repr

/-- Everything that entries lead to can be read, and these are their contents. The mode of a
directory or a link does not count, and a commit of another repository is not asked for. -/
inductive HoldsContents (s : ObjectStore) : List TreeEntry → Contents → Prop where
  | nil : HoldsContents s [] .nil
  | directory {entry : TreeEntry} {entries inside : List TreeEntry} {below next : Contents}
      (kind : entry.kind = .directory) (tree : s.readTree entry.oid = .ok inside)
      (down : HoldsContents s inside below) (rest : HoldsContents s entries next) :
      HoldsContents s (entry :: entries) (.directory entry.name below next)
  | file {entry : TreeEntry} {entries : List TreeEntry} {content : Bytes} {next : Contents}
      (kind : entry.kind = .file) (blob : s.readBlob entry.oid = .ok content)
      (rest : HoldsContents s entries next) :
      HoldsContents s (entry :: entries) (.file entry.name (entry.mode &&& 0o7777) content next)
  | symlink {entry : TreeEntry} {entries : List TreeEntry} {target : Bytes} {next : Contents}
      (kind : entry.kind = .symlink) (blob : s.readBlob entry.oid = .ok target)
      (rest : HoldsContents s entries next) :
      HoldsContents s (entry :: entries) (.symlink entry.name target next)
  | submodule {entry : TreeEntry} {entries : List TreeEntry} {next : Contents}
      (kind : entry.kind = .submodule) (rest : HoldsContents s entries next) :
      HoldsContents s (entry :: entries) next

/-- A tree can be read to the end, and these are its contents. -/
def ContentsOf (s : ObjectStore) (tree : ObjectId) (c : Contents) : Prop :=
  ∃ entries, s.readTree tree = .ok entries ∧ HoldsContents s entries c

/-! ## Items -/

/-- The item with only the permission bits of its mode. -/
def Item.bare (item : Item) : Item :=
  match item.entity with
  | .file mode content => ⟨item.path, .file (mode &&& 0o7777) content⟩
  | .directory | .symlink _ => item

namespace Contents

/-- The items of a directory at a path, from the top. -/
def items (above : Bytes) : Contents → List Item
  | .nil => []
  | .directory name inside next =>
    ⟨above ++ name, .directory⟩ :: (inside.items (above ++ name ++ [slash]) ++ next.items above)
  | .file name permissions content next =>
    ⟨above ++ name, .file permissions content⟩ :: next.items above
  | .symlink name target next => ⟨above ++ name, .symlink target⟩ :: next.items above

end Contents

/-- Wherever a tree hangs, its items are those of its contents, but for bits of modes that are none
of the permissions. -/
theorem HoldsContents.unfolds {s : ObjectStore} {entries : List TreeEntry} {c : Contents}
    (h : HoldsContents s entries c) (above : Bytes) :
    ∃ items, Unfolds s above entries items ∧ items.map Item.bare = c.items above := by
  induction h generalizing above with
  | nil => exact ⟨[], .nil, rfl⟩
  | @directory entry entries inside _ _ kind tree _ _ ihd ihn =>
    obtain ⟨below, hdown, hbelow⟩ := ihd (above ++ entry.name ++ [slash])
    obtain ⟨items, hnext, hitems⟩ := ihn above
    refine ⟨_, .directory kind tree hdown hnext, ?_⟩
    rw [List.map_cons, List.map_append, hbelow, hitems]
    rfl
  | file kind blob _ ih =>
    obtain ⟨items, hnext, hitems⟩ := ih above
    refine ⟨_, .file kind blob hnext, ?_⟩
    rw [List.map_cons, hitems]
    rfl
  | symlink kind blob _ ih =>
    obtain ⟨items, hnext, hitems⟩ := ih above
    refine ⟨_, .symlink kind blob hnext, ?_⟩
    rw [List.map_cons, hitems]
    rfl
  | submodule kind _ ih =>
    obtain ⟨items, hnext, hitems⟩ := ih above
    exact ⟨items, .submodule kind hnext, hitems⟩

namespace Archive

/-! ## Archives -/

theorem permissions_and (mode : UInt32) : permissions (mode &&& 0o7777) = permissions mode := by
  rw [permissions_eq, permissions_eq, UInt32.and_assoc]
  rfl

/-- Only the permission bits of a mode are written. -/
theorem itemTrace_bare (mtime : Nat) (item : Item) :
    itemTrace mtime item.bare = itemTrace mtime item := by
  obtain ⟨path, entity⟩ := item
  cases entity with
  | directory | symlink target => rfl
  | file mode content =>
    unfold itemTrace Item.bare
    simp only [permissions_and]

theorem itemsTrace_bare (mtime : Nat) (items : List Item) :
    itemsTrace mtime (items.map Item.bare) = itemsTrace mtime items := by
  rw [itemsTrace, itemsTrace, List.map_map]
  exact congrArg Trace.sequence (List.map_congr_left fun item _ => itemTrace_bare mtime item)

/-- What the archive of contents is written as. -/
def contentsTrace (mtime : Nat) (c : Contents) : Trace Bytes ArchiveError :=
  (itemsTrace mtime (c.items [])).andThen (.one Tar.trailer)

/-- The identifiers that led to the contents of a snapshot do not matter, nor does the number of
levels that a walk may go down, if it suffices. -/
theorem snapshotTrace_of_contents {s : ObjectStore} {commit : Snapshot} {c : Contents} {depth : Nat}
    (h : ContentsOf s commit.tree.oid c) (hdepth : s.treeIds.length < depth) :
    snapshotTrace s depth commit = contentsTrace (memberTime commit) c := by
  obtain ⟨entries, hread, hholds⟩ := h
  obtain ⟨items, hunfolds, hitems⟩ := hholds.unfolds []
  have hsnapshot : SnapshotOf s commit.tree.oid items := ⟨entries, hread, hunfolds⟩
  have hwalk := hsnapshot.walk_eq hdepth
  rw [snapshotTrace_of_walk (by rw [hwalk]), hwalk, contentsTrace, ← hitems, itemsTrace_bare]

variable {σ : Type} [Sink σ]

theorem write_of_contents {s : ObjectStore} {v : Version} {commit : Snapshot} {c : Contents}
    (htag : s.peel v.tagRef = .ok commit) (h : ContentsOf s commit.tree.oid c) (out : σ) :
    write s v out = feed (contentsTrace (memberTime commit) c) out := by
  rw [write_eq_writeSnapshot htag, writeSnapshot_eq_feed,
    snapshotTrace_of_contents h (lt_depthFor s out)]

/-- Times before 1970 count as 1970. -/
theorem memberTime_congr {commit commit' : Snapshot}
    (h : max 0 commit.committedAt.toInt = max 0 commit'.committedAt.toInt) :
    memberTime commit = memberTime commit' := by
  unfold memberTime
  omega

/-- An archive is a function of the contents of the snapshot and of the time of the commit. -/
theorem write_determined {s s' : ObjectStore} {v v' : Version} {commit commit' : Snapshot}
    {c : Contents} (htag : s.peel v.tagRef = .ok commit) (htag' : s'.peel v'.tagRef = .ok commit')
    (htime : max 0 commit.committedAt.toInt = max 0 commit'.committedAt.toInt)
    (h : ContentsOf s commit.tree.oid c) (h' : ContentsOf s' commit'.tree.oid c) (out : σ) :
    write s v out = write s' v' out ∧ writeCompressed s v out = writeCompressed s' v' out := by
  have hwrite {τ : Type} [Sink τ] (out : τ) : write s v out = write s' v' out := by
    rw [write_of_contents htag h, write_of_contents htag' h', memberTime_congr htime]
  refine ⟨hwrite out, ?_⟩
  rw [writeCompressed, writeCompressed, hwrite]

/-- The program of `toolStore` under other identifiers, in another version of 1970, with other modes
and without a commit of another repository. -/
def movedTools : MemoryStore where
  refs := [("refs/tags/v1.0.0", ⟨⟨.ofNat 99⟩, 7⟩), ("refs/tags/v2.1.0", ⟨⟨.ofNat 8⟩, 0⟩)]
  trees := [(.ofNat 7, [⟨Bytes.ascii "run", .ofNat 6, .file, 0o755⟩]),
    (.ofNat 8, [⟨Bytes.ascii "bin", .ofNat 7, .directory, 0⟩,
      ⟨Bytes.ascii "latest", .ofNat 5, .symlink, 0o100644⟩])]
  blobs := [(.ofNat 5, Bytes.ascii "bin//run"), (.ofNat 6, Bytes.ascii "exit 0")]
  refused := []
  listingRefused := true
  count := 99

/-- The contents of both. -/
def toolContents : Contents :=
  .directory (Bytes.ascii "bin") (.file (Bytes.ascii "run") 0o755 (Bytes.ascii "exit 0") .nil)
    (.symlink (Bytes.ascii "latest") (Bytes.ascii "bin//run") .nil)

theorem contentsOf_toolStore : ContentsOf toolStore.view (.ofNat 1) toolContents :=
  ⟨_, rfl, .directory rfl rfl (.file rfl rfl .nil) (.symlink rfl rfl (.submodule rfl .nil))⟩

theorem contentsOf_movedTools : ContentsOf movedTools.view (.ofNat 8) toolContents :=
  ⟨_, rfl, .directory rfl rfl (.file rfl rfl .nil) (.symlink rfl rfl .nil)⟩

theorem write_determined_tools :
    write toolStore.view (.release 1 0 0) Collected.unlimited =
        write movedTools.view (.release 2 1 0) Collected.unlimited ∧
      writeCompressed toolStore.view (.release 1 0 0) Collected.unlimited =
        writeCompressed movedTools.view (.release 2 1 0) Collected.unlimited := by
  have htag : toolStore.view.peel (Version.release 1 0 0).tagRef = .ok ⟨⟨.ofNat 1⟩, -5⟩ := rfl
  have htag' : movedTools.view.peel (Version.release 2 1 0).tagRef = .ok ⟨⟨.ofNat 8⟩, 0⟩ := rfl
  exact write_determined htag htag' (by decide) contentsOf_toolStore contentsOf_movedTools
    Collected.unlimited

end Archive

end TagRegistry
