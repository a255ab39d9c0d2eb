import TagRegistry.Proofs.ArchiveTrace
import TagRegistry.Proofs.TarName
import TagRegistry.Store.Memory

/-! Reading an archive gives back the snapshot.

Every item is written as one member, with records for long names in front of it, and read as a
member that shows the item. So an archive is read as the items of the snapshot in their order. -/

namespace TagRegistry

open Tar
open Bytes (slash beforeNul)

/-! ## Members and items -/

/-- The octets that an entity holds. -/
def Entity.content : Entity → Bytes
  | .directory => []
  | .file _ content => content
  | .symlink target => target

/-- An item that fits into the memory of a 64-bit machine. -/
structure Item.Addressable (item : Item) : Prop where
  path : item.path.length < 2 ^ 63
  content : item.entity.content.length < 2 ^ 63

/-- A member that stands for an item of a commit's snapshot. -/
structure Shows (commit : Snapshot) (item : Item) (m : Member) : Prop where
  time : (m.mtime : Int) = max 0 commit.committedAt.toInt
  nobody : m.owner = 0 ∧ m.group = 0 ∧ m.ownerName = [] ∧ m.groupName = []
  entity : match item.entity with
    | .directory => m.kind = .directory ∧ m.path = item.path ++ [slash] ∧ m.mode = 0o755 ∧
        m.content = []
    | .file mode content => m.kind = .file ∧ m.path = item.path ∧
        m.mode = (mode &&& 0o7777).toNat ∧ m.content = content
    | .symlink target => m.kind = .symlink ∧ m.path = item.path ∧
        Path.components m.target = Path.components target ∧ m.content = []

theorem permissions_eq (mode : UInt32) : Archive.permissions mode = (mode &&& 0o7777).toNat := by
  rw [UInt32.toNat_and]
  exact (Nat.and_two_pow_sub_one_eq_mod mode.toNat 12).symm

theorem permissions_lt (mode : UInt32) : Archive.permissions mode < 8 ^ 7 :=
  Nat.lt_trans (Nat.mod_lt _ (by decide)) (by decide)

theorem memberTime_lt (commit : Snapshot) : Archive.memberTime commit < 2 ^ 63 := by
  have h := commit.committedAt.toInt_lt
  unfold Archive.memberTime
  omega

theorem memberTime_eq (commit : Snapshot) :
    (Archive.memberTime commit : Int) = max 0 commit.committedAt.toInt := by
  unfold Archive.memberTime
  omega

namespace Archive

/-! ## Traces read back -/

/-- The octets of a trace. -/
def octetsOf (t : Trace Bytes ArchiveError) : Bytes := t.events.flatten

theorem octetsOf_andThen {a b : Trace Bytes ArchiveError} (h : a.outcome = .ok ()) :
    octetsOf (a.andThen b) = octetsOf a ++ octetsOf b := by
  rw [octetsOf, Trace.events_andThen h, List.flatten_append]
  rfl

theorem octetsOf_memberTrace (h : Header) (content : Bytes) (rest : Bytes) :
    octetsOf (memberTrace h content) ++ rest =
      h.encode ++ (content ++ (padding content.length ++ rest)) := by
  simp [octetsOf, memberTrace]

/-- How a name or target is read: from its record if it has one, and else from its field. -/
def readBack (r : Recorded) (name : Bytes) : Bytes :=
  beforeNul (if r.isLong then name else fit fieldSize r.field)

/-- A record for a long name is read as the name of the next member. -/
theorem readMembers?_longName {isLong : Bool} {name rest : Bytes} {mtime : Nat}
    {target? : Option Bytes} (hlength : name.length < 2 ^ 63 + 1) (hmtime : mtime < 2 ^ 63) :
    readMembers? none target? (octetsOf (longTrace isLong .longName name mtime) ++ rest) =
      readMembers? (if isLong then some (beforeNul name) else none) target? rest := by
  cases isLong with
  | false => rfl
  | true =>
    have hfits : Header.Fits ⟨.longName, longRecordName, 0o644, name.length + 1, mtime, []⟩ :=
      ⟨(by decide : 0o644 < 8 ^ 7), (by omega : name.length + 1 < 2 ^ 64),
        (by omega : mtime < 2 ^ 64)⟩
    have hread : beforeNul (name ++ [0]) = beforeNul name := beforeNul_append_zeros name 1
    rw [longTrace, if_pos rfl, octetsOf_memberTrace, readMembers?_encode hfits (by simp)]
    simp only [hread, if_true]

/-- A record for a long target is read as the target of the next member. -/
theorem readMembers?_longLink {isLong : Bool} {target rest : Bytes} {name? : Option Bytes}
    (hlength : target.length < 2 ^ 63) :
    readMembers? name? none (octetsOf (longTrace isLong .longLink target 0) ++ rest) =
      readMembers? name? (if isLong then some (beforeNul target) else none) rest := by
  cases isLong with
  | false => rfl
  | true =>
    have hfits : Header.Fits ⟨.longLink, longRecordName, 0o644, target.length + 1, 0, []⟩ :=
      ⟨(by decide : 0o644 < 8 ^ 7), (by omega : target.length + 1 < 2 ^ 64),
        (by decide : 0 < 2 ^ 64)⟩
    have hread : beforeNul (target ++ [0]) = beforeNul target := beforeNul_append_zeros target 1
    rw [longTrace, if_pos rfl, octetsOf_memberTrace, readMembers?_encode hfits (by simp)]
    simp only [hread, if_true]

theorem getD_record (r : Recorded) (name : Bytes) :
    (if r.isLong then some (beforeNul name) else none).getD (beforeNul (fit fieldSize r.field)) =
      readBack r name := by
  unfold readBack
  cases r.isLong <;> rfl

/-- A member that an item has been written as. -/
structure WrittenAs (mtime : Nat) (item : Item) (m : Member) : Prop where
  time : m.mtime = mtime
  nobody : m.owner = 0 ∧ m.group = 0 ∧ m.ownerName = [] ∧ m.groupName = []
  entity : match item.entity with
    | .directory => m.kind = .directory ∧ m.path = beforeNul (item.path ++ [slash]) ∧
        m.mode = 0o755 ∧ m.content = []
    | .file mode content => m.kind = .file ∧
        (∃ name, recordName item.path = .ok name ∧ m.path = readBack name item.path) ∧
        m.mode = permissions mode ∧ m.content = content
    | .symlink target => m.kind = .symlink ∧
        (∃ name, recordName item.path = .ok name ∧ m.path = readBack name item.path ∧
          ∃ link, recordLink name.field target = .ok link ∧ m.target = readBack link target) ∧
        m.content = []

/-- Octets that are read as one member that an item has been written as. -/
def ReadsAs (mtime : Nat) (item : Item) (octets : Bytes) : Prop :=
  ∃ m, WrittenAs mtime item m ∧
    ∀ rest, readMembers? none none (octets ++ rest) = (readMembers? none none rest).map (m :: ·)

theorem named_ok {path : Bytes} {f : Recorded → Trace Bytes ArchiveError}
    {answer : Except NameError Recorded} (h : (named path f answer).outcome = .ok ()) :
    ∃ r, answer = .ok r ∧ named path f answer = f r := by
  cases answer with
  | error cause => cases h
  | ok r => exact ⟨r, rfl, rfl⟩

theorem readMembers?_member {h : Header} (hfits : h.Fits) {name? target? : Option Bytes}
    {content rest : Bytes} (hsize : h.size = content.length) (hname : h.kind ≠ .longName)
    (hlink : h.kind ≠ .longLink) :
    readMembers? name? target? (octetsOf (memberTrace h content) ++ rest) =
      (readMembers? none none rest).map (h.head.member name? target? content :: ·) := by
  rw [octetsOf_memberTrace, readMembers?_encode hfits hsize]
  split
  · exact absurd ‹_› hname
  · exact absurd ‹_› hlink
  · rfl

section Items

variable {mtime : Nat} {path : Bytes}

theorem readsAs_directory (htime : mtime < 2 ^ 63) (hlength : path.length < 2 ^ 63) :
    ReadsAs mtime ⟨path, .directory⟩ (octetsOf (itemTrace mtime ⟨path, .directory⟩)) := by
  have hlong : (path ++ [slash]).length < 2 ^ 63 + 1 := by
    rw [List.length_append, List.length_singleton]
    omega
  let h : Header := ⟨.directory, path ++ [slash], 0o755, 0, mtime, []⟩
  have hfits : h.Fits :=
    ⟨(by decide : 0o755 < 8 ^ 7), (by decide : 0 < 2 ^ 64), (by omega : mtime < 2 ^ 64)⟩
  refine ⟨h.head.member (if fieldSize < (path ++ [slash]).length then
    some (beforeNul (path ++ [slash])) else none) none [], ?_, fun rest => ?_⟩
  · refine ⟨rfl, ⟨rfl, rfl, rfl, rfl⟩, rfl, ?_, rfl, rfl⟩
    change Option.getD _ (beforeNul (fit fieldSize (path ++ [slash]))) = _
    split
    · rfl
    · next hshort => exact beforeNul_fit (Nat.le_of_not_lt hshort)
  · unfold itemTrace
    simp only []
    rw [octetsOf_andThen (longTrace_ok _ _ _ _), List.append_assoc,
      readMembers?_longName hlong htime, readMembers?_member hfits rfl nofun nofun]
    simp only [decide_eq_true_eq]

theorem readsAs_file {content : Bytes} {mode : UInt32} (htime : mtime < 2 ^ 63)
    (hlength : path.length < 2 ^ 63) (hcontent : content.length < 2 ^ 63)
    (hok : (itemTrace mtime ⟨path, .file mode content⟩).outcome = .ok ()) :
    ReadsAs mtime ⟨path, .file mode content⟩
      (octetsOf (itemTrace mtime ⟨path, .file mode content⟩)) := by
  obtain ⟨name, hname, heq⟩ := named_ok hok
  let h : Header := ⟨.file, name.field, permissions mode, content.length, mtime, []⟩
  have hfits : h.Fits :=
    ⟨permissions_lt mode, (by omega : content.length < 2 ^ 64), (by omega : mtime < 2 ^ 64)⟩
  refine ⟨h.head.member (if name.isLong then some (beforeNul path) else none) none content,
    ⟨rfl, ⟨rfl, rfl, rfl, rfl⟩, rfl, ⟨name, hname, getD_record name path⟩, rfl, rfl⟩,
    fun rest => ?_⟩
  unfold itemTrace
  simp only []
  rw [heq, octetsOf_andThen (longTrace_ok _ _ _ _), List.append_assoc,
    readMembers?_longName (Nat.lt_succ_of_lt hlength) (by decide),
    readMembers?_member hfits rfl nofun nofun]

theorem readsAs_symlink {target : Bytes} (htime : mtime < 2 ^ 63) (hlength : path.length < 2 ^ 63)
    (htarget : target.length < 2 ^ 63)
    (hok : (itemTrace mtime ⟨path, .symlink target⟩).outcome = .ok ()) :
    ReadsAs mtime ⟨path, .symlink target⟩
      (octetsOf (itemTrace mtime ⟨path, .symlink target⟩)) := by
  unfold itemTrace at hok ⊢
  simp only [] at hok ⊢
  obtain ⟨name, hname, heq⟩ := named_ok hok
  rw [heq] at hok ⊢
  obtain ⟨-, hok⟩ := Trace.andThen_ok_iff.mp hok
  obtain ⟨link, hlink, heq⟩ := named_ok hok
  let h : Header := ⟨.symlink, name.field, 0o777, 0, mtime, link.field⟩
  have hfits : h.Fits :=
    ⟨(by decide : 0o777 < 8 ^ 7), (by decide : 0 < 2 ^ 64), (by omega : mtime < 2 ^ 64)⟩
  refine ⟨h.head.member (if name.isLong then some (beforeNul path) else none)
    (if link.isLong then some (beforeNul target) else none) [],
    ⟨rfl, ⟨rfl, rfl, rfl, rfl⟩, rfl, ⟨name, hname, getD_record name path, link, hlink,
      getD_record link target⟩, rfl⟩, fun rest => ?_⟩
  rw [octetsOf_andThen (longTrace_ok _ _ _ _), heq,
    octetsOf_andThen (longTrace_ok _ _ _ _), List.append_assoc, List.append_assoc,
    readMembers?_longName (Nat.lt_succ_of_lt hlength) (by decide), readMembers?_longLink htarget,
    readMembers?_member hfits rfl nofun nofun]

theorem readsAs_item {item : Item} (htime : mtime < 2 ^ 63) (hsize : item.Addressable)
    (hok : (itemTrace mtime item).outcome = .ok ()) :
    ReadsAs mtime item (octetsOf (itemTrace mtime item)) := by
  obtain ⟨path, entity⟩ := item
  cases entity with
  | directory => exact readsAs_directory htime hsize.path
  | file mode content => exact readsAs_file htime hsize.path hsize.content hok
  | symlink target => exact readsAs_symlink htime hsize.path hsize.content hok

/-- Items written one after the other are read as one member each, in their order. -/
theorem read_items {items : List Item} (htime : mtime < 2 ^ 63)
    (hsize : ∀ item ∈ items, item.Addressable)
    (hok : (itemsTrace mtime items).outcome = .ok ()) :
    ∃ members, List.Forall₂ (WrittenAs mtime) items members ∧ ∀ rest,
      readMembers? none none (octetsOf (itemsTrace mtime items) ++ rest) =
        (readMembers? none none rest).map (members ++ ·) := by
  -- What follows the items stays free: behind the first one it begins with the others.
  induction items with
  | nil => exact ⟨[], .nil, fun rest => by simp [octetsOf, itemsTrace, Trace.sequence, Trace.done]⟩
  | cons item items ih =>
    rw [itemsTrace, List.map_cons, Trace.sequence] at hok ⊢
    obtain ⟨hitem, hrest⟩ := Trace.andThen_ok_iff.mp hok
    obtain ⟨m, hwritten, hread⟩ := readsAs_item htime (hsize item List.mem_cons_self) hitem
    obtain ⟨members, hall, hreads⟩ := ih (fun i hi => hsize i (List.mem_cons_of_mem item hi)) hrest
    refine ⟨m :: members, .cons hwritten hall, fun rest => ?_⟩
    rw [octetsOf_andThen hitem, List.append_assoc, hread, ← itemsTrace, hreads, Option.map_map]
    rfl

end Items

/-! ## Archives read back -/

/-- What a snapshot is written as is read as one member for each of its items. -/
theorem written_snapshotTrace {s : ObjectStore} {commit : Snapshot} {depth : Nat}
    (hsize : ∀ items, SnapshotOf s commit.tree.oid items → ∀ item ∈ items, item.Addressable)
    (hok : (snapshotTrace s depth commit).outcome = .ok ()) :
    ∃ items members, SnapshotOf s commit.tree.oid items ∧
      List.Forall₂ (WrittenAs (memberTime commit)) items members ∧
      Tar.read? (octetsOf (snapshotTrace s depth commit)) = some members := by
  have hwalk := walk_of_snapshotTrace hok
  have hsnapshot := snapshotOf_walk hwalk
  rw [snapshotTrace_of_walk hwalk] at hok ⊢
  obtain ⟨hitems, -⟩ := Trace.andThen_ok_iff.mp hok
  obtain ⟨members, hall, hreads⟩ := read_items (memberTime_lt commit) (hsize _ hsnapshot) hitems
  refine ⟨_, members, hsnapshot, hall, ?_⟩
  have htrailer : octetsOf (.one trailer) = trailer := List.append_nil trailer
  rw [octetsOf_andThen hitems, Tar.read?, hreads, htrailer, readMembers?_trailer, Option.map_some,
    List.append_nil]

theorem written_write {σ : Type} [Sink σ] (all : TakesAll σ) {s : ObjectStore} {v : Version}
    {commit : Snapshot} {out out' : σ} (hready : all.ready out)
    (htag : s.peel v.tagRef = .ok commit)
    (hsize : ∀ items, SnapshotOf s commit.tree.oid items → ∀ item ∈ items, item.Addressable)
    (hwrite : write s v out = (.ok (), out')) :
    ∃ items octets members, SnapshotOf s commit.tree.oid items ∧
      all.taken out' = all.taken out ++ octets ∧ Tar.read? octets = some members ∧
      List.Forall₂ (WrittenAs (memberTime commit)) items members := by
  obtain ⟨last, hlast, -, htaken⟩ := write_takesAll all hready htag
  rw [hlast] at hwrite
  obtain ⟨hok, rfl⟩ := Prod.mk.inj hwrite
  obtain ⟨items, members, hsnapshot, hwritten, hread⟩ := written_snapshotTrace hsize hok
  exact ⟨items, _, members, hsnapshot, htaken, hread, hwritten⟩

/-- A legal path is read as it is. -/
theorem readBack_name {path : Bytes} {r : Recorded} (h : Path.LegalPath path)
    (hr : recordName path = .ok r) : readBack r path = path := by
  unfold readBack
  split
  · exact beforeNul_of_not_mem h.no_nul
  · next hshort => exact recordName_short h hr (by simpa using hshort)

/-- A target is read as a text that leads through the same steps. -/
theorem readBack_target {nameField target : Bytes} {r : Recorded} (h : 0 ∉ target)
    (hr : recordLink nameField target = .ok r) :
    Path.components (readBack r target) = Path.components target := by
  unfold readBack
  split
  · rw [beforeNul_of_not_mem h]
  · next hshort => exact recordLink_short hr (by simpa using hshort)

/-- The member that a legal item has been written as shows it. -/
theorem WrittenAs.shows {commit : Snapshot} {item : Item} {m : Member}
    (h : WrittenAs (memberTime commit) item m) (hlegal : item.Legal) : Shows commit item m := by
  obtain ⟨path, entity⟩ := item
  obtain ⟨htime, hnobody, hentity⟩ := h
  refine ⟨by rw [htime, memberTime_eq], hnobody, ?_⟩
  cases entity with
  | directory =>
    obtain ⟨hkind, hpath, hmode, hcontent⟩ := hentity
    have hnul : 0 ∉ path ++ [slash] := by simpa using ⟨hlegal.path.no_nul, by decide⟩
    exact ⟨hkind, hpath.trans (beforeNul_of_not_mem hnul), hmode, hcontent⟩
  | file mode content =>
    obtain ⟨hkind, ⟨name, hname, hpath⟩, hmode, hcontent⟩ := hentity
    exact ⟨hkind, hpath.trans (readBack_name hlegal.path hname), hmode.trans (permissions_eq mode),
      hcontent⟩
  | symlink target =>
    obtain ⟨hkind, ⟨name, hname, hpath, link, hlink, htarget⟩, hcontent⟩ := hentity
    refine ⟨hkind, hpath.trans (readBack_name hlegal.path hname), ?_, hcontent⟩
    rw [htarget, readBack_target (hlegal.target rfl) hlink]

theorem shows_of_written {commit : Snapshot} {items : List Item} {members : List Member}
    (h : List.Forall₂ (WrittenAs (memberTime commit)) items members)
    (hlegal : ∀ item ∈ items, item.Legal) : List.Forall₂ (Shows commit) items members := by
  induction h with
  | nil => exact .nil
  | cons hitem _ ih =>
    obtain ⟨hfirst, hrest⟩ := List.forall_mem_cons.mp hlegal
    exact .cons (hitem.shows hfirst) (ih hrest)

/-- The archive of a version is read as the items of its snapshot, each as one member, in the order
of the walk and with nothing else. -/
theorem read_write {σ : Type} [Sink σ] (all : TakesAll σ) {s : ObjectStore} {v : Version}
    {commit : Snapshot} {out out' : σ} (hready : all.ready out)
    (htag : s.peel v.tagRef = .ok commit) (hordinary : Ordinary s commit.tree.oid)
    (hsize : ∀ items, SnapshotOf s commit.tree.oid items → ∀ item ∈ items, item.Addressable)
    (hwrite : write s v out = (.ok (), out')) :
    ∃ items octets members, SnapshotOf s commit.tree.oid items ∧
      all.taken out' = all.taken out ++ octets ∧ Tar.read? octets = some members ∧
      List.Forall₂ (Shows commit) items members := by
  obtain ⟨items, octets, members, hsnapshot, htaken, hread, hwritten⟩ :=
    written_write all hready htag hsize hwrite
  exact ⟨items, octets, members, hsnapshot, htaken, hread,
    shows_of_written hwritten (hsnapshot.legal hordinary)⟩

/-- A program in a directory, a link to it, and a commit of another repository. -/
def toolStore : MemoryStore where
  refs := [("refs/tags/v1.0.0", ⟨⟨.ofNat 1⟩, -5⟩)]
  trees := [(.ofNat 1, [⟨Bytes.ascii "bin", .ofNat 2, .directory, 0o40000⟩,
      ⟨Bytes.ascii "latest", .ofNat 3, .symlink, 0o120000⟩,
      ⟨Bytes.ascii "vendor", .ofNat 9, .submodule, 0o160000⟩]),
    (.ofNat 2, [⟨Bytes.ascii "run", .ofNat 4, .file, 0o100755⟩])]
  blobs := [(.ofNat 3, Bytes.ascii "bin//run"), (.ofNat 4, Bytes.ascii "exit 0")]
  refused := []
  listingRefused := false
  count := 4

theorem readTree_toolStore {tree : ObjectId} {entries : List TreeEntry}
    (hreach : Reachable toolStore.view (.ofNat 1) tree)
    (hread : toolStore.view.readTree tree = .ok entries) :
    entries = [⟨Bytes.ascii "bin", .ofNat 2, .directory, 0o40000⟩,
        ⟨Bytes.ascii "latest", .ofNat 3, .symlink, 0o120000⟩,
        ⟨Bytes.ascii "vendor", .ofNat 9, .submodule, 0o160000⟩] ∨
      entries = [⟨Bytes.ascii "run", .ofNat 4, .file, 0o100755⟩] := by
  induction hreach generalizing entries with
  | root => exact .inl (Except.ok.inj (hread.symm.trans rfl))
  | step _ read mem kind ih =>
    obtain rfl | rfl := ih read
    · simp only [List.mem_cons, List.not_mem_nil, or_false] at mem
      obtain rfl | rfl | rfl := mem
      · exact .inr (Except.ok.inj (hread.symm.trans rfl))
      · cases kind
      · cases kind
    · rw [List.mem_singleton.mp mem] at kind
      cases kind

theorem ordinary_toolStore : Ordinary toolStore.view (.ofNat 1) where
  names hreach hread hmem := by
    obtain rfl | rfl := readTree_toolStore hreach hread
    · simp only [List.mem_cons, List.not_mem_nil, or_false] at hmem
      obtain rfl | rfl | rfl := hmem <;>
        exact ⟨by decide, by decide, by decide, by decide, by decide⟩
    · rw [List.mem_singleton.mp hmem]
      exact ⟨by decide, by decide, by decide, by decide, by decide⟩
  targets hreach hread hmem hkind hblob := by
    obtain rfl | rfl := readTree_toolStore hreach hread
    · simp only [List.mem_cons, List.not_mem_nil, or_false] at hmem
      obtain rfl | rfl | rfl := hmem
      · cases hkind
      · have htarget : _ = Bytes.ascii "bin//run" := Except.ok.inj (hblob.symm.trans rfl)
        rw [htarget]
        decide
      · cases hkind
    · rw [List.mem_singleton.mp hmem] at hkind
      cases hkind

/-- The snapshot of the store, item by item. -/
theorem snapshotOf_toolStore : SnapshotOf toolStore.view (.ofNat 1)
    [⟨Bytes.ascii "bin", .directory⟩,
      ⟨Bytes.ascii "bin/run", .file 0o100755 (Bytes.ascii "exit 0")⟩,
      ⟨Bytes.ascii "latest", .symlink (Bytes.ascii "bin//run")⟩] :=
  snapshotOf_walk (rfl : (walk toolStore.view 4 (.ofNat 1) []).outcome = .ok ())

/-- The archive of the tool store is written. -/
theorem write_toolStore : ∃ out : Collected,
    write toolStore.view (.release 1 0 0) .unlimited = (.ok (), out) := by
  have htag : toolStore.view.peel (Version.release 1 0 0).tagRef = .ok ⟨⟨.ofNat 1⟩, -5⟩ := rfl
  have hok : (snapshotTrace toolStore.view 4 ⟨⟨.ofNat 1⟩, -5⟩).outcome = .ok () :=
    Trace.outcome_ok_iff.mpr (by decide +kernel)
  have hready : Collected.takesAll.ready .unlimited := rfl
  obtain ⟨out, hwrite, -, -⟩ := write_takesAll Collected.takesAll hready htag
  exact ⟨out, hwrite.trans (congrArg (·, out) hok)⟩

theorem addressable_toolStore {items : List Item}
    (hitems : SnapshotOf toolStore.view (.ofNat 1) items) : ∀ item ∈ items, item.Addressable := by
  intro item hmem
  rw [hitems.unique snapshotOf_toolStore] at hmem
  simp only [List.mem_cons, List.not_mem_nil, or_false] at hmem
  obtain rfl | rfl | rfl := hmem
  · exact ⟨by decide, by decide⟩
  · exact ⟨by decide, by decide⟩
  · exact ⟨by decide, by decide⟩

theorem read_write_toolStore :
    ∃ members, (∃ out octets, write toolStore.view (.release 1 0 0) Collected.unlimited =
        (.ok (), out) ∧ out.toList = octets ∧ Tar.read? octets = some members) ∧
      List.Forall₂ (Shows ⟨⟨.ofNat 1⟩, -5⟩) [⟨Bytes.ascii "bin", .directory⟩,
        ⟨Bytes.ascii "bin/run", .file 0o100755 (Bytes.ascii "exit 0")⟩,
        ⟨Bytes.ascii "latest", .symlink (Bytes.ascii "bin//run")⟩] members := by
  have htag : toolStore.view.peel (Version.release 1 0 0).tagRef = .ok ⟨⟨.ofNat 1⟩, -5⟩ := rfl
  have hready : Collected.takesAll.ready .unlimited := rfl
  obtain ⟨out, hwritten⟩ := write_toolStore
  obtain ⟨items, octets, members, hitems, htaken, hread, hshows⟩ :=
    read_write Collected.takesAll hready htag ordinary_toolStore
      (fun _ => addressable_toolStore) hwritten
  rw [hitems.unique snapshotOf_toolStore] at hshows
  exact ⟨members, ⟨out, octets, hwritten, htaken, hread⟩, hshows⟩

end Archive

end TagRegistry
