import TagRegistry.Proofs.ArchiveRoundTrip

/-! What is left of an archive when writing stops.

An archive is written record by record, and every record fills whole blocks. When writing stops,
the members of the first items are left, and perhaps the records for the long names of the next one.
No empty block stands where a record may begin, so nobody takes what is left for an archive. -/

namespace TagRegistry

open Tar
open Bytes (slash)

namespace Archive

/-! ## Records -/

/-- A header with a content of the length that it says. -/
structure Record where
  header : Header
  content : Bytes
  size : header.size = content.length

namespace Record

def octets (r : Record) : Bytes :=
  r.header.encode ++ (r.content ++ padding r.content.length)

/-- The record carries the name or the target of the next one. -/
def IsLong (r : Record) : Prop := r.header.kind = .longName ∨ r.header.kind = .longLink

theorem blockSize_dvd_octets (r : Record) : blockSize ∣ r.octets.length := by
  rw [octets, List.length_append, List.length_append, r.header.length_encode, length_padding]
  exact Nat.dvd_add (Nat.dvd_refl _) (Nat.dvd_mul_left _ _)

theorem blockSize_dvd (rs : List Record) : blockSize ∣ (rs.flatMap octets).length := by
  induction rs with
  | nil => exact Nat.dvd_zero _
  | cons r rs ih =>
    rw [List.flatMap_cons, List.length_append]
    exact Nat.dvd_add r.blockSize_dvd_octets ih

/-- Where a record begins, or where the last one ends, there is no empty block. -/
theorem take_ne_emptyBlock (rs : List Record) :
    (rs.flatMap octets).take blockSize ≠ emptyBlock := by
  cases rs with
  | nil => exact nofun
  | cons r rs =>
    rw [List.flatMap_cons, octets, List.append_assoc, List.take_left' r.header.length_encode]
    exact r.header.encode_ne_emptyBlock

/-- Records alone are no archive. -/
theorem readMembers?_eq_none {rs : List Record} (hfits : ∀ r ∈ rs, r.header.Fits)
    (name? target? : Option Bytes) : readMembers? name? target? (rs.flatMap octets) = none := by
  induction rs generalizing name? target? with
  | nil => rw [List.flatMap_nil, readMembers?, if_pos (by decide)]
  | cons r rs ih =>
    obtain ⟨hfirst, hrest⟩ := List.forall_mem_cons.mp hfits
    rw [List.flatMap_cons, octets, List.append_assoc, List.append_assoc,
      readMembers?_encode hfirst r.size]
    split
    · exact ih hrest _ _
    · exact ih hrest _ _
    · rw [ih hrest, Option.map_none]

end Record

theorem octetsOf_record (r : Record) : octetsOf (memberTrace r.header r.content) = r.octets := by
  simp [octetsOf, memberTrace, Record.octets]

/-- The record for a long name or target, if there is one. -/
def longRecords (isLong : Bool) (kind : Kind) (name : Bytes) (mtime : Nat) : List Record :=
  if isLong then
    [⟨⟨kind, longRecordName, 0o644, name.length + 1, mtime, []⟩, name ++ [0], by simp⟩]
  else []

section Long

variable {isLong : Bool} {kind : Kind} {name : Bytes} {mtime : Nat}

theorem octetsOf_longTrace :
    octetsOf (longTrace isLong kind name mtime) =
      (longRecords isLong kind name mtime).flatMap Record.octets := by
  cases isLong with
  | false => rfl
  | true =>
    rw [longTrace, longRecords, if_pos rfl, if_pos rfl, List.flatMap_singleton, ← octetsOf_record]

theorem isLong_of_mem (hkind : kind = .longName ∨ kind = .longLink) :
    ∀ r ∈ longRecords isLong kind name mtime, r.IsLong := by
  intro r hmem
  cases isLong with
  | false => cases hmem
  | true =>
    rw [longRecords, if_pos rfl, List.mem_singleton] at hmem
    rw [hmem]
    exact hkind

theorem fits_of_mem (hname : name.length < 2 ^ 63 + 1) (hmtime : mtime < 2 ^ 63) :
    ∀ r ∈ longRecords isLong kind name mtime, r.header.Fits := by
  intro r hmem
  cases isLong with
  | false => cases hmem
  | true =>
    rw [longRecords, if_pos rfl, List.mem_singleton] at hmem
    rw [hmem]
    exact ⟨(by decide : 0o644 < 8 ^ 7), (by omega : name.length + 1 < 2 ^ 64),
      (by omega : mtime < 2 ^ 64)⟩

end Long

/-! ## Items -/

/-- Records of a whole member: those for its long names, and its own. -/
structure MemberOf (mtime : Nat) (item : Item) (records : List Record) : Prop where
  octets : octetsOf (itemTrace mtime item) = records.flatMap Record.octets
  complete : ∃ longs own, records = longs ++ [own] ∧ (∀ r ∈ longs, r.IsLong) ∧ ¬own.IsLong
  fits : mtime < 2 ^ 63 → item.Addressable → ∀ r ∈ records, r.header.Fits

/-- What is left of a member that is refused. -/
structure RemainsOf (mtime : Nat) (item : Item) (records : List Record) : Prop where
  octets : octetsOf (itemTrace mtime item) = records.flatMap Record.octets
  long : ∀ r ∈ records, r.IsLong
  fits : mtime < 2 ^ 63 → item.Addressable → ∀ r ∈ records, r.header.Fits

section Items

variable {mtime : Nat} {path : Bytes}

theorem exists_memberOf_directory : ∃ records, MemberOf mtime ⟨path, .directory⟩ records := by
  refine ⟨longRecords (fieldSize < (path ++ [slash]).length) .longName (path ++ [slash]) mtime ++
    [⟨⟨.directory, path ++ [slash], 0o755, 0, mtime, []⟩, [], rfl⟩], ?_, ?_, ?_⟩
  · unfold itemTrace
    simp only []
    rw [octetsOf_andThen (longTrace_ok _ _ _ _), octetsOf_longTrace, List.flatMap_append,
      List.flatMap_singleton, ← octetsOf_record]
  · exact ⟨_, _, rfl, isLong_of_mem (.inl rfl), nofun⟩
  · intro hmtime hsize
    have hpath := hsize.path
    refine List.forall_mem_append.mpr ⟨fits_of_mem ?_ hmtime, ?_⟩
    · simpa using Nat.succ_lt_succ hpath
    · rw [List.forall_mem_singleton]
      exact ⟨(by decide : 0o755 < 8 ^ 7), (by decide : 0 < 2 ^ 64), (by omega : mtime < 2 ^ 64)⟩

theorem exists_memberOf_file {mode : UInt32} {content : Bytes}
    (hok : (itemTrace mtime ⟨path, .file mode content⟩).outcome = .ok ()) :
    ∃ records, MemberOf mtime ⟨path, .file mode content⟩ records := by
  obtain ⟨name, -, heq⟩ := named_ok hok
  refine ⟨longRecords name.isLong .longName path 0 ++
    [⟨⟨.file, name.field, permissions mode, content.length, mtime, []⟩, content, rfl⟩], ?_, ?_, ?_⟩
  · unfold itemTrace
    simp only []
    rw [heq, octetsOf_andThen (longTrace_ok _ _ _ _), octetsOf_longTrace, List.flatMap_append,
      List.flatMap_singleton, ← octetsOf_record]
  · exact ⟨_, _, rfl, isLong_of_mem (.inl rfl), nofun⟩
  · intro hmtime hsize
    refine List.forall_mem_append.mpr
      ⟨fits_of_mem (Nat.lt_succ_of_lt hsize.path) (by decide), ?_⟩
    have hcontent : content.length < 2 ^ 63 := hsize.content
    rw [List.forall_mem_singleton]
    exact ⟨permissions_lt mode, (by omega : content.length < 2 ^ 64), (by omega : mtime < 2 ^ 64)⟩

theorem exists_memberOf_symlink {target : Bytes}
    (hok : (itemTrace mtime ⟨path, .symlink target⟩).outcome = .ok ()) :
    ∃ records, MemberOf mtime ⟨path, .symlink target⟩ records := by
  obtain ⟨name, -, heq⟩ := named_ok hok
  have hitem : itemTrace mtime ⟨path, .symlink target⟩ = _ := heq
  rw [hitem] at hok
  obtain ⟨-, hok⟩ := Trace.andThen_ok_iff.mp hok
  obtain ⟨link, -, hlink⟩ := named_ok hok
  refine ⟨(longRecords name.isLong .longName path 0 ++
    longRecords link.isLong .longLink target 0) ++
      [⟨⟨.symlink, name.field, 0o777, 0, mtime, link.field⟩, [], rfl⟩], ?_, ?_, ?_⟩
  · rw [hitem, octetsOf_andThen (longTrace_ok _ _ _ _), hlink,
      octetsOf_andThen (longTrace_ok _ _ _ _), octetsOf_longTrace, octetsOf_longTrace,
      List.flatMap_append, List.flatMap_append, List.flatMap_singleton, ← octetsOf_record,
      List.append_assoc]
  · exact ⟨_, _, rfl, List.forall_mem_append.mpr
      ⟨isLong_of_mem (.inl rfl), isLong_of_mem (.inr rfl)⟩, nofun⟩
  · intro hmtime hsize
    refine List.forall_mem_append.mpr ⟨List.forall_mem_append.mpr
      ⟨fits_of_mem (Nat.lt_succ_of_lt hsize.path) (by decide),
        fits_of_mem (Nat.lt_succ_of_lt hsize.content) (by decide)⟩, ?_⟩
    rw [List.forall_mem_singleton]
    exact ⟨(by decide : 0o777 < 8 ^ 7), (by decide : 0 < 2 ^ 64), (by omega : mtime < 2 ^ 64)⟩

theorem exists_memberOf {item : Item} (hok : (itemTrace mtime item).outcome = .ok ()) :
    ∃ records, MemberOf mtime item records := by
  obtain ⟨path, entity⟩ := item
  cases entity with
  | directory => exact exists_memberOf_directory
  | file mode content => exact exists_memberOf_file hok
  | symlink target => exact exists_memberOf_symlink hok

theorem remainsOf_nil {item : Item} (h : octetsOf (itemTrace mtime item) = []) :
    RemainsOf mtime item [] :=
  ⟨h, nofun, nofun⟩

theorem exists_remainsOf {item : Item} {cause : ArchiveError}
    (herror : (itemTrace mtime item).outcome = .error cause) :
    ∃ records, RemainsOf mtime item records := by
  obtain ⟨path, entity⟩ := item
  cases entity with
  | directory =>
    unfold itemTrace at herror
    simp only [andThen_longTrace] at herror
    cases herror
  | file mode content =>
    obtain ⟨fault, hname, -⟩ | ⟨name, -, hmember⟩ := named_error herror
    · refine ⟨[], remainsOf_nil ?_⟩
      unfold itemTrace
      simp only [hname]
      rfl
    · rw [andThen_longTrace] at hmember
      cases hmember
  | symlink target =>
    obtain ⟨fault, hname, -⟩ | ⟨name, hname, hlinked⟩ := named_error herror
    · refine ⟨[], remainsOf_nil ?_⟩
      unfold itemTrace
      simp only [hname]
      rfl
    rw [andThen_longTrace] at hlinked
    obtain ⟨fault, hlink, -⟩ | ⟨link, -, hmember⟩ := named_error hlinked
    · refine ⟨longRecords name.isLong .longName path 0, ?_, isLong_of_mem (.inl rfl),
        fun _ hsize => fits_of_mem (Nat.lt_succ_of_lt hsize.path) (by decide)⟩
      unfold itemTrace
      simp only [hname, named, hlink]
      rw [octetsOf_andThen (longTrace_ok _ _ _ _), octetsOf_longTrace]
      exact List.append_nil _
    · rw [andThen_longTrace] at hmember
      cases hmember

end Items

/-! ## Archives -/

/-- Octets that are the members of the first items, `written`, and what is left of the next one if
it is refused. -/
structure Unfinished (mtime : Nat) (items written : List Item) (members : List (List Record))
    (rest : List Record) (octets : Bytes) : Prop where
  whole : List.Forall₂ (MemberOf mtime) written members
  next : (written <+: items ∧ rest = []) ∨
    ∃ next, written ++ [next] <+: items ∧ RemainsOf mtime next rest
  spelled : octets = (members.flatten ++ rest).flatMap Record.octets

section Unfinished

variable {mtime : Nat} {items written : List Item} {members : List (List Record)}
  {rest : List Record} {octets : Bytes}

theorem Unfinished.blockSize_dvd (h : Unfinished mtime items written members rest octets) :
    blockSize ∣ octets.length := by
  rw [h.spelled]
  exact Record.blockSize_dvd _

theorem fits_of_members (h : List.Forall₂ (MemberOf mtime) written members)
    (hmtime : mtime < 2 ^ 63) (hsize : ∀ item ∈ written, item.Addressable) :
    ∀ r ∈ members.flatten, r.header.Fits := by
  induction h with
  | nil => exact nofun
  | cons hitem _ ih =>
    obtain ⟨hfirst, hrest⟩ := List.forall_mem_cons.mp hsize
    rw [List.flatten_cons]
    exact List.forall_mem_append.mpr ⟨hitem.fits hmtime hfirst, ih hrest⟩

/-- Nobody takes what is left for an archive. -/
theorem Unfinished.unreadable (h : Unfinished mtime items written members rest octets)
    (hmtime : mtime < 2 ^ 63) (hsize : ∀ item ∈ items, item.Addressable) :
    Tar.read? octets = none := by
  rw [h.spelled, Tar.read?]
  refine Record.readMembers?_eq_none (List.forall_mem_append.mpr ⟨?_, ?_⟩) none none
  · have hwritten : written ⊆ items := by
      rcases h.next with ⟨hfront, -⟩ | ⟨next, hfront, -⟩
      · exact hfront.subset
      · exact List.Subset.trans (List.subset_append_left _ _) hfront.subset
    exact fits_of_members h.whole hmtime fun item hmem => hsize item (hwritten hmem)
  · rcases h.next with ⟨-, hrest⟩ | ⟨next, hfront, hremains⟩
    · rw [hrest]
      exact List.forall_mem_nil _
    · exact hremains.fits hmtime (hsize next (hfront.subset (by simp)))

theorem exists_members (hok : ∀ item ∈ written, (itemTrace mtime item).outcome = .ok ()) :
    ∃ members, List.Forall₂ (MemberOf mtime) written members ∧
      (written.flatMap fun item => (itemTrace mtime item).events).flatten =
        members.flatten.flatMap Record.octets := by
  induction written with
  | nil => exact ⟨[], .nil, rfl⟩
  | cons item written ih =>
    obtain ⟨hitem, hrest⟩ := List.forall_mem_cons.mp hok
    obtain ⟨records, hrecords⟩ := exists_memberOf hitem
    obtain ⟨members, hmembers, hoctets⟩ := ih hrest
    refine ⟨records :: members, .cons hrecords hmembers, ?_⟩
    rw [List.flatMap_cons, List.flatten_append, hoctets, List.flatten_cons, List.flatMap_append,
      ← hrecords.octets]
    rfl

/-- What is written of a snapshot that fails is an unfinished archive of what the walk finds. -/
theorem unfinished_of_error {s : ObjectStore} {commit : Snapshot} {depth : Nat}
    {cause : ArchiveError} (herror : (snapshotTrace s depth commit).outcome = .error cause) :
    ∃ written members rest, Unfinished (memberTime commit)
      (walk s depth commit.tree.oid []).events written members rest
      (octetsOf (snapshotTrace s depth commit)) := by
  have hsnapshot : snapshotTrace s depth commit =
      ((itemsTrace (memberTime commit) (walk s depth commit.tree.oid []).events).andThen
        ⟨[], (walk s depth commit.tree.oid []).outcome.mapError ArchiveError.store⟩).andThen
        (.one trailer) := rfl
  rw [hsnapshot, itemsTrace] at herror ⊢
  generalize (walk s depth commit.tree.oid []).events = items at herror ⊢
  generalize (walk s depth commit.tree.oid []).outcome = outcome at herror ⊢
  rcases Trace.all_ok_or_first_error (itemTrace (memberTime commit)) items with
    hall | ⟨before, item, after, first, rfl, hbefore, hitem⟩
  · -- All items are written, so the store has failed.
    rw [Trace.sequence_map_of_ok hall, Trace.ok_andThen] at herror ⊢
    cases outcome with
    | ok u => cases herror
    | error failure =>
      obtain ⟨members, hmembers, hoctets⟩ := exists_members hall
      refine ⟨items, members, [], hmembers, .inl ⟨List.prefix_rfl, rfl⟩, ?_⟩
      rw [List.append_nil members.flatten, ← hoctets]
      exact congrArg List.flatten (List.append_nil _)
  · rw [Trace.sequence_map_of_error hbefore hitem, Trace.error_andThen, Trace.error_andThen]
    obtain ⟨members, hmembers, hoctets⟩ := exists_members hbefore
    obtain ⟨rest, hrest⟩ := exists_remainsOf hitem
    refine ⟨before, members, rest, hmembers, .inr ⟨item, ?_, hrest⟩, ?_⟩
    · exact ⟨after, by simp⟩
    · rw [octetsOf, List.flatten_append, hoctets, List.flatMap_append, ← hrest.octets]
      rfl

/-- Octets that nobody takes for an archive of items: they are records in whole blocks, those of the
first items and perhaps some of the next one, without an empty block where one may begin. -/
structure NoArchive (mtime : Nat) (items : List Item) (octets : Bytes) : Prop where
  blocks : blockSize ∣ octets.length
  records : ∃ written members rest, Unfinished mtime items written members rest octets ∧
    ∀ before after, members.flatten ++ rest = before ++ after →
      (after.flatMap Record.octets).take blockSize ≠ emptyBlock
  unreadable : (∀ item ∈ items, item.Addressable) → Tar.read? octets = none

theorem Unfinished.noArchive (h : Unfinished mtime items written members rest octets)
    (hmtime : mtime < 2 ^ 63) : NoArchive mtime items octets where
  blocks := h.blockSize_dvd
  records := ⟨written, members, rest, h, fun _ after _ => Record.take_ne_emptyBlock after⟩
  unreadable := h.unreadable hmtime

end Unfinished

end Archive

end TagRegistry
