import TagRegistry.Proofs.ArchiveRoundTrip
import TagRegistry.Proofs.NameFits
import TagRegistry.Proofs.Nesting

/-! Members and the directory in which an archive is unpacked.

A name that goes into its field piece by piece never leads out of that directory. The names of
directories, and of files and links that have a record for their name, are written as they are, and
lead wherever the names in the trees lead. -/

namespace TagRegistry

open Tar
open Bytes (slash dot beforeNul)

namespace Path

/-- A path that is not absolute and never climbs. -/
structure StaysInside (path : Bytes) : Prop where
  relative : isAbsolute path = false
  no_parent : [dot, dot] ∉ path.splitOn slash

instance (path : Bytes) : Decidable (StaysInside path) :=
  decidable_of_iff (isAbsolute path = false ∧ [dot, dot] ∉ path.splitOn slash)
    ⟨fun ⟨hr, hp⟩ => ⟨hr, hp⟩, fun h => ⟨h.relative, h.no_parent⟩⟩

theorem splitOn_of_isAbsolute {path : Bytes} (h : isAbsolute path = true) :
    ∃ rest, path = slash :: rest ∧ path.splitOn slash = [] :: rest.splitOn slash := by
  cases path with
  | nil => cases h
  | cons b rest =>
    have hb : b = slash := by simpa [isAbsolute] using h
    subst hb
    exact ⟨rest, rfl, List.splitOn_append_cons_self [] rest⟩

theorem parent_mem_components {path : Bytes} :
    .parent ∈ components path ↔ [dot, dot] ∈ path.splitOn slash := by
  have hfront : .parent ∉ front path := by
    intro hmem
    rcases root_or_current_of_mem_front hmem with h | h <;> cases h
  rw [components_eq, List.mem_append, or_iff_right hfront, steps, List.mem_filterMap]
  constructor
  · rintro ⟨piece, hmem, hstep⟩
    rwa [← text_of_step? hstep] at hmem
  · exact fun hmem => ⟨_, hmem, rfl⟩

theorem staysInside_of_components {path : Bytes} (hroot : .root ∉ components path)
    (hparent : .parent ∉ components path) : StaysInside path where
  relative := by
    rw [Bool.eq_false_iff]
    intro habsolute
    obtain ⟨rest, rfl, -⟩ := splitOn_of_isAbsolute habsolute
    rw [components_slash] at hroot
    exact hroot List.mem_cons_self
  no_parent := mt parent_mem_components.mpr hparent

/-- A name between slashes that leads somewhere, and not up. -/
structure Word (word : Bytes) : Prop where
  ne_nil : word ≠ []
  ne_parent : word ≠ [dot, dot]
  no_slash : slash ∉ word

theorem word_of_normal {path name : Bytes} (h : .normal name ∈ components path) : Word name := by
  have hsteps : .normal name ∈ steps path := by
    rw [components_eq, List.mem_append] at h
    refine h.resolve_left fun hmem => ?_
    rcases root_or_current_of_mem_front hmem with h | h <;> cases h
  have hinner := inner_of_mem_steps hsteps
  refine ⟨hinner.ne_nil, ?_, hinner.no_slash⟩
  rintro rfl
  exact nomatch hinner.step

end Path

namespace Tar

open TagRegistry.Path (StaysInside Word)

/-! ## Names that go into their field -/

theorem exists_error_mem_joinWords {words : List Piece} {fault : NameFault}
    (h : .error fault ∈ words) (afterWord : Bool) :
    ∃ first, .error first ∈ joinWords afterWord words := by
  induction words generalizing afterWord with
  | nil => cases h
  | cons word words ih =>
    cases word with
    | error cause => exact ⟨cause, List.mem_cons_self⟩
    | ok word =>
      have hrest : .error fault ∈ words := by simpa using h
      obtain ⟨first, hfirst⟩ := ih hrest (afterWord || word != [slash])
      exact ⟨first, List.mem_append_right _ (List.mem_cons_of_mem _ hfirst)⟩

theorem exists_map_ok {pieces : List Piece} (h : ∀ fault, .error fault ∉ pieces) :
    ∃ words : List Bytes, pieces = words.map .ok := by
  induction pieces with
  | nil => exact ⟨[], rfl⟩
  | cons piece pieces ih =>
    obtain ⟨words, rfl⟩ := ih fun fault hmem => h fault (List.mem_cons_of_mem piece hmem)
    cases piece with
    | error fault => exact absurd List.mem_cons_self (h fault)
    | ok word => exact ⟨word :: words, rfl⟩

/-- Pieces that a field takes are made of words, of which there is at least one. -/
theorem words_of_fitsField {path : Bytes} {pieces : List Piece}
    (h : FitsField (piecesOf path pieces)) :
    ∃ words : List Bytes, pieces = words.map .ok ∧ words ≠ [] := by
  have hne : pieces ≠ [] := by
    rintro rfl
    exact h.allowed .noComponent List.mem_cons_self
  have hallowed : ∀ fault, .error fault ∉ pieces := by
    intro fault hmem
    obtain ⟨first, hfirst⟩ := exists_error_mem_joinWords hmem false
    refine h.allowed first ?_
    rw [piecesOf, if_neg (by simpa using hne)]
    exact List.mem_append_left _ hfirst
  obtain ⟨words, rfl⟩ := exists_map_ok hallowed
  exact ⟨words, rfl, by simpa using hne⟩

theorem nameWords_subset (cut alone : Bool) (before after : List Path.Component) :
    nameWords cut alone after ⊆ nameWords cut alone (before ++ after) := by
  induction before with
  | nil => exact List.Subset.refl _
  | cons c before ih =>
    cases c with
    | root | parent | normal => exact List.subset_cons_of_subset _ ih
    | current =>
      cases alone with
      | false => exact ih
      | true => exact List.subset_cons_of_subset _ ih

theorem of_mem_nameWords {alone : Bool} {cs : List Path.Component} {word : Bytes}
    (h : .ok word ∈ nameWords false alone cs) : word = [dot] ∨ .normal word ∈ cs := by
  induction cs with
  | nil => cases h
  | cons c cs ih =>
    cases c with
    | root | parent =>
      have hrest : .ok word ∈ nameWords false alone cs := by simpa [nameWords] using h
      exact (ih hrest).imp_right (List.mem_cons_of_mem _)
    | current =>
      have hrest : word = [dot] ∨ .ok word ∈ nameWords false alone cs := by
        cases alone with
        | false => exact .inr h
        | true => simpa [nameWords] using h
      exact hrest.elim .inl fun hrest => (ih hrest).imp_right (List.mem_cons_of_mem _)
    | normal name =>
      rcases List.mem_cons.mp h with hname | hrest
      · obtain rfl : word = name := by simpa using hname
        exact .inr List.mem_cons_self
      · exact (ih hrest).imp_right (List.mem_cons_of_mem _)

/-- A component that is refused is in no name that its field takes. -/
theorem not_mem_of_refused {path : Bytes} {c : Path.Component} {fault : NameFault}
    (h : FitsField (namePieces false path))
    (hc : ∀ alone after, .error fault ∈ nameWords false alone (c :: after)) :
    c ∉ Path.components path := by
  intro hmem
  obtain ⟨words, hwords, -⟩ := words_of_fitsField h
  obtain ⟨before, after, hsplit⟩ := List.append_of_mem hmem
  have herror := nameWords_subset false ((Path.components path).length == 1) before _ (hc _ after)
  rw [← hsplit, hwords] at herror
  simp at herror

/-- A name that its field takes does not lead out. -/
theorem staysInside_of_fitsField {path : Bytes} (h : FitsField (namePieces false path)) :
    StaysInside path :=
  Path.staysInside_of_components (not_mem_of_refused h fun _ _ => List.mem_cons_self)
    (not_mem_of_refused h fun _ _ => List.mem_cons_self)

theorem staysInside_wordText {path : Bytes} {words : List Bytes} (hne : words ≠ [])
    (h : ∀ word ∈ words, Word word) : StaysInside (wordText path words) := by
  have hjoined : ([slash].intercalate words).splitOn slash = words :=
    List.splitOn_intercalate slash (fun word hmem => (h word hmem).no_slash) hne
  have hsplit : (wordText path words).splitOn slash =
      words ++ if Path.endsWithSlash path then [[]] else [] := by
    rw [wordText]
    cases Path.endsWithSlash path with
    | false =>
      rw [if_neg Bool.false_ne_true, if_neg Bool.false_ne_true, List.append_nil, List.append_nil,
        hjoined]
    | true =>
      rw [if_pos rfl, if_pos rfl, List.splitOn_append_cons_self, hjoined, List.splitOn_nil]
  constructor
  · rw [Bool.eq_false_iff]
    intro habsolute
    obtain ⟨rest, -, hrest⟩ := Path.splitOn_of_isAbsolute habsolute
    obtain ⟨word, words, rfl⟩ := List.exists_cons_of_ne_nil hne
    rw [hsplit] at hrest
    exact (h word List.mem_cons_self).ne_nil (List.cons.inj hrest).1
  · rw [hsplit, List.mem_append]
    rintro (hmem | hmem)
    · exact (h _ hmem).ne_parent rfl
    · split at hmem <;> simp at hmem

/-- What the field holds does not lead out either. -/
theorem staysInside_spelled {path : Bytes} (h : FitsField (namePieces false path)) :
    StaysInside (spelled (namePieces false path)) := by
  obtain ⟨words, hwords, hne⟩ := words_of_fitsField h
  have hword : ∀ word ∈ words, Word word := by
    intro word hmem
    have hok := of_mem_nameWords (hwords ▸ List.mem_map_of_mem hmem)
    rcases hok with rfl | hnormal
    · exact ⟨by decide, by decide, by decide⟩
    · exact Path.word_of_normal hnormal
  have hpieces : namePieces false path = piecesOf path (words.map .ok) := by
    rw [← hwords]
    rfl
  rw [hpieces, spelled_piecesOf path hne fun word hmem => (hword word hmem).no_slash]
  exact staysInside_wordText hne hword

end Tar

/-! ## Members -/

/-- The name under which an item is written. -/
def Item.memberName (item : Item) : Bytes :=
  match item.entity with
  | .directory => item.path ++ [slash]
  | .file _ _ | .symlink _ => item.path

/-- An item whose name is written as it is: a directory, or anything else with a record for its
name. -/
def Item.Unchecked (item : Item) : Prop :=
  item.entity = .directory ∨
    (fieldSize ≤ item.path.length ∧ ¬FitsField (namePieces false item.path))

/-- A member with a name that is as safe as that of an item. -/
structure NamedAs (item : Item) (m : Member) : Prop where
  unchecked : item.Unchecked → m.path = beforeNul item.memberName
  checked : ¬item.Unchecked → Path.StaysInside m.path

theorem NamedAs.inside_iff {items : List Item} {members : List Member}
    (h : List.Forall₂ NamedAs items members) :
    (∀ m ∈ members, Path.StaysInside m.path) ↔
      ∀ item ∈ items, item.Unchecked → Path.StaysInside (beforeNul item.memberName) := by
  induction h with
  | nil => simp
  | @cons item m items members hitem _ ih =>
    rw [List.forall_mem_cons, List.forall_mem_cons, ih]
    refine and_congr_left fun _ => ?_
    by_cases hu : item.Unchecked
    · rw [hitem.unchecked hu]
      exact ⟨fun h _ => h, fun h => h hu⟩
    · exact iff_of_true (hitem.checked hu) fun h => absurd h hu

namespace Archive

theorem readBack_of_unchecked {path : Bytes} {r : Recorded} (hr : recordName path = .ok r)
    (h : ¬FitsField (namePieces false path)) : readBack r path = beforeNul path := by
  have answer := recordName_answer path
  rw [hr] at answer
  cases answer with
  | short fits => exact absurd fits h
  | long => rfl

theorem readBack_of_checked {path : Bytes} {r : Recorded} (hr : recordName path = .ok r)
    (h : fieldSize ≤ path.length → FitsField (namePieces false path)) :
    Path.StaysInside (readBack r path) := by
  have answer := recordName_answer path
  rw [hr] at answer
  cases answer with
  | short fits =>
    have hread : readBack ⟨fit fieldSize (spelled (namePieces false path)), false⟩ path =
        spelled (namePieces false path) := by
      rw [readBack, if_neg Bool.false_ne_true, fit_fit, beforeNul_fit fits.short,
        beforeNul_of_not_mem fits.no_nul]
    rw [hread]
    exact staysInside_spelled fits
  | long unfit length _ => exact absurd (h length) unfit

theorem WrittenAs.namedAs {mtime : Nat} {item : Item} {m : Member} (h : WrittenAs mtime item m) :
    NamedAs item m := by
  obtain ⟨path, entity⟩ := item
  have hentity := h.entity
  have hname {name : Recorded} (hr : recordName path = .ok name)
      (hpath : m.path = readBack name path) (hkind : entity ≠ .directory) (hpath' : Item.memberName ⟨path, entity⟩ = path) :
      NamedAs ⟨path, entity⟩ m := by
    constructor
    · intro hu
      rw [hpath', hpath, readBack_of_unchecked hr (hu.resolve_left hkind).2]
    · intro hc
      rw [Item.Unchecked, not_or, not_and, not_not] at hc
      rw [hpath]
      exact readBack_of_checked hr hc.2
  cases entity with
  | directory => exact ⟨fun _ => hentity.2.1, fun hc => absurd (.inl rfl) hc⟩
  | file mode content =>
    obtain ⟨-, ⟨name, hr, hpath⟩, -⟩ := hentity
    exact hname hr hpath nofun rfl
  | symlink target =>
    obtain ⟨-, ⟨name, hr, hpath, -⟩, -⟩ := hentity
    exact hname hr hpath nofun rfl

/-- A file or link that leads out, under a name that goes into its field, is not written. -/
theorem itemTrace_ne_ok {mtime : Nat} {item : Item} (hc : ¬item.Unchecked)
    (hout : ¬Path.StaysInside item.path) : (itemTrace mtime item).outcome ≠ .ok () := by
  obtain ⟨path, entity⟩ := item
  rw [Item.Unchecked, not_or, not_and, not_not] at hc
  obtain ⟨hentity, hfits⟩ := hc
  have hunfit : ¬FitsField (namePieces false path) := mt staysInside_of_fitsField hout
  have hrefused : ∃ cause, recordName path = .error cause := by
    have answer := recordName_answer path
    generalize recordName path = result at answer
    cases answer with
    | short fits => exact absurd fits hunfit
    | long _ length _ => exact absurd (hfits length) hunfit
    | refused _ _ => exact ⟨_, rfl⟩
  obtain ⟨cause, hcause⟩ := hrefused
  unfold itemTrace
  cases entity with
  | directory => exact absurd rfl hentity
  | file mode content => simp only [hcause]; exact nofun
  | symlink target => simp only [hcause]; exact nofun

variable {σ : Type} [Sink σ]

/-- A file or link with a name that goes into its field is refused if it leads out. If a snapshot is
written, the members that lead out are exactly those that an unchecked name leads out. -/
theorem confinement (all : TakesAll σ) {s : ObjectStore} {v : Version} {commit : Snapshot} {out : σ}
    (hready : all.ready out) (htag : s.peel v.tagRef = .ok commit)
    (hsize : ∀ items, SnapshotOf s commit.tree.oid items → ∀ item ∈ items, item.Addressable) :
    (∀ items, SnapshotOf s commit.tree.oid items → ∀ item ∈ items, ¬item.Unchecked →
        ¬Path.StaysInside item.path → ∃ refused ∈ items, ∃ cause,
          (write s v out).1 = .error (.unarchivable refused.path (.name cause))) ∧
      ∀ out', write s v out = (.ok (), out') → ∃ items octets members,
        SnapshotOf s commit.tree.oid items ∧ all.taken out' = all.taken out ++ octets ∧
          Tar.read? octets = some members ∧
          List.Forall₂ NamedAs items members ∧
          ((∀ m ∈ members, Path.StaysInside m.path) ↔
            ∀ item ∈ items, item.Unchecked → Path.StaysInside (beforeNul item.memberName)) := by
  constructor
  · intro items hitems item hmem hc hout
    rw [write_items all hready htag hitems]
    rcases Trace.all_ok_or_first_error (itemTrace (memberTime commit)) items with
      hall | ⟨before, refused, after, cause, rfl, hbefore, hrefused⟩
    · exact absurd (hall item hmem) (itemTrace_ne_ok hc hout)
    · obtain ⟨fault, rfl⟩ := itemTrace_error hrefused
      exact ⟨refused, by simp, fault, outcome_itemsTrace before hbefore hrefused⟩
  · intro out' hwrite
    obtain ⟨items, octets, members, hitems, htaken, hread, hwritten⟩ :=
      written_write all hready htag hsize hwrite
    have hnames := hwritten.imp fun item m => WrittenAs.namedAs
    exact ⟨items, octets, members, hitems, htaken, hread, hnames, NamedAs.inside_iff hnames⟩

/-- All members of a snapshot with plain names stay inside, for example. -/
theorem confinement_toolStore : ∃ out members,
    write toolStore.view (.release 1 0 0) Collected.unlimited = (.ok (), out) ∧
      Tar.read? out.toList = some members ∧ ∀ m ∈ members, Path.StaysInside m.path := by
  have hready : Collected.takesAll.ready .unlimited := rfl
  have htag : toolStore.view.peel (Version.release 1 0 0).tagRef = .ok ⟨⟨.ofNat 1⟩, -5⟩ := rfl
  obtain ⟨out, hwritten⟩ := write_toolStore
  obtain ⟨-, hconfined⟩ :=
    confinement Collected.takesAll hready htag fun _ => addressable_toolStore
  obtain ⟨items, octets, members, hitems, htaken, hread, -, hinside⟩ := hconfined out hwritten
  have hoctets : out.toList = octets := htaken
  refine ⟨out, members, hwritten, hoctets ▸ hread, hinside.mpr ?_⟩
  rw [hitems.unique snapshotOf_toolStore]
  intro item hmem _
  simp only [List.mem_cons, List.not_mem_nil, or_false] at hmem
  obtain rfl | rfl | rfl := hmem <;> decide

/-! ## A directory that leads out -/

/-- A directory with the name of the directory above it. -/
def climbingStore : MemoryStore where
  refs := [("refs/tags/v1.0.0", ⟨⟨.ofNat 2⟩, 100⟩)]
  trees := [(.ofNat 2, [⟨Bytes.ascii "..", .ofNat 1, .directory, 0o40000⟩]), (.ofNat 1, [])]
  blobs := []
  refused := []
  listingRefused := false
  count := 2

theorem snapshotOf_climbingStore : SnapshotOf climbingStore.view (.ofNat 2)
    [⟨Bytes.ascii "..", .directory⟩] :=
  snapshotOf_walk (rfl : (walk climbingStore.view 2 (.ofNat 2) []).outcome = .ok ())

/-- The archive is complete, and its only member is the directory above. -/
theorem climbing_directory_written : ∃ out m,
    write climbingStore.view (.release 1 0 0) Collected.unlimited = (.ok (), out) ∧
      Tar.read? out.toList = some [m] ∧ m.path = Bytes.ascii "../" ∧
      ¬Path.StaysInside m.path := by
  have hready : Collected.takesAll.ready .unlimited := rfl
  have htag : climbingStore.view.peel (Version.release 1 0 0).tagRef = .ok ⟨⟨.ofNat 2⟩, 100⟩ := rfl
  have hok : (write climbingStore.view (.release 1 0 0) Collected.unlimited).1 = .ok () :=
    write_items Collected.takesAll hready htag snapshotOf_climbingStore
  obtain ⟨out, hwrite⟩ :
      ∃ out, write climbingStore.view (.release 1 0 0) Collected.unlimited = (.ok (), out) :=
    ⟨_, Prod.ext hok rfl⟩
  obtain ⟨items, octets, members, hitems, htaken, hread, hwritten⟩ :=
    written_write Collected.takesAll hready htag (fun items h item hmem => by
      rw [h.unique snapshotOf_climbingStore, List.mem_singleton] at hmem
      rw [hmem]
      exact ⟨by decide, by decide⟩) hwrite
  rw [hitems.unique snapshotOf_climbingStore] at hwritten
  obtain ⟨m, rfl⟩ : ∃ m, members = [m] := by
    cases hwritten with
    | cons _ hrest => cases hrest; exact ⟨_, rfl⟩
  have hpath : m.path = Bytes.ascii "../" := by
    cases hwritten with
    | cons hitem _ => exact hitem.entity.2.1
  have hoctets : out.toList = octets := htaken
  exact ⟨out, m, hwrite, hoctets ▸ hread, hpath, hpath ▸ by decide⟩

end Archive

end TagRegistry
