import Mathlib
import TagRegistry.Config.Load
import TagRegistry.Proofs.ConfiguredModules
import TagRegistry.Proofs.FollowedPath
import TagRegistry.Proofs.NameOrder

/-! Naming a directory, or the files in it.

A directory stands for the files with the ending `.toml` in it, by name: sorting makes one list of
every listing of the same names. A file stands for itself, so that a directory and its files give the
same when all paths are expanded, which comes before any file is read. A path that leads to nothing
ends that, and so does a directory that cannot be listed. -/

namespace TagRegistry

namespace Disk

variable {d d' : Disk} {path : Bytes}

/-! ## Listings in another order -/

/-- On two disks every place holds the same and refuses the same, and every directory lists the same
names, in whatever order. -/
structure Relisted (d d' : Disk) : Prop where
  here : d'.here = d.here
  refusals : d'.refusals = d.refusals
  node? : ∀ place, d'.node? place = d.node? place
  names : ∀ place, ((d'.nodesIn place).map Prod.fst).Perm ((d.nodesIn place).map Prod.fst)

/-- Where no place is there twice, the order in which places are kept is that of the listings and
matters for nothing else. -/
theorem relisted_of_perm {nodes nodes' : List (Place × Node)} (hnodup : (nodes.map Prod.fst).Nodup)
    (hperm : nodes'.Perm nodes) (objects : List (Place × List (ObjectId × StoredObject)))
    (here : Place) (refusals : List ((Place × Access) × Refusal)) :
    Relisted ⟨nodes, objects, here, refusals⟩ ⟨nodes', objects, here, refusals⟩ where
  here := rfl
  refusals := rfl
  node? place := by
    have hnodup' : (nodes'.map Prod.fst).Nodup := (hperm.map Prod.fst).nodup_iff.mpr hnodup
    have hlookup : nodes'.lookup place = nodes.lookup place := by
      refine Option.ext fun node => ⟨fun h => ?_, fun h => ?_⟩
      · exact Table.lookup_of_nodup hnodup (hperm.mem_iff.mp (Table.mem_of_lookup_eq_some h))
      · exact Table.lookup_of_nodup hnodup' (hperm.mem_iff.mpr (Table.mem_of_lookup_eq_some h))
    rw [Disk.node?, Disk.node?, hlookup]
  names _ := (hperm.filterMap _).map _

theorem Relisted.ask_eq (h : Relisted d d') (place : Place) (access : Access) :
    d'.ask place access = d.ask place access := by
  rw [ask, ask, refusal?, refusal?, h.refusals]

theorem Relisted.look_eq (h : Relisted d d') (place : Place) : d'.look place = d.look place := by
  rw [look, look, h.node?, h.ask_eq]

/-- Paths lead to the same places. -/
theorem Relisted.walk_eq (h : Relisted d d') (mayBeNew : Bool) (links : Nat) (place : Place)
    (steps : List Bytes) : d'.walk mayBeNew links place steps = d.walk mayBeNew links place steps := by
  -- Which branch a walk takes depends on what it may do and finds at a place, and on nothing else.
  have hask := h.ask_eq
  have hlook := h.look_eq
  fun_induction d.walk mayBeNew links place steps <;> rw [walk] <;> simp [*]

theorem Relisted.resolve_eq (h : Relisted d d') (path : Bytes) : d'.resolve path = d.resolve path := by
  simp only [resolve, resolveFrom, h.here, h.walk_eq]

theorem Relisted.stat_eq (h : Relisted d d') (path : Bytes) : d'.stat path = d.stat path := by
  have hresolve := h.resolve_eq path
  rw [resolve, resolve] at hresolve
  simp only [stat, statFrom, hresolve, h.node?]

theorem Relisted.isFile_eq (h : Relisted d d') (path : Bytes) : d'.isFile path = d.isFile path := by
  have hstat := h.stat_eq path
  rw [stat, stat] at hstat
  rw [isFile, isFile, isFileFrom, isFileFrom, hstat]

theorem Relisted.readText_eq (h : Relisted d d') (path : Bytes) :
    d'.readText path = d.readText path := by
  have hresolve := h.resolve_eq path
  rw [resolve, resolve] at hresolve
  simp only [readText, readFrom, hresolve, h.node?, h.ask_eq]

/-- What can be listed is a directory, and all that is in it is listed. -/
theorem listing_eq_ok {place : Place} {nodes : List (Bytes × Node)}
    (h : d.listing place = .ok nodes) :
    d.node? place = some .directory ∧ nodes = d.nodesIn place := by
  rw [listing] at h
  split at h
  · next hdirectory =>
    refine ⟨hdirectory, ?_⟩
    cases hask : d.ask place .list with
    | error cause =>
      rw [hask] at h
      cases h
    | ok u =>
      rw [hask] at h
      exact (Except.ok.inj h).symm
  · cases h

theorem Relisted.listing_eq (h : Relisted d d') (place : Place) :
    d'.listing place = (d.listing place).map fun _ => d'.nodesIn place := by
  rw [listing, listing, h.node?, h.ask_eq]
  split
  · cases d.ask place .list <;> rfl
  · rfl

/-- A directory can be listed on both disks, with the same names, or on neither. -/
theorem Relisted.entries_eq (h : Relisted d d') (path : Bytes) :
    (∃ listed listed', d.entries path = .ok listed ∧ d'.entries path = .ok listed' ∧
      listed'.Perm listed) ∨
    ∃ cause, d.entries path = .error cause ∧ d'.entries path = .error cause := by
  rw [entries, entries, h.resolve_eq]
  cases d.resolve path with
  | error cause => exact .inr ⟨cause, rfl, rfl⟩
  | ok place =>
    simp only [bind, Except.bind, h.listing_eq]
    cases hlisted : d.listing place with
    | error cause => exact .inr ⟨cause, rfl, rfl⟩
    | ok nodes =>
      obtain ⟨-, rfl⟩ := listing_eq_ok hlisted
      exact .inl ⟨_, _, rfl, rfl, h.names place⟩

/-- What can be listed is a directory. -/
theorem exists_place_of_entries {listed : List Bytes} (h : d.entries path = .ok listed) :
    ∃ place, d.resolve path = .ok place ∧ d.node? place = some .directory := by
  obtain ⟨place, hplace, hentries⟩ := Config.exists_ok_of_bind h
  obtain ⟨nodes, hnodes, -⟩ := Config.exists_ok_of_bind hentries
  exact ⟨place, hplace, (listing_eq_ok hnodes).1⟩

theorem stat_of_place {place : Place} {node : Node} (hplace : d.resolve path = .ok place)
    (hnode : d.node? place = some node) : d.stat path = .ok node := by
  rw [resolve] at hplace
  rw [stat, statFrom, hplace]
  simp only [bind, Except.bind, hnode]
  rfl

theorem isFileFrom_iff {place : Place} : d.isFileFrom place path = true ↔
    ∃ content, d.statFrom place path = .ok (.file content) := by
  rw [isFileFrom]
  split
  · next content hstat => exact iff_of_true rfl ⟨content, hstat⟩
  · next hother => exact iff_of_false nofun fun ⟨content, hstat⟩ => hother content hstat

theorem isFile_iff : d.isFile path = true ↔ ∃ content, d.stat path = .ok (.file content) :=
  isFileFrom_iff

end Disk

namespace Config

variable {d : Disk} {directory path : Bytes} {place : Place} {files listed : List Bytes}
  {cause : DiskError}

/-! ## The files in a directory -/

/-- The name of a configuration file in a directory: it ends in `.toml` behind something else, and
leads from the directory to a file, whoever may see that. -/
structure ConfigName (d : Disk) (place : Place) (name : Bytes) : Prop where
  ending : ∃ stem, stem ≠ [] ∧ name = stem ++ Bytes.ascii ".toml"
  file : ∃ content, d.unrestricted.statFrom place name = .ok (.file content)

theorem ne_nil_of_ending {name : Bytes}
    (h : ∃ stem, stem ≠ [] ∧ name = stem ++ Bytes.ascii ".toml") : name ≠ [] := by
  obtain ⟨stem, -, rfl⟩ := h
  exact List.append_ne_nil_of_right_ne_nil stem (by decide)

theorem hasExtension_iff {name : Bytes} : Path.hasExtension (Bytes.ascii "toml") name = true ↔
    ∃ stem, stem ≠ [] ∧ name = stem ++ Bytes.ascii ".toml" := by
  -- There is no further dot in the ending, so the name is cut in front of it.
  have hdotted (stem : Bytes) :
      stem ++ Bytes.ascii ".toml" = stem ++ Bytes.dot :: Bytes.ascii "toml" := rfl
  have hcut (stem : Bytes) : Text.cutLast Bytes.dot name = some (stem, Bytes.ascii "toml") ↔
      name = stem ++ Bytes.ascii ".toml" := by
    rw [Text.cutLast_eq_some_iff, hdotted]
    exact and_iff_right (by decide)
  simp only [← hcut]
  unfold Path.hasExtension
  split
  · next stem found heq => simp [heq]
  · next heq => simp [heq]

theorem configName_iff {name : Bytes} : ConfigName d place name ↔
    (Path.hasExtension (Bytes.ascii "toml") name && d.unrestricted.isFileFrom place name) =
      true := by
  rw [Bool.and_eq_true, hasExtension_iff, Disk.isFileFrom_iff]
  exact ⟨fun h => ⟨h.ending, h.file⟩, fun h => ⟨h.1, h.2⟩⟩

instance (d : Disk) (place : Place) : DecidablePred (ConfigName d place) :=
  fun _ => decidable_of_iff _ configName_iff.symm

/-- The configuration files in a directory can be looked at by its path and their names. -/
def Visible (d : Disk) (directory : Bytes) (place : Place) (listed : List Bytes) : Prop :=
  ∀ name ∈ listed, ConfigName d place name → ∃ node, d.stat (Path.join directory name) = .ok node

/-- What is taken for a configuration file by its path is one, and the other way round if it can be
looked at. -/
theorem found_iff (hplace : d.resolve directory = .ok place)
    (hdirectory : d.node? place = some .directory) (hvisible : Visible d directory place listed)
    {name : Bytes} (hmem : name ∈ listed) :
    (Path.hasExtension (Bytes.ascii "toml") name && d.isFile (Path.join directory name)) = true ↔
      ConfigName d place name := by
  rw [Bool.and_eq_true, hasExtension_iff, Disk.isFile_iff]
  constructor
  · rintro ⟨hending, content, hstat⟩
    have hne := ne_nil_of_ending hending
    exact ⟨hending, content, Disk.statFrom_of_stat_join hplace hdirectory hne hstat⟩
  · intro h
    obtain ⟨node, hstat⟩ := hvisible name hmem h
    obtain ⟨content, hfile⟩ := h.file
    have hnode := Disk.statFrom_of_stat_join hplace hdirectory (ne_nil_of_ending h.ending) hstat
    rw [hnode, Except.ok.injEq] at hfile
    exact ⟨h.ending, content, hstat.trans (congrArg _ hfile)⟩

/-- Names in the order of their octets. -/
abbrev Ordered (names : List Bytes) : Prop := names.Pairwise fun a b => compare a b ≠ .gt

/-- A directory stands for the configuration files that it lists, by name. -/
def StandsFor (d : Disk) (directory : Bytes) (files : List Bytes) : Prop :=
  ∃ (place : Place) (listed names : List Bytes), d.resolve directory = .ok place ∧
    d.entries directory = .ok listed ∧ names.Perm (listed.filter (ConfigName d place)) ∧
    Ordered names ∧ files = names.map (Path.join directory)

theorem ordered_mergeSort (names : List Bytes) : Ordered (names.mergeSort bytesLe) :=
  pairwise_mergeSort_key id names

/-- Names have one order. -/
theorem Ordered.eq_of_perm {names names' : List Bytes} (h : Ordered names) (h' : Ordered names')
    (hperm : names.Perm names') : names = names' := by
  refine hperm.eq_of_pairwise (fun a b _ _ hab hba => ?_) h h'
  rw [ne_eq, Std.OrientedCmp.gt_iff_lt] at hba
  cases hcompare : compare a b with
  | lt => exact absurd hcompare hba
  | eq => exact Std.LawfulEqCmp.eq_of_compare hcompare
  | gt => exact absurd hcompare hab

/-- Sorting makes one list of all that have the same names. -/
theorem mergeSort_eq_of_perm {names names' : List Bytes} (hperm : names.Perm names') :
    names.mergeSort bytesLe = names'.mergeSort bytesLe :=
  (ordered_mergeSort names).eq_of_perm (ordered_mergeSort names')
    ((List.mergeSort_perm names bytesLe).trans (hperm.trans (List.mergeSort_perm names' bytesLe).symm))

theorem filesIn_eq (hplace : d.resolve directory = .ok place)
    (hdirectory : d.node? place = some .directory) (hvisible : Visible d directory place listed)
    {names : List Bytes} (hperm : names.Perm (listed.filter (ConfigName d place)))
    (hordered : Ordered names) : filesIn d directory listed = names.map (Path.join directory) := by
  have hfilter : listed.filter (ConfigName d place) = listed.filter fun name =>
      Path.hasExtension (Bytes.ascii "toml") name && d.isFile (Path.join directory name) :=
    List.filter_congr fun name hmem =>
      Bool.eq_iff_iff.mpr (decide_eq_true_iff.trans (found_iff hplace hdirectory hvisible hmem).symm)
  rw [hfilter] at hperm
  have hsorted := (List.mergeSort_perm _ bytesLe).trans hperm.symm
  rw [filesIn, (ordered_mergeSort _).eq_of_perm hordered hsorted]

/-- A directory whose files can be looked at stands for them, and for nothing else. -/
theorem standsFor_iff (hplace : d.resolve directory = .ok place)
    (hlisted : d.entries directory = .ok listed) (hvisible : Visible d directory place listed) :
    StandsFor d directory files ↔ files = filesIn d directory listed := by
  obtain ⟨place', hplace', hdirectory⟩ := Disk.exists_place_of_entries hlisted
  cases hplace.symm.trans hplace'
  constructor
  · rintro ⟨place', listed', names, hplace', hlisted', hperm, hordered, rfl⟩
    cases hplace.symm.trans hplace'
    cases hlisted.symm.trans hlisted'
    exact (filesIn_eq hplace hdirectory hvisible hperm hordered).symm
  · rintro rfl
    have hperm := List.mergeSort_perm (listed.filter (ConfigName d place)) bytesLe
    exact ⟨place, listed, _, hplace, hlisted, hperm, ordered_mergeSort _,
      filesIn_eq hplace hdirectory hvisible hperm (ordered_mergeSort _)⟩

/-- What a directory is expanded to are files. -/
theorem file_of_mem_filesIn (h : path ∈ filesIn d directory listed) :
    ∃ content, d.stat path = .ok (.file content) := by
  obtain ⟨name, hname, rfl⟩ := List.mem_map.mp h
  have hfound := List.of_mem_filter (List.mem_mergeSort.mp hname)
  exact Disk.isFile_iff.mp (Bool.and_eq_true_iff.mp hfound).2

/-! ## Paths that are expanded -/

theorem expand_directory (hdirectory : d.stat directory = .ok .directory)
    (hlisted : d.entries directory = .ok listed) :
    expand d directory = .ok (filesIn d directory listed) := by
  simp only [expand, hdirectory, hlisted]
  rfl

/-- What is no directory stands for itself. -/
theorem expand_self {node : Node} (h : d.stat path = .ok node) (hnode : node ≠ .directory) :
    expand d path = .ok [path] := by
  simp only [expand, h]
  cases node with
  | directory => exact absurd rfl hnode
  | file | link => rfl

/-- A path cannot be expanded: it leads to nothing that could be looked at, or to a directory that
cannot be listed. -/
inductive Unexpandable (d : Disk) (path : Bytes) (cause : DiskError) : Prop where
  | missing (stat : d.stat path = .error cause)
  | unlisted (stat : d.stat path = .ok .directory) (entries : d.entries path = .error cause)

theorem Unexpandable.expand_eq (h : Unexpandable d path cause) :
    expand d path = .error (.unreadable path cause) := by
  cases h with
  | missing stat =>
    simp only [expand, stat]
    rfl
  | unlisted stat entries =>
    simp only [expand, stat, entries]
    rfl

theorem exists_expand (h : ∀ cause, ¬Unexpandable d path cause) :
    ∃ files, expand d path = .ok files := by
  cases hstat : d.stat path with
  | error cause => exact absurd (.missing hstat) (h cause)
  | ok node =>
    by_cases hnode : node = .directory
    · subst hnode
      cases hlisted : d.entries path with
      | error cause => exact absurd (.unlisted hstat hlisted) (h cause)
      | ok listed => exact ⟨_, expand_directory hstat hlisted⟩
    · exact ⟨_, expand_self hstat hnode⟩

/-- The files that all paths stand for. -/
def expandAll (d : Disk) (paths : List Bytes) : Except ConfigError (List Bytes) :=
  List.flatten <$> paths.mapM (expand d)

theorem load_eq (d : Disk) (paths : List Bytes) : load d paths = (do
    let files ← expandAll d paths
    if files.isEmpty then throw .noFiles
    merge (← files.mapM (readFile d))) := by
  rw [load, expandAll, bind_map_left]

theorem expandAll_cons (path : Bytes) (paths : List Bytes) :
    expandAll d (path :: paths) = (do
      let files ← expand d path
      let rest ← expandAll d paths
      return files ++ rest) := by
  simp [expandAll]

theorem expandAll_append (paths paths' : List Bytes) :
    expandAll d (paths ++ paths') = (do
      let files ← expandAll d paths
      let rest ← expandAll d paths'
      return files ++ rest) := by
  simp [expandAll]

theorem expandAll_files (h : ∀ path ∈ files, ∃ content, d.stat path = .ok (.file content)) :
    expandAll d files = .ok files := by
  induction files with
  | nil => rfl
  | cons path files ih =>
    obtain ⟨content, hpath⟩ := h path List.mem_cons_self
    rw [expandAll_cons, expand_self hpath nofun,
      ih fun other hmem => h other (List.mem_cons_of_mem path hmem)]
    rfl

theorem exists_expandAll {paths : List Bytes}
    (h : ∀ path ∈ paths, ∀ cause, ¬Unexpandable d path cause) :
    ∃ files, expandAll d paths = .ok files := by
  induction paths with
  | nil => exact ⟨[], rfl⟩
  | cons path paths ih =>
    obtain ⟨files, hfiles⟩ := exists_expand (h path List.mem_cons_self)
    obtain ⟨rest, hrest⟩ := ih fun other hmem => h other (List.mem_cons_of_mem path hmem)
    refine ⟨files ++ rest, ?_⟩
    rw [expandAll_cons, hfiles, hrest]
    rfl

/-- A directory that is listed can be replaced by the files that it is expanded to. -/
theorem expandAll_directory (hdirectory : d.stat directory = .ok .directory)
    (hlisted : d.entries directory = .ok listed) (before after : List Bytes) :
    expandAll d (before ++ directory :: after) =
      expandAll d (before ++ filesIn d directory listed ++ after) := by
  rw [List.append_assoc, expandAll_append, expandAll_append before, expandAll_cons,
    expandAll_append (filesIn d directory listed), expand_directory hdirectory hlisted,
    expandAll_files fun path => file_of_mem_filesIn]

/-- The first path that cannot be expanded, and why it cannot. -/
def FirstUnexpandable (d : Disk) (paths : List Bytes) (path : Bytes) (cause : DiskError) : Prop :=
  ∃ before after, paths = before ++ path :: after ∧
    (∀ other ∈ before, ∀ reason, ¬Unexpandable d other reason) ∧ Unexpandable d path cause

theorem exists_firstUnexpandable {paths : List Bytes} (hmem : path ∈ paths)
    (h : Unexpandable d path cause) : ∃ first reason, FirstUnexpandable d paths first reason := by
  induction paths with
  | nil => cases hmem
  | cons next paths ih =>
    by_cases hnext : ∃ reason, Unexpandable d next reason
    · obtain ⟨reason, hnext⟩ := hnext
      exact ⟨next, reason, [], paths, rfl, nofun, hnext⟩
    · have hrest : path ∈ paths := by
        refine (List.mem_cons.mp hmem).resolve_left fun heq => ?_
        subst heq
        exact hnext ⟨cause, h⟩
      obtain ⟨first, reason, before, after, rfl, hbefore, hfirst⟩ := ih hrest
      exact ⟨first, reason, next :: before, after, rfl,
        List.forall_mem_cons.mpr ⟨not_exists.mp hnext, hbefore⟩, hfirst⟩

theorem FirstUnexpandable.expandAll_eq {paths : List Bytes}
    (h : FirstUnexpandable d paths path cause) :
    expandAll d paths = .error (.unreadable path cause) := by
  obtain ⟨before, after, rfl, hbefore, hpath⟩ := h
  obtain ⟨files, hfiles⟩ := exists_expandAll hbefore
  rw [expandAll_append, hfiles, expandAll_cons, hpath.expand_eq]
  rfl

/-! ## Loading from listings in another order -/

variable {d' : Disk}

theorem filesIn_relisted (h : Disk.Relisted d d') {listed' : List Bytes}
    (hperm : listed'.Perm listed) :
    filesIn d' directory listed' = filesIn d directory listed := by
  simp only [filesIn, h.isFile_eq, mergeSort_eq_of_perm (hperm.filter _)]

theorem expand_relisted (h : Disk.Relisted d d') (path : Bytes) : expand d' path = expand d path := by
  have hstat := h.stat_eq path
  cases hpath : d.stat path with
  | error cause =>
    have hmissing : Unexpandable d path cause := .missing hpath
    have hmissing' : Unexpandable d' path cause := .missing (hstat.trans hpath)
    rw [hmissing.expand_eq, hmissing'.expand_eq]
  | ok node =>
    rw [hpath] at hstat
    by_cases hnode : node = .directory
    · subst hnode
      obtain ⟨listed, listed', hlisted, hlisted', hperm⟩ | ⟨cause, hlisted, hlisted'⟩ :=
        h.entries_eq path
      · rw [expand_directory hpath hlisted, expand_directory hstat hlisted',
          filesIn_relisted h hperm]
      · have hunlisted : Unexpandable d path cause := .unlisted hpath hlisted
        have hunlisted' : Unexpandable d' path cause := .unlisted hstat hlisted'
        rw [hunlisted.expand_eq, hunlisted'.expand_eq]
    · rw [expand_self hpath hnode, expand_self hstat hnode]

theorem load_relisted (h : Disk.Relisted d d') (paths : List Bytes) :
    load d' paths = load d paths := by
  have hexpand : expand d' = expand d := funext (expand_relisted h)
  have hread : readFile d' = readFile d := funext fun path => by rw [readFile, readFile, h.readText_eq]
  rw [load, load, hexpand, hread]

/-- A directory that can be listed, and whose files can be looked at, stands for exactly one list of
files, and naming them in its place makes no difference; nor does the order in which directories are
listed. Where a path leads to nothing or to a directory that cannot be listed, the first such path
is reported, whatever the files are. -/
theorem load_named (d : Disk) :
    (∀ directory place listed, d.resolve directory = .ok place →
      d.entries directory = .ok listed → Visible d directory place listed →
      ∃ files, (∀ files', StandsFor d directory files' ↔ files' = files) ∧
        ∀ before after, load d (before ++ directory :: after) = load d (before ++ files ++ after)) ∧
    (∀ d', Disk.Relisted d d' → ∀ paths, load d' paths = load d paths) ∧
    ∀ paths path cause, path ∈ paths → Unexpandable d path cause →
      ∃ first reason, FirstUnexpandable d paths first reason ∧
        load d paths = .error (.unreadable first reason) := by
  refine ⟨fun directory place listed hplace hlisted hvisible => ?_, fun d' h => load_relisted h, ?_⟩
  · obtain ⟨place', hplace', hdirectory⟩ := Disk.exists_place_of_entries hlisted
    refine ⟨filesIn d directory listed, fun _ => standsFor_iff hplace hlisted hvisible, ?_⟩
    intro before after
    rw [load_eq, load_eq, expandAll_directory (Disk.stat_of_place hplace' hdirectory) hlisted]
  · intro paths path cause hmem hpath
    obtain ⟨first, reason, hfirst⟩ := exists_firstUnexpandable hmem hpath
    refine ⟨first, reason, hfirst, ?_⟩
    rw [load_eq, hfirst.expandAll_eq]
    rfl

/-- A directory with two files, a link to a third one, and four names that count for nothing: a
leading dot alone, another ending, a directory, and a link to nothing. Beside it another directory
that may not be listed. -/
def mixedNodes : List (Place × Node) :=
  let inside (name : String) : Place := [Bytes.ascii name, Bytes.ascii "conf"]
  [([Bytes.ascii "conf"], .directory),
    (inside "b.toml", .file (Bytes.ascii "hostname = 'registry.example.com'")),
    (inside ".toml", .file []), (inside "notes.txt", .file []), (inside "d.toml", .directory),
    (inside "e.toml", .link (Bytes.ascii "gone")),
    (inside "c.toml", .link (Bytes.ascii "../shared")), (inside "a.toml", .file []),
    ([Bytes.ascii "shared"], .file []), ([Bytes.ascii "wrong"], .file (Bytes.ascii "=")),
    ([Bytes.ascii "shut"], .directory)]

def shutRefused : List ((Place × Access) × Refusal) :=
  [(([Bytes.ascii "shut"], .list), .permission)]

def mixedDisk : Disk := ⟨mixedNodes, [], [], shutRefused⟩

theorem load_named_mixedDisk :
    (∃ listed, mixedDisk.entries (Bytes.ascii "conf") = .ok listed ∧
      Visible mixedDisk (Bytes.ascii "conf") [Bytes.ascii "conf"] listed) ∧
    StandsFor mixedDisk (Bytes.ascii "conf")
      [Bytes.ascii "conf/a.toml", Bytes.ascii "conf/b.toml", Bytes.ascii "conf/c.toml"] ∧
    load mixedDisk [Bytes.ascii "shared", Bytes.ascii "conf"] = load mixedDisk
      [Bytes.ascii "shared", Bytes.ascii "conf/a.toml", Bytes.ascii "conf/b.toml",
        Bytes.ascii "conf/c.toml"] ∧
    load ⟨mixedNodes.reverse, [], [], shutRefused⟩ [Bytes.ascii "conf"] =
      load mixedDisk [Bytes.ascii "conf"] ∧
    Unexpandable mixedDisk (Bytes.ascii "gone") .notFound ∧
    Unexpandable mixedDisk (Bytes.ascii "shut") (.refused .permission) ∧
    ∃ first reason, FirstUnexpandable mixedDisk
        [Bytes.ascii "wrong", Bytes.ascii "gone", Bytes.ascii "shut"] first reason ∧
      load mixedDisk [Bytes.ascii "wrong", Bytes.ascii "gone", Bytes.ascii "shut"] =
        .error (.unreadable first reason) := by
  have hplace : mixedDisk.resolve (Bytes.ascii "conf") = .ok [Bytes.ascii "conf"] := by cbv
  have hlisted : mixedDisk.entries (Bytes.ascii "conf") = .ok (["b.toml", ".toml", "notes.txt",
      "d.toml", "e.toml", "c.toml", "a.toml"].map Bytes.ascii) := by cbv
  have hvisible : Visible mixedDisk (Bytes.ascii "conf") [Bytes.ascii "conf"] (["b.toml", ".toml",
      "notes.txt", "d.toml", "e.toml", "c.toml", "a.toml"].map Bytes.ascii) := by
    intro name hmem hname
    obtain ⟨text, htext, rfl⟩ := List.mem_map.mp hmem
    simp only [List.mem_cons, List.not_mem_nil, or_false] at htext
    obtain rfl | rfl | rfl | rfl | rfl | rfl | rfl := htext
    case inr.inr.inr.inr.inl =>
      -- The link to nothing is no configuration file.
      obtain ⟨content, hfile⟩ := hname.file
      cases hfile.symm.trans (by cbv : _ = Except.error DiskError.notFound)
    all_goals exact ⟨_, by cbv⟩
  have hgone : Unexpandable mixedDisk (Bytes.ascii "gone") .notFound := .missing (by cbv)
  have hshut : Unexpandable mixedDisk (Bytes.ascii "shut") (.refused .permission) :=
    .unlisted (by cbv) (by cbv)
  have hstands : StandsFor mixedDisk (Bytes.ascii "conf")
      [Bytes.ascii "conf/a.toml", Bytes.ascii "conf/b.toml", Bytes.ascii "conf/c.toml"] := by
    rw [standsFor_iff hplace hlisted hvisible]
    cbv
  have hrelisted : Disk.Relisted mixedDisk ⟨mixedNodes.reverse, [], [], shutRefused⟩ :=
    Disk.relisted_of_perm (by decide) (List.reverse_perm _) [] [] shutRefused
  obtain ⟨hnamed, horder, hrefused⟩ := load_named mixedDisk
  obtain ⟨files, hfiles, hload⟩ := hnamed _ _ _ hplace hlisted hvisible
  cases (hfiles _).mp hstands
  exact ⟨⟨_, hlisted, hvisible⟩, hstands, hload [Bytes.ascii "shared"] [], horder _ hrelisted _,
    hgone, hshut, hrefused _ (Bytes.ascii "shut") _ (by simp) hshut⟩

/-! ## A directory that is not the same as its files -/

/-- A path with `/.` behind it, so many times. -/
def dotted (path : Bytes) : Nat → Bytes
  | 0 => path
  | n + 1 => dotted path n ++ [Bytes.slash, Bytes.dot]

theorem length_dotted (path : Bytes) (n : Nat) : (dotted path n).length = path.length + 2 * n := by
  induction n with
  | zero => rfl
  | succ n ih =>
    rw [dotted, List.length_append, ih]
    simp only [List.length_cons, List.length_nil]
    omega

theorem dotted_ne_nil (hpath : path ≠ []) (n : Nat) : dotted path n ≠ [] := by
  cases n with
  | zero => exact hpath
  | succ n => exact List.append_ne_nil_of_right_ne_nil _ (by decide)

theorem nul_notMem_dotted (hpath : 0 ∉ path) (n : Nat) : 0 ∉ dotted path n := by
  induction n with
  | zero => exact hpath
  | succ n ih => simpa [dotted, ih] using by decide

theorem endsWithSlash_dotted (hpath : Path.endsWithSlash path = false) (n : Nat) :
    Path.endsWithSlash (dotted path n) = false := by
  cases n with
  | zero => exact hpath
  | succ n => simp [dotted, Path.endsWithSlash]; decide

theorem startOf_dotted (hpath : path ≠ []) (n : Nat) :
    Disk.startOf place (dotted path n) = Disk.startOf place path := by
  induction n with
  | zero => rfl
  | succ n ih =>
    obtain ⟨first, rest, hdotted⟩ := List.exists_cons_of_ne_nil (dotted_ne_nil hpath n)
    rw [← ih, dotted, hdotted]
    rfl

theorem pieces_dotted (path : Bytes) (n : Nat) :
    Disk.pieces (dotted path n) = Disk.pieces path ++ List.replicate n [Bytes.dot] := by
  induction n with
  | zero => exact (List.append_nil _).symm
  | succ n ih =>
    rw [dotted, Disk.pieces_append_slash, ih, List.append_assoc, List.replicate_succ']
    rfl

/-- A path with `/.` behind it leads to the same directory, as long as it may be searched and the path
is not too long. -/
theorem resolve_dotted (hplace : d.resolve path = .ok place)
    (hdirectory : d.node? place = some .directory) (hsearch : d.ask place .search = .ok ())
    (hslash : Path.endsWithSlash path = false) {n : Nat}
    (hfits : path.length + 2 * n ≤ Disk.pathLimit) : d.resolve (dotted path n) = .ok place := by
  have hreaches := Disk.reaches_iff.mpr hplace
  have hleads := hreaches.leads
  rw [Disk.stepsOf_eq, hslash, if_neg Bool.false_ne_true, List.append_nil] at hleads
  obtain ⟨left, -, hmore⟩ := hleads.walk_append false hdirectory
  have hdots : d.walk false left place (List.replicate n [Bytes.dot]) = .ok place := by
    induction n with
    | zero => exact Disk.walk_nil
    | succ n ih =>
      rw [List.replicate_succ, Disk.walk_current hsearch]
      exact ih (by omega)
  refine Disk.reaches_iff.mp ⟨nul_notMem_dotted hreaches.no_nul n, dotted_ne_nil hreaches.ne_nil n,
    (length_dotted path n).trans_le hfits, Disk.leads_of_walk ?_⟩
  rw [Disk.stepsOf_eq, endsWithSlash_dotted hslash, if_neg Bool.false_ne_true, List.append_nil,
    pieces_dotted, startOf_dotted hreaches.ne_nil, hmore, hdots]

theorem stat_tooLong (hnul : 0 ∉ path) (hlong : Disk.pathLimit < path.length) :
    d.stat path = .error .nameTooLong := by
  have hne : path ≠ [] := by
    rintro rfl
    cases hlong
  rw [Disk.stat, Disk.statFrom, Disk.resolveFrom, if_neg (by simpa using hnul),
    if_neg (by simpa using hne), if_pos hlong]
  rfl

/-- The path of a name in a directory whose path has `/.` behind it may be too long. -/
theorem stat_join_dotted {name : Bytes} {n : Nat} (hpath : path ≠ [])
    (hslash : Path.endsWithSlash path = false) (habsolute : Path.isAbsolute name = false)
    (hnul : 0 ∉ path) (hnul' : 0 ∉ name)
    (hlong : Disk.pathLimit < path.length + 2 * n + 1 + name.length) :
    d.stat (Path.join (dotted path n) name) = .error .nameTooLong := by
  have hjoin : Path.join (dotted path n) name = dotted path n ++ Bytes.slash :: name := by
    have hempty := List.isEmpty_eq_false_iff.mpr (dotted_ne_nil hpath n)
    rw [Path.join, habsolute, hempty, endsWithSlash_dotted hslash, List.append_assoc]
    rfl
  rw [hjoin]
  refine stat_tooLong ?_ ?_
  · rw [List.mem_append, List.mem_cons]
    exact not_or.mpr ⟨nul_notMem_dotted hnul n, not_or.mpr ⟨by decide, hnul'⟩⟩
  · rw [List.length_append, length_dotted, List.length_cons]
    omega

/-- A directory with one file. -/
def plainDisk : Disk :=
  ⟨[([Bytes.ascii "conf"], .directory), ([Bytes.ascii "b.toml", Bytes.ascii "conf"],
    .file (Bytes.ascii "hostname = 'registry.example.com'\n"))], [], [], []⟩

/-- The path of a directory may fit where the path of a file in it is too long. Then the directory
stands for the file, is expanded to nothing, and naming the file is an error. -/
theorem load_dotted {n : Nat} (hfits : 4 + 2 * n ≤ Disk.pathLimit)
    (hlong : Disk.pathLimit < 11 + 2 * n) :
    StandsFor plainDisk (dotted (Bytes.ascii "conf") n)
        [Path.join (dotted (Bytes.ascii "conf") n) (Bytes.ascii "b.toml")] ∧
      load plainDisk [dotted (Bytes.ascii "conf") n] = .error .noFiles ∧
      load plainDisk [Path.join (dotted (Bytes.ascii "conf") n) (Bytes.ascii "b.toml")] =
        .error (.unreadable (Path.join (dotted (Bytes.ascii "conf") n) (Bytes.ascii "b.toml"))
          .nameTooLong) := by
  have hplace : plainDisk.resolve (dotted (Bytes.ascii "conf") n) = .ok [Bytes.ascii "conf"] :=
    resolve_dotted (by cbv) rfl rfl rfl hfits
  have hlisted : plainDisk.entries (dotted (Bytes.ascii "conf") n) = .ok [Bytes.ascii "b.toml"] := by
    rw [Disk.entries, hplace]
    rfl
  have hmissing : plainDisk.stat (Path.join (dotted (Bytes.ascii "conf") n) (Bytes.ascii "b.toml")) =
      .error .nameTooLong := by
    have hlengths : (Bytes.ascii "conf").length = 4 ∧ (Bytes.ascii "b.toml").length = 6 := by decide
    refine stat_join_dotted (by decide) rfl rfl (by decide) (by decide) ?_
    rw [hlengths.1, hlengths.2]
    omega
  have hnone : filesIn plainDisk (dotted (Bytes.ascii "conf") n) [Bytes.ascii "b.toml"] = [] := by
    rw [filesIn, List.filter_cons_of_neg, List.filter_nil, List.mergeSort_nil]
    · rfl
    · rw [Bool.and_eq_true, Disk.isFile_iff, hmissing]
      rintro ⟨-, content, hfile⟩
      cases hfile
  refine ⟨⟨_, _, [Bytes.ascii "b.toml"], hplace, hlisted, ?_, List.pairwise_singleton _ _, rfl⟩,
    ?_, ?_⟩
  · have hname : ConfigName plainDisk [Bytes.ascii "conf"] (Bytes.ascii "b.toml") :=
      configName_iff.mpr (by cbv)
    rw [List.filter_eq_self.mpr (by simpa using hname)]
  · have hdirectory := Disk.stat_of_place hplace rfl
    rw [load_eq, ← List.nil_append [dotted (Bytes.ascii "conf") n],
      expandAll_directory hdirectory hlisted, hnone]
    rfl
  · have hpath : Unexpandable plainDisk _ _ := .missing hmissing
    rw [load_eq, expandAll_cons, hpath.expand_eq]
    rfl

/-- A directory is not the same as its files where their paths are too long to be looked at, and one
that cannot be listed is reported before a path behind it that leads to nothing. -/
theorem directory_not_its_files :
    (StandsFor plainDisk (dotted (Bytes.ascii "conf") 2043)
        [Path.join (dotted (Bytes.ascii "conf") 2043) (Bytes.ascii "b.toml")] ∧
      load plainDisk [dotted (Bytes.ascii "conf") 2043] = .error .noFiles ∧
      load plainDisk [Path.join (dotted (Bytes.ascii "conf") 2043) (Bytes.ascii "b.toml")] =
        .error (.unreadable (Path.join (dotted (Bytes.ascii "conf") 2043) (Bytes.ascii "b.toml"))
          .nameTooLong)) ∧
    mixedDisk.stat (Bytes.ascii "gone") = .error .notFound ∧
      load mixedDisk [Bytes.ascii "shut", Bytes.ascii "gone"] =
        .error (.unreadable (Bytes.ascii "shut") (.refused .permission)) := by
  have hfits : 4 + 2 * 2043 ≤ Disk.pathLimit := by decide
  exact ⟨load_dotted hfits (by decide), by cbv, by cbv⟩

end Config

end TagRegistry
