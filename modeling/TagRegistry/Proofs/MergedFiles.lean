import Mathlib.Algebra.GroupWithZero.Nat
import TagRegistry.Proofs.FlatModules
import TagRegistry.Proofs.ParentPath

/-! What configuration files add up to.

Merging comes to the declarations of all files one after the other: of each file first the
hostname, then the listeners, then the modules. Whether a declaration is at fault depends on those
before it only, so that the first fault of this scan is the one that merging reports, and if there
is none, every declaration is found in the configuration. -/

namespace TagRegistry

/-! ## Faults of a single value -/

/-- A text can be one segment of a path. -/
def OneSegment (value : String) : Prop := value ≠ "" ∧ '/' ∉ value.toList

/-- What is wrong with a part of a coordinate. -/
inductive PartFault (part : CoordinatePart) (value : String) : CoordinateError → Prop where
  | empty (empty : value = "") : PartFault part value (.emptyPart part)
  | slash (nonempty : value ≠ "") (slash : '/' ∈ value.toList) :
      PartFault part value (.slashInPart part value)

/-- The first fault of three texts that are to be a coordinate. -/
inductive CoordinateFault (space name provider : String) : CoordinateError → Prop where
  | space {e : CoordinateError} (fault : PartFault .space space e) :
      CoordinateFault space name provider e
  | name {e : CoordinateError} (hspace : OneSegment space) (fault : PartFault .name name e) :
      CoordinateFault space name provider e
  | provider {e : CoordinateError} (hspace : OneSegment space) (hname : OneSegment name)
      (fault : PartFault .provider provider e) : CoordinateFault space name provider e

namespace Coordinate

variable {part : CoordinatePart} {space name provider value : String} {e : CoordinateError}

theorem fault?_eq_none_iff (part : CoordinatePart) :
    fault? part value = none ↔ OneSegment value := by
  rw [fault?, OneSegment]
  by_cases hempty : value = ""
  · simp [hempty]
  · by_cases hslash : '/' ∈ value.toList <;> simp [hempty, hslash]

theorem fault?_eq_some_iff : fault? part value = some e ↔ PartFault part value e := by
  constructor
  · intro h
    rw [fault?] at h
    split at h
    · next hempty =>
      cases h
      exact .empty (by simpa using hempty)
    · next hempty =>
      split at h
      · next hslash =>
        cases h
        exact .slash (by simpa using hempty) (by simpa using hslash)
      · cases h
  · intro h
    cases h with
    | empty empty => simp [fault?, empty]
    | slash nonempty slash => simp [fault?, nonempty, slash]

theorem make_eq_error_iff :
    make space name provider = .error e ↔ CoordinateFault space name provider e := by
  have hcases : CoordinateFault space name provider e ↔
      PartFault .space space e ∨ OneSegment space ∧ PartFault .name name e ∨
        OneSegment space ∧ OneSegment name ∧ PartFault .provider provider e := by
    constructor
    · intro h
      cases h with
      | space fault => exact .inl fault
      | name space fault => exact .inr (.inl ⟨space, fault⟩)
      | provider space name fault => exact .inr (.inr ⟨space, name, fault⟩)
    · intro h
      rcases h with hspace | ⟨hspace, hname⟩ | ⟨hspace, hname, hprovider⟩
      · exact .space hspace
      · exact .name hspace hname
      · exact .provider hspace hname hprovider
  rw [hcases, ← fault?_eq_some_iff, ← fault?_eq_some_iff, ← fault?_eq_some_iff,
    ← fault?_eq_none_iff .space, ← fault?_eq_none_iff .name]
  unfold make
  split
  · next hspace => simp [hspace]
  · next hspace hname => simp [hspace, hname]
  · next hspace hname hprovider => simp [hspace, hname, hprovider]
  · next hspace hname hprovider => simp [hspace, hname, hprovider]

theorem exists_make_iff : (∃ c, make space name provider = .ok c) ↔
    OneSegment space ∧ OneSegment name ∧ OneSegment provider := by
  have hsegment (value : String) : OneSegment value ↔ isSegment value = true := by
    simp [isSegment, OneSegment]
  rw [hsegment, hsegment, hsegment]
  constructor
  · rintro ⟨c, hmake⟩
    obtain ⟨rfl, rfl, rfl⟩ := parts_of_make hmake
    exact c.segments
  · intro h
    exact ⟨_, make_of_isSegment h⟩

end Coordinate

theorem ListenAddress.parse?_eq_none_iff {raw : String} :
    parse? raw = none ↔ Text.trimBlank raw.toList = [] := by
  rw [parse?]
  split
  · next hnil => simp [hnil]
  · next hslash => simp [hslash]
  · next hnil hslash => exact ⟨nofun, fun h => absurd h hnil⟩

/-! ## Declarations in order -/

def ModuleSection.parts (s : ModuleSection) : String × String × String :=
  (s.space, s.name, s.provider)

/-- How a file and the number of a module in it are shown. -/
def declaredAt (path : Bytes) (index : Nat) : String := s!"{Path.display path}: module[{index}]"

/-- Where the module is that a file declares, and where it says so: the path of its repository is
seen from the directory of the file, and the module is known by its number. -/
structure LocatedBy (path : Bytes) (index : Nat) (s : ModuleSection) (l : Location) : Prop where
  gitDir : Path.ResolvedFrom path (Utf8.encode s.gitDir) l.gitDir
  origin : l.origin = declaredAt path index

/-- There is one such location. -/
def locationOf (path : Bytes) (index : Nat) (s : ModuleSection) : Location :=
  ⟨Path.join ((Path.parent? path).getD [Bytes.dot]) (Utf8.encode s.gitDir),
    declaredAt path index⟩

theorem locatedBy_iff {path : Bytes} {index : Nat} {s : ModuleSection} {l : Location} :
    LocatedBy path index s l ↔ l = locationOf path index s := by
  constructor
  · intro h
    have hdirectory := Path.resolvedFrom_iff.mp h.gitDir
    rw [locationOf, ← hdirectory, ← h.origin]
  · rintro rfl
    exact ⟨Path.resolvedFrom_iff.mpr rfl, rfl⟩

namespace ModuleMap

variable {inserts : List (Coordinate × Location)}

theorem nodup_keyed (h : (inserts.map Prod.fst).Nodup) : ((keyed inserts).map Prod.fst).Nodup := by
  rw [keyed, List.map_map]
  have hkeys := h.map Coordinate.parts_injective
  rwa [List.map_map] at hkeys

/-- If no coordinate is inserted twice, the map has the inserts, in another order. -/
theorem perm_toList_ofInserts (h : (inserts.map Prod.fst).Nodup) :
    (ofInserts inserts).toList.Perm inserts := by
  have hsorted := (wellFormed_ofInserts inserts).1
  rw [List.perm_ext_iff_of_nodup hsorted.nodup_toList.of_map h.of_map]
  intro ⟨c, l⟩
  rw [mem_toList_ofInserts_iff]
  exact ⟨Table.mem_of_lookup_eq_some, Table.lookup_of_nodup h⟩

end ModuleMap

namespace Config

/-- Something that a file declares. -/
inductive Declaration where
  | hostname (path : Bytes) (raw : String)
  | listener (raw : String)
  | module (path : Bytes) (index : Nat) (block : ModuleSection)

namespace Declaration

def hostname? : Declaration → Option (Bytes × String)
  | .hostname path raw => some (path, raw)
  | _ => none

def listener? : Declaration → Option String
  | .listener raw => some raw
  | _ => none

def module? : Declaration → Option (Bytes × Nat × ModuleSection)
  | .module path index s => some (path, index, s)
  | _ => none

/-- What a file declares: first the hostname, then the listeners, then the modules. -/
def ofFile (item : Bytes × ConfigFile) : List Declaration :=
  item.2.hostname.toList.map (.hostname item.1) ++ item.2.listen.map .listener ++
    item.2.modules.zipIdx.map fun block => .module item.1 block.2 block.1

/-- What all files declare, in order. -/
def scan (files : List (Bytes × ConfigFile)) : List Declaration := files.flatMap ofFile

end Declaration

/-- A module block without a fault of its own. -/
structure Sound (s : ModuleSection) : Prop where
  space : OneSegment s.space
  name : OneSegment s.name
  provider : OneSegment s.provider
  gitDir : s.gitDir ≠ ""

/-- The first fault of a module block by itself. -/
inductive BlockFault (s : ModuleSection) : ModuleFault → Prop where
  | coordinate {cause : CoordinateError}
      (fault : CoordinateFault s.space s.name s.provider cause) : BlockFault s (.coordinate cause)
  | emptyGitDir (space : OneSegment s.space) (name : OneSegment s.name)
      (provider : OneSegment s.provider) (empty : s.gitDir = "") : BlockFault s .emptyGitDir

theorem Sound.not_blockFault {s : ModuleSection} {fault : ModuleFault} (h : Sound s) :
    ¬BlockFault s fault := by
  intro hfault
  cases hfault with
  | coordinate fault =>
    obtain ⟨c, hmake⟩ := Coordinate.exists_make_iff.mpr ⟨h.space, h.name, h.provider⟩
    rw [Coordinate.make_eq_error_iff.mpr fault] at hmake
    cases hmake
  | emptyGitDir space name provider empty => exact h.gitDir empty

/-- What is wrong with a declaration, where others come before it. -/
inductive Fault (before : List Declaration) : Declaration → ConfigError → Prop where
  | hostnameRepeated {first path : Bytes} {raw raw' : String}
      (declared : .hostname first raw ∈ before) :
      Fault before (.hostname path raw') (.hostnameRepeated first path)
  | invalidHostname {path : Bytes} {raw : String} {fault : HostnameFault}
      (new : ∀ path raw, .hostname path raw ∉ before)
      (invalid : Hostname.parse raw = .error fault) :
      Fault before (.hostname path raw) (.invalidHostname raw fault)
  | emptyListener {raw : String} (blank : Text.trimBlank raw.toList = []) :
      Fault before (.listener raw) .emptyListener
  | invalidModule {path : Bytes} {index : Nat} {s : ModuleSection} {fault : ModuleFault}
      (invalid : BlockFault s fault) :
      Fault before (.module path index s) (.invalidModule (declaredAt path index) fault)
  | moduleRepeated {path first : Bytes} {index number : Nat} {s s' : ModuleSection}
      {c : Coordinate} (sound : Sound s) (coordinate : c.parts = s.parts)
      (declared : .module first number s' ∈ before) (same : s'.parts = s.parts) :
      Fault before (.module path index s)
        (.moduleRepeated c (declaredAt path index) (declaredAt first number))

/-- The first fault of some declarations that come after others. -/
inductive FirstFault : List Declaration → List Declaration → ConfigError → Prop where
  | here {before after : List Declaration} {x : Declaration} {e : ConfigError}
      (fault : Fault before x e) : FirstFault before (x :: after) e
  | later {before after : List Declaration} {x : Declaration} {e : ConfigError}
      (right : ∀ e, ¬Fault before x e) (rest : FirstFault (before ++ [x]) after e) :
      FirstFault before (x :: after) e

namespace Declaration

variable {xs : List Declaration} {path : Bytes} {raw : String} {index : Nat} {s : ModuleSection}

theorem mem_filterMap_iff {α : Type} {f : Declaration → Option α} {a : α} {x : Declaration}
    (h : ∀ y, f y = some a ↔ y = x) : a ∈ xs.filterMap f ↔ x ∈ xs := by
  simp [List.mem_filterMap, h]

theorem mem_hostnames_iff : (path, raw) ∈ xs.filterMap hostname? ↔ .hostname path raw ∈ xs :=
  mem_filterMap_iff fun y => by cases y <;> simp [hostname?]

theorem mem_listeners_iff : raw ∈ xs.filterMap listener? ↔ .listener raw ∈ xs :=
  mem_filterMap_iff fun y => by cases y <;> simp [listener?]

theorem mem_modules_iff :
    (path, index, s) ∈ xs.filterMap module? ↔ .module path index s ∈ xs :=
  mem_filterMap_iff fun y => by cases y <;> simp [module?]

end Declaration

/-! ## One declaration -/

/-- No file has set the hostname, or one has, and the name is valid. -/
inductive HostnameHeld : List (Bytes × String) → Option (Hostname × Bytes) → Prop where
  | unset : HostnameHeld [] none
  | set {path : Bytes} {raw : String} {hostname : Hostname}
      (parsed : Hostname.parse raw = .ok hostname) :
      HostnameHeld [(path, raw)] (some (hostname, path))

/-- The entry that a module block becomes. -/
def entryOf (block : Bytes × Nat × ModuleSection) : (String × String × String) × Location :=
  (block.2.2.parts, locationOf block.1 block.2.1 block.2.2)

/-- A draft holds what some declarations add up to, of which none is at fault. -/
structure Holds (before : List Declaration) (d : Draft) : Prop where
  hostname : HostnameHeld (before.filterMap Declaration.hostname?) d.hostname
  listeners : d.listeners.map some =
    (before.filterMap Declaration.listener?).map ListenAddress.parse?
  modules : ∃ inserts, d.modules = .ofInserts inserts ∧ (inserts.map Prod.fst).Nodup ∧
    ModuleMap.keyed inserts = (before.filterMap Declaration.module?).map entryOf
  sound : ∀ block ∈ before.filterMap Declaration.module?, Sound block.2.2

theorem holds_empty : Holds [] Draft.empty where
  hostname := .unset
  listeners := rfl
  modules := ⟨[], rfl, List.nodup_nil, rfl⟩
  sound block hblock := by cases hblock

namespace Draft

variable {before : List Declaration} {d d' : Draft} {x : Declaration} {e : ConfigError}

/-- Takes over one declaration. -/
def add (d : Draft) : Declaration → Except ConfigError Draft
  | .hostname path raw => d.addHostname path (some raw)
  | .listener raw => d.addListener raw
  | .module path index s => addModule path d (s, index)

theorem addFile_eq (d : Draft) (item : Bytes × ConfigFile) :
    d.addFile item = (Declaration.ofFile item).foldlM add d := by
  obtain ⟨path, file⟩ := item
  rw [Declaration.ofFile, List.foldlM_append, List.foldlM_append]
  simp only [List.foldlM_map, bind_assoc, addFile]
  cases file.hostname with
  | none => rfl
  | some raw =>
    simp only [Option.toList_some, List.foldlM_cons, List.foldlM_nil, bind_pure]
    rfl

theorem foldlM_addFile (d : Draft) (files : List (Bytes × ConfigFile)) :
    files.foldlM addFile d = (Declaration.scan files).foldlM add d := by
  induction files generalizing d with
  | nil => rfl
  | cons item rest ih =>
    rw [Declaration.scan, List.flatMap_cons, List.foldlM_append, List.foldlM_cons, addFile_eq]
    exact bind_congr ih

/-- Adding a declaration fails exactly if it is at fault, and what succeeds holds it too. -/
structure Adds (before : List Declaration) (x : Declaration) (d : Draft) : Prop where
  error_iff : ∀ e, d.add x = .error e ↔ Fault before x e
  holds : ∀ d', d.add x = .ok d' → Holds (before ++ [x]) d'

theorem adds_of_error (hadd : d.add x = .error e) (hfault : Fault before x e)
    (hunique : ∀ e', Fault before x e' → e' = e) : Adds before x d := by
  refine ⟨fun e' => ⟨?_, ?_⟩, ?_⟩
  · intro herror
    rw [hadd] at herror
    cases herror
    exact hfault
  · intro hfault'
    rw [hunique e' hfault', hadd]
  · intro d' hok
    rw [hadd] at hok
    cases hok

theorem adds_of_ok (hadd : d.add x = .ok d') (hright : ∀ e, ¬Fault before x e)
    (hholds : Holds (before ++ [x]) d') : Adds before x d := by
  refine ⟨fun e => ⟨?_, ?_⟩, ?_⟩
  · intro herror
    rw [hadd] at herror
    cases herror
  · intro hfault
    exact absurd hfault (hright e)
  · intro d'' hok
    rw [hadd] at hok
    cases hok
    exact hholds

theorem adds_hostname (h : Holds before d) (path : Bytes) (raw : String) :
    Adds before (.hostname path raw) d := by
  obtain ⟨hhostname, hlisteners, hmodules, hsound⟩ := h
  obtain ⟨current, listeners, modules⟩ := d
  generalize hset : before.filterMap Declaration.hostname? = set at hhostname
  cases hhostname with
  | unset =>
    have hnew (path : Bytes) (raw : String) : .hostname path raw ∉ before := by
      intro hmem
      rw [← Declaration.mem_hostnames_iff, hset] at hmem
      cases hmem
    cases hparse : Hostname.parse raw with
    | error fault =>
      have hadd : add ⟨none, listeners, modules⟩ (.hostname path raw) =
          .error (.invalidHostname raw fault) := by simp only [add, addHostname, hparse]
      refine adds_of_error hadd (.invalidHostname hnew hparse) ?_
      intro e hfault
      cases hfault with
      | hostnameRepeated declared => exact absurd declared (hnew _ _)
      | invalidHostname new invalid =>
        rw [hparse] at invalid
        cases invalid
        rfl
    | ok hostname =>
      have hadd : add ⟨none, listeners, modules⟩ (.hostname path raw) =
          .ok ⟨some (hostname, path), listeners, modules⟩ := by
        simp only [add, addHostname, hparse]
      refine adds_of_ok hadd ?_ ⟨?_, ?_, ?_, ?_⟩
      · intro e hfault
        cases hfault with
        | hostnameRepeated declared => exact hnew _ _ declared
        | invalidHostname new invalid =>
          rw [hparse] at invalid
          cases invalid
      · rw [List.filterMap_append, hset]
        exact .set hparse
      · simpa [List.filterMap_append, List.filterMap_cons, Declaration.listener?] using hlisteners
      · simpa [List.filterMap_append, List.filterMap_cons, Declaration.module?] using hmodules
      · simpa [List.filterMap_append, List.filterMap_cons, Declaration.module?] using hsound
  | @set first raw' hostname parsed =>
    have hdeclared : .hostname first raw' ∈ before := by
      rw [← Declaration.mem_hostnames_iff, hset]
      exact List.mem_singleton_self _
    refine adds_of_error rfl (.hostnameRepeated hdeclared) ?_
    intro e hfault
    cases hfault with
    | hostnameRepeated declared =>
      rw [← Declaration.mem_hostnames_iff, hset, List.mem_singleton] at declared
      cases declared
      rfl
    | invalidHostname new invalid => exact absurd hdeclared (new _ _)

theorem adds_listener (h : Holds before d) (raw : String) : Adds before (.listener raw) d := by
  cases hparse : ListenAddress.parse? raw with
  | none =>
    have hadd : d.add (.listener raw) = .error .emptyListener := by
      simp only [add, addListener, hparse]
    refine adds_of_error hadd (.emptyListener (ListenAddress.parse?_eq_none_iff.mp hparse)) ?_
    intro e hfault
    cases hfault
    rfl
  | some address =>
    have hadd : d.add (.listener raw) = .ok { d with listeners := d.listeners ++ [address] } := by
      simp only [add, addListener, hparse]
    refine adds_of_ok hadd ?_ ⟨?_, ?_, ?_, ?_⟩
    · intro e hfault
      cases hfault with
      | emptyListener blank =>
        rw [ListenAddress.parse?_eq_none_iff.mpr blank] at hparse
        cases hparse
    · simpa [List.filterMap_append, List.filterMap_cons, Declaration.hostname?] using h.hostname
    · simp [List.filterMap_append, Declaration.listener?, h.listeners, hparse]
    · simpa [List.filterMap_append, List.filterMap_cons, Declaration.module?] using h.modules
    · simpa [List.filterMap_append, List.filterMap_cons, Declaration.module?] using h.sound

theorem adds_blockFault {path : Bytes} {index : Nat} {s : ModuleSection} {fault : ModuleFault}
    (hadd : d.add (.module path index s) = .error (.invalidModule (declaredAt path index) fault))
    (hfault : BlockFault s fault)
    (hunique : ∀ fault', BlockFault s fault' → fault' = fault) :
    Adds before (.module path index s) d := by
  refine adds_of_error hadd (.invalidModule hfault) ?_
  intro e he
  cases he with
  | invalidModule invalid => rw [hunique _ invalid]
  | moduleRepeated sound => exact absurd hfault sound.not_blockFault

theorem add_of_make (d : Draft) (path : Bytes) (index : Nat) {s : ModuleSection} {c : Coordinate}
    (hmake : Coordinate.make s.space s.name s.provider = .ok c) (hgit : s.gitDir ≠ "") :
    d.add (.module path index s) = match d.modules.insert c (locationOf path index s) with
      | .ok modules => .ok { d with modules := modules }
      | .error existing =>
        .error (.moduleRepeated c (declaredAt path index) existing.origin) := by
  have hempty : s.gitDir.isEmpty = false := by simp [hgit]
  simp only [add, addModule, hmake, hempty]
  rfl

theorem mem_inserts_iff {inserts : List (Coordinate × Location)} {c : Coordinate} {l : Location}
    (hkeyed : ModuleMap.keyed inserts = (before.filterMap Declaration.module?).map entryOf) :
    (c, l) ∈ inserts ↔ ∃ path index s,
      .module path index s ∈ before ∧ s.parts = c.parts ∧ locationOf path index s = l := by
  have hmem : (c, l) ∈ inserts ↔ (c.parts, l) ∈ ModuleMap.keyed inserts := by
    rw [ModuleMap.keyed, List.mem_map]
    constructor
    · intro hmem
      exact ⟨_, hmem, rfl⟩
    · rintro ⟨item, hmem, heq⟩
      obtain ⟨hparts, hl⟩ := Prod.mk.inj heq
      have hitem : item = (c, l) := Prod.ext (Coordinate.parts_injective hparts) hl
      exact hitem ▸ hmem
  rw [hmem, hkeyed, List.mem_map]
  constructor
  · rintro ⟨⟨path, index, s⟩, hmem, heq⟩
    obtain ⟨hs, hl⟩ := Prod.mk.inj heq
    exact ⟨path, index, s, Declaration.mem_modules_iff.mp hmem, hs, hl⟩
  · rintro ⟨path, index, s, hmem, hs, hl⟩
    exact ⟨_, Declaration.mem_modules_iff.mpr hmem, Prod.ext hs hl⟩

theorem adds_sound (h : Holds before d) {path : Bytes} {index : Nat} {s : ModuleSection}
    {c : Coordinate} (hsound : Sound s)
    (hmake : Coordinate.make s.space s.name s.provider = .ok c) (hparts : c.parts = s.parts) :
    Adds before (.module path index s) d := by
  obtain ⟨inserts, hmodules, hnodup, hkeyed⟩ := h.modules
  have hadd := add_of_make d path index hmake hsound.gitDir
  by_cases hmem : c ∈ inserts.map Prod.fst
  · obtain ⟨l, hlookup⟩ := ModuleMap.exists_lookup_iff.mpr hmem
    have hl := Table.mem_of_lookup_eq_some hlookup
    rw [hmodules, (ModuleMap.insert_ofInserts_of_known hlookup _).1] at hadd
    obtain ⟨first, number, s', hdeclared, hsame, hl'⟩ := (mem_inserts_iff hkeyed).mp hl
    rw [← hl'] at hadd
    refine adds_of_error hadd (.moduleRepeated hsound hparts hdeclared (hsame.trans hparts)) ?_
    intro e hfault
    cases hfault with
    | invalidModule invalid => exact absurd invalid hsound.not_blockFault
    | moduleRepeated sound coordinate declared same =>
      cases Coordinate.parts_injective (coordinate.trans hparts.symm)
      have hother := (mem_inserts_iff hkeyed).mpr ⟨_, _, _, declared, same.trans hparts.symm, rfl⟩
      have hone := List.inj_on_of_nodup_map hnodup hl hother rfl
      rw [hl', (Prod.mk.inj hone).2]
      rfl
  · rw [hmodules, ModuleMap.insert_ofInserts_of_new hmem] at hadd
    refine adds_of_ok hadd ?_ ⟨?_, ?_, ?_, ?_⟩
    · intro e hfault
      cases hfault with
      | invalidModule invalid => exact hsound.not_blockFault invalid
      | moduleRepeated sound coordinate declared same =>
        have hfirst := (mem_inserts_iff hkeyed).mpr ⟨_, _, _, declared, same.trans hparts.symm, rfl⟩
        exact hmem (List.mem_map_of_mem hfirst)
    · simpa [List.filterMap_append, List.filterMap_cons, Declaration.hostname?] using h.hostname
    · simpa [List.filterMap_append, List.filterMap_cons, Declaration.listener?] using h.listeners
    · refine ⟨_, rfl, ?_, ?_⟩
      · rw [List.map_append, List.nodup_append]
        refine ⟨hnodup, List.nodup_singleton c, ?_⟩
        intro c' hc' c'' hc'' heq
        rw [List.map_singleton, List.mem_singleton] at hc''
        rw [heq, hc''] at hc'
        exact hmem hc'
      · rw [ModuleMap.keyed, List.map_append, ← ModuleMap.keyed, hkeyed, List.filterMap_append,
          List.map_append, List.map_singleton, hparts]
        rfl
    · intro block hblock
      rw [List.filterMap_append, List.mem_append] at hblock
      rcases hblock with hblock | hblock
      · exact h.sound block hblock
      · cases List.mem_singleton.mp hblock
        exact hsound

theorem adds_module (h : Holds before d) (path : Bytes) (index : Nat) (s : ModuleSection) :
    Adds before (.module path index s) d := by
  cases hmake : Coordinate.make s.space s.name s.provider with
  | error cause =>
    have hfault := Coordinate.make_eq_error_iff.mp hmake
    refine adds_blockFault (by simp only [add, addModule, hmake]; rfl) (.coordinate hfault) ?_
    intro fault hfault'
    cases hfault' with
    | coordinate fault =>
      rw [Coordinate.make_eq_error_iff.mpr fault] at hmake
      cases hmake
      rfl
    | emptyGitDir space name provider empty =>
      obtain ⟨c, hc⟩ := Coordinate.exists_make_iff.mpr ⟨space, name, provider⟩
      rw [hc] at hmake
      cases hmake
  | ok c =>
    have hparts : c.parts = s.parts := by
      obtain ⟨hspace, hname, hprovider⟩ := Coordinate.parts_of_make hmake
      rw [Coordinate.parts, hspace, hname, hprovider]
      rfl
    obtain ⟨hspace, hname, hprovider⟩ := Coordinate.exists_make_iff.mp ⟨c, hmake⟩
    by_cases hgit : s.gitDir = ""
    · refine adds_blockFault (by simp [add, addModule, hmake, hgit]; rfl)
        (.emptyGitDir hspace hname hprovider hgit) ?_
      intro fault hfault
      cases hfault with
      | coordinate fault =>
        rw [Coordinate.make_eq_error_iff.mpr fault] at hmake
        cases hmake
      | emptyGitDir => rfl
    · exact adds_sound h ⟨hspace, hname, hprovider, hgit⟩ hmake hparts

theorem adds (h : Holds before d) (x : Declaration) : Adds before x d := by
  cases x with
  | hostname path raw => exact adds_hostname h path raw
  | listener raw => exact adds_listener h raw
  | module path index s => exact adds_module h path index s

/-- Going on with some declarations stops at their first fault, and holds them all if there is
none. -/
theorem holds_foldlM {xs : List Declaration} (h : Holds before d) :
    (∀ e, xs.foldlM add d = .error e ↔ FirstFault before xs e) ∧
      ∀ d', xs.foldlM add d = .ok d' → Holds (before ++ xs) d' := by
  induction xs generalizing before d with
  | nil =>
    refine ⟨fun e => ⟨nofun, nofun⟩, ?_⟩
    intro d' hok
    cases hok
    rwa [List.append_nil]
  | cons x xs ih =>
    have hx := adds h x
    rw [List.foldlM_cons]
    cases hadd : d.add x with
    | error first =>
      have hfirst := (hx.error_iff first).mp hadd
      refine ⟨fun e => ⟨?_, ?_⟩, nofun⟩
      · intro herror
        cases herror
        exact .here hfirst
      · intro hfault
        cases hfault with
        | here fault => rw [← hadd, (hx.error_iff e).mpr fault]; rfl
        | later right rest => exact absurd hfirst (right first)
    | ok d₁ =>
      obtain ⟨herror, hholds⟩ := ih (hx.holds d₁ hadd)
      refine ⟨fun e => ⟨?_, ?_⟩, ?_⟩
      · intro hrest
        refine .later ?_ ((herror e).mp hrest)
        intro e' hfault
        rw [(hx.error_iff e').mpr hfault] at hadd
        cases hadd
      · intro hfault
        cases hfault with
        | here fault =>
          rw [(hx.error_iff e).mpr fault] at hadd
          cases hadd
        | later right rest => exact (herror e).mpr rest
      · intro d' hok
        rw [List.append_cons]
        exact hholds d' hok

end Draft

/-! ## What the files say -/

/-- The hostnames that are set, each with the file that sets it. -/
def hostnamesOf (files : List (Bytes × ConfigFile)) : List (Bytes × String) :=
  files.filterMap fun item => item.2.hostname.map fun raw => (item.1, raw)

/-- The module blocks of a file, each with the file and its number there. -/
def blocksOf (item : Bytes × ConfigFile) : List (Bytes × Nat × ModuleSection) :=
  item.2.modules.zipIdx.map fun block => (item.1, block.2, block.1)

/-- Files that can be merged. -/
structure Mergeable (files : List (Bytes × ConfigFile)) : Prop where
  hostname : ∃ path raw hostname,
    hostnamesOf files = [(path, raw)] ∧ Hostname.parse raw = .ok hostname
  listeners : ∀ item ∈ files, ∀ raw ∈ item.2.listen, Text.trimBlank raw.toList ≠ []
  modules : ∀ item ∈ files, ∀ s ∈ item.2.modules, Sound s
  distinct : ((files.flatMap fun item => item.2.modules).map ModuleSection.parts).Nodup

/-- The entry that a module block becomes. -/
structure EntryOf (block : Bytes × Nat × ModuleSection)
    (entry : (String × String × String) × Location) : Prop where
  parts : entry.1 = block.2.2.parts
  located : LocatedBy block.1 block.2.1 block.2.2 entry.2

/-- A configuration has what the files declare, and nothing else. -/
structure MergedAs (files : List (Bytes × ConfigFile)) (c : Config) : Prop where
  hostname : ∃ path raw, hostnamesOf files = [(path, raw)] ∧ Hostname.parse raw = .ok c.hostname
  listeners : c.listeners.map some =
    (files.flatMap fun item => item.2.listen).map ListenAddress.parse?
  paths : c.files = files.map Prod.fst
  entries : ∃ entries, List.Forall₂ EntryOf (files.flatMap blocksOf) entries ∧
    (ModuleMap.keyed c.modules.toList).Perm entries
  size : c.modules.size = (files.map fun item => item.2.modules.length).sum
  location : ∀ item ∈ files, ∀ index s, item.2.modules[index]? = some s →
    ∃ l, LocatedBy item.1 index s l ∧ c.modules.lookup s.space s.name s.provider = some l

/-- The first thing that is wrong with some files. That there is no hostname shows last. -/
inductive FirstViolation (files : List (Bytes × ConfigFile)) : ConfigError → Prop where
  | declared {e : ConfigError} (fault : FirstFault [] (Declaration.scan files) e) :
      FirstViolation files e
  | hostnameMissing (right : ∀ e, ¬FirstFault [] (Declaration.scan files) e)
      (unset : hostnamesOf files = []) : FirstViolation files .hostnameMissing

variable {files : List (Bytes × ConfigFile)}

namespace Declaration

theorem filterMap_ofFile {α : Type} (f : Declaration → Option α) (item : Bytes × ConfigFile) :
    (ofFile item).filterMap f =
      item.2.hostname.toList.filterMap (fun raw => f (.hostname item.1 raw)) ++
      item.2.listen.filterMap (fun raw => f (.listener raw)) ++
      (blocksOf item).filterMap fun block => f (.module block.1 block.2.1 block.2.2) := by
  rw [ofFile, List.filterMap_append, List.filterMap_append, blocksOf]
  simp only [List.filterMap_map]
  rfl

theorem hostnames_scan (files : List (Bytes × ConfigFile)) :
    (scan files).filterMap hostname? = hostnamesOf files := by
  rw [scan, List.filterMap_flatMap, hostnamesOf, List.filterMap_eq_flatMap_toList]
  refine congrArg (List.flatMap · files) (funext fun item => ?_)
  rw [filterMap_ofFile]
  cases item.2.hostname <;> simp [hostname?]

theorem listeners_scan (files : List (Bytes × ConfigFile)) :
    (scan files).filterMap listener? = files.flatMap fun item => item.2.listen := by
  rw [scan, List.filterMap_flatMap]
  simp [filterMap_ofFile, listener?]

theorem modules_scan (files : List (Bytes × ConfigFile)) :
    (scan files).filterMap module? = files.flatMap blocksOf := by
  rw [scan, List.filterMap_flatMap]
  simp [filterMap_ofFile, module?]

theorem mem_blocksOf {item : Bytes × ConfigFile} {path : Bytes} {index : Nat} {s : ModuleSection} :
    (path, index, s) ∈ blocksOf item ↔ path = item.1 ∧ item.2.modules[index]? = some s := by
  rw [blocksOf, List.mem_map]
  constructor
  · intro ⟨⟨s', index'⟩, hmem, heq⟩
    cases heq
    exact ⟨rfl, List.mem_zipIdx_iff_getElem?.mp hmem⟩
  · intro ⟨hpath, hs⟩
    exact ⟨(s, index), List.mem_zipIdx_iff_getElem?.mpr hs, by rw [hpath]⟩

theorem parts_blocksOf (files : List (Bytes × ConfigFile)) :
    (files.flatMap blocksOf).map (fun block => block.2.2.parts) =
      (files.flatMap fun item => item.2.modules).map ModuleSection.parts := by
  rw [List.map_flatMap, List.map_flatMap]
  refine congrArg (List.flatMap · files) (funext fun item => ?_)
  rw [blocksOf, List.map_map, ← List.zipIdx_map_fst 0 item.2.modules, List.map_map]
  simp

end Declaration

/-! ## Merging files -/

theorem Holds.hostname_of_set {d : Draft} {hostname : Hostname} {path : Bytes}
    (h : Holds (Declaration.scan files) d) (hset : d.hostname = some (hostname, path)) :
    ∃ raw, hostnamesOf files = [(path, raw)] ∧ Hostname.parse raw = .ok hostname := by
  have hheld := h.hostname
  rw [hset, Declaration.hostnames_scan] at hheld
  generalize hostnamesOf files = set at hheld
  cases hheld with
  | set parsed => exact ⟨_, rfl, parsed⟩

theorem FirstFault.exists_fault {before xs : List Declaration} {e : ConfigError}
    (h : FirstFault before xs e) :
    ∃ first x after, before ++ xs = first ++ x :: after ∧ Fault first x e := by
  induction h with
  | here fault => exact ⟨_, _, _, rfl, fault⟩
  | later right rest ih =>
    rw [List.append_cons]
    exact ih

theorem not_firstFault_of_mergeable (h : Mergeable files) (e : ConfigError) :
    ¬FirstFault [] (Declaration.scan files) e := by
  intro hfault
  obtain ⟨first, x, after, hscan, hfault⟩ := hfault.exists_fault
  obtain ⟨path, raw, hostname, hset, hparse⟩ := h.hostname
  rw [List.nil_append] at hscan
  have hmem : x ∈ Declaration.scan files := by
    rw [hscan]
    exact List.mem_append_right _ List.mem_cons_self
  cases hfault with
  | hostnameRepeated declared =>
    have hfirst := List.length_pos_of_mem (Declaration.mem_hostnames_iff.mpr declared)
    have hlength := congrArg List.length hset
    rw [← Declaration.hostnames_scan, hscan, List.filterMap_append,
      List.filterMap_cons_some (f := Declaration.hostname?) rfl, List.length_append,
      List.length_cons, List.length_singleton] at hlength
    omega
  | invalidHostname new invalid =>
    rw [← Declaration.mem_hostnames_iff, Declaration.hostnames_scan, hset,
      List.mem_singleton] at hmem
    cases hmem
    rw [hparse] at invalid
    cases invalid
  | emptyListener blank =>
    rw [← Declaration.mem_listeners_iff, Declaration.listeners_scan, List.mem_flatMap] at hmem
    obtain ⟨item, hitem, hraw⟩ := hmem
    exact h.listeners item hitem _ hraw blank
  | invalidModule invalid =>
    rw [← Declaration.mem_modules_iff, Declaration.modules_scan, List.mem_flatMap] at hmem
    obtain ⟨item, hitem, hblock⟩ := hmem
    have hs := List.mem_of_getElem? (Declaration.mem_blocksOf.mp hblock).2
    exact (h.modules item hitem _ hs).not_blockFault invalid
  | moduleRepeated sound coordinate declared same =>
    have hdistinct := h.distinct
    rw [← Declaration.parts_blocksOf, ← Declaration.modules_scan, hscan, List.filterMap_append,
      List.filterMap_cons_some (f := Declaration.module?) rfl, List.map_append, List.map_cons,
      List.nodup_append] at hdistinct
    have hfirst := List.mem_map_of_mem (f := fun block => block.2.2.parts)
      (Declaration.mem_modules_iff.mpr declared)
    exact hdistinct.2.2 _ hfirst _ List.mem_cons_self same

theorem mergeable_of_holds {d : Draft} {hostname : Hostname} {path : Bytes}
    (h : Holds (Declaration.scan files) d) (hset : d.hostname = some (hostname, path)) :
    Mergeable files := by
  obtain ⟨inserts, -, hnodup, hkeyed⟩ := h.modules
  constructor
  case hostname =>
    obtain ⟨raw, hone, hparse⟩ := h.hostname_of_set hset
    exact ⟨path, raw, hostname, hone, hparse⟩
  case listeners =>
    intro item hitem raw hraw hblank
    have hmem : ListenAddress.parse? raw ∈ d.listeners.map some := by
      rw [h.listeners, Declaration.listeners_scan]
      exact List.mem_map_of_mem (List.mem_flatMap.mpr ⟨item, hitem, hraw⟩)
    rw [ListenAddress.parse?_eq_none_iff.mpr hblank] at hmem
    obtain ⟨address, -, heq⟩ := List.mem_map.mp hmem
    cases heq
  case modules =>
    intro item hitem s hs
    obtain ⟨index, hindex⟩ := List.mem_iff_getElem?.mp hs
    refine h.sound (item.1, index, s) ?_
    rw [Declaration.modules_scan, List.mem_flatMap]
    exact ⟨item, hitem, Declaration.mem_blocksOf.mpr ⟨rfl, hindex⟩⟩
  case distinct =>
    have hkeys := ModuleMap.nodup_keyed hnodup
    rw [hkeyed, Declaration.modules_scan, List.map_map] at hkeys
    exact Declaration.parts_blocksOf files ▸ hkeys

theorem mergedAs_of_holds {d : Draft} {hostname : Hostname} {path : Bytes}
    (h : Holds (Declaration.scan files) d) (hset : d.hostname = some (hostname, path)) :
    MergedAs files ⟨hostname, d.listeners, d.modules, files.map Prod.fst⟩ := by
  obtain ⟨inserts, hmodules, hnodup, hkeyed⟩ := h.modules
  have hperm := ModuleMap.perm_toList_ofInserts hnodup
  have hkeys := ModuleMap.nodup_keyed hnodup
  rw [Declaration.modules_scan] at hkeyed
  constructor
  case hostname =>
    obtain ⟨raw, hone, hparse⟩ := h.hostname_of_set hset
    exact ⟨path, raw, hone, hparse⟩
  case listeners => exact Declaration.listeners_scan files ▸ h.listeners
  case paths => rfl
  case entries =>
    refine ⟨(files.flatMap blocksOf).map entryOf, ?_, ?_⟩
    · rw [List.forall₂_map_right_iff, List.forall₂_same]
      exact fun block _ => ⟨rfl, locatedBy_iff.mpr rfl⟩
    · rw [hmodules, ← hkeyed]
      exact hperm.map _
  case size =>
    have hlength := congrArg List.length hkeyed
    rw [ModuleMap.keyed, List.length_map, List.length_map, List.length_flatMap] at hlength
    rw [hmodules, (ModuleMap.wellFormed_ofInserts inserts).1.size_eq, hperm.length_eq, hlength]
    simp [blocksOf]
  case location =>
    intro item hitem index s hs
    refine ⟨_, locatedBy_iff.mpr rfl, ?_⟩
    rw [hmodules, ModuleMap.lookup_ofInserts]
    refine Table.lookup_of_nodup hkeys ?_
    rw [hkeyed]
    refine List.mem_map_of_mem (f := entryOf) (a := (item.1, index, s)) ?_
    exact List.mem_flatMap.mpr ⟨item, hitem, Declaration.mem_blocksOf.mpr ⟨rfl, hs⟩⟩

theorem Holds.hostname_eq_none_iff {d : Draft} (h : Holds (Declaration.scan files) d) :
    d.hostname = none ↔ hostnamesOf files = [] := by
  have hheld := h.hostname
  rw [Declaration.hostnames_scan] at hheld
  generalize hostnamesOf files = set at hheld
  generalize d.hostname = current at hheld
  cases hheld with
  | unset => simp
  | set parsed => simp

/-- The configuration that a draft is, once all files are in. -/
def Draft.close (d : Draft) (paths : List Bytes) : Except ConfigError Config :=
  match d.hostname with
  | some (hostname, _) => .ok ⟨hostname, d.listeners, d.modules, paths⟩
  | none => .error .hostnameMissing

theorem merge_eq (files : List (Bytes × ConfigFile)) :
    merge files = (Declaration.scan files).foldlM Draft.add Draft.empty >>= fun d =>
      d.close (files.map Prod.fst) := by
  rw [merge, Draft.foldlM_addFile]
  refine bind_congr fun d => ?_
  rw [Draft.close]
  cases d.hostname <;> rfl

theorem foldlM_add_eq_error_iff {e : ConfigError} :
    (Declaration.scan files).foldlM Draft.add Draft.empty = .error e ↔
      FirstFault [] (Declaration.scan files) e :=
  (Draft.holds_foldlM holds_empty).1 e

theorem holds_scan {d : Draft}
    (h : (Declaration.scan files).foldlM Draft.add Draft.empty = .ok d) :
    Holds (Declaration.scan files) d :=
  (Draft.holds_foldlM holds_empty).2 d h

theorem merge_eq_error_iff {e : ConfigError} :
    merge files = .error e ↔ FirstViolation files e := by
  rw [merge_eq]
  cases hscan : (Declaration.scan files).foldlM Draft.add Draft.empty with
  | error first =>
    have hfirst := foldlM_add_eq_error_iff.mp hscan
    constructor
    · intro herror
      cases herror
      exact .declared hfirst
    · intro hviolation
      cases hviolation with
      | declared fault =>
        rw [foldlM_add_eq_error_iff.mpr fault] at hscan
        cases hscan
        rfl
      | hostnameMissing right => exact absurd hfirst (right first)
  | ok d =>
    have hright (e : ConfigError) : ¬FirstFault [] (Declaration.scan files) e := by
      intro hfault
      rw [foldlM_add_eq_error_iff.mpr hfault] at hscan
      cases hscan
    have hunset := (holds_scan hscan).hostname_eq_none_iff
    show d.close (files.map Prod.fst) = .error e ↔ FirstViolation files e
    rw [Draft.close]
    cases hset : d.hostname with
    | none =>
      constructor
      · intro herror
        cases herror
        exact .hostnameMissing hright (hunset.mp hset)
      · intro hviolation
        cases hviolation with
        | declared fault => exact absurd fault (hright e)
        | hostnameMissing => rfl
    | some held =>
      refine ⟨nofun, fun hviolation => ?_⟩
      cases hviolation with
      | declared fault => exact absurd fault (hright e)
      | hostnameMissing right unset =>
        rw [hunset.mpr unset] at hset
        cases hset

theorem exists_merge_iff : (∃ c, merge files = .ok c) ↔ Mergeable files := by
  rw [merge_eq]
  cases hscan : (Declaration.scan files).foldlM Draft.add Draft.empty with
  | error first =>
    have hfirst := foldlM_add_eq_error_iff.mp hscan
    exact ⟨nofun, fun h => absurd hfirst (not_firstFault_of_mergeable h first)⟩
  | ok d =>
    have hholds := holds_scan hscan
    show (∃ c, d.close (files.map Prod.fst) = .ok c) ↔ Mergeable files
    rw [Draft.close]
    cases hset : d.hostname with
    | none =>
      refine ⟨nofun, fun h => ?_⟩
      obtain ⟨path, raw, hostname, hone, -⟩ := h.hostname
      rw [hholds.hostname_eq_none_iff.mp hset] at hone
      cases hone
    | some held => exact ⟨fun _ => mergeable_of_holds hholds hset, fun _ => ⟨_, rfl⟩⟩

theorem mergedAs_of_merge {c : Config} (h : merge files = .ok c) : MergedAs files c := by
  rw [merge_eq] at h
  obtain ⟨d, hscan, hclose⟩ := exists_ok_of_bind h
  rw [Draft.close] at hclose
  cases hset : d.hostname with
  | none =>
    rw [hset] at hclose
    cases hclose
  | some held =>
    rw [hset] at hclose
    cases hclose
    exact mergedAs_of_holds (holds_scan hscan) hset

/-- Merging is exact: it succeeds exactly if one file sets the hostname and the hostname is valid,
no address is blank, every module block is sound and no coordinate is declared twice. Then the
configuration is what the files declare; otherwise the error is the first violation. -/
theorem merge_exact (files : List (Bytes × ConfigFile)) :
    ((∃ c, merge files = .ok c) ↔ Mergeable files) ∧
      (∀ c, merge files = .ok c → MergedAs files c) ∧
      ∀ e, merge files = .error e ↔ FirstViolation files e :=
  ⟨exists_merge_iff, fun _ => mergedAs_of_merge, fun _ => merge_eq_error_iff⟩

/-- A file in a directory, which declares one module below its directory and one somewhere else, and
a file in the current directory. -/
def nestedFiles : List (Bytes × ConfigFile) :=
  [(Bytes.ascii "etc/registry/a.toml", ⟨some "tags.example", ["127.0.0.1:8080"],
      [⟨"a", "b", "d", "mods/x.git"⟩, ⟨"a", "b", "c", "/srv/w.git"⟩]⟩),
    (Bytes.ascii "b.toml", ⟨none, [], [⟨"a", "a", "c", "y.git"⟩]⟩)]

def mergedNested : Config where
  hostname := ⟨"tags.example".toList, rfl⟩
  listeners := [.tcp "127.0.0.1:8080"]
  modules := ⟨[("a", [("a", [("c", ⟨Bytes.ascii "y.git", "b.toml: module[0]"⟩)]),
    ("b", [("c", ⟨Bytes.ascii "/srv/w.git", "etc/registry/a.toml: module[1]"⟩),
      ("d", ⟨Bytes.ascii "etc/registry/mods/x.git", "etc/registry/a.toml: module[0]"⟩)])])]⟩
  files := [Bytes.ascii "etc/registry/a.toml", Bytes.ascii "b.toml"]

theorem merge_exact_nestedFiles :
    Path.DirectoryOf (Bytes.ascii "etc/registry/a.toml") (Bytes.ascii "etc/registry") ∧
    Mergeable nestedFiles ∧ MergedAs nestedFiles mergedNested ∧
    FirstViolation (nestedFiles ++ nestedFiles) (.hostnameRepeated
      (Bytes.ascii "etc/registry/a.toml") (Bytes.ascii "etc/registry/a.toml")) := by
  have hmerge : merge nestedFiles = .ok mergedNested := rfl
  have hrepeated : merge (nestedFiles ++ nestedFiles) = .error (.hostnameRepeated
      (Bytes.ascii "etc/registry/a.toml") (Bytes.ascii "etc/registry/a.toml")) := rfl
  exact ⟨Path.parent?_eq_some_iff.mp rfl, (merge_exact nestedFiles).1.mp ⟨_, hmerge⟩,
    (merge_exact nestedFiles).2.1 _ hmerge, ((merge_exact _).2.2 _).mp hrepeated⟩

end Config

end TagRegistry
