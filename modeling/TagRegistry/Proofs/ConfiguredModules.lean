import TagRegistry.Config.Merge
import TagRegistry.Service.Registry

/-! The modules of a configuration.

On every level of the map the keys ascend, and every key is a path segment. Inserting keeps this,
and so it holds of all maps that files are merged to: no key is there twice, and every entry is
found under a legal coordinate. -/

namespace TagRegistry

/-! ## Tables -/

namespace Table

variable {α : Type} {t : Table String α} {key : String} {f : Option α → α}

/-- Each key comes before all that follow. -/
def Ascending (t : Table String α) : Prop := t.Pairwise fun a b => compare a.1 b.1 = .lt

/-- Keys ascend and are path segments, and all that they lead to has a property. -/
structure Sorted (P : α → Prop) (t : Table String α) : Prop where
  ascending : t.Ascending
  segment : ∀ item ∈ t, isSegment item.1 = true
  value : ∀ item ∈ t, P item.2

theorem sorted_nil (P : α → Prop) : Sorted P [] := ⟨List.Pairwise.nil, nofun, nofun⟩

/-- What a changed table holds: what it held before, or something new under the key. -/
theorem mem_alter {item : String × α} (h : item ∈ alter key f t) :
    item ∈ t ∨ item.1 = key ∧ ∃ old, item.2 = f old ∧ ∀ a, old = some a → (key, a) ∈ t := by
  induction t with
  | nil =>
    rw [alter, List.mem_singleton] at h
    subst h
    exact .inr ⟨rfl, none, rfl, nofun⟩
  | cons first rest ih =>
    obtain ⟨k, b⟩ := first
    rw [alter] at h
    split at h
    · rcases List.mem_cons.mp h with rfl | h
      · exact .inr ⟨rfl, none, rfl, nofun⟩
      · exact .inl h
    · next heq =>
      rcases List.mem_cons.mp h with rfl | h
      · have hkey : key = k := Std.LawfulEqOrd.eq_of_compare heq
        subst hkey
        exact .inr ⟨rfl, some b, rfl, by simp⟩
      · exact .inl (List.mem_cons_of_mem _ h)
    · rcases List.mem_cons.mp h with rfl | h
      · exact .inl List.mem_cons_self
      · rcases ih h with h | ⟨hkey, old, hvalue, hold⟩
        · exact .inl (List.mem_cons_of_mem _ h)
        · exact .inr ⟨hkey, old, hvalue, fun a ha => List.mem_cons_of_mem _ (hold a ha)⟩

theorem Ascending.alter (h : t.Ascending) : (t.alter key f).Ascending := by
  induction t with
  | nil => exact List.pairwise_singleton ..
  | cons first rest ih =>
    obtain ⟨k, b⟩ := first
    obtain ⟨hfirst, hrest⟩ := List.pairwise_cons.mp h
    rw [Table.alter]
    split
    · next hlt =>
      refine List.pairwise_cons.mpr ⟨?_, h⟩
      intro item hmem
      rcases List.mem_cons.mp hmem with rfl | hmem
      · exact hlt
      · exact Std.TransCmp.lt_trans hlt (hfirst item hmem)
    · exact List.pairwise_cons.mpr ⟨hfirst, hrest⟩
    · next hgt =>
      refine List.pairwise_cons.mpr ⟨?_, ih hrest⟩
      intro item hmem
      rcases mem_alter hmem with hmem | ⟨hkey, -⟩
      · exact hfirst item hmem
      · rw [hkey]
        exact Std.OrientedCmp.lt_of_gt hgt

theorem Sorted.alter {P : α → Prop} (h : Sorted P t) (hkey : isSegment key = true)
    (hf : ∀ old, (∀ a, old = some a → P a) → P (f old)) : Sorted P (t.alter key f) where
  ascending := h.ascending.alter
  segment item hmem := by
    rcases mem_alter hmem with hmem | ⟨rfl, -⟩
    · exact h.segment item hmem
    · exact hkey
  value item hmem := by
    rcases mem_alter hmem with hmem | ⟨-, old, hvalue, hold⟩
    · exact h.value item hmem
    · rw [hvalue]
      exact hf old fun a ha => h.value (key, a) (hold a ha)

theorem mem_of_lookup_eq_some {κ : Type} [BEq κ] [LawfulBEq κ] {items : Table κ α} {key : κ} {a : α}
    (h : items.lookup key = some a) : (key, a) ∈ items := by
  obtain ⟨before, after, rfl, -⟩ := List.lookup_eq_some_iff.mp h
  simp

/-- In a table without a key twice every entry is found. -/
theorem lookup_of_nodup {κ : Type} [BEq κ] [LawfulBEq κ] {items : Table κ α} {key : κ} {a : α}
    (h : (items.map Prod.fst).Nodup) (hmem : (key, a) ∈ items) : items.lookup key = some a := by
  obtain ⟨before, after, rfl⟩ := List.append_of_mem hmem
  refine List.lookup_eq_some_iff.mpr ⟨before, after, rfl, ?_⟩
  intro item hitem
  rw [bne_iff_ne]
  intro heq
  rw [List.map_append, List.map_cons, List.nodup_append] at h
  exact h.2.2 _ (List.mem_map_of_mem hitem) _ List.mem_cons_self heq.symm

/-- Keys that ascend do not repeat. -/
theorem nodup_of_pairwise_lt {κ : Type} {items : Table κ α} {cmp : κ → κ → Ordering}
    (hself : ∀ key, cmp key key = .eq) (h : items.Pairwise fun a b => cmp a.1 b.1 = .lt) :
    (items.map Prod.fst).Nodup := by
  rw [List.nodup_iff_pairwise_ne, List.pairwise_map]
  refine h.imp fun hlt heq => ?_
  rw [heq, hself] at hlt
  cases hlt

/-- In a table whose keys ascend every entry is found. -/
theorem Ascending.lookup_of_mem {a : α} (h : t.Ascending) (hmem : (key, a) ∈ t) :
    t.lookup key = some a :=
  lookup_of_nodup (nodup_of_pairwise_lt (fun _ => Std.ReflCmp.compare_self) h) hmem

end Table

/-! ## Maps -/

theorem Coordinate.make_of_isSegment {space name provider : String}
    (h : isSegment space = true ∧ isSegment name = true ∧ isSegment provider = true) :
    Coordinate.make space name provider = .ok ⟨space, name, provider, h⟩ := by
  have hfault (part : CoordinatePart) {value : String} (h : isSegment value = true) :
      fault? part value = none := by
    simp only [isSegment, Bool.and_eq_true, Bool.not_eq_true'] at h
    simp only [fault?, h.1, h.2]
    rfl
  unfold make
  split
  · next heq => rw [hfault _ h.1] at heq; cases heq
  · next heq => rw [hfault _ h.2.1] at heq; cases heq
  · next heq => rw [hfault _ h.2.2] at heq; cases heq
  · rfl

namespace ModuleMap

/-- All three levels are sorted. -/
def WellFormed (m : ModuleMap) : Prop :=
  Table.Sorted (Table.Sorted (Table.Sorted fun _ => True)) m.spaces

variable {m m' : ModuleMap} {space name provider : String}

theorem wellFormed_empty : empty.WellFormed := Table.sorted_nil _

theorem WellFormed.insert {c : Coordinate} {l : Location} (h : m.WellFormed)
    (hinsert : m.insert c l = .ok m') : m'.WellFormed := by
  have level {α : Type} {P : α → Prop} (old : Option (Table String α))
      (hold : ∀ t, old = some t → Table.Sorted P t) : Table.Sorted P (old.getD []) := by
    cases old with
    | none => exact Table.sorted_nil P
    | some t => exact hold t rfl
  unfold ModuleMap.insert at hinsert
  split at hinsert
  · cases hinsert
  · cases hinsert
    refine h.alter c.segments.1 fun names hnames => ?_
    refine (level names hnames).alter c.segments.2.1 fun providers hproviders => ?_
    exact (level providers hproviders).alter c.segments.2.2 fun _ _ => trivial

/-- The providers of a name ascend, and each of them completes a legal coordinate. -/
theorem WellFormed.providers {providers : Table String Location} (h : m.WellFormed)
    (hp : m.providers? space name = some providers) :
    providers.Ascending ∧ ∀ item ∈ providers,
      isSegment space = true ∧ isSegment name = true ∧ isSegment item.1 = true := by
  obtain ⟨names, hspace, hname⟩ := Option.bind_eq_some_iff.mp hp
  have hmem := Table.mem_of_lookup_eq_some hspace
  have hmemName := Table.mem_of_lookup_eq_some hname
  have hnames := h.value (space, names) hmem
  have hproviders := hnames.value (name, providers) hmemName
  exact ⟨hproviders.ascending, fun item hitem => ⟨h.segment (space, names) hmem,
    hnames.segment (name, providers) hmemName, hproviders.segment item hitem⟩⟩

theorem lookup_of_providers {providers : Table String Location}
    (hp : m.providers? space name = some providers) :
    m.lookup space name provider = List.lookup provider providers := by
  rw [lookup, hp]
  rfl

theorem WellFormed.make {location : Location} (h : m.WellFormed)
    (hl : m.lookup space name provider = some location) :
    ∃ c, Coordinate.make space name provider = .ok c := by
  obtain ⟨providers, hp, hprovider⟩ := Option.bind_eq_some_iff.mp hl
  have hmem := Table.mem_of_lookup_eq_some hprovider
  exact ⟨_, Coordinate.make_of_isSegment ((h.providers hp).2 _ hmem)⟩

end ModuleMap

/-! ## Merging -/

namespace Config

/-- What a bind that succeeds says of its two parts. -/
theorem exists_ok_of_bind {ε α β : Type} {x : Except ε α} {f : α → Except ε β} {b : β}
    (h : x >>= f = .ok b) : ∃ a, x = .ok a ∧ f a = .ok b := by
  cases x with
  | error e => cases h
  | ok a => exact ⟨a, rfl, h⟩

/-- What every step keeps, the whole run keeps. -/
theorem foldlM_keeps {ε σ ι : Type} {f : σ → ι → Except ε σ} {P : σ → Prop}
    (hstep : ∀ s i s', f s i = .ok s' → P s → P s') {items : List ι} {s s' : σ}
    (h : items.foldlM f s = .ok s') (hs : P s) : P s' := by
  induction items generalizing s with
  | nil =>
    cases h
    exact hs
  | cons item items ih =>
    rw [List.foldlM_cons] at h
    obtain ⟨next, hnext, hrest⟩ := exists_ok_of_bind h
    exact ih hrest (hstep s item next hnext hs)

namespace Draft

variable {d d' : Draft}

theorem modules_addHostname {path : Bytes} {raw? : Option String}
    (h : d.addHostname path raw? = .ok d') : d'.modules = d.modules := by
  unfold addHostname at h
  split at h
  · cases h
    rfl
  · split at h
    · cases h
    · split at h
      · cases h
        rfl
      · cases h

theorem modules_addListener {raw : String} (h : d.addListener raw = .ok d') :
    d'.modules = d.modules := by
  unfold addListener at h
  split at h
  · cases h
    rfl
  · cases h

/-- What inserting a module keeps of a map, adding the modules of a file keeps. -/
theorem keeps_addModule {P : ModuleMap → Prop}
    (hinsert : ∀ {m m' : ModuleMap} {c : Coordinate} {l : Location}, P m →
      m.insert c l = .ok m' → P m')
    {path : Bytes} {item : ModuleSection × Nat} (h : addModule path d item = .ok d')
    (hd : P d.modules) : P d'.modules := by
  unfold addModule at h
  simp only [] at h
  split at h
  · cases h
  · split at h
    · cases h
    · split at h
      · next hinserted =>
        cases h
        exact hinsert hd hinserted
      · cases h

theorem keeps_addFile {P : ModuleMap → Prop}
    (hinsert : ∀ {m m' : ModuleMap} {c : Coordinate} {l : Location}, P m →
      m.insert c l = .ok m' → P m')
    {item : Bytes × ConfigFile} (h : d.addFile item = .ok d') (hd : P d.modules) :
    P d'.modules := by
  obtain ⟨d₁, hhostname, h⟩ := exists_ok_of_bind h
  obtain ⟨d₂, hlisten, h⟩ := exists_ok_of_bind h
  have hd₁ : P d₁.modules := by rwa [modules_addHostname hhostname]
  have hd₂ : P d₂.modules :=
    foldlM_keeps (P := fun d => P d.modules)
      (fun _ _ _ hstep hs => by rwa [modules_addListener hstep]) hlisten hd₁
  exact foldlM_keeps (P := fun d => P d.modules)
    (fun _ _ _ hstep hs => keeps_addModule hinsert hstep hs) h hd₂

end Draft

/-- What the empty map has, and inserting a module keeps, every merged map has. -/
theorem keeps_of_merge {P : ModuleMap → Prop} (hempty : P .empty)
    (hinsert : ∀ {m m' : ModuleMap} {c : Coordinate} {l : Location}, P m →
      m.insert c l = .ok m' → P m')
    {files : List (Bytes × ConfigFile)} {c : Config} (h : merge files = .ok c) : P c.modules := by
  obtain ⟨d, hfold, h⟩ := exists_ok_of_bind h
  have hd : P d.modules :=
    foldlM_keeps (P := fun d => P d.modules)
      (fun _ _ _ hstep hs => Draft.keeps_addFile hinsert hstep hs) hfold hempty
  split at h
  · cases h
    exact hd
  · cases h

/-- Merging gives a sorted map of modules with legal coordinates. -/
theorem wellFormed_of_merge {files : List (Bytes × ConfigFile)} {c : Config}
    (h : merge files = .ok c) : c.modules.WellFormed :=
  keeps_of_merge ModuleMap.wellFormed_empty ModuleMap.WellFormed.insert h

end Config

/-! ## Two providers -/

/-- One file with two providers of a module, the later one first. -/
def twoProviders : List (Bytes × ConfigFile) :=
  [(Bytes.ascii "r.toml", ⟨some "tags.example", [],
    [⟨"a", "b", "d", "x.git"⟩, ⟨"a", "b", "c", "w.git"⟩]⟩)]

def mergedProviders : Config where
  hostname := ⟨"tags.example".toList, by decide⟩
  listeners := []
  modules := ⟨[("a", [("b", [("c", ⟨Bytes.ascii "w.git", "r.toml: module[1]"⟩),
    ("d", ⟨Bytes.ascii "x.git", "r.toml: module[0]"⟩)])])]⟩
  files := [Bytes.ascii "r.toml"]

theorem merge_twoProviders : Config.merge twoProviders = .ok mergedProviders := rfl

end TagRegistry
