import Mathlib.Data.List.Dedup
import Mathlib.Data.List.Induction
import TagRegistry.Proofs.StorageDetails

/-! The nested map of modules is one flat list.

A map that is filled by inserts answers all questions as the list of these inserts does, of which
the first one for a coordinate counts. On the way down to a provider a level is made where there is
none; that an insert that is refused has made none is due to the order of the keys. -/

namespace TagRegistry

/-! ## Tables -/

namespace Table

variable {α β : Type} {t t' : Table String α} {key other : String} {a : α}

theorem lookup_cons_eq (key other : String) (a : α) (t : Table String α) :
    List.lookup other ((key, a) :: t) = if other = key then some a else t.lookup other := by
  by_cases h : other = key
  · rw [h, List.lookup_cons_self, if_pos rfl]
  · rw [List.lookup_cons, beq_false_of_ne h, if_neg h]

theorem compare_ne_eq (h : compare key other ≠ .eq) : key ≠ other := by
  intro heq
  rw [heq] at h
  exact h Std.ReflCmp.compare_self

/-- What comes before the first key of a table is no key of it. -/
theorem Ascending.lookup_of_lt (h : Ascending ((other, a) :: t)) (hlt : compare key other = .lt) :
    List.lookup key ((other, a) :: t) = none := by
  refine lookup_eq_none_iff.mpr ?_
  intro hmem
  obtain ⟨item, hitem, hkey⟩ := List.mem_map.mp hmem
  rcases List.mem_cons.mp hitem with rfl | hitem
  · exact compare_ne_eq (by rw [hlt]; decide) hkey.symm
  · have hbefore := Std.TransCmp.lt_trans hlt ((List.pairwise_cons.mp h).1 item hitem)
    exact compare_ne_eq (by rw [hbefore]; decide) hkey.symm

/-- In a table whose keys ascend, a key is changed where it is found. -/
theorem Ascending.alter_eq_set {f : Option α → α} (h : t.Ascending) :
    Table.alter key f t = t.set key (f (t.lookup key)) := by
  induction t with
  | nil => rfl
  | cons first rest ih =>
    obtain ⟨k, b⟩ := first
    rw [set, Table.alter, Table.alter]
    cases hk : compare key k with
    | lt => rw [h.lookup_of_lt hk]
    | eq =>
      cases Std.LawfulEqOrd.eq_of_compare hk
      rw [List.lookup_cons_self]
    | gt =>
      rw [lookup_cons_eq, if_neg (compare_ne_eq (by rw [hk]; decide)), ih h.of_cons]
      rfl

theorem Ascending.lookup_set (h : t.Ascending) :
    (t.set key a).lookup other = if other = key then some a else t.lookup other := by
  induction t with
  | nil => exact lookup_cons_eq key other a []
  | cons first rest ih =>
    obtain ⟨k, b⟩ := first
    rw [set, Table.alter]
    cases hk : compare key k with
    | lt => exact lookup_cons_eq key other a _
    | eq =>
      cases Std.LawfulEqOrd.eq_of_compare hk
      rw [lookup_cons_eq, lookup_cons_eq]
      split <;> rfl
    | gt =>
      have hne : key ≠ k := compare_ne_eq (by rw [hk]; decide)
      rw [lookup_cons_eq, lookup_cons_eq]
      split
      · next hother => rw [if_neg (hother ▸ hne.symm)]
      · exact ih h.of_cons

theorem Ascending.set (h : t.Ascending) : (t.set key a).Ascending := h.alter

/-- Tables whose keys ascend are equal if they give the same answers. -/
theorem Ascending.ext (h : t.Ascending) (h' : t'.Ascending)
    (hlookup : ∀ key, t.lookup key = t'.lookup key) : t = t' := by
  have hrel (key : String) : Option.Rel Eq (t.lookup key) (t'.lookup key) := by
    rw [hlookup key]
    cases t'.lookup key with
    | none => exact .none
    | some a => exact .some rfl
  have hforall := (h.forall₂ h' hrel).imp fun a b hab => Prod.ext hab.1 hab.2
  exact List.forall₂_eq_eq_eq ▸ hforall

/-- Setting a key to the value that it has changes nothing. -/
theorem Ascending.set_eq_self (h : t.Ascending) (hlookup : t.lookup key = some a) :
    t.set key a = t := by
  refine h.set.ext h fun other => ?_
  rw [h.lookup_set]
  split
  · next hother => rw [hother, hlookup]
  · rfl

/-- Takes a step at the value of a key, which is made first if there is none, and keeps what the
value has become. -/
def enter (key : String) (made : α) (step : α → α × β) (t : Table String α) : Table String α × β :=
  let (a, answer) := step ((t.lookup key).getD made)
  (t.set key a, answer)

end Table

/-! ## Going down the levels -/

/-- The order of coordinates: by namespace, then by name, then by provider. -/
def Coordinate.compare (a b : Coordinate) : Ordering :=
  (Ord.compare a.space b.space).then
    ((Ord.compare a.name b.name).then (Ord.compare a.provider b.provider))

theorem Coordinate.compare_self (c : Coordinate) : c.compare c = .eq := by
  simp [Coordinate.compare, Std.ReflCmp.compare_self]

def Coordinate.parts (c : Coordinate) : String × String × String := (c.space, c.name, c.provider)

theorem Coordinate.parts_injective : Function.Injective Coordinate.parts := by
  intro a b h
  obtain ⟨space, name, provider, hsegments⟩ := a
  obtain ⟨space', name', provider', hsegments'⟩ := b
  cases h
  rfl

namespace ModuleMap

variable {m m' : ModuleMap} {space name provider : String} {c : Coordinate} {l : Location}

/-- Inserts a module level by level: namespace and name are made where they are missing, before it
shows whether the provider is there. A location that is there already is handed back. -/
def declare (m : ModuleMap) (c : Coordinate) (l : Location) : ModuleMap × Option Location :=
  let (spaces, existing) := m.spaces.enter c.space [] fun names =>
    Table.enter c.name [] (fun providers =>
      match providers.lookup c.provider with
      | some existing => (providers, some existing)
      | none => (Table.set c.provider l providers, none)) names
  (⟨spaces⟩, existing)

/-- The names of a namespace, with their providers. -/
def namesAt (m : ModuleMap) (space : String) : Table String (Table String Location) :=
  (m.spaces.lookup space).getD []

/-- The providers of a name. -/
def providersAt (m : ModuleMap) (space name : String) : Table String Location :=
  ((m.namesAt space).lookup name).getD []

theorem lookup_eq (m : ModuleMap) (space name provider : String) :
    m.lookup space name provider = (m.providersAt space name).lookup provider := by
  rw [lookup, providers?, providersAt, namesAt]
  cases m.spaces.lookup space with
  | none => rfl
  | some names =>
    rw [Option.bind_some, Option.getD_some]
    cases List.lookup name names <;> rfl

theorem WellFormed.sorted_namesAt (h : m.WellFormed) (space : String) :
    Table.Sorted (Table.Sorted fun _ => True) (m.namesAt space) := by
  rw [namesAt]
  cases hspace : m.spaces.lookup space with
  | none => exact Table.sorted_nil _
  | some names => exact h.value (space, names) (Table.mem_of_lookup_eq_some hspace)

theorem WellFormed.sorted_providersAt (h : m.WellFormed) (space name : String) :
    Table.Sorted (fun _ => True) (m.providersAt space name) := by
  rw [providersAt]
  cases hname : (m.namesAt space).lookup name with
  | none => exact Table.sorted_nil _
  | some providers =>
    exact (h.sorted_namesAt space).value (name, providers) (Table.mem_of_lookup_eq_some hname)

/-- A map with other providers of a name. -/
def setProviders (m : ModuleMap) (space name : String) (providers : Table String Location) :
    ModuleMap :=
  ⟨m.spaces.set space ((m.namesAt space).set name providers)⟩

theorem WellFormed.insert_of_new (h : m.WellFormed)
    (hnew : m.lookup c.space c.name c.provider = none) :
    m.insert c l = .ok (m.setProviders c.space c.name
      ((m.providersAt c.space c.name).set c.provider l)) := by
  have hspaces : m.spaces.Ascending := h.ascending
  rw [ModuleMap.insert, hnew]
  simp only [hspaces.alter_eq_set]
  rw [setProviders, ← namesAt, (h.sorted_namesAt c.space).ascending.alter_eq_set]
  rfl

theorem insert_eq_error_iff {first : Location} :
    m.insert c l = .error first ↔ m.lookup c.space c.name c.provider = some first := by
  rw [insert]
  cases m.lookup c.space c.name c.provider with
  | none => simp
  | some existing => simp

theorem providersAt_setProviders (h : m.WellFormed) (providers : Table String Location)
    (space name other other' : String) :
    (m.setProviders space name providers).providersAt other other' =
      if other = space ∧ other' = name then providers else m.providersAt other other' := by
  have hspaces : m.spaces.Ascending := h.ascending
  rw [providersAt, namesAt, setProviders, hspaces.lookup_set]
  by_cases hspace : other = space
  · rw [if_pos hspace, Option.getD_some, (h.sorted_namesAt space).ascending.lookup_set]
    by_cases hname : other' = name
    · rw [if_pos hname, if_pos ⟨hspace, hname⟩, Option.getD_some]
    · rw [if_neg hname, if_neg (fun hboth => hname hboth.2), hspace]
      rfl
  · rw [if_neg hspace, if_neg (fun hboth => hspace hboth.1)]
    rfl

/-- After an insert a coordinate has the location that it had, or the new one if it had none. -/
theorem lookup_insert (h : m.WellFormed) (hinsert : m.insert c l = .ok m')
    (space name provider : String) :
    m'.lookup space name provider = (m.lookup space name provider).or
      (List.lookup (space, name, provider) [(c.parts, l)]) := by
  cases hold : m.lookup c.space c.name c.provider with
  | some first =>
    rw [insert_eq_error_iff.mpr hold] at hinsert
    cases hinsert
  | none =>
    rw [h.insert_of_new hold] at hinsert
    cases hinsert
    have hproviders := (h.sorted_providersAt c.space c.name).ascending
    rw [lookup_eq] at hold
    rw [lookup_eq, lookup_eq, providersAt_setProviders h]
    by_cases hname : space = c.space ∧ name = c.name
    · obtain ⟨rfl, rfl⟩ := hname
      rw [if_pos ⟨rfl, rfl⟩, hproviders.lookup_set]
      by_cases hprovider : provider = c.provider
      · rw [if_pos hprovider, hprovider, hold]
        exact (List.lookup_cons_self ..).symm
      · have hne : ((c.space, c.name, provider) == c.parts) = false := by
          rw [beq_eq_false_iff_ne]
          intro heq
          exact hprovider (congrArg (fun parts => parts.2.2) heq)
        rw [if_neg hprovider, List.lookup_cons, hne, List.lookup_nil, Option.or_none]
    · have hne : ((space, name, provider) == c.parts) = false := by
        rw [beq_eq_false_iff_ne]
        intro heq
        exact hname ⟨congrArg (fun parts => parts.1) heq, congrArg (fun parts => parts.2.1) heq⟩
      rw [if_neg hname, List.lookup_cons, hne, List.lookup_nil, Option.or_none]

/-- Going down the levels comes to the same as an insert. One that is refused leaves the map as it
was, made levels included. -/
theorem WellFormed.declare_eq (h : m.WellFormed) (c : Coordinate) (l : Location) :
    m.declare c l = match m.insert c l with
      | .ok m' => (m', none)
      | .error existing => (m, some existing) := by
  have hspaces : m.spaces.Ascending := h.ascending
  have hnames := (h.sorted_namesAt c.space).ascending
  cases hold : m.lookup c.space c.name c.provider with
  | none =>
    rw [h.insert_of_new hold]
    rw [lookup_eq, providersAt, namesAt] at hold
    simp only [declare, Table.enter, hold]
    rfl
  | some existing =>
    obtain ⟨providers, hname, hprovider⟩ := Option.bind_eq_some_iff.mp hold
    obtain ⟨names, hspace, hname⟩ := Option.bind_eq_some_iff.mp hname
    have hnamesAt : m.namesAt c.space = names := by rw [namesAt, hspace, Option.getD_some]
    rw [hnamesAt] at hnames
    rw [insert_eq_error_iff.mpr hold]
    simp only [declare, Table.enter, hspace, hname, hprovider, Option.getD_some,
      hnames.set_eq_self hname, hspaces.set_eq_self hspace]

/-! ## All modules in order -/

/-- The modules of one name. -/
def entriesOf (space name : String) (providers : Table String Location) :
    List (Coordinate × Location) :=
  providers.filterMap fun (provider, location) =>
    (Coordinate.make space name provider).toOption.map fun c => (c, location)

theorem toList_eq (m : ModuleMap) :
    m.toList = m.spaces.flatMap fun item =>
      item.2.flatMap fun inner => entriesOf item.1 inner.1 inner.2 := rfl

theorem entry_eq_some_iff {entry : Coordinate × Location} {location : Location} :
    ((Coordinate.make space name provider).toOption.map fun c => (c, location)) = some entry ↔
      entry.1.space = space ∧ entry.1.name = name ∧ entry.1.provider = provider ∧
        entry.2 = location := by
  constructor
  · intro h
    obtain ⟨c, hc, rfl⟩ := Option.map_eq_some_iff.mp h
    cases hmake : Coordinate.make space name provider with
    | error e =>
      rw [hmake] at hc
      cases hc
    | ok c' =>
      rw [hmake] at hc
      cases hc
      obtain ⟨hspace, hname, hprovider⟩ := Coordinate.parts_of_make hmake
      exact ⟨hspace, hname, hprovider, rfl⟩
  · intro h
    obtain ⟨c, l⟩ := entry
    obtain ⟨rfl, rfl, rfl, rfl⟩ := h
    rw [Coordinate.make_of_isSegment c.segments]
    rfl

theorem mem_entriesOf {providers : Table String Location} {entry : Coordinate × Location} :
    entry ∈ entriesOf space name providers ↔
      entry.1.space = space ∧ entry.1.name = name ∧ (entry.1.provider, entry.2) ∈ providers := by
  rw [entriesOf, List.mem_filterMap]
  constructor
  · intro h
    obtain ⟨⟨provider, location⟩, hmem, hentry⟩ := h
    obtain ⟨hspace, hname, rfl, rfl⟩ := entry_eq_some_iff.mp hentry
    exact ⟨hspace, hname, hmem⟩
  · intro h
    obtain ⟨hspace, hname, hmem⟩ := h
    exact ⟨_, hmem, entry_eq_some_iff.mpr ⟨hspace, hname, rfl, rfl⟩⟩

theorem WellFormed.mem_toList_iff (h : m.WellFormed) :
    (c, l) ∈ m.toList ↔ m.lookup c.space c.name c.provider = some l := by
  have hspaces : m.spaces.Ascending := h.ascending
  rw [toList_eq, List.mem_flatMap]
  constructor
  · intro hmem
    obtain ⟨⟨space, names⟩, hspace, hmem⟩ := hmem
    obtain ⟨⟨name, providers⟩, hname, hmem⟩ := List.mem_flatMap.mp hmem
    obtain ⟨rfl, rfl, hprovider⟩ := mem_entriesOf.mp hmem
    have hnames := h.value (c.space, names) hspace
    have hproviders := hnames.value (c.name, providers) hname
    rw [lookup, providers?, hspaces.lookup_of_mem hspace, Option.bind_some,
      hnames.ascending.lookup_of_mem hname, Option.bind_some,
      hproviders.ascending.lookup_of_mem hprovider]
  · intro hlookup
    obtain ⟨providers, hname, hprovider⟩ := Option.bind_eq_some_iff.mp hlookup
    obtain ⟨names, hspace, hname⟩ := Option.bind_eq_some_iff.mp hname
    exact ⟨_, Table.mem_of_lookup_eq_some hspace, List.mem_flatMap.mpr
      ⟨_, Table.mem_of_lookup_eq_some hname,
        mem_entriesOf.mpr ⟨rfl, rfl, Table.mem_of_lookup_eq_some hprovider⟩⟩⟩

/-- The nested order is the order of coordinates. -/
theorem WellFormed.pairwise_toList (h : m.WellFormed) :
    m.toList.Pairwise fun a b => a.1.compare b.1 = .lt := by
  have hspaces : m.spaces.Ascending := h.ascending
  have hself (s : String) : compare s s = .eq := Std.ReflCmp.compare_self
  rw [toList_eq, List.pairwise_flatMap]
  constructor
  · intro item hitem
    have hnames := h.value item hitem
    rw [List.pairwise_flatMap]
    constructor
    · intro inner hinner
      refine List.pairwise_filterMap.mpr ?_
      refine (hnames.value inner hinner).ascending.imp fun hlt entry hentry entry' hentry' => ?_
      obtain ⟨hspace, hname, hprovider, -⟩ := entry_eq_some_iff.mp hentry
      obtain ⟨hspace', hname', hprovider', -⟩ := entry_eq_some_iff.mp hentry'
      rw [Coordinate.compare, hspace, hspace', hself, hname, hname', hself, hprovider, hprovider',
        hlt]
      rfl
    · refine hnames.ascending.imp fun hlt entry hentry entry' hentry' => ?_
      obtain ⟨hspace, hname, -⟩ := mem_entriesOf.mp hentry
      obtain ⟨hspace', hname', -⟩ := mem_entriesOf.mp hentry'
      rw [Coordinate.compare, hspace, hspace', hself, hname, hname', hlt]
      rfl
  · refine hspaces.imp fun hlt entry hentry entry' hentry' => ?_
    obtain ⟨inner, -, hentry⟩ := List.mem_flatMap.mp hentry
    obtain ⟨inner', -, hentry'⟩ := List.mem_flatMap.mp hentry'
    rw [Coordinate.compare, (mem_entriesOf.mp hentry).1, (mem_entriesOf.mp hentry').1, hlt]
    rfl

/-- No coordinate comes twice. -/
theorem WellFormed.nodup_toList (h : m.WellFormed) : (m.toList.map Prod.fst).Nodup :=
  Table.nodup_of_pairwise_lt Coordinate.compare_self h.pairwise_toList

theorem WellFormed.size_eq (h : m.WellFormed) : m.size = m.toList.length := by
  rw [size, toList_eq, List.length_flatMap, List.length_flatMap]
  refine congrArg List.sum (List.map_congr_left fun item hitem => ?_)
  have hnames := h.value item hitem
  rw [List.length_flatMap, List.length_flatMap]
  refine congrArg List.sum (List.map_congr_left fun inner hinner => ?_)
  have hproviders := hnames.value inner hinner
  refine (List.filterMap_length_eq_length.mpr fun provider hprovider => ?_).symm
  have hmake := Coordinate.make_of_isSegment ⟨h.segment item hitem, hnames.segment inner hinner,
    hproviders.segment provider hprovider⟩
  simp only [hmake]
  rfl

/-- The providers of a name among the entries of a list, with their locations. -/
def providersIn (space name : String) (entries : List (Coordinate × Location)) :
    Table String Location :=
  (entries.filter fun entry => entry.1.space == space && entry.1.name == name).map fun entry =>
    (entry.1.provider, entry.2)

theorem mem_providersIn {entries : List (Coordinate × Location)} :
    (provider, l) ∈ providersIn space name entries ↔
      ∃ c, c.parts = (space, name, provider) ∧ (c, l) ∈ entries := by
  rw [providersIn, List.mem_map]
  constructor
  · intro h
    obtain ⟨⟨c, l'⟩, hfound, heq⟩ := h
    cases heq
    obtain ⟨hmem, hname⟩ := List.mem_filter.mp hfound
    simp only [Bool.and_eq_true, beq_iff_eq] at hname
    exact ⟨c, by rw [Coordinate.parts, hname.1, hname.2], hmem⟩
  · intro h
    obtain ⟨c, hparts, hmem⟩ := h
    cases hparts
    exact ⟨(c, l), List.mem_filter.mpr ⟨hmem, by simp⟩, rfl⟩

theorem WellFormed.ascending_providersIn (h : m.WellFormed) (space name : String) :
    (providersIn space name m.toList).Ascending := by
  have hself (s : String) : compare s s = .eq := Std.ReflCmp.compare_self
  refine List.pairwise_map.mpr (List.Pairwise.imp_of_mem ?_ (h.pairwise_toList.filter _))
  intro entry entry' hmem hmem' hlt
  have hname := (List.mem_filter.mp hmem).2
  have hname' := (List.mem_filter.mp hmem').2
  simp only [Bool.and_eq_true, beq_iff_eq] at hname hname'
  rw [Coordinate.compare, hname.1, hname'.1, hname.2, hname'.2, hself, hself] at hlt
  exact hlt

theorem providersIn_ne_nil_iff {entries : List (Coordinate × Location)} :
    providersIn space name entries ≠ [] ↔
      ∃ c ∈ entries.map Prod.fst, c.space = space ∧ c.name = name := by
  constructor
  · intro hne
    obtain ⟨⟨provider, l⟩, hmem⟩ := List.exists_mem_of_ne_nil _ hne
    obtain ⟨c, hparts, hentry⟩ := mem_providersIn.mp hmem
    cases hparts
    exact ⟨c, List.mem_map_of_mem hentry, rfl, rfl⟩
  · intro ⟨c, hmem, hspace, hname⟩
    obtain ⟨entry, hentry, rfl⟩ := List.mem_map.mp hmem
    exact List.ne_nil_of_mem
      (mem_providersIn.mpr ⟨entry.1, by rw [Coordinate.parts, hspace, hname], hentry⟩)

/-- The providers of a name are the entries for it, of which there is at least one. -/
theorem providers?_eq (h : m.WellFormed ∧ m.Filled) (space name : String) :
    m.providers? space name =
      if providersIn space name m.toList = [] then none
      else some (providersIn space name m.toList) := by
  have hmem {provider : String} {l : Location} :
      (provider, l) ∈ providersIn space name m.toList ↔ m.lookup space name provider = some l := by
    rw [mem_providersIn]
    constructor
    · intro ⟨c, hparts, hentry⟩
      cases hparts
      exact h.1.mem_toList_iff.mp hentry
    · intro hlookup
      obtain ⟨c, hc⟩ := h.1.make hlookup
      obtain ⟨rfl, rfl, rfl⟩ := Coordinate.parts_of_make hc
      exact ⟨c, rfl, h.1.mem_toList_iff.mpr hlookup⟩
  cases hp : m.providers? space name with
  | none =>
    have hnil : providersIn space name m.toList = [] := by
      refine List.eq_nil_iff_forall_not_mem.mpr ?_
      intro ⟨provider, l⟩ hentry
      have hlookup := hmem.mp hentry
      rw [lookup, hp] at hlookup
      cases hlookup
    rw [if_pos hnil]
  | some providers =>
    have hsame : providers = providersIn space name m.toList := by
      refine (h.1.providers hp).1.ext (h.1.ascending_providersIn space name) fun provider => ?_
      refine Option.ext fun l => ?_
      rw [← lookup_of_providers hp, ← hmem]
      exact ⟨(h.1.ascending_providersIn space name).lookup_of_mem, Table.mem_of_lookup_eq_some⟩
    obtain ⟨provider, l, hlookup⟩ := h.2.exists_lookup hp
    rw [hsame, if_neg (List.ne_nil_of_mem (hmem.mpr hlookup))]

theorem providers?_eq_some_iff (h : m.WellFormed ∧ m.Filled) {providers : Table String Location} :
    m.providers? space name = some providers ↔
      providers = providersIn space name m.toList ∧ providers ≠ [] := by
  rw [providers?_eq h]
  split
  · next hnil => simp [hnil]
  · next hne =>
    rw [Option.some.injEq]
    constructor
    · intro heq
      rw [← heq]
      exact ⟨rfl, hne⟩
    · exact fun heq => heq.1.symm

/-! ## Inserts one after the other -/

/-- The map that is left after some inserts. One that is refused leaves it as it is. -/
def ofInserts (inserts : List (Coordinate × Location)) : ModuleMap :=
  inserts.foldl (fun m item => (m.insert item.1 item.2).toOption.getD m) empty

/-- What is inserted, by the parts of the coordinates. -/
def keyed (inserts : List (Coordinate × Location)) :
    List ((String × String × String) × Location) :=
  inserts.map fun item => (item.1.parts, item.2)

variable {inserts : List (Coordinate × Location)}

theorem ofInserts_concat (inserts : List (Coordinate × Location)) (c : Coordinate) (l : Location) :
    ofInserts (inserts ++ [(c, l)]) =
      ((ofInserts inserts).insert c l).toOption.getD (ofInserts inserts) := by
  rw [ofInserts, List.foldl_append]
  rfl

theorem lookup_keyed (inserts : List (Coordinate × Location)) (c : Coordinate) :
    (keyed inserts).lookup c.parts = inserts.lookup c := by
  induction inserts with
  | nil => rfl
  | cons item rest ih =>
    have hkey : (c.parts == item.1.parts) = (c == item.1) := by
      rw [Bool.eq_iff_iff, beq_iff_eq, beq_iff_eq, Coordinate.parts_injective.eq_iff]
    rw [keyed, List.map_cons, List.lookup_cons, hkey, List.lookup_cons, ← ih]
    rfl

/-- What the empty map has, and inserting keeps, every map has that is filled by inserts. -/
theorem keeps_ofInserts {P : ModuleMap → Prop} (hempty : P .empty)
    (hinsert : ∀ {m m' : ModuleMap} {c : Coordinate} {l : Location}, P m →
      m.insert c l = .ok m' → P m')
    (inserts : List (Coordinate × Location)) : P (ofInserts inserts) := by
  induction inserts using List.reverseRecOn with
  | nil => exact hempty
  | append_singleton inserts item ih =>
    rw [ofInserts_concat]
    cases hm : (ofInserts inserts).insert item.1 item.2 with
    | error existing => exact ih
    | ok m' => exact hinsert ih hm

theorem wellFormed_ofInserts (inserts : List (Coordinate × Location)) :
    (ofInserts inserts).WellFormed ∧ (ofInserts inserts).Filled :=
  ⟨keeps_ofInserts wellFormed_empty WellFormed.insert inserts,
    keeps_ofInserts (P := Filled) nofun Filled.insert inserts⟩

/-- Of the inserts for a coordinate the first one counts. -/
theorem lookup_ofInserts (inserts : List (Coordinate × Location)) (space name provider : String) :
    (ofInserts inserts).lookup space name provider =
      (keyed inserts).lookup (space, name, provider) := by
  induction inserts using List.reverseRecOn generalizing space name provider with
  | nil => rfl
  | append_singleton inserts item ih =>
    rw [ofInserts_concat, keyed, List.map_append, List.lookup_append, ← keyed, ← ih]
    cases hm : (ofInserts inserts).insert item.1 item.2 with
    | ok m' => exact lookup_insert (wellFormed_ofInserts inserts).1 hm space name provider
    | error existing =>
      show (ofInserts inserts).lookup space name provider =
        ((ofInserts inserts).lookup space name provider).or _
      cases hold : (ofInserts inserts).lookup space name provider with
      | some first => rfl
      | none =>
        have hne : ((space, name, provider) == item.1.parts) = false := by
          rw [beq_eq_false_iff_ne]
          intro heq
          cases heq
          rw [insert_eq_error_iff.mp hm] at hold
          cases hold
        rw [List.map_cons, List.lookup_cons, hne]
        rfl

theorem lookup_ofInserts_of_coordinate (inserts : List (Coordinate × Location)) (c : Coordinate) :
    (ofInserts inserts).lookup c.space c.name c.provider = inserts.lookup c :=
  (lookup_ofInserts inserts c.space c.name c.provider).trans (lookup_keyed inserts c)

theorem mem_toList_ofInserts_iff :
    (c, l) ∈ (ofInserts inserts).toList ↔ inserts.lookup c = some l := by
  rw [(wellFormed_ofInserts inserts).1.mem_toList_iff, lookup_ofInserts_of_coordinate]

theorem exists_lookup_iff : (∃ l, inserts.lookup c = some l) ↔ c ∈ inserts.map Prod.fst := by
  rw [← Option.ne_none_iff_exists', ne_eq, Table.lookup_eq_none_iff, not_not]
  rfl

theorem mem_keys_ofInserts_iff :
    c ∈ (ofInserts inserts).toList.map Prod.fst ↔ c ∈ inserts.map Prod.fst := by
  rw [List.mem_map, ← exists_lookup_iff]
  constructor
  · intro ⟨⟨_, l⟩, hmem, hkey⟩
    cases hkey
    exact ⟨l, mem_toList_ofInserts_iff.mp hmem⟩
  · intro ⟨l, hlookup⟩
    exact ⟨(c, l), mem_toList_ofInserts_iff.mpr hlookup, rfl⟩

theorem insert_ofInserts_of_new (hnew : c ∉ inserts.map Prod.fst) (l : Location) :
    (ofInserts inserts).insert c l = .ok (ofInserts (inserts ++ [(c, l)])) := by
  have hlookup : (ofInserts inserts).lookup c.space c.name c.provider = none := by
    rw [lookup_ofInserts_of_coordinate]
    exact Table.lookup_eq_none_iff.mpr hnew
  rw [ofInserts_concat, (wellFormed_ofInserts inserts).1.insert_of_new hlookup]
  rfl

theorem insert_ofInserts_of_known {first : Location} (hknown : inserts.lookup c = some first)
    (l : Location) :
    (ofInserts inserts).insert c l = .error first ∧
      ofInserts (inserts ++ [(c, l)]) = ofInserts inserts := by
  have hinsert : (ofInserts inserts).insert c l = .error first := by
    rw [insert_eq_error_iff, lookup_ofInserts_of_coordinate, hknown]
  rw [ofInserts_concat, hinsert]
  exact ⟨rfl, rfl⟩

/-! ## The flat map -/

/-- A map behaves as the list of the inserts that it comes from. -/
structure IsFlat (inserts : List (Coordinate × Location)) (m : ModuleMap) : Prop where
  /-- A coordinate that was not inserted before is inserted. -/
  insert_new : ∀ c l, c ∉ inserts.map Prod.fst →
    m.insert c l = .ok (ofInserts (inserts ++ [(c, l)]))
  /-- Any other keeps its first location, which is the answer. -/
  insert_known : ∀ c l, c ∈ inserts.map Prod.fst → ∃ first, inserts.lookup c = some first ∧
    m.insert c l = .error first ∧ ofInserts (inserts ++ [(c, l)]) = m
  /-- So it is when the levels are made on the way, before it shows what is there. -/
  declare : ∀ c l, m.declare c l = (ofInserts (inserts ++ [(c, l)]), inserts.lookup c)
  lookup : ∀ space name provider,
    m.lookup space name provider = (keyed inserts).lookup (space, name, provider)
  /-- Every coordinate that was inserted comes once, and no other, each with its first location. -/
  entries : ∀ c l, (c, l) ∈ m.toList ↔ inserts.lookup c = some l
  count : ∀ c, (m.toList.map Prod.fst).count c = if c ∈ inserts.map Prod.fst then 1 else 0
  ascending : m.toList.Pairwise fun a b => a.1.compare b.1 = .lt
  size_toList : m.size = m.toList.length
  size : m.size = (inserts.map Prod.fst).dedup.length
  exists_providers : ∀ space name, (∃ providers, m.providers? space name = some providers) ↔
    ∃ c ∈ inserts.map Prod.fst, c.space = space ∧ c.name = name
  /-- The providers of a name are the entries for it, in the order of the providers. -/
  providers : ∀ space name providers, m.providers? space name = some providers →
    providers = providersIn space name m.toList ∧ providers ≠ [] ∧ providers.Ascending

/-- Whatever is inserted in whatever order, the nested map behaves as one flat map. -/
theorem isFlat_ofInserts (inserts : List (Coordinate × Location)) :
    IsFlat inserts (ofInserts inserts) := by
  have hall := wellFormed_ofInserts inserts
  have hsorted := hall.1
  have hnodup := hsorted.nodup_toList
  constructor
  case insert_new =>
    intro c l hnew
    exact insert_ofInserts_of_new hnew l
  case insert_known =>
    intro c l hmem
    obtain ⟨first, hknown⟩ := exists_lookup_iff.mpr hmem
    exact ⟨first, hknown, insert_ofInserts_of_known hknown l⟩
  case declare =>
    intro c l
    rw [hsorted.declare_eq]
    cases hlookup : inserts.lookup c with
    | none => rw [insert_ofInserts_of_new (Table.lookup_eq_none_iff.mp hlookup) l]
    | some first =>
      obtain ⟨hinsert, hsame⟩ := insert_ofInserts_of_known hlookup l
      rw [hinsert, hsame]
  case lookup => exact lookup_ofInserts inserts
  case entries =>
    intro c l
    exact mem_toList_ofInserts_iff
  case count =>
    intro c
    rw [hnodup.count]
    simp only [mem_keys_ofInserts_iff]
  case ascending => exact hsorted.pairwise_toList
  case size_toList => exact hsorted.size_eq
  case size =>
    have hperm : ((ofInserts inserts).toList.map Prod.fst).Perm (inserts.map Prod.fst).dedup :=
      (List.perm_ext_iff_of_nodup hnodup (List.nodup_dedup _)).mpr fun c => by
        rw [mem_keys_ofInserts_iff, List.mem_dedup]
    rw [hsorted.size_eq, ← hperm.length_eq, List.length_map]
  case exists_providers =>
    intro space name
    simp only [providers?_eq_some_iff hall, exists_eq_left, providersIn_ne_nil_iff,
      mem_keys_ofInserts_iff]
  case providers =>
    intro space name providers hp
    obtain ⟨rfl, hne⟩ := (providers?_eq_some_iff hall).mp hp
    exact ⟨rfl, hne, hsorted.ascending_providersIn space name⟩

end ModuleMap

end TagRegistry
