/-! Tables, as association lists in ascending key order. -/

namespace TagRegistry

abbrev Table (κ α : Type) := List (κ × α)

namespace Table

variable {κ α : Type} [Ord κ]

/-- Changes the value of a key, or makes one where the key belongs. -/
def alter (key : κ) (f : Option α → α) : Table κ α → Table κ α
  | [] => [(key, f none)]
  | (k, a) :: rest =>
    match compare key k with
    | .lt => (key, f none) :: (k, a) :: rest
    | .eq => (k, f (some a)) :: rest
    | .gt => (k, a) :: alter key f rest

def set (key : κ) (a : α) (t : Table κ α) : Table κ α := t.alter key fun _ => a

/-- Keeps the last one of neighbours with equal keys. -/
def lastOfEqual : List (κ × α) → Table κ α
  | a :: b :: items =>
    if compare a.1 b.1 == .eq then lastOfEqual (b :: items) else a :: lastOfEqual (b :: items)
  | items => items

/-- The table of some items; of two with one key the later counts. -/
def ofList (items : List (κ × α)) : Table κ α :=
  lastOfEqual (items.mergeSort fun a b => compare a.1 b.1 != .gt)

def keys (t : Table κ α) : List κ := t.map Prod.fst

end Table

/-- A key that an association list has a value for is one of its keys. -/
theorem mem_of_lookup {κ α : Type} [BEq κ] [LawfulBEq κ] {items : List (κ × α)} {key : κ} {a : α}
    (h : items.lookup key = some a) : key ∈ items.map Prod.fst := by
  induction items with
  | nil => simp at h
  | cons item rest ih =>
    rw [show item = (item.1, item.2) from rfl, List.lookup_cons] at h
    split at h
    · next hk => simp [eq_of_beq hk]
    · exact List.mem_cons_of_mem _ (ih h)

/-- What is no key has no value. -/
theorem Table.lookup_eq_none_iff {κ α : Type} [BEq κ] [LawfulBEq κ] {t : Table κ α} {key : κ} :
    t.lookup key = none ↔ key ∉ t.keys := by
  rw [List.lookup_eq_none_iff, keys, List.mem_map]
  constructor
  · intro h ⟨item, hitem, hkey⟩
    exact absurd hkey.symm (bne_iff_ne.mp (h item hitem))
  · intro h item hitem
    exact bne_iff_ne.mpr fun hkey => h ⟨item, hitem, hkey.symm⟩

end TagRegistry
