import TagRegistry.Store.Basic
import TagRegistry.Table

/-! A store held in memory. Objects get consecutive numbers as identifiers, and reading an
object or listing the references can be made to fail. -/

namespace TagRegistry

structure MemoryStore where
  refs : Table String Snapshot
  trees : List (ObjectId × List TreeEntry)
  blobs : List (ObjectId × Bytes)
  /-- Objects that refuse to be read. -/
  refused : List ObjectId
  /-- Do the references refuse to be listed? -/
  listingRefused : Bool
  /-- The number of objects handed out so far. -/
  count : Nat
  deriving DecidableEq, Repr

namespace MemoryStore

def empty : MemoryStore := ⟨[], [], [], [], false, 0⟩

/-- Stores a blob under a new identifier. -/
def addBlob (m : MemoryStore) (content : Bytes) : ObjectId × MemoryStore :=
  let id := ObjectId.ofNat (m.count + 1)
  (id, { m with blobs := (id, content) :: m.blobs, count := m.count + 1 })

/-- Stores a tree under a new identifier, its entries in the given order. -/
def addTree (m : MemoryStore) (entries : List TreeEntry) : ObjectId × MemoryStore :=
  let id := ObjectId.ofNat (m.count + 1)
  (id, { m with trees := (id, entries) :: m.trees, count := m.count + 1 })

/-- Points a reference at a commit of a tree. -/
def addTag (m : MemoryStore) (name : String) (tree : ObjectId) (committedAt : Int64) :
    MemoryStore :=
  { m with refs := m.refs.set name ⟨⟨tree⟩, committedAt⟩ }

def refuseObject (m : MemoryStore) (id : ObjectId) : MemoryStore :=
  { m with refused := id :: m.refused }

def refuseListing (m : MemoryStore) : MemoryStore := { m with listingRefused := true }

def referenceNames (m : MemoryStore) : Except StoreError (List String) :=
  if m.listingRefused then .error .listingRefused else .ok m.refs.keys

def peel (m : MemoryStore) (name : String) : Except StoreError Snapshot :=
  match m.refs.lookup name with
  | some snapshot => .ok snapshot
  | none => .error (.refNotFound name)

/-- Looks an object up among those of one kind. -/
def read {α : Type} (m : MemoryStore) (objects : List (ObjectId × α)) (id : ObjectId) :
    Except StoreError α :=
  if id ∈ m.refused then .error (.readRefused id)
  else
    match objects.lookup id with
    | some a => .ok a
    | none => .error (.objectNotFound id.text)

theorem mem_of_read {α : Type} {m : MemoryStore} {objects : List (ObjectId × α)}
    {id : ObjectId} {a : α} (h : m.read objects id = .ok a) : id ∈ objects.map Prod.fst := by
  unfold read at h
  split at h
  · simp at h
  · split at h
    · next hl => exact mem_of_lookup hl
    · simp at h

def view (m : MemoryStore) : ObjectStore where
  referenceNames := m.referenceNames
  peel := m.peel
  readTree := m.read m.trees
  readBlob := m.read m.blobs
  treeIds := m.trees.map Prod.fst
  mem_treeIds := mem_of_read

end MemoryStore

end TagRegistry
