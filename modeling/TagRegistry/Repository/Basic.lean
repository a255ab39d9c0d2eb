import TagRegistry.Repository.Object
import TagRegistry.Store.Basic
import TagRegistry.Table

/-! Git repositories: objects, and references that are loose files or packed into one file. -/

namespace TagRegistry

structure Repository where
  objects : List (ObjectId × StoredObject)
  /-- The content of the loose file of a name, which is followed as a path. `ok none` means that
  there is no such file. -/
  looseFile : Bytes → Except StoreError (Option Bytes)
  /-- The loose files below `refs/`, by name. -/
  looseFiles : List (Bytes × Bytes)
  /-- The packed references with the objects they lead to; none if their file is corrupt. -/
  packed : Option (Table Bytes ObjectId)

namespace Repository

def object? (r : Repository) (id : ObjectId) : Option StoredObject := r.objects.lookup id

/-- The repository after it has failed this way. A corrupt file of packed references is reported
once, and passes for empty as long as the repository stays open. -/
def afterFailure (r : Repository) : StoreError → Repository
  | .packedRefsCorrupt => { r with packed := some [] }
  | _ => r

/-- A repository with these loose files and packed references, where every name is the path of at
most one file. -/
def ofTables (objects : List (ObjectId × StoredObject)) (loose : Table Bytes Bytes)
    (packed : Table Bytes ObjectId) : Repository where
  objects := objects
  looseFile name := .ok (loose.lookup name)
  looseFiles := loose.filter fun file => (Bytes.ascii "refs/").isPrefixOf file.1
  packed := some packed

end Repository

end TagRegistry
