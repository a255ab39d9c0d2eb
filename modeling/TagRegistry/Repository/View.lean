import TagRegistry.Repository.Reference
import TagRegistry.Repository.Tree

/-! A git repository as a store. -/

namespace TagRegistry.Repository

def view (r : Repository) : ObjectStore where
  referenceNames := r.referenceNames
  peel := r.peel
  readTree := r.readTree
  readBlob := r.readBlob
  treeIds := r.objects.map Prod.fst
  mem_treeIds := mem_of_readTree

end TagRegistry.Repository
