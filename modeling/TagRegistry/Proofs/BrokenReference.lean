import Mathlib.Data.List.Perm.Subperm
import TagRegistry.Disk.Repositories

/-! References that are there and lead to nothing.

On the way from a reference to its commit a name may have no reference, and an object may be
missing or of another kind than the tag in front of it says. Such a reference is broken. The error
is the same as for a name without a reference. -/

namespace TagRegistry.Repository

variable {r : Repository}

/-! ## Symbolic references -/

/-- Symbolic references lead, over at most so many names, to one that has no reference. -/
inductive Dangles (r : Repository) : Nat → Bytes → Prop where
  | missing {hops : Nat} {name : Bytes} (absent : r.lookupRef name = .ok none) :
      Dangles r (hops + 1) name
  | next {hops : Nat} {name other : Bytes}
      (found : r.lookupRef name = .ok (some (.reference other))) (dangles : Dangles r hops other) : Dangles r (hops + 1) name

/-- What a reference says leads, over at most so many names, to an object. -/
inductive LeadsTo (r : Repository) : Nat → RefTarget → ObjectId → Prop where
  | object {hops : Nat} {id : ObjectId} : LeadsTo r hops (.object id) id
  | next {hops : Nat} {name : Bytes} {target : RefTarget} {id : ObjectId}
      (found : r.lookupRef name = .ok (some target)) (leads : LeadsTo r hops target id) :
      LeadsTo r (hops + 1) (.reference name) id

@[simp] theorem resolve_object {hops : Nat} {id : ObjectId} :
    r.resolve hops (.object id) = .ok (some id) := by
  cases hops <;> rfl

theorem resolve_none_iff {hops : Nat} {name : Bytes} :
    r.resolve hops (.reference name) = .ok none ↔ Dangles r hops name := by
  induction hops generalizing name with
  | zero => exact iff_of_false nofun nofun
  | succ hops ih =>
    rw [resolve]
    constructor
    · intro h
      split at h
      · cases h
      · next absent => exact .missing absent
      · next target found =>
        cases target with
        | object id => exact nomatch resolve_object.symm.trans h
        | reference other => exact .next found (ih.mp h)
    · intro h
      cases h with
      | missing absent => simp only [absent]
      | next found dangles =>
        simp only [found]
        exact ih.mpr dangles

@[simp] theorem leadsTo_object_iff {hops : Nat} {id other : ObjectId} :
    LeadsTo r hops (.object other) id ↔ other = id := by
  constructor
  · rintro ⟨⟩
    rfl
  · rintro rfl
    exact .object

theorem resolve_some_iff {hops : Nat} {target : RefTarget} {id : ObjectId} :
    r.resolve hops target = .ok (some id) ↔ LeadsTo r hops target id := by
  induction hops generalizing target with
  | zero =>
    cases target with
    | object other => simp
    | reference name => exact iff_of_false nofun nofun
  | succ hops ih =>
    cases target with
    | object other => simp
    | reference name =>
      rw [resolve]
      constructor
      · intro h
        split at h
        · cases h
        · cases h
        · next target found => exact .next found (ih.mp h)
      · rintro (_ | ⟨found, leads⟩)
        simp only [found]
        exact ih.mpr leads

/-- What a reference says is an object, or a legal name that leads to one. -/
inductive Names (r : Repository) : RefTarget → ObjectId → Prop where
  | object {id : ObjectId} : Names r (.object id) id
  | symbolic {name normal : Bytes} {id : ObjectId} (legal : RefName.normalize? name = some normal)
      (leads : LeadsTo r (symbolicLimit + 1) (.reference normal) id) : Names r (.reference name) id

theorem resolveTarget_some_iff {target : RefTarget} {id : ObjectId} :
    r.resolveTarget target = .ok (some id) ↔ Names r target id := by
  cases target with
  | object other =>
    constructor
    · rintro ⟨⟩
      exact .object
    · rintro ⟨⟩
      rfl
  | reference name =>
    rw [resolveTarget]
    constructor
    · intro h
      split at h
      · cases h
      · next normal legal => exact .symbolic legal (resolve_some_iff.mp h)
    · rintro (_ | ⟨legal, leads⟩)
      simp only [legal]
      exact resolve_some_iff.mpr leads

theorem resolveTarget_none_iff {target : RefTarget} :
    r.resolveTarget target = .ok none ↔ ∃ name normal, target = .reference name ∧
      RefName.normalize? name = some normal ∧ Dangles r (symbolicLimit + 1) normal := by
  cases target with
  | object id => exact iff_of_false nofun fun ⟨_, _, h, _⟩ => nomatch h
  | reference name =>
    rw [resolveTarget]
    constructor
    · intro h
      split at h
      · cases h
      · next normal legal => exact ⟨name, normal, rfl, legal, resolve_none_iff.mp h⟩
    · rintro ⟨_, normal, ⟨⟩, legal, dangles⟩
      simp only [legal]
      exact resolve_none_iff.mpr dangles

/-! ## Annotated tags -/

/-- Annotated tags, which are listed, lead from an object to one that is missing or not of the kind
that the tag in front of it says. -/
inductive Cut (r : Repository) : List ObjectId → ObjectId → Option ObjectKind → Prop where
  | missing {id : ObjectId} {expected : Option ObjectKind} (absent : r.object? id = none) :
      Cut r [] id expected
  | otherKind {id : ObjectId} {kind : ObjectKind} {object : StoredObject}
      (found : r.object? id = some object) (other : kind ≠ object.kind) : Cut r [] id (some kind)
  | tag {id : ObjectId} {expected : Option ObjectKind} {object : StoredObject} {tag : TagObject}
      {tags : List ObjectId} (found : r.object? id = some object)
      (expects : ∀ kind, expected = some kind → kind = object.kind) (kind : object.kind = .tag)
      (read : TagObject.read? object.content = some tag)
      (next : Cut r tags tag.object (some tag.kind)) : Cut r (id :: tags) id expected

theorem any_ne_eq_true {expected : Option ObjectKind} {kind : ObjectKind} :
    expected.any (· != kind) = true ↔ ∃ k, expected = some k ∧ k ≠ kind := by
  cases expected <;> simp

theorem any_ne_eq_false {expected : Option ObjectKind} {kind : ObjectKind} :
    expected.any (· != kind) = false ↔ ∀ k, expected = some k → k = kind := by
  cases expected <;> simp

theorem cut_of_peelObject {depth : Nat} {id : ObjectId} {expected : Option ObjectKind}
    (h : r.peelObject depth id expected = .ok none) : ∃ tags, Cut r tags id expected := by
  induction depth generalizing id expected with
  | zero => cases h
  | succ depth ih =>
    rw [peelObject] at h
    split at h
    · next absent => exact ⟨[], .missing absent⟩
    · next object found =>
      split at h
      · next hother =>
        obtain ⟨kind, rfl, hkind⟩ := any_ne_eq_true.mp hother
        exact ⟨[], .otherKind found hkind⟩
      · next hsame =>
        have expects := any_ne_eq_false.mp (Bool.eq_false_iff.mpr hsame)
        split at h
        · split at h <;> cases h
        · next hkind =>
          split at h
          · next tag read =>
            obtain ⟨tags, next⟩ := ih h
            exact ⟨id :: tags, .tag found expects hkind read next⟩
          · cases h
        · cases h
        · cases h

theorem Cut.peelObject {tags : List ObjectId} {id : ObjectId} {expected : Option ObjectKind}
    (h : Cut r tags id expected) {depth : Nat} (hdepth : tags.length < depth) :
    r.peelObject depth id expected = .ok none := by
  induction h generalizing depth with
  | missing absent =>
    obtain ⟨depth, rfl⟩ := Nat.exists_eq_add_one_of_ne_zero (Nat.ne_of_gt hdepth)
    simp only [Repository.peelObject, absent]
  | otherKind found other =>
    obtain ⟨depth, rfl⟩ := Nat.exists_eq_add_one_of_ne_zero (Nat.ne_of_gt hdepth)
    simp only [Repository.peelObject, found]
    exact if_pos (any_ne_eq_true.mpr ⟨_, rfl, other⟩)
  | tag found expects kind read next ih =>
    obtain ⟨depth, rfl⟩ :=
      Nat.exists_eq_add_one_of_ne_zero (Nat.ne_of_gt (Nat.zero_lt_of_lt hdepth))
    rw [kind] at expects
    simp only [Repository.peelObject, found, kind, read,
      if_neg (Bool.eq_false_iff.mp (any_ne_eq_false.mpr expects))]
    exact ih (Nat.lt_of_succ_lt_succ hdepth)

section Cut

variable {tags tags' : List ObjectId} {id : ObjectId} {expected expected' : Option ObjectKind}

/-- The tags on the way are determined by where it begins. -/
theorem Cut.unique (h : Cut r tags id expected) (h' : Cut r tags' id expected) : tags = tags' := by
  induction h generalizing tags' with
  | missing absent =>
    cases h' with
    | missing => rfl
    | otherKind found | tag found => exact nomatch absent.symm.trans found
  | otherKind found other =>
    cases h' with
    | missing absent => exact nomatch absent.symm.trans found
    | otherKind => rfl
    | tag found' expects =>
      rw [found] at found'
      cases found'
      exact absurd (expects _ rfl) other
  | tag found expects kind read _ ih =>
    cases h' with
    | missing absent => exact nomatch absent.symm.trans found
    | otherKind found' other =>
      rw [found] at found'
      cases found'
      exact absurd (expects _ rfl) other
    | tag found' _ _ read' next' =>
      rw [found] at found'
      cases found'
      rw [read] at read'
      cases read'
      rw [ih next']

/-- From one tag the way goes on in one way, whatever led there. -/
theorem Cut.unique_behind (h : Cut r (id :: tags) id expected)
    (h' : Cut r (id :: tags') id expected') : tags = tags' := by
  cases h with
  | tag found _ _ read next =>
    cases h' with
    | tag found' _ _ read' next' =>
      rw [found] at found'
      cases found'
      rw [read] at read'
      cases read'
      exact next.unique next'

/-- From every tag on the way a part of the way goes on. -/
theorem Cut.behind (h : Cut r tags id expected) {tag : ObjectId} (hmem : tag ∈ tags) :
    ∃ rest kind?, Cut r (tag :: rest) tag kind? ∧ rest.length < tags.length := by
  induction h with
  | missing | otherKind => cases hmem
  | tag found expects kind read next ih =>
    rcases List.mem_cons.mp hmem with rfl | hmem
    · exact ⟨_, _, .tag found expects kind read next, Nat.lt_succ_self _⟩
    · obtain ⟨rest, kind?, hrest, hlength⟩ := ih hmem
      exact ⟨rest, kind?, hrest, Nat.lt_succ_of_lt hlength⟩

/-- No tag is on the way twice. -/
theorem Cut.nodup (h : Cut r tags id expected) : tags.Nodup := by
  induction h with
  | missing | otherKind => exact List.nodup_nil
  | tag found expects kind read next ih =>
    -- The way behind a tag would be as long as a part of itself.
    refine List.nodup_cons.mpr ⟨fun hmem => ?_, ih⟩
    obtain ⟨rest, kind?, hrest, hlength⟩ := next.behind hmem
    rw [Cut.unique_behind (.tag found expects kind read next) hrest] at hlength
    exact Nat.lt_irrefl _ hlength

theorem Cut.known (h : Cut r tags id expected) : tags ⊆ r.objects.map Prod.fst := by
  induction h with
  | missing | otherKind => exact List.nil_subset _
  | tag found _ _ _ _ ih => exact List.cons_subset.mpr ⟨mem_of_lookup found, ih⟩

/-- Nobody runs out of levels on a way that is cut: the tags on it are different objects. -/
theorem peelObject_none_iff :
    r.peelObject (r.objects.length + 1) id expected = .ok none ↔
      ∃ tags, Cut r tags id expected := by
  refine ⟨cut_of_peelObject, fun ⟨tags, h⟩ => h.peelObject ?_⟩
  have hle := (List.subperm_of_subset h.nodup h.known).length_le
  rw [List.length_map] at hle
  exact Nat.lt_succ_of_le hle

end Cut

/-! ## Failures that say nothing about absence -/

/-- What cannot be read of the loose files is damage, as on every disk. -/
def FilesDamaged (r : Repository) : Prop :=
  ∀ {name : Bytes} {cause : StoreError}, r.looseFile name = .error cause → cause = .damaged

theorem lookupRef_error (hfiles : r.FilesDamaged) {name : Bytes} {cause : StoreError}
    (h : r.lookupRef name = .error cause) : cause.isRefNotFound = false := by
  unfold lookupRef at h
  split at h
  · next hfile =>
    cases h
    rw [hfiles hfile]
    rfl
  · split at h
    · cases h
    · cases h
      rfl
  · split at h
    · cases h
      rfl
    · cases h

theorem resolve_error (hfiles : r.FilesDamaged) {hops : Nat} {target : RefTarget}
    {cause : StoreError} (h : r.resolve hops target = .error cause) :
    cause.isRefNotFound = false := by
  induction hops generalizing target with
  | zero =>
    cases target with
    | object id => cases h
    | reference name =>
      cases h
      rfl
  | succ hops ih =>
    cases target with
    | object id => cases h
    | reference name =>
      rw [resolve] at h
      split at h
      · next hlookup =>
        cases h
        exact lookupRef_error hfiles hlookup
      · cases h
      · exact ih h

theorem resolveTarget_error (hfiles : r.FilesDamaged) {target : RefTarget} {cause : StoreError}
    (h : r.resolveTarget target = .error cause) : cause.isRefNotFound = false := by
  cases target with
  | object id => cases h
  | reference name =>
    rw [resolveTarget] at h
    split at h
    · cases h
      rfl
    · exact resolve_error hfiles h

theorem peelObject_error {depth : Nat} {id : ObjectId} {expected : Option ObjectKind}
    {cause : StoreError} (h : r.peelObject depth id expected = .error cause) :
    cause = .damaged := by
  induction depth generalizing id expected with
  | zero =>
    cases h
    rfl
  | succ depth ih =>
    rw [peelObject] at h
    split at h
    · cases h
    · split at h
      · cases h
      · split at h
        · split at h
          · cases h
          · cases h
            rfl
        · split at h
          · exact ih h
          · cases h
            rfl
        · cases h
          rfl
        · cases h
          rfl

/-! ## From a name to a commit -/

/-- The commit that the reference of a legal name leads to. `ok none` means that something on the
way is missing. -/
def findCommit (r : Repository) (normal : Bytes) : Except StoreError (Option Snapshot) :=
  match r.lookupRef normal with
  | .error cause => .error cause
  | .ok none => .ok none
  | .ok (some target) =>
    match r.resolveTarget target with
    | .error cause => .error cause
    | .ok none => .ok none
    | .ok (some id) => r.peelObject (r.objects.length + 1) id none

/-- A reference that is there and does not lead to a commit because something on the way is
missing. -/
inductive BrokenAt (r : Repository) (normal : Bytes) : Prop where
  | dangling {name other : Bytes} (found : r.lookupRef normal = .ok (some (.reference name)))
      (legal : RefName.normalize? name = some other) (dangles : Dangles r (symbolicLimit + 1) other)
  | cut {target : RefTarget} {id : ObjectId} {tags : List ObjectId}
      (found : r.lookupRef normal = .ok (some target)) (names : Names r target id)
      (cut : Cut r tags id none)

theorem findCommit_none_iff {normal : Bytes} :
    r.findCommit normal = .ok none ↔ r.lookupRef normal = .ok none ∨ BrokenAt r normal := by
  unfold findCommit
  constructor
  · intro h
    split at h
    · cases h
    · next absent => exact .inl absent
    · next target found =>
      refine .inr ?_
      split at h
      · cases h
      · next hresolved =>
        obtain ⟨name, other, rfl, legal, dangles⟩ := resolveTarget_none_iff.mp hresolved
        exact .dangling found legal dangles
      · next id hresolved =>
        obtain ⟨tags, hcut⟩ := peelObject_none_iff.mp h
        exact .cut found (resolveTarget_some_iff.mp hresolved) hcut
  · rintro (absent | ⟨found, legal, dangles⟩ | ⟨found, names, cut⟩)
    · simp only [absent]
    · simp only [found, resolveTarget_none_iff.mpr ⟨_, _, rfl, legal, dangles⟩]
    · simp only [found, resolveTarget_some_iff.mpr names]
      exact peelObject_none_iff.mpr ⟨_, cut⟩

theorem findCommit_error (hfiles : r.FilesDamaged) {normal : Bytes} {cause : StoreError}
    (h : r.findCommit normal = .error cause) : cause.isRefNotFound = false := by
  unfold findCommit at h
  split at h
  · next hlookup =>
    cases h
    exact lookupRef_error hfiles hlookup
  · cases h
  · split at h
    · next hresolved =>
      cases h
      exact resolveTarget_error hfiles hresolved
    · cases h
    · rw [peelObject_error h]
      rfl

theorem ok_bind {α β : Type} (a : α) (f : α → Except StoreError β) :
    (Except.ok a >>= f) = f a := rfl

theorem peel_of_legal {name : String} {normal : Bytes}
    (h : RefName.normalize? (Utf8.encode name) = some normal) :
    r.peel name = match r.findCommit normal with
      | .error cause => .error cause
      | .ok none => .error (absent name)
      | .ok (some commit) => .ok commit := by
  rw [peel, h, findCommit]
  simp only []
  cases r.lookupRef normal with
  | error cause => rfl
  | ok found =>
    rw [ok_bind]
    cases found with
    | none => rfl
    | some target =>
      simp only []
      cases r.resolveTarget target with
      | error cause => rfl
      | ok resolved =>
        rw [ok_bind]
        cases resolved with
        | none => rfl
        | some id =>
          simp only []
          cases r.peelObject (r.objects.length + 1) id none with
          | error cause => rfl
          | ok peeled => cases peeled <;> rfl

/-- There is no reference of this name. -/
def Lacks (r : Repository) (name : String) : Prop :=
  ∃ normal, RefName.normalize? (Utf8.encode name) = some normal ∧ r.lookupRef normal = .ok none

/-- The reference of this name is broken. -/
def Broken (r : Repository) (name : String) : Prop :=
  ∃ normal, RefName.normalize? (Utf8.encode name) = some normal ∧ BrokenAt r normal

theorem BrokenAt.found {normal : Bytes} (h : BrokenAt r normal) :
    ∃ target, r.lookupRef normal = .ok (some target) := by
  obtain ⟨found, -, -⟩ | ⟨found, -, -⟩ := h <;> exact ⟨_, found⟩

theorem Broken.not_lacks {name : String} (h : r.Broken name) : ¬r.Lacks name := by
  rintro ⟨normal, hlegal, habsent⟩
  obtain ⟨normal', hlegal', hbroken⟩ := h
  rw [hlegal] at hlegal'
  cases hlegal'
  obtain ⟨target, found⟩ := hbroken.found
  rw [habsent] at found
  cases found

theorem findCommit_none_iff_of_legal {name : String} {normal : Bytes}
    (h : RefName.normalize? (Utf8.encode name) = some normal) :
    r.findCommit normal = .ok none ↔ r.Lacks name ∨ r.Broken name := by
  simp only [findCommit_none_iff, Lacks, Broken, h, Option.some.injEq, exists_eq_left']

theorem absent_eq_refNotFound_iff {name unknown : String} :
    absent name = .refNotFound unknown ↔ unknown = name ∧ "refs/".toList <+: name.toList := by
  unfold absent
  split
  · next hfront =>
    constructor
    · rintro ⟨⟩
      exact ⟨rfl, List.isPrefixOf_iff_prefix.mp hfront⟩
    · rintro ⟨rfl, -⟩
      rfl
  · next hfront =>
    exact iff_of_false nofun fun h => hfront (List.isPrefixOf_iff_prefix.mpr h.2)

/-- Below `refs/`, a reference is reported as not found exactly if there is none or if it is
broken. -/
theorem peel_refNotFound_iff (hfiles : r.FilesDamaged) {name unknown : String} :
    r.peel name = .error (.refNotFound unknown) ↔
      unknown = name ∧ "refs/".toList <+: name.toList ∧ (r.Lacks name ∨ r.Broken name) := by
  cases hlegal : RefName.normalize? (Utf8.encode name) with
  | none =>
    rw [peel, hlegal]
    refine iff_of_false nofun ?_
    rintro ⟨-, -, ⟨normal, h, -⟩ | ⟨normal, h, -⟩⟩ <;> exact nomatch hlegal.symm.trans h
  | some normal =>
    rw [peel_of_legal hlegal, ← findCommit_none_iff_of_legal hlegal]
    cases hfound : r.findCommit normal with
    | error cause =>
      refine iff_of_false ?_ nofun
      rintro ⟨⟩
      exact nomatch findCommit_error hfiles hfound
    | ok found =>
      cases found with
      | none => simpa using absent_eq_refNotFound_iff
      | some commit => exact iff_of_false nofun nofun

theorem filesDamaged_ofTables (objects : List (ObjectId × StoredObject)) (loose : Table Bytes Bytes)
    (packed : Table Bytes ObjectId) : (ofTables objects loose packed).FilesDamaged :=
  nofun

theorem filesDamaged_repositoryAt (d : Disk) (p : RepositoryPlaces) :
    (d.repositoryAt p).FilesDamaged := by
  intro name cause h
  change d.looseFile p name = .error cause at h
  unfold Disk.looseFile at h
  simp only [] at h
  split at h <;> cases h
  rfl

end TagRegistry.Repository
