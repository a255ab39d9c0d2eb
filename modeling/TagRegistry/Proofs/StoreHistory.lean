import Mathlib.Algebra.Group.Nat.Defs
import Mathlib.Tactic.NormNum
import TagRegistry.Proofs.FlatModules
import TagRegistry.Proofs.Representative
import TagRegistry.Proofs.TextEncoding
import TagRegistry.Proofs.VersionGrammar

/-! The history of a store in memory.

A store is what its changes make of an empty one. Identifiers are consecutive numbers, so none is
handed out twice while the numbers fit a 64-bit word, and an object is found under the identifier
that its change was answered with and under no other. References keep the last commit that they were
pointed at, and their names ascend. -/

namespace TagRegistry

/-! ## Numbers as identifiers -/

theorem Text.Hex.fixed_injective {width m n : Nat} (hm : m < 16 ^ width) (hn : n < 16 ^ width)
    (h : fixed width m = fixed width n) : m = n := by
  induction width generalizing m n with
  | zero =>
    rw [pow_zero] at hm hn
    omega
  | succ width ih =>
    rw [fixed, fixed] at h
    rw [pow_succ] at hm hn
    obtain ⟨hfront, hlast⟩ := List.append_inj' h rfl
    have hhigh : m / 16 = n / 16 :=
      ih (Nat.div_lt_of_lt_mul (by omega)) (Nat.div_lt_of_lt_mul (by omega)) hfront
    have hlow : some (m % 16) = some (n % 16) := by
      rw [← value?_digit, ← value?_digit, (List.cons.inj hlast).1]
    have hdigit := Option.some.inj hlow
    omega

theorem ObjectId.ofNat_injective {m n : Nat} (hm : m ≤ 2 ^ 64) (hn : n ≤ 2 ^ 64)
    (h : ofNat m = ofNat n) : m = n := by
  have hwidth : 2 ^ 64 < 16 ^ 40 := by norm_num
  rw [ofNat, ofNat, mk.injEq] at h
  exact @Text.Hex.fixed_injective 40 m n (hm.trans_lt hwidth) (hn.trans_lt hwidth) h

namespace MemoryStore

/-! ## Changes -/

inductive Change where
  | blob (content : Bytes)
  | tree (entries : List TreeEntry)
  | tag (name : String) (tree : ObjectId) (committedAt : Int64)
  | refuseObject (id : ObjectId)
  | refuseListing
  deriving DecidableEq, Repr

def Change.isObject : Change → Bool
  | .blob _ | .tree _ => true
  | _ => false

/-- Makes a change. A new object is answered with its identifier. -/
def change (m : MemoryStore) : Change → Option ObjectId × MemoryStore
  | .blob content => (some (m.addBlob content).1, (m.addBlob content).2)
  | .tree entries => (some (m.addTree entries).1, (m.addTree entries).2)
  | .tag name tree committedAt => (none, m.addTag name tree committedAt)
  | .refuseObject id => (none, m.refuseObject id)
  | .refuseListing => (none, m.refuseListing)

/-- Makes changes to an empty store, and collects the identifiers that are handed out. -/
def run (changes : List Change) : List ObjectId × MemoryStore :=
  changes.foldl (fun before c =>
    (before.1 ++ (before.2.change c).1.toList, (before.2.change c).2)) ([], .empty)

def handedOut (changes : List Change) : List ObjectId := (run changes).1

/-- The store after some changes. Objects are counted in a 64-bit word: where they are too many for
it there is no store. -/
def after? (changes : List Change) : Option MemoryStore :=
  if (run changes).2.count < 2 ^ 64 then some (run changes).2 else none

/-- How many objects are added. -/
def objectsIn (changes : List Change) : Nat := changes.countP Change.isObject

/-- At some place in a history, a change is answered with an identifier. -/
def Answered (changes : List Change) (c : Change) (id : ObjectId) : Prop :=
  ∃ before after, changes = before ++ c :: after ∧ ((run before).2.change c).1 = some id

variable {changes : List Change} {c c' : Change} {id : ObjectId} {name : String}

theorem run_concat (changes : List Change) (c : Change) : run (changes ++ [c]) =
    ((run changes).1 ++ ((run changes).2.change c).1.toList, ((run changes).2.change c).2) :=
  List.foldl_concat ..

theorem objectsIn_concat (changes : List Change) (c : Change) :
    objectsIn (changes ++ [c]) = objectsIn changes + if c.isObject then 1 else 0 := by
  rw [objectsIn, List.countP_append, List.countP_singleton, objectsIn]

theorem change_eq (m : MemoryStore) (c : Change) :
    (m.change c).1 = (if c.isObject then some (.ofNat (m.count + 1)) else none) ∧
      (m.change c).2.count = m.count + if c.isObject then 1 else 0 := by
  cases c <;> exact ⟨rfl, rfl⟩

theorem count_run (changes : List Change) : (run changes).2.count = objectsIn changes := by
  induction changes using List.reverseRecOn with
  | nil => rfl
  | append_singleton changes c ih =>
    rw [run_concat, objectsIn_concat, (change_eq _ c).2, ih]

theorem answer_eq (changes : List Change) (c : Change) : ((run changes).2.change c).1 =
    if c.isObject then some (.ofNat (objectsIn changes + 1)) else none := by
  rw [(change_eq _ c).1, count_run]

/-- Identifiers are the numbers from one on. -/
theorem handedOut_eq (changes : List Change) :
    handedOut changes = (List.range (objectsIn changes)).map fun n => .ofNat (n + 1) := by
  induction changes using List.reverseRecOn with
  | nil => rfl
  | append_singleton changes c ih =>
    rw [handedOut, run_concat, answer_eq, objectsIn_concat]
    change handedOut changes ++ _ = _
    rw [ih]
    cases c.isObject with
    | false => simp
    | true => simp [List.range_succ]

theorem nodup_handedOut (hcount : objectsIn changes < 2 ^ 64) : (handedOut changes).Nodup := by
  rw [handedOut_eq]
  refine List.nodup_range.map_on fun m hm n hn heq => ?_
  rw [List.mem_range] at hm hn
  have hnext := ObjectId.ofNat_injective (by omega) (by omega) heq
  omega

/-! ## What a change is answered with -/

theorem not_answered_nil : ¬Answered [] c id := by
  rintro ⟨before, after, h, -⟩
  cases before <;> cases h

theorem answered_concat : Answered (changes ++ [c']) c id ↔
    Answered changes c id ∨ c' = c ∧ ((run changes).2.change c').1 = some id := by
  constructor
  · rintro ⟨before, after, h, hid⟩
    rcases List.eq_nil_or_concat after with rfl | ⟨after, last, rfl⟩
    · obtain ⟨rfl, hlast⟩ := List.append_inj' h rfl
      cases hlast
      exact .inr ⟨rfl, hid⟩
    · rw [List.concat_eq_append, ← List.cons_append, ← List.append_assoc] at h
      exact .inl ⟨before, after, (List.append_inj' h rfl).1, hid⟩
  · rintro (⟨before, after, rfl, hid⟩ | ⟨rfl, hid⟩)
    · exact ⟨before, after ++ [c'], by simp, hid⟩
    · exact ⟨changes, [], rfl, hid⟩

theorem mem_handedOut_concat : id ∈ handedOut (changes ++ [c]) ↔
    id ∈ handedOut changes ∨ ((run changes).2.change c).1 = some id := by
  rw [handedOut, run_concat, List.mem_append, Option.mem_toList]
  rfl

theorem mem_handedOut_iff : id ∈ handedOut changes ↔ ∃ c, Answered changes c id := by
  induction changes using List.reverseRecOn with
  | nil => exact iff_of_false List.not_mem_nil fun ⟨_, h⟩ => not_answered_nil h
  | append_singleton changes c ih =>
    simp only [mem_handedOut_concat, answered_concat, ih, exists_or, exists_eq_left']

/-- Everything that is added is answered with an identifier. -/
theorem exists_answered (hc : c ∈ changes) (hobject : c.isObject = true) :
    ∃ id, Answered changes c id := by
  obtain ⟨before, after, rfl⟩ := List.append_of_mem hc
  exact ⟨_, before, after, rfl, by rw [answer_eq, if_pos hobject]⟩

theorem objectsIn_le_concat : objectsIn changes ≤ objectsIn (changes ++ [c]) := by
  rw [objectsIn_concat]
  exact Nat.le_add_right ..

/-- No two changes are answered with the same identifier. -/
theorem Answered.unique (hcount : objectsIn changes < 2 ^ 64) (h : Answered changes c id)
    (h' : Answered changes c' id) : c = c' := by
  induction changes using List.reverseRecOn with
  | nil => exact absurd h not_answered_nil
  | append_singleton changes last ih =>
    have hfresh (hid : ((run changes).2.change last).1 = some id) : id ∉ handedOut changes := by
      have hnodup := nodup_handedOut hcount
      rw [handedOut, run_concat, hid] at hnodup
      exact fun hmem => List.disjoint_of_nodup_append hnodup hmem List.mem_cons_self
    rcases answered_concat.mp h with hold | ⟨rfl, hnew⟩ <;>
      rcases answered_concat.mp h' with hold' | ⟨rfl, hnew'⟩
    · exact ih (Nat.lt_of_le_of_lt objectsIn_le_concat hcount) hold hold'
    · exact absurd (mem_handedOut_iff.mpr ⟨c, hold⟩) (hfresh hnew')
    · exact absurd (mem_handedOut_iff.mpr ⟨c', hold'⟩) (hfresh hnew)
    · rfl

/-! ## Objects -/

def Change.blob? : Change → Option Bytes
  | .blob content => some content
  | _ => none

def Change.tree? : Change → Option (List TreeEntry)
  | .tree entries => some entries
  | _ => none

/-- A kind of objects, and which changes add one. -/
structure Kind (α : Type) where
  objects : MemoryStore → List (ObjectId × α)
  added? : Change → Option α
  objects_empty : objects .empty = []
  objects_change (m : MemoryStore) (c : Change) : objects (m.change c).2 =
    (added? c).toList.map (fun a => (.ofNat (m.count + 1), a)) ++ objects m
  isObject {c : Change} {a : α} : added? c = some a → c.isObject = true

def blobKind : Kind Bytes where
  objects := blobs
  added? := Change.blob?
  objects_empty := rfl
  objects_change m c := by cases c <;> rfl
  isObject {c a} h := by
    cases c with
    | blob | tree => rfl
    | tag | refuseObject | refuseListing => cases h

def treeKind : Kind (List TreeEntry) where
  objects := trees
  added? := Change.tree?
  objects_empty := rfl
  objects_change m c := by cases c <;> rfl
  isObject {c a} h := by
    cases c with
    | blob | tree => rfl
    | tag | refuseObject | refuseListing => cases h

section Objects

variable {α : Type} (k : Kind α) {a : α}

/-- The objects of a kind are those that were added, under the identifiers of the answers. -/
theorem mem_objects_iff : (id, a) ∈ k.objects (run changes).2 ↔
    ∃ c, Answered changes c id ∧ k.added? c = some a := by
  induction changes using List.reverseRecOn with
  | nil =>
    refine iff_of_false (fun h => ?_) fun ⟨_, h, _⟩ => not_answered_nil h
    rw [run, List.foldl_nil, k.objects_empty] at h
    cases h
  | append_singleton changes last ih =>
    rw [run_concat, k.objects_change, List.mem_append, ih]
    simp only [answered_concat, or_and_right, exists_or, and_assoc, exists_eq_left']
    rw [or_comm]
    refine or_congr_right ?_
    rw [answer_eq, count_run]
    cases hadded : k.added? last with
    | none => simp
    | some b =>
      rw [if_pos (k.isObject hadded)]
      simp [eq_comm]

/-- Under an identifier stands what the change added that was answered with it. -/
theorem lookup_objects (hcount : objectsIn changes < 2 ^ 64) (h : Answered changes c id) :
    (k.objects (run changes).2).lookup id = k.added? c := by
  cases hlookup : (k.objects (run changes).2).lookup id with
  | some b =>
    obtain ⟨c', hc', hb⟩ := (mem_objects_iff k).mp (Table.mem_of_lookup_eq_some hlookup)
    rw [h.unique hcount hc', hb]
  | none =>
    cases hadded : k.added? c with
    | none => rfl
    | some a =>
      have hkey := List.mem_map_of_mem (f := Prod.fst) ((mem_objects_iff k).mpr ⟨c, h, hadded⟩)
      exact absurd hkey (Table.lookup_eq_none_iff.mp hlookup)

theorem lookup_objects_of_unknown (h : id ∉ handedOut changes) :
    (k.objects (run changes).2).lookup id = none := by
  cases hlookup : (k.objects (run changes).2).lookup id with
  | none => rfl
  | some a =>
    obtain ⟨c, hc, -⟩ := (mem_objects_iff k).mp (Table.mem_of_lookup_eq_some hlookup)
    exact absurd (mem_handedOut_iff.mpr ⟨c, hc⟩) h

end Objects

/-! ## Failures -/

theorem mem_refused_iff : id ∈ (run changes).2.refused ↔ .refuseObject id ∈ changes := by
  induction changes using List.reverseRecOn with
  | nil => exact iff_of_false List.not_mem_nil List.not_mem_nil
  | append_singleton changes last ih =>
    rw [run_concat, List.mem_append, List.mem_singleton, ← ih]
    cases last with
    | refuseObject other =>
      change id ∈ other :: (run changes).2.refused ↔ _
      rw [List.mem_cons, or_comm, Change.refuseObject.injEq]
    | blob | tree | tag | refuseListing => exact (or_iff_left nofun).symm

theorem listingRefused_iff :
    (run changes).2.listingRefused = true ↔ .refuseListing ∈ changes := by
  induction changes using List.reverseRecOn with
  | nil => exact iff_of_false nofun List.not_mem_nil
  | append_singleton changes last ih =>
    rw [run_concat, List.mem_append, List.mem_singleton, ← ih]
    cases last with
    | refuseListing => exact iff_of_true rfl (.inr rfl)
    | blob | tree | tag | refuseObject => exact (or_iff_left nofun).symm

/-! ## References -/

/-- The commit that a change points a reference at. -/
def Change.commit? (name : String) : Change → Option Snapshot
  | .tag other root committedAt => if name = other then some ⟨⟨root⟩, committedAt⟩ else none
  | _ => none

theorem refs_run (changes : List Change) : (run changes).2.refs.Ascending ∧
    ∀ name, (run changes).2.refs.lookup name = changes.reverse.findSome? (Change.commit? name) := by
  induction changes using List.reverseRecOn with
  | nil => exact ⟨List.Pairwise.nil, fun _ => rfl⟩
  | append_singleton changes last ih =>
    obtain ⟨hascending, hlookup⟩ := ih
    simp only [run_concat, List.reverse_concat, List.findSome?_cons]
    cases last with
    | tag other tree committedAt =>
      refine ⟨hascending.set, fun name => ?_⟩
      change ((run changes).2.refs.set other ⟨⟨tree⟩, committedAt⟩).lookup name = _
      rw [hascending.lookup_set, hlookup, Change.commit?]
      split <;> rfl
    | blob | tree | refuseObject | refuseListing => exact ⟨hascending, fun name => hlookup name⟩

/-- A name is tagged at some place in a history. -/
def Tagged (changes : List Change) (name : String) : Prop :=
  ∃ root committedAt, .tag name root committedAt ∈ changes

theorem findSome?_commit?_eq_none_iff :
    changes.findSome? (Change.commit? name) = none ↔ ¬Tagged changes name := by
  rw [List.findSome?_eq_none_iff]
  constructor
  · rintro h ⟨root, committedAt, hmem⟩
    have hnone := h _ hmem
    rw [Change.commit?, if_pos rfl] at hnone
    cases hnone
  · intro h c hc
    cases c with
    | tag other root committedAt =>
      refine if_neg fun heq => h ⟨root, committedAt, ?_⟩
      rwa [heq]
    | blob | tree | refuseObject | refuseListing => rfl

theorem tagged_reverse_iff : Tagged changes.reverse name ↔ Tagged changes name := by
  simp only [Tagged, List.mem_reverse]

theorem lookup_refs_eq_none_iff : (run changes).2.refs.lookup name = none ↔ ¬Tagged changes name := by
  rw [(refs_run changes).2, findSome?_commit?_eq_none_iff, tagged_reverse_iff]

theorem mem_keys_iff : name ∈ (run changes).2.refs.keys ↔ Tagged changes name := by
  rw [← not_iff_not, ← Table.lookup_eq_none_iff, lookup_refs_eq_none_iff]

/-- A reference leads to the commit that it was pointed at last. -/
theorem peel_of_last {before after : List Change} {root : ObjectId} {committedAt : Int64}
    (h : changes = before ++ .tag name root committedAt :: after) (hlast : ¬Tagged after name) :
    (run changes).2.peel name = .ok ⟨⟨root⟩, committedAt⟩ := by
  have hafter : after.reverse.findSome? (Change.commit? name) = none := by
    rwa [findSome?_commit?_eq_none_iff, tagged_reverse_iff]
  have hlookup : (run changes).2.refs.lookup name = some ⟨⟨root⟩, committedAt⟩ := by
    rw [(refs_run changes).2, h, List.reverse_append, List.reverse_cons, List.append_assoc,
      List.findSome?_append, hafter]
    simp [Change.commit?]
  rw [peel, hlookup]

theorem peel_of_not_tagged (h : ¬Tagged changes name) :
    (run changes).2.peel name = .error (.refNotFound name) := by
  rw [peel, lookup_refs_eq_none_iff.mpr h]

/-- The names of references ascend, by their octets. -/
theorem pairwise_keys (changes : List Change) : (run changes).2.refs.keys.Pairwise fun a b =>
    compare (Utf8.encode a) (Utf8.encode b) = .lt := by
  rw [Table.keys, List.pairwise_map]
  exact (refs_run changes).1.imp Utf8.compare_encode

/-! ## What a store keeps -/

/-- What a store answers after some changes. -/
structure Keeps (changes : List Change) (m : MemoryStore) : Prop where
  /-- Everything that is added is answered with an identifier. -/
  answered : ∀ c ∈ changes, c.isObject = true → ∃ id ∈ handedOut changes, Answered changes c id
  valid : ∀ id ∈ handedOut changes, id.digits.length = 40 ∧
    ∀ c ∈ id.digits, ('0' ≤ c ∧ c ≤ '9') ∨ ('a' ≤ c ∧ c ≤ 'f')
  distinct : (handedOut changes).Nodup
  blob {content : Bytes} {id : ObjectId} : Answered changes (.blob content) id →
    .refuseObject id ∉ changes →
      m.view.readBlob id = .ok content ∧ m.view.readTree id = .error (.objectNotFound id.text)
  tree {entries : List TreeEntry} {id : ObjectId} : Answered changes (.tree entries) id →
    .refuseObject id ∉ changes →
      m.view.readTree id = .ok entries ∧ m.view.readBlob id = .error (.objectNotFound id.text)
  unknown {id : ObjectId} : id ∉ handedOut changes → .refuseObject id ∉ changes →
    m.view.readBlob id = .error (.objectNotFound id.text) ∧
      m.view.readTree id = .error (.objectNotFound id.text)
  refused {id : ObjectId} : .refuseObject id ∈ changes →
    m.view.readBlob id = .error (.readRefused id) ∧ m.view.readTree id = .error (.readRefused id)
  /-- A reference leads to the commit that it was pointed at last. -/
  tagged {before after : List Change} {name : String} {root : ObjectId} {committedAt : Int64} :
    changes = before ++ .tag name root committedAt :: after → ¬Tagged after name →
      m.view.peel name = .ok ⟨⟨root⟩, committedAt⟩
  untagged {name : String} : ¬Tagged changes name → m.view.peel name = .error (.refNotFound name)
  /-- The names that were ever tagged are listed in strictly ascending order, each once, and they
  are the names that lead to a commit. -/
  listed : .refuseListing ∉ changes → ∃ names, m.view.referenceNames = .ok names ∧
    (names.Pairwise fun a b => compare (Utf8.encode a) (Utf8.encode b) = .lt) ∧
    ∀ name, (name ∈ names ↔ Tagged changes name) ∧
      (name ∈ names ↔ ∃ commit, m.view.peel name = .ok commit)
  unlisted : .refuseListing ∈ changes → m.view.referenceNames = .error .listingRefused

theorem read_refused {α : Type} (objects : List (ObjectId × α))
    (h : .refuseObject id ∈ changes) : (run changes).2.read objects id = .error (.readRefused id) := by
  rw [read, if_pos (mem_refused_iff.mpr h)]

theorem read_found {α : Type} {objects : List (ObjectId × α)} {a : α}
    (hfree : .refuseObject id ∉ changes) (h : objects.lookup id = some a) :
    (run changes).2.read objects id = .ok a := by
  rw [read, if_neg (mt mem_refused_iff.mp hfree), h]

theorem read_absent {α : Type} {objects : List (ObjectId × α)}
    (hfree : .refuseObject id ∉ changes) (h : objects.lookup id = none) :
    (run changes).2.read objects id = .error (.objectNotFound id.text) := by
  rw [read, if_neg (mt mem_refused_iff.mp hfree), h]

theorem valid_of_mem_handedOut (h : id ∈ handedOut changes) : id.digits.length = 40 ∧
    ∀ c ∈ id.digits, ('0' ≤ c ∧ c ≤ '9') ∨ ('a' ≤ c ∧ c ≤ 'f') := by
  constructor
  · rw [handedOut_eq, List.mem_map] at h
    obtain ⟨n, -, rfl⟩ := h
    exact Text.Hex.length_fixed 40 (n + 1)
  · intro c hc
    have hdigit := List.all_eq_true.mp id.hexadecimal c hc
    rwa [isHexDigit, Bool.or_eq_true, Bool.and_eq_true, decide_eq_true_eq, decide_eq_true_eq,
      isDigit_iff_between] at hdigit

theorem keeps_run (hcount : objectsIn changes < 2 ^ 64) : Keeps changes (run changes).2 where
  answered c hc hobject := by
    obtain ⟨id, hid⟩ := exists_answered hc hobject
    exact ⟨id, mem_handedOut_iff.mpr ⟨c, hid⟩, hid⟩
  valid _ h := valid_of_mem_handedOut h
  distinct := nodup_handedOut hcount
  blob h hfree := ⟨read_found hfree (lookup_objects blobKind hcount h),
    read_absent hfree (lookup_objects treeKind hcount h)⟩
  tree h hfree := ⟨read_found hfree (lookup_objects treeKind hcount h),
    read_absent hfree (lookup_objects blobKind hcount h)⟩
  unknown h hfree := ⟨read_absent hfree (lookup_objects_of_unknown blobKind h),
    read_absent hfree (lookup_objects_of_unknown treeKind h)⟩
  refused h := ⟨read_refused _ h, read_refused _ h⟩
  tagged := peel_of_last
  untagged := peel_of_not_tagged
  listed hfree := ⟨_, if_neg (mt listingRefused_iff.mp hfree), pairwise_keys changes,
    fun _ => ⟨mem_keys_iff, exists_peel_iff.symm⟩⟩
  unlisted h := if_pos (listingRefused_iff.mpr h)

/-- A store to which fewer objects are added than there are 64-bit words keeps what it was given. -/
theorem history_kept (changes : List Change) (hcount : objectsIn changes < 2 ^ 64) :
    ∃ m, after? changes = some m ∧ Keeps changes m :=
  ⟨_, if_pos ((count_run changes).symm ▸ hcount), keeps_run hcount⟩

/-- A blob that cannot be read any more, a tree with it, and a tag that was moved. -/
def movedTag : List Change :=
  [.blob (Bytes.ascii "x"), .tree [⟨Bytes.ascii "main.tf", .ofNat 1, .file, 0o100644⟩],
    .tag "refs/tags/v1.0.0" (.ofNat 1) 50, .tag "refs/tags/v1.0.0" (.ofNat 2) 100,
    .refuseObject (.ofNat 1)]

theorem history_kept_movedTag : objectsIn movedTag < 2 ^ 64 ∧
    ∃ m, after? movedTag = some m ∧
      m.view.readBlob (.ofNat 1) = .error (.readRefused (.ofNat 1)) ∧
      m.view.readTree (.ofNat 2) =
        .ok [⟨Bytes.ascii "main.tf", .ofNat 1, .file, 0o100644⟩] ∧
      m.view.peel "refs/tags/v1.0.0" = .ok ⟨⟨.ofNat 2⟩, 100⟩ ∧
      ∃ names, m.view.referenceNames = .ok names ∧ "refs/tags/v1.0.0" ∈ names := by
  have hcount : objectsIn movedTag < 2 ^ 64 := by
    have htwo : objectsIn movedTag = 2 := rfl
    rw [htwo]
    norm_num
  obtain ⟨m, hm, hkeeps⟩ := history_kept movedTag hcount
  have htree : Answered movedTag
      (.tree [⟨Bytes.ascii "main.tf", .ofNat 1, .file, 0o100644⟩]) (.ofNat 2) :=
    ⟨[_], [_, _, _], rfl, rfl⟩
  have hlast : ¬Tagged [.refuseObject (.ofNat 1)] "refs/tags/v1.0.0" := by
    rintro ⟨root, committedAt, hmem⟩
    cases List.mem_singleton.mp hmem
  obtain ⟨names, hnames, -, hlisted⟩ := hkeeps.listed (by decide)
  have hrefused : .refuseObject (.ofNat 1) ∈ movedTag := by decide
  have hmoved : movedTag = movedTag.take 3 ++
      .tag "refs/tags/v1.0.0" (.ofNat 2) 100 :: [.refuseObject (.ofNat 1)] := rfl
  exact ⟨hcount, m, hm, (hkeeps.refused hrefused).1, (hkeeps.tree htree (by decide)).1,
    hkeeps.tagged hmoved hlast, names, hnames, (hlisted _).1.mpr ⟨.ofNat 2, 100, by decide⟩⟩

end MemoryStore

end TagRegistry
