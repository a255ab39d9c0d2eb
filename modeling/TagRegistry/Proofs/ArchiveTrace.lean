import TagRegistry.Archive
import TagRegistry.Proofs.Snapshot

/-! An archive apart from where it is written to.

What an item is written as does not depend on the store, and what a snapshot is written as does
not depend on the sink. Writing an archive is the same as feeding one trace to a sink. -/

namespace TagRegistry

/-! ## Sinks that take everything -/

/-- A sink that takes everything while it is ready, with what it has taken. -/
structure TakesAll (σ : Type) [Sink σ] where
  ready : σ → Prop
  taken : σ → Bytes
  put {out : σ} (bs : Bytes) : ready out →
    ∃ out', Sink.put out bs = (out', true) ∧ ready out' ∧ taken out' = taken out ++ bs

/-- Collecting without a limit takes everything. -/
def Collected.takesAll : TakesAll Collected where
  ready c := c.room = none
  taken := Collected.toList
  put {out} bs h := by
    refine ⟨⟨out.octets ++ bs, none⟩, ?_, rfl, ?_⟩
    · change Collected.put out bs = _
      rw [Collected.put, h]
    · simp [Collected.toList]

@[simp] theorem Collected.takesAll_taken (c : Collected) : takesAll.taken c = c.toList := rfl

@[simp] theorem Collected.toList_unlimited : unlimited.toList = [] := rfl

namespace Archive

open Tar

/-! ## What an item is written as -/

/-- Goes on with a name that can be recorded. -/
def named (path : Bytes) (f : Recorded → Trace Bytes ArchiveError) :
    Except NameError Recorded → Trace Bytes ArchiveError
  | .ok r => f r
  | .error cause => .stop (.unarchivable path (.name cause))

/-- A header, a content and the padding after it. -/
def memberTrace (h : Header) (content : Bytes) : Trace Bytes ArchiveError :=
  ⟨[h.encode, content, padding content.length], .ok ()⟩

/-- A name in a record of its own, if it needs one. -/
def longTrace (isLong : Bool) (kind : Kind) (name : Bytes) (mtime : Nat) :
    Trace Bytes ArchiveError :=
  if isLong then
    memberTrace ⟨kind, longRecordName, 0o644, name.length + 1, mtime, []⟩ (name ++ [0])
  else .done

/-- What an item is written as. -/
def itemTrace (mtime : Nat) (item : Item) : Trace Bytes ArchiveError :=
  match item.entity with
  | .directory =>
    let path := item.path ++ [Bytes.slash]
    (longTrace (fieldSize < path.length) .longName path mtime).andThen
      (memberTrace ⟨.directory, path, 0o755, 0, mtime, []⟩ [])
  | .file mode content =>
    named item.path (fun name =>
      (longTrace name.isLong .longName item.path 0).andThen
        (memberTrace ⟨.file, name.field, permissions mode, content.length, mtime, []⟩ content))
      (recordName item.path)
  | .symlink target =>
    named item.path (fun name =>
      (longTrace name.isLong .longName item.path 0).andThen
        (named item.path (fun link =>
          (longTrace link.isLong .longLink target 0).andThen
            (memberTrace ⟨.symlink, name.field, 0o777, 0, mtime, link.field⟩ []))
          (recordLink name.field target)))
      (recordName item.path)

/-- What items are written as, one after the other. -/
def itemsTrace (mtime : Nat) (items : List Item) : Trace Bytes ArchiveError :=
  .sequence (items.map (itemTrace mtime))

/-- What everything below a tree is written as. -/
def treeTrace (s : ObjectStore) (mtime depth : Nat) (tree : ObjectId) (above : Bytes) :
    Trace Bytes ArchiveError :=
  (walk s depth tree above).expand (itemTrace mtime) .store

/-- What the archive of a snapshot is written as. -/
def snapshotTrace (s : ObjectStore) (depth : Nat) (commit : Snapshot) :
    Trace Bytes ArchiveError :=
  (treeTrace s (memberTime commit) depth commit.tree.oid []).andThen (.one trailer)

section Items

variable {mtime : Nat} {before after items : List Item} {item : Item} {cause : ArchiveError}

theorem outcome_itemsTrace (before : List Item)
    (hbefore : ∀ i ∈ before, (itemTrace mtime i).outcome = .ok ())
    (hitem : (itemTrace mtime item).outcome = .error cause) :
    (itemsTrace mtime (before ++ item :: after)).outcome = .error cause := by
  rw [itemsTrace, Trace.sequence_map_of_error hbefore hitem]

theorem outcome_itemsTrace_iff :
    (itemsTrace mtime items).outcome = .ok () ↔
      ∀ item ∈ items, (itemTrace mtime item).outcome = .ok () := by
  constructor
  · intro h
    rcases Trace.all_ok_or_first_error (itemTrace mtime) items with
      hall | ⟨before, item, after, cause, rfl, hbefore, hitem⟩
    · exact hall
    · rw [outcome_itemsTrace before hbefore hitem] at h
      cases h
  · intro hall
    rw [itemsTrace, Trace.sequence_map_of_ok hall]

theorem named_error {path : Bytes} {f : Recorded → Trace Bytes ArchiveError}
    {answer : Except NameError Recorded} (h : (named path f answer).outcome = .error cause) :
    (∃ fault, answer = .error fault ∧ cause = .unarchivable path (.name fault)) ∨
      ∃ r, answer = .ok r ∧ (f r).outcome = .error cause := by
  cases answer with
  | error fault => exact .inl ⟨fault, rfl, (Except.error.inj h).symm⟩
  | ok r => exact .inr ⟨r, rfl, h⟩

theorem longTrace_ok (isLong : Bool) (kind : Kind) (name : Bytes) (mtime : Nat) :
    (longTrace isLong kind name mtime).outcome = .ok () := by
  cases isLong <;> rfl

theorem andThen_longTrace {isLong : Bool} {kind : Kind} {name : Bytes} {mtime : Nat}
    {t : Trace Bytes ArchiveError} :
    ((longTrace isLong kind name mtime).andThen t).outcome = t.outcome := by
  rw [Trace.andThen, longTrace_ok]

/-- An item fails only because its name or its target cannot be recorded. -/
theorem itemTrace_error (h : (itemTrace mtime item).outcome = .error cause) :
    ∃ fault, cause = .unarchivable item.path (.name fault) := by
  obtain ⟨path, entity⟩ := item
  unfold itemTrace at h
  cases entity with
  | directory =>
    simp only [andThen_longTrace] at h
    cases h
  | file mode content =>
    obtain ⟨fault, -, hcause⟩ | ⟨name, -, h⟩ := named_error h
    · exact ⟨fault, hcause⟩
    · rw [andThen_longTrace] at h
      cases h
  | symlink target =>
    obtain ⟨fault, -, hcause⟩ | ⟨name, -, h⟩ := named_error h
    · exact ⟨fault, hcause⟩
    rw [andThen_longTrace] at h
    obtain ⟨fault, -, hcause⟩ | ⟨link, -, h⟩ := named_error h
    · exact ⟨fault, hcause⟩
    · rw [andThen_longTrace] at h
      cases h

end Items

/-- A snapshot that is found to the end is written item by item, with the trailer behind them. -/
theorem snapshotTrace_of_walk {s : ObjectStore} {commit : Snapshot} {depth : Nat}
    (h : (walk s depth commit.tree.oid []).outcome = .ok ()) :
    snapshotTrace s depth commit =
      (itemsTrace (memberTime commit) (walk s depth commit.tree.oid []).events).andThen
        (.one trailer) := by
  rw [snapshotTrace, treeTrace, Trace.expand, h]
  exact congrArg (Trace.andThen · (.one trailer)) (Trace.andThen_done _)

/-- What is written to the end has been found to the end. -/
theorem walk_of_snapshotTrace {s : ObjectStore} {commit : Snapshot} {depth : Nat}
    (h : (snapshotTrace s depth commit).outcome = .ok ()) :
    (walk s depth commit.tree.oid []).outcome = .ok () := by
  obtain ⟨htree, -⟩ := Trace.andThen_ok_iff.mp h
  obtain ⟨-, hwalk⟩ := Trace.andThen_ok_iff.mp htree
  cases houtcome : (walk s depth commit.tree.oid []).outcome with
  | ok u => rfl
  | error cause =>
    rw [houtcome] at hwalk
    cases hwalk

/-- A snapshot is not written to the end because the store fails, or because of an item. -/
theorem snapshotTrace_error {s : ObjectStore} {commit : Snapshot} {depth : Nat}
    {cause : ArchiveError} (h : (snapshotTrace s depth commit).outcome = .error cause) :
    (∃ failure, (walk s depth commit.tree.oid []).outcome = .error failure ∧
        cause = .store failure) ∨
      ∃ path fault, cause = .unarchivable path (.name fault) := by
  obtain htree | htrailer := Trace.andThen_error h
  · obtain hitems | hwalk := Trace.andThen_error htree
    · obtain ⟨item, -, hitem⟩ := Trace.sequence_map_error hitems
      exact .inr ⟨item.path, itemTrace_error hitem⟩
    · cases houtcome : (walk s depth commit.tree.oid []).outcome with
      | ok u =>
        rw [houtcome] at hwalk
        cases hwalk
      | error failure =>
        rw [houtcome] at hwalk
        exact .inl ⟨failure, rfl, (Except.error.inj hwalk).symm⟩
  · cases htrailer

/-- A failure of the store ends the walk. -/
theorem walk_of_storeFailure {s : ObjectStore} {commit : Snapshot} {depth : Nat}
    {failure : StoreError} (h : (snapshotTrace s depth commit).outcome = .error (.store failure)) :
    (walk s depth commit.tree.oid []).outcome = .error failure := by
  obtain ⟨first, hwalk, hcause⟩ | ⟨path, fault, hcause⟩ := snapshotTrace_error h
  · rw [hwalk, ArchiveError.store.inj hcause]
  · cases hcause

/-! ## Feeding a sink -/

variable {σ : Type} [Sink σ]

/-- Hands a trace on to a sink, until the sink takes no more. -/
def feedAll (outcome : Except ArchiveError Unit) : List Bytes → Emit σ Unit
  | [] => fun out => (outcome, out)
  | chunk :: chunks => fun out =>
    match Sink.put out chunk with
    | (out, true) => feedAll outcome chunks out
    | (out, false) => (.error .write, out)

def feed (t : Trace Bytes ArchiveError) : Emit σ Unit := feedAll t.outcome t.events

theorem feed_cons (chunk : Bytes) (chunks : List Bytes) (outcome : Except ArchiveError Unit) :
    (feed ⟨chunk :: chunks, outcome⟩ : Emit σ Unit) = (do emit chunk; feed ⟨chunks, outcome⟩) := by
  funext out
  change (match Sink.put out chunk with
    | (out, true) => feedAll outcome chunks out
    | (out, false) => (.error .write, out)) = _
  simp only [bind, ExceptT.bind, ExceptT.mk, StateT.bind, emit]
  obtain ⟨out', taken⟩ := Sink.put out chunk
  cases taken <;> rfl

theorem feed_andThen (a b : Trace Bytes ArchiveError) :
    (feed (a.andThen b) : Emit σ Unit) = (do feed a; feed b) := by
  obtain ⟨events, outcome⟩ := a
  induction events with
  | nil => cases outcome <;> rfl
  | cons chunk chunks ih =>
    have hcons : (⟨chunk :: chunks, outcome⟩ : Trace Bytes ArchiveError).andThen b =
        ⟨chunk :: ((⟨chunks, outcome⟩ : Trace Bytes ArchiveError).andThen b).events,
          ((⟨chunks, outcome⟩ : Trace Bytes ArchiveError).andThen b).outcome⟩ := by
      cases outcome <;> rfl
    rw [hcons, feed_cons, feed_cons, bind_assoc]
    exact bind_congr fun _ => ih

theorem feed_one (chunk : Bytes) : (feed (.one chunk) : Emit σ Unit) = emit chunk := by
  rw [Trace.one, feed_cons]
  exact bind_pure _

omit [Sink σ] in
/-- Failures of parts that are put down to their causes are put down to them one by one. -/
theorem append_bind {α β : Type} (path : Bytes) (adding : Append σ α) (f : α → Append σ β) :
    append blameCause path (adding >>= f) =
      (do append blameCause path (f (← append blameCause path adding))) := by
  funext out
  simp only [bind, ExceptT.bind, ExceptT.mk, StateT.bind, append]
  obtain ⟨result, next⟩ := adding out
  cases result <;> rfl

theorem append_put (path chunk : Bytes) : append blameCause path (put chunk) =
    (emit chunk : Emit σ Unit) := by
  funext out
  rw [append, put, emit]
  obtain ⟨next, taken⟩ := Sink.put out chunk
  cases taken <;> rfl

theorem feed_memberTrace (path : Bytes) (h : Header) (content : Bytes) :
    (feed (memberTrace h content) : Emit σ Unit) =
      append blameCause path (appendMember h content) := by
  rw [memberTrace, feed_cons, feed_cons, appendMember]
  simp only [append_bind, append_put]
  exact bind_congr fun _ => bind_congr fun _ => feed_one _

theorem feed_longTrace (path : Bytes) (isLong : Bool) (kind : Kind) (name : Bytes) (mtime : Nat) :
    (feed (longTrace isLong kind name mtime) : Emit σ Unit) =
      append blameCause path (if isLong then appendLong kind name mtime else pure ()) := by
  cases isLong with
  | false => rfl
  | true => exact feed_memberTrace path _ _

theorem feed_named (path : Bytes) (f : Recorded → Trace Bytes ArchiveError)
    (answer : Except NameError Recorded) :
    (feed (named path f answer) : Emit σ Unit) =
      (do feed (f (← append blameCause path (recorded answer)))) := by
  cases answer <;> rfl

theorem bind_when {m : Type → Type} [Monad m] [LawfulMonad m] (c : Prop) [Decidable c]
    (a b : m Unit) : (do (if c then a else pure ()); b) = if c then (do a; b) else b := by
  split
  · rfl
  · exact pure_bind () fun _ => b

/-- Adds an item. -/
def appendItem (mtime : Nat) (item : Item) : Emit σ Unit :=
  match item.entity with
  | .directory =>
    append blameCause (item.path ++ [Bytes.slash])
      (appendDirectory (item.path ++ [Bytes.slash]) mtime)
  | .file mode content => append blameCause item.path (appendFile item.path mode content mtime)
  | .symlink target => append blameCause item.path (appendLink item.path target mtime)

theorem feed_itemTrace (mtime : Nat) (item : Item) :
    (feed (itemTrace mtime item) : Emit σ Unit) = appendItem mtime item := by
  obtain ⟨path, entity⟩ := item
  cases entity with
  | directory =>
    simp only [itemTrace, appendItem, appendDirectory, feed_andThen,
      feed_longTrace (path ++ [Bytes.slash]), feed_memberTrace (path ++ [Bytes.slash]),
      ← append_bind, bind_when, decide_eq_true_eq]
  | file mode content =>
    simp only [itemTrace, appendItem, appendFile, feed_named, feed_andThen, feed_longTrace path,
      feed_memberTrace path, ← append_bind, bind_when]
  | symlink target =>
    simp only [itemTrace, appendItem, appendLink, feed_named, feed_andThen, feed_longTrace path,
      feed_memberTrace path, ← append_bind, bind_when]

/-! ## Writing is feeding -/

theorem forM_eq_feed {α : Type} {f : α → Emit σ Unit} {g : α → Trace Bytes ArchiveError}
    (h : ∀ a, f a = feed (g a)) (as : List α) : as.forM f = feed (.sequence (as.map g)) := by
  induction as with
  | nil => rfl
  | cons a as ih =>
    rw [List.map_cons, Trace.sequence, feed_andThen, ← h, ← ih]
    rfl

theorem feed_expand_answered {α : Type} (f : Item → Trace Bytes ArchiveError)
    (g : α → Trace Item StoreError) (answer : Except StoreError α) :
    (feed ((answered g answer).expand f .store) : Emit σ Unit) =
      (do feed ((g (← ask answer)).expand f .store)) := by
  cases answer <;> rfl

/-- Writing the archive below a tree is feeding what its items are written as. -/
theorem emitTree_eq_feed (s : ObjectStore) (mtime depth : Nat) (tree : ObjectId) (above : Bytes) :
    (emitTree blameCause s mtime depth tree above : Emit σ Unit) =
      feed (treeTrace s mtime depth tree above) := by
  induction depth generalizing tree above with
  | zero => rfl
  | succ depth ih =>
    rw [emitTree, treeTrace, walk, feed_expand_answered]
    refine bind_congr fun entries => ?_
    rw [Trace.expand_sequence, List.map_map]
    refine forM_eq_feed (fun entry => ?_) entries
    rw [Function.comp, walkEntry]
    cases entry.kind with
    | directory =>
      simp only [Trace.expand_andThen, Trace.expand_one, feed_andThen, feed_itemTrace, ih]
      rfl
    | file =>
      simp only [feed_expand_answered, Trace.expand_one, feed_itemTrace]
      rfl
    | symlink =>
      simp only [feed_expand_answered, Trace.expand_one, feed_itemTrace]
      rfl
    | submodule => rfl

/-- Writing an archive is feeding what its snapshot is written as. -/
theorem writeSnapshot_eq_feed (s : ObjectStore) (commit : Snapshot) (out : σ) :
    writeSnapshot s commit out = feed (snapshotTrace s (depthFor s out) commit) out := by
  rw [snapshotTrace, feed_andThen, ← emitTree_eq_feed, feed_one]
  rfl

/-- A sink that takes everything has the events of the trace in the end, and its outcome. -/
theorem feed_takesAll (all : TakesAll σ) (t : Trace Bytes ArchiveError) {out : σ}
    (h : all.ready out) :
    ∃ out', (feed t : Emit σ Unit) out = (t.outcome, out') ∧ all.ready out' ∧
      all.taken out' = all.taken out ++ t.events.flatten := by
  obtain ⟨events, outcome⟩ := t
  induction events generalizing out with
  | nil => exact ⟨out, rfl, h, by simp⟩
  | cons chunk chunks ih =>
    obtain ⟨next, hput, hready, htaken⟩ := all.put chunk h
    obtain ⟨last, hfeed, hlast, hall⟩ := ih hready
    refine ⟨last, ?_, hlast, ?_⟩
    · change (match Sink.put out chunk with
        | (out, true) => feedAll outcome chunks out
        | (out, false) => (.error .write, out)) = _
      rw [hput]
      exact hfeed
    · rw [hall, htaken, List.flatten_cons, List.append_assoc]

theorem write_eq_writeSnapshot {s : ObjectStore} {v : Version} {commit : Snapshot}
    (h : s.peel v.tagRef = .ok commit) (out : σ) : write s v out = writeSnapshot s commit out := by
  rw [write, Catalog.resolveCommit, h]

/-- A sink that takes everything has the archive of a version in the end. -/
theorem write_takesAll (all : TakesAll σ) {s : ObjectStore} {v : Version} {commit : Snapshot}
    {out : σ} (hready : all.ready out) (htag : s.peel v.tagRef = .ok commit) :
    ∃ out', write s v out = ((snapshotTrace s (depthFor s out) commit).outcome, out') ∧
      all.ready out' ∧ all.taken out' =
        all.taken out ++ (snapshotTrace s (depthFor s out) commit).events.flatten := by
  rw [write_eq_writeSnapshot htag, writeSnapshot_eq_feed]
  exact feed_takesAll all _ hready

end Archive

end TagRegistry
