import Mathlib.Data.List.TakeDrop
import TagRegistry.Proofs.Interruption
import TagRegistry.Proofs.SinkStages

/-! Sinks with little room.

A sink that takes only so many octets gets the front part of the archive that a sink without a limit
gets. If that is all of it, writing ends in the same way; otherwise the sink is to blame, whatever
would have gone wrong later. The levels that a walk allows for depend on the room of the sink, but
that changes nothing where no tree contains itself. -/

namespace TagRegistry

/-! ## Sinks with or without a limit -/

/-- The front part of octets that there is room for. -/
def within (left? : Option Nat) (bs : Bytes) : Bytes :=
  match left? with
  | none => bs
  | some left => bs.take left

theorem prefix_within (left? : Option Nat) (bs : Bytes) : within left? bs <+: bs := by
  cases left? with
  | none => exact List.prefix_rfl
  | some left => exact List.take_prefix left bs

theorem within_some_eq_iff {left : Nat} {bs : Bytes} :
    within (some left) bs = bs ↔ bs.length ≤ left :=
  List.take_eq_self_iff bs

/-- Octets are cut off if there is a limit, and they are more. -/
theorem within_ne_iff {left? : Option Nat} {bs : Bytes} :
    within left? bs ≠ bs ↔ ∃ left, left? = some left ∧ left < bs.length := by
  cases left? with
  | none => exact iff_of_false (fun h => h rfl) nofun
  | some left => simp [within_some_eq_iff]

/-- What comes behind octets has the room that they leave. -/
theorem within_append {left? : Option Nat} {bs : Bytes} (h : within left? bs = bs) (more : Bytes) :
    within left? (bs ++ more) = bs ++ within (left?.map (· - bs.length)) more := by
  cases left? with
  | none => rfl
  | some left =>
    have hfits : bs.take left = bs := h
    change (bs ++ more).take left = bs ++ more.take (left - bs.length)
    rw [List.take_append, hfits]

/-- A sink that takes octets while it is ready, as far as it has room left for them if it has a
limit, with what it has taken. -/
structure TakesUpTo (σ : Type) [Sink σ] where
  ready : σ → Prop
  left? : σ → Option Nat
  taken : σ → Bytes
  put {out : σ} (bs : Bytes) : ready out →
    ∃ out', Sink.put out bs = (out', decide (within (left? out) bs = bs)) ∧ ready out' ∧
      left? out' = (left? out).map (· - bs.length) ∧
      taken out' = taken out ++ within (left? out) bs

/-- Parts go through as far as there is room for them. -/
theorem TakesUpTo.putAll {σ : Type} [Sink σ] (upTo : TakesUpTo σ) (parts : List Bytes) {out : σ}
    (h : upTo.ready out) :
    ∃ out', Sink.putAll parts out =
        (out', decide (within (upTo.left? out) parts.flatten = parts.flatten)) ∧
      upTo.ready out' ∧ upTo.left? out' = (upTo.left? out).map (· - parts.flatten.length) ∧
      upTo.taken out' = upTo.taken out ++ within (upTo.left? out) parts.flatten := by
  induction parts generalizing out with
  | nil =>
    have hnothing : within (upTo.left? out) [] = [] := List.prefix_nil.mp (prefix_within _ [])
    refine ⟨out, ?_, h, ?_, ?_⟩
    · rw [List.flatten_nil, hnothing, decide_eq_true rfl, Sink.putAll]
    · exact (congrFun Option.map_id _).symm
    · rw [List.flatten_nil, hnothing, List.append_nil]
  | cons part parts ih =>
    obtain ⟨next, hput, hready, hleft, htaken⟩ := upTo.put part h
    rw [Sink.putAll, hput, List.flatten_cons]
    by_cases hfits : within (upTo.left? out) part = part
    · obtain ⟨last, hparts, hlast, hrest, hall⟩ := ih hready
      rw [hleft] at hparts hrest hall
      rw [decide_eq_true hfits, within_append hfits]
      refine ⟨last, ?_, hlast, ?_, ?_⟩
      · simp only [hparts, List.append_cancel_left_eq]
      · rw [hrest, Option.map_map, List.length_append]
        exact congrArg (Option.map · _) (funext fun left => Nat.sub_sub left _ _)
      · rw [hall, htaken, hfits, List.append_assoc]
    · -- What comes behind a part that is cut off is not offered any more.
      obtain ⟨left, hsome, hcut⟩ := within_ne_iff.mp hfits
      have hlonger : left < (part ++ parts.flatten).length := by
        rw [List.length_append]
        exact Nat.lt_add_right _ hcut
      rw [decide_eq_false hfits, decide_eq_false (within_ne_iff.mpr ⟨left, hsome, hlonger⟩)]
      rw [hsome] at hleft htaken ⊢
      refine ⟨next, rfl, hready, ?_, ?_⟩
      · rw [hleft, Option.map_some, Option.map_some, Nat.sub_eq_zero_of_le (Nat.le_of_lt hcut),
          Nat.sub_eq_zero_of_le (Nat.le_of_lt hlonger)]
      · rw [htaken]
        exact congrArg _ (List.take_append_of_le_length (Nat.le_of_lt hcut)).symm

/-- Collecting takes octets up to its limit. -/
def Collected.takesUpTo : TakesUpTo Collected where
  ready _ := True
  left? := Collected.room
  taken := Collected.toList
  put {out} bs _ := by
    obtain ⟨octets, room⟩ := out
    cases room with
    | none =>
      refine ⟨⟨octets ++ bs, none⟩, ?_, trivial, rfl, by simp [Collected.toList, within]⟩
      exact congrArg (Prod.mk _) (decide_eq_true rfl).symm
    | some room =>
      refine ⟨⟨octets ++ bs.take room, some (room - bs.length)⟩, ?_, trivial, rfl,
        by simp [Collected.toList, within]⟩
      simp only [within_some_eq_iff]
      rfl

/-! ## Sinks that take a front part -/

/-- A sink that takes what it has room left for while it is ready, with what it has taken. -/
structure TakesFront (σ : Type) [Sink σ] where
  ready : σ → Prop
  left : σ → Nat
  taken : σ → Bytes
  put {out : σ} (bs : Bytes) : ready out →
    ∃ out', Sink.put out bs = (out', decide (bs.length ≤ left out)) ∧ ready out' ∧
      left out' = left out - bs.length ∧ taken out' = taken out ++ bs.take (left out)

/-- Collecting with a limit takes a front part. -/
def Collected.takesFront : TakesFront Collected where
  ready c := c.room ≠ none
  left c := c.room.getD 0
  taken := Collected.toList
  put {out} bs h := by
    obtain ⟨octets, room⟩ := out
    cases room with
    | none => exact absurd rfl h
    | some room =>
      refine ⟨⟨octets ++ bs.take room, some (room - bs.length)⟩, rfl, nofun, rfl, ?_⟩
      simp [Collected.toList]

@[simp] theorem Collected.takesFront_taken (c : Collected) : takesFront.taken c = c.toList := rfl

@[simp] theorem Collected.takesFront_left (room : Nat) :
    takesFront.left (limited room) = room := rfl

@[simp] theorem Collected.toList_limited (room : Nat) : (limited room).toList = [] := rfl

/-- Taking a front part is taking octets up to a limit. -/
def TakesFront.upTo {σ : Type} [Sink σ] (front : TakesFront σ) : TakesUpTo σ where
  ready := front.ready
  left? out := some (front.left out)
  taken := front.taken
  put {out} bs h := by
    obtain ⟨out', hput, hready, hleft, htaken⟩ := front.put bs h
    simp only [within_some_eq_iff]
    exact ⟨out', hput, hready, congrArg some hleft, htaken⟩

namespace Archive

/-! ## What is written, whatever the sink -/

variable {s : ObjectStore} {v : Version} {depth depth' : Nat}

/-- What an archive is written as does not depend on the levels, if they are enough. -/
theorem versionTrace_eq_of_acyclic
    (hroot : ∀ commit, s.peel v.tagRef = .ok commit → Acyclic s commit.tree.oid)
    (hdepth : s.treeIds.length < depth) (hdepth' : s.treeIds.length < depth') :
    versionTrace s depth v = versionTrace s depth' v := by
  rw [versionTrace, versionTrace]
  cases htag : s.peel v.tagRef with
  | error cause => rfl
  | ok commit =>
    simp only [snapshotTrace, treeTrace,
      walk_eq_of_acyclic (hroot commit htag) hdepth hdepth' []]

/-- What is written on its own fails for the store, or for an entry. -/
theorem versionTrace_error {cause : ArchiveError}
    (h : (versionTrace s depth v).outcome = .error cause) :
    (∃ failure, cause = .store failure) ∨ ∃ path fault, cause = .unarchivable path (.name fault) := by
  unfold versionTrace at h
  split at h
  · obtain ⟨failure, -, hcause⟩ | hentry := snapshotTrace_error h
    · exact .inl ⟨failure, hcause⟩
    · exact .inr hentry
  · exact .inl ⟨_, (Except.error.inj h).symm⟩

theorem versionTrace_ne_write (s : ObjectStore) (depth : Nat) (v : Version) :
    (versionTrace s depth v).outcome ≠ .error .write := by
  intro h
  obtain ⟨failure, hcause⟩ | ⟨path, fault, hcause⟩ := versionTrace_error h <;> cases hcause

/-! ## Feeding a sink with little room -/

variable {σ τ : Type} [Sink σ] [Sink τ]

/-- A sink has the octets that it has room for, and the rest is its fault. -/
theorem feed_takesUpTo (upTo : TakesUpTo τ) (t : Trace Bytes ArchiveError) {out : τ}
    (h : upTo.ready out) :
    ∃ out', (feed t : Emit τ Unit) out =
        (if within (upTo.left? out) (octetsOf t) = octetsOf t then t.outcome else .error .write,
          out') ∧
      upTo.ready out' ∧ upTo.left? out' = (upTo.left? out).map (· - (octetsOf t).length) ∧
      upTo.taken out' = upTo.taken out ++ within (upTo.left? out) (octetsOf t) := by
  obtain ⟨out', hput, hready, hleft, htaken⟩ := upTo.putAll t.events h
  refine ⟨out', ?_, hready, hleft, htaken⟩
  rw [feed_eq_putAll, hput, octetsOf]
  by_cases hfits : within (upTo.left? out) t.events.flatten = t.events.flatten
  · rw [decide_eq_true hfits, if_pos hfits]
  · rw [decide_eq_false hfits, if_neg hfits]

theorem feed_takesFront (front : TakesFront τ) (t : Trace Bytes ArchiveError) {out : τ}
    (h : front.ready out) :
    ∃ out', (feed t : Emit τ Unit) out =
        (if (octetsOf t).length ≤ front.left out then t.outcome else .error .write, out') ∧
      front.taken out' = front.taken out ++ (octetsOf t).take (front.left out) := by
  obtain ⟨out', hfeed, -, -, htaken⟩ := feed_takesUpTo front.upTo t h
  simp only [TakesFront.upTo, within_some_eq_iff] at hfeed
  exact ⟨out', hfeed, htaken⟩

/-- A sink with little room gets a front part of the archive, and writing ends as it does without a
limit if that is all of it. Otherwise, and only then, it is the sink that is blamed. An entry is only
blamed for what it is blamed for without a limit. -/
theorem write_limited (all : TakesAll σ) (front : TakesFront τ) (ending : List Bytes) {out : σ}
    {limited : τ} (hout : all.ready out) (hlimited : front.ready limited)
    (hroot : ∀ commit, s.peel v.tagRef = .ok commit → Acyclic s commit.tree.oid) :
    ∃ octets,
      all.taken (writeSealing ending s v out).2 = all.taken out ++ octets ∧
      (writeSealing ending s v out).1 ≠ .error .write ∧
      front.taken (writeSealing ending s v limited).2 =
        front.taken limited ++ octets.take (front.left limited) ∧
      (writeSealing ending s v limited).1 =
        (if octets.length ≤ front.left limited then (writeSealing ending s v out).1
          else .error .write) ∧
      ((writeSealing ending s v limited).1 = .error .write ↔
        front.left limited < octets.length) ∧
      ∀ path fault, (writeSealing ending s v limited).1 = .error (.unarchivable path fault) ↔
        octets.length ≤ front.left limited ∧
          (writeSealing ending s v out).1 = .error (.unarchivable path fault) := by
  simp only [writeSealing_eq]
  have hlevels : versionTrace s (depthFor s limited) v = versionTrace s (depthFor s out) v :=
    versionTrace_eq_of_acyclic hroot (lt_depthFor s limited) (lt_depthFor s out)
  have hblame := versionTrace_ne_write s (depthFor s out) v
  rw [write_eq_feed, write_eq_feed, hlevels]
  generalize versionTrace s (depthFor s out) v = t at hblame ⊢
  obtain ⟨last, hfeed, -, htaken⟩ := feed_takesAll all t hout
  obtain ⟨last', hfeed', htaken'⟩ := feed_takesFront front t hlimited
  rw [hfeed, hfeed']
  by_cases hfits : (octetsOf t).length ≤ front.left limited
  · rw [if_pos hfits]
    exact ⟨octetsOf t, htaken, hblame, htaken', (if_pos hfits).symm,
      iff_of_false hblame (Nat.not_lt.mpr hfits), fun _ _ => (and_iff_right hfits).symm⟩
  · rw [if_neg hfits]
    exact ⟨octetsOf t, htaken, hblame, htaken', (if_neg hfits).symm,
      iff_of_true rfl (Nat.not_le.mp hfits), fun _ _ => iff_of_false nofun fun h => hfits h.1⟩

/-- A file, and behind it a link that points nowhere. -/
def danglingStore : MemoryStore where
  refs := [("refs/tags/v1.0.0", ⟨⟨.ofNat 3⟩, 100⟩)]
  trees := [(.ofNat 3, [⟨Bytes.ascii "a", .ofNat 1, .file, 0o100644⟩,
    ⟨Bytes.ascii "dangling", .ofNat 2, .symlink, 0o120000⟩])]
  blobs := [(.ofNat 1, Bytes.ascii "x"), (.ofNat 2, [])]
  refused := []
  listingRefused := false
  count := 3

theorem acyclic_danglingStore (root : ObjectId) : Acyclic danglingStore.view root := by
  rintro tree child - ⟨entries, entry, hread, hmem, hkind, -⟩
  have hknown : tree ∈ [ObjectId.ofNat 3] := danglingStore.view.mem_treeIds hread
  rw [List.mem_singleton.mp hknown] at hread
  obtain rfl := Except.ok.inj (hread.symm.trans rfl)
  simp only [List.mem_cons, List.not_mem_nil, or_false] at hmem
  obtain rfl | rfl := hmem <;> cases hkind

/-- The link ends the archive. -/
theorem write_danglingStore : ∃ out,
    write danglingStore.view (.release 1 0 0) Collected.unlimited =
        (.error (.unarchivable (Bytes.ascii "dangling")
          (.name ⟨.linkName, .noComponent, Bytes.ascii "dangling"⟩)), out) ∧
      out.toList = octetsOf (versionTrace danglingStore.view 3 (.release 1 0 0)) := by
  have hready : Collected.takesAll.ready .unlimited := rfl
  have houtcome : (versionTrace danglingStore.view 3 (.release 1 0 0)).outcome =
      .error (.unarchivable (Bytes.ascii "dangling")
        (.name ⟨.linkName, .noComponent, Bytes.ascii "dangling"⟩)) := by decide +kernel
  obtain ⟨out, hfeed, -, htaken⟩ :=
    feed_takesAll Collected.takesAll (versionTrace danglingStore.view 3 (.release 1 0 0)) hready
  rw [houtcome] at hfeed
  exact ⟨out, (write_eq_feed danglingStore.view (.release 1 0 0) Collected.unlimited).trans hfeed,
    htaken⟩

/-- With less room than the file needs the sink is to blame, with enough it is the link behind
it. -/
theorem write_limited_danglingStore : ∃ out fault,
    writeSealing [Tar.trailer] danglingStore.view (.release 1 0 0) Collected.unlimited =
        (.error (.unarchivable (Bytes.ascii "dangling") fault), out) ∧
      out.toList.length = 1024 ∧
      (writeSealing [Tar.trailer] danglingStore.view (.release 1 0 0) (Collected.limited 600)).1 =
        .error .write ∧
      (writeSealing [Tar.trailer] danglingStore.view (.release 1 0 0)
        (Collected.limited 600)).2.toList = out.toList.take 600 ∧
      (writeSealing [Tar.trailer] danglingStore.view (.release 1 0 0) (Collected.limited 1024)).1 =
        .error (.unarchivable (Bytes.ascii "dangling") fault) ∧
      (writeSealing [Tar.trailer] danglingStore.view (.release 1 0 0)
        (Collected.limited 1024)).2.toList = out.toList := by
  have hready : Collected.takesAll.ready .unlimited := rfl
  have hlimited (room : Nat) : Collected.takesFront.ready (.limited room) := nofun
  have hroot (commit : Snapshot)
      (_ : danglingStore.view.peel (Version.release 1 0 0).tagRef = .ok commit) :
      Acyclic danglingStore.view commit.tree.oid := acyclic_danglingStore _
  have hlength : (octetsOf (versionTrace danglingStore.view 3 (.release 1 0 0))).length = 1024 := by
    decide +kernel
  obtain ⟨out, hwritten, hout⟩ := write_danglingStore
  rw [← hout] at hlength
  rw [← writeSealing_eq [Tar.trailer]] at hwritten
  obtain ⟨octets, htaken, -, hfront, -, hwrite, -⟩ :=
    write_limited Collected.takesAll Collected.takesFront [Tar.trailer] hready (hlimited 600) hroot
  obtain ⟨whole, htaken', -, hfront', -, -, hlink⟩ :=
    write_limited Collected.takesAll Collected.takesFront [Tar.trailer] hready (hlimited 1024) hroot
  simp only [hwritten, Collected.takesAll_taken, Collected.toList_unlimited,
    Collected.takesFront_taken, Collected.takesFront_left, Collected.toList_limited,
    List.nil_append] at htaken htaken' hfront hfront' hwrite hlink
  subst htaken htaken'
  rw [List.take_of_length_le hlength.le] at hfront'
  have hfull : 600 < 1024 := by decide
  exact ⟨out, _, hwritten, hlength, hwrite.mpr (hfull.trans_eq hlength.symm), hfront,
    (hlink _ _).mpr ⟨hlength.le, rfl⟩, hfront'⟩

end Archive

end TagRegistry
