import TagRegistry.Archive

/-! Archives that are given up.

A run through a builder is a run on the sink behind it, with one flag beside it. The flag is not set
while the run goes on, and when the run ends early, it is set exactly if the sink has refused
something. So it is right to look at the flag to find what a failure is put down to; and since a
builder is sealed before it is dropped, what it still tries to write gets nowhere. -/

namespace TagRegistry

namespace Sealable

variable {σ : Type} [Sink σ]

theorem put_unsealed (inner : σ) (failed : Bool) (bs : Bytes) :
    Sink.put (⟨inner, false, failed⟩ : Sealable σ) bs =
      (⟨(Sink.put inner bs).1, false, failed || !(Sink.put inner bs).2⟩, (Sink.put inner bs).2) :=
  rfl

/-- As long as a sink is not sealed, parts go through it, and it remembers a refusal. -/
theorem putAll_unsealed (parts : List Bytes) (inner : σ) (failed : Bool) :
    Sink.putAll parts (⟨inner, false, failed⟩ : Sealable σ) =
      (⟨(Sink.putAll parts inner).1, false, failed || !(Sink.putAll parts inner).2⟩,
        (Sink.putAll parts inner).2) := by
  induction parts generalizing inner failed with
  | nil => simp [Sink.putAll]
  | cons part parts ih =>
    rw [Sink.putAll, Sink.putAll, put_unsealed]
    obtain ⟨next, taken⟩ := Sink.put inner part
    cases taken with
    | true => simpa using ih next failed
    | false => rfl

/-- Nothing gets through a sealed sink. -/
theorem putAll_sealed (parts : List Bytes) (out : Sealable σ) :
    (Sink.putAll parts out.sealed).1.inner = out.inner := by
  cases parts <;> rfl

end Sealable

namespace Archive

open Tar

/-! ## Runs through a builder -/

section Mirrors

variable {σ ε α β : Type} [DecidableEq ε] {refusal : ε}

/-- A run through a builder ends as another one does on the sink behind it. The flag is set if it
ends with a refusal. -/
def Mirrors (refusal : ε) (run : ExceptT ε (StateM (Sealable σ)) α)
    (behind : ExceptT ε (StateM σ) α) : Prop :=
  ∀ out, run (.onto out) =
    match behind out with
    | (.ok a, next) => (.ok a, .onto next)
    | (.error failure, next) => (.error failure, ⟨next, false, decide (failure = refusal)⟩)

namespace Mirrors

theorem pure (refusal : ε) (a : α) : Mirrors (σ := σ) refusal (Pure.pure a) (Pure.pure a) :=
  fun _ => rfl

theorem throw {failure : ε} (h : failure ≠ refusal) :
    Mirrors (σ := σ) (α := α) refusal (MonadExcept.throw failure) (MonadExcept.throw failure) := by
  intro out
  change (Except.error failure, Sealable.onto out) =
    (.error failure, ⟨out, false, decide (failure = refusal)⟩)
  rw [decide_eq_false h, Sealable.onto]

/-- While the flag is not set, what comes next finds the builder as it was in the beginning. -/
theorem bind {run : ExceptT ε (StateM (Sealable σ)) α} {behind : ExceptT ε (StateM σ) α}
    {next : α → ExceptT ε (StateM (Sealable σ)) β} {nextBehind : α → ExceptT ε (StateM σ) β}
    (h : Mirrors refusal run behind) (hnext : ∀ a, Mirrors refusal (next a) (nextBehind a)) :
    Mirrors refusal (run >>= next) (behind >>= nextBehind) := by
  intro out
  simp only [Bind.bind, ExceptT.bind, ExceptT.mk, StateT.bind, h out]
  obtain ⟨result, last⟩ := behind out
  cases result with
  | ok a => exact hnext a last
  | error failure => rfl

/-- A part that is left out sometimes is left out on both sides. -/
theorem whenThen (c : Prop) [Decidable c] {run : ExceptT ε (StateM (Sealable σ)) Unit}
    {behind : ExceptT ε (StateM σ) Unit} {next : ExceptT ε (StateM (Sealable σ)) α}
    {nextBehind : ExceptT ε (StateM σ) α} (h : Mirrors refusal run behind)
    (hnext : Mirrors refusal next nextBehind) :
    Mirrors refusal (if c then do run; next else next)
      (if c then do behind; nextBehind else nextBehind) := by
  split
  · exact h.bind fun _ => hnext
  · exact hnext

theorem forM {run : α → ExceptT ε (StateM (Sealable σ)) Unit}
    {behind : α → ExceptT ε (StateM σ) Unit} (h : ∀ a, Mirrors refusal (run a) (behind a))
    (as : List α) : Mirrors refusal (as.forM run) (as.forM behind) := by
  induction as with
  | nil => exact pure refusal ()
  | cons a as ih => exact (h a).bind fun _ => ih

end Mirrors

end Mirrors

/-! ## Members through a builder -/

variable {σ : Type} [Sink σ]

theorem put_mirrors (bs : Bytes) : Mirrors AppendError.refused (put bs) (put bs : Append σ Unit) := by
  intro out
  rw [put, put, Sealable.onto, Sealable.put_unsealed]
  obtain ⟨next, taken⟩ := Sink.put out bs
  cases taken <;> rfl

omit [Sink σ] in
theorem recorded_mirrors (answer : Except NameError Recorded) :
    Mirrors AppendError.refused (recorded answer) (recorded answer : Append σ Recorded) := by
  cases answer with
  | ok r => exact .pure _ r
  | error cause => exact .throw nofun

theorem appendMember_mirrors (h : Header) (content : Bytes) :
    Mirrors AppendError.refused (appendMember h content)
      (appendMember h content : Append σ Unit) :=
  (put_mirrors _).bind fun _ => (put_mirrors _).bind fun _ => put_mirrors _

theorem appendDirectory_mirrors (path : Bytes) (mtime : Nat) :
    Mirrors AppendError.refused (appendDirectory path mtime)
      (appendDirectory path mtime : Append σ Unit) :=
  .whenThen _ (appendMember_mirrors _ _) (appendMember_mirrors _ _)

theorem appendFile_mirrors (path : Bytes) (mode : UInt32) (content : Bytes) (mtime : Nat) :
    Mirrors AppendError.refused (appendFile path mode content mtime)
      (appendFile path mode content mtime : Append σ Unit) :=
  (recorded_mirrors _).bind fun _ =>
    .whenThen _ (appendMember_mirrors _ _) (appendMember_mirrors _ _)

theorem appendLink_mirrors (path target : Bytes) (mtime : Nat) :
    Mirrors AppendError.refused (appendLink path target mtime)
      (appendLink path target mtime : Append σ Unit) :=
  (recorded_mirrors _).bind fun _ =>
    .whenThen _ (appendMember_mirrors _ _) <|
      (recorded_mirrors _).bind fun _ =>
        .whenThen _ (appendMember_mirrors _ _) (appendMember_mirrors _ _)

/-! ## Archives through a builder -/

omit [Sink σ] in
/-- A failure is put down to its cause by the flag of the builder. -/
theorem append_mirrors {α : Type} {adding : Append (Sealable σ) α} {behind : Append σ α}
    (h : Mirrors AppendError.refused adding behind) (path : Bytes) :
    Mirrors ArchiveError.write (append classify path adding) (append blameCause path behind) := by
  intro out
  rw [append, append, h out]
  obtain ⟨result, next⟩ := behind out
  cases result with
  | ok a => rfl
  | error failure => cases failure <;> rfl

theorem emit_mirrors (bs : Bytes) :
    Mirrors ArchiveError.write (emit bs) (emit bs : Emit σ Unit) := by
  intro out
  rw [emit, emit, Sealable.onto, Sealable.put_unsealed]
  obtain ⟨next, taken⟩ := Sink.put out bs
  cases taken <;> rfl

omit [Sink σ] in
theorem ask_mirrors {α : Type} (answer : Except StoreError α) :
    Mirrors ArchiveError.write (ask answer) (ask answer : Emit σ α) := by
  cases answer with
  | ok a => exact .pure _ a
  | error cause => exact .throw nofun

/-- The walk through a builder, which looks at its flag, is the walk that puts each failure down to
its cause. -/
theorem emitTree_mirrors (s : ObjectStore) (mtime depth : Nat) (tree : ObjectId) (above : Bytes) :
    Mirrors ArchiveError.write (emitTree classify s mtime depth tree above)
      (emitTree blameCause s mtime depth tree above : Emit σ Unit) := by
  induction depth generalizing tree above with
  | zero => exact .throw nofun
  | succ depth ih =>
    refine (ask_mirrors _).bind fun entries => .forM (fun entry => ?_) entries
    cases entry.kind with
    | directory =>
      exact (append_mirrors (appendDirectory_mirrors _ _) _).bind fun _ => ih entry.oid _
    | file =>
      exact (ask_mirrors _).bind fun content => append_mirrors (appendFile_mirrors _ _ _ _) _
    | symlink =>
      exact (ask_mirrors _).bind fun target => append_mirrors (appendLink_mirrors _ _ _) _
    | submodule => exact .pure _ ()

/-- Nothing that a dropped builder tries to write arrives, and the failure is the one that the walk
came to. -/
theorem writeSealing_eq (ending : List Bytes) (s : ObjectStore) (v : Version) (out : σ) :
    writeSealing ending s v out = write s v out := by
  rw [writeSealing, write]
  cases Catalog.resolveCommit s v with
  | error cause => rfl
  | ok commit =>
    simp only [writeSnapshot, ExceptT.run, StateT.run, Bind.bind, ExceptT.bind, ExceptT.mk,
      StateT.bind, emitTree_mirrors s (memberTime commit) (depthFor s out) commit.tree.oid [] out]
    obtain ⟨result, next⟩ := (emitTree blameCause s (memberTime commit) (depthFor s out)
      commit.tree.oid [] : Emit σ Unit) out
    cases result with
    | error cause => simp only [Sealable.putAll_sealed, ExceptT.bindCont]; rfl
    | ok u =>
      simp only [emit_mirrors Tar.trailer next, ExceptT.bindCont]
      obtain ⟨last, taken⟩ := (emit Tar.trailer : Emit σ Unit) next
      cases last <;> rfl

end Archive

end TagRegistry
