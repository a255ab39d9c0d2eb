import TagRegistry.Protocol.Operation

/-! Relative links in answers.

A link takes the place of the last segment of the path that was asked for. Segments `.` and `..`
are steps then, wherever they come from, and not names. -/

namespace TagRegistry.Path

open Bytes (slash dot)

/-- A segment that is a step when a link is followed. -/
def IsStep (segment : Bytes) : Prop := segment = [dot] ∨ segment = [dot, dot]

instance (segment : Bytes) : Decidable (IsStep segment) := inferInstanceAs (Decidable (_ ∨ _))

/-- Goes along one segment; those that have been gone along are on a stack. -/
def goAlong (stack : List Bytes) (segment : Bytes) : List Bytes :=
  if segment = [dot] then stack
  else if segment = [dot, dot] then stack.tail
  else segment :: stack

/-- The segments that are left when all steps are taken. A step at the end leaves a slash. -/
def takeSteps (segments : List Bytes) : List Bytes :=
  (segments.foldl goAlong []).reverse ++
    if segments.getLast?.any (IsStep ·) then [[]] else []

/-- The path that a link without a leading slash leads to from an absolute path. -/
def follow (path link : Bytes) : Bytes :=
  [slash].intercalate
    ([] :: takeSteps (((path.splitOn slash).dropLast ++ link.splitOn slash).drop 1))

example : follow (Bytes.ascii "/a/b/c") (Bytes.ascii "./d/e") = Bytes.ascii "/a/b/d/e" := by
  decide

example : follow (Bytes.ascii "/a/b/c") (Bytes.ascii "../../../d/..") = Bytes.ascii "/" := by
  decide

/-! ## Paths without steps -/

theorem goAlong_of_not_step {stack : List Bytes} {segment : Bytes} (h : ¬IsStep segment) :
    goAlong stack segment = segment :: stack := by
  unfold IsStep at h
  rw [goAlong, if_neg fun hd => h (.inl hd), if_neg fun hd => h (.inr hd)]

theorem foldl_goAlong {segments : List Bytes} (h : ∀ segment ∈ segments, ¬IsStep segment)
    (stack : List Bytes) : segments.foldl goAlong stack = segments.reverse ++ stack := by
  induction segments generalizing stack with
  | nil => rfl
  | cons segment segments ih =>
    rw [List.foldl_cons, goAlong_of_not_step (h segment List.mem_cons_self),
      ih fun s hs => h s (List.mem_cons_of_mem segment hs), List.reverse_cons, List.append_assoc]
    rfl

/-- Every step makes a path shorter. -/
theorem length_foldl_goAlong (segments stack : List Bytes) :
    (segments.foldl goAlong stack).length ≤
      stack.length + (segments.filter fun segment => ¬IsStep segment).length := by
  induction segments generalizing stack with
  | nil => simp
  | cons segment segments ih =>
    have hstep := ih (goAlong stack segment)
    rw [List.foldl_cons]
    by_cases h : IsStep segment
    · have hle : (goAlong stack segment).length ≤ stack.length := by
        obtain rfl | rfl := h <;> simp [goAlong]
      rw [List.filter_cons_of_neg (by simpa using h)]
      omega
    · rw [goAlong_of_not_step h, List.length_cons] at hstep
      rw [goAlong_of_not_step h, List.filter_cons_of_pos (by simpa using h), List.length_cons]
      omega

theorem mem_foldl_goAlong {segments stack : List Bytes} {segment : Bytes}
    (h : segment ∈ segments.foldl goAlong stack) : segment ∈ stack ∨ segment ∈ segments := by
  induction segments generalizing stack with
  | nil => exact .inl h
  | cons first segments ih =>
    rcases ih h with hs | hs
    · unfold goAlong at hs
      split at hs
      · exact .inl hs
      · split at hs
        · exact .inl (List.mem_of_mem_tail hs)
        · rcases List.mem_cons.mp hs with rfl | hs
          · exact .inr List.mem_cons_self
          · exact .inl hs
    · exact .inr (List.mem_cons_of_mem first hs)

/-! ## Links into a directory beside the path -/

variable {path link last directory file : Bytes} {segments : List Bytes}

theorem takeSteps_link (hd : ¬IsStep directory) (hf : ¬IsStep file) :
    takeSteps (segments ++ [[dot], directory, file]) =
      (segments.foldl goAlong []).reverse ++ [directory, file] := by
  have hdot (stack : List Bytes) : goAlong stack [dot] = stack := if_pos rfl
  rw [takeSteps, List.foldl_append]
  simp only [List.foldl_cons, List.foldl_nil, hdot, goAlong_of_not_step hd,
    goAlong_of_not_step hf, List.getLast?_append, List.getLast?_cons_cons, List.getLast?_singleton]
  simp [hf]

theorem splitOn_follow (hpath : path.splitOn slash = [] :: (segments ++ [last]))
    (hlink : link.splitOn slash = [[dot], directory, file]) (hd : ¬IsStep directory)
    (hf : ¬IsStep file) :
    (follow path link).splitOn slash =
      [] :: ((segments.foldl goAlong []).reverse ++ [directory, file]) := by
  have hjoined : ((path.splitOn slash).dropLast ++ link.splitOn slash).drop 1 =
      segments ++ [[dot], directory, file] := by
    rw [hpath, hlink, ← List.cons_append, List.dropLast_concat]
    rfl
  rw [follow, hjoined, takeSteps_link hd hf]
  refine List.splitOn_intercalate slash (fun piece hmem => ?_) (List.cons_ne_nil _ _)
  have hsegments : ∀ segment ∈ segments, slash ∉ segment := fun segment hs =>
    Text.not_mem_of_mem_splitOn (by rw [hpath]; simp [hs])
  have hlinks : ∀ segment ∈ [[dot], directory, file], slash ∉ segment := fun segment hs =>
    Text.not_mem_of_mem_splitOn (by rw [hlink]; exact hs)
  rcases List.mem_cons.mp hmem with rfl | hmem
  · exact List.not_mem_nil
  · rcases List.mem_append.mp hmem with hmem | hmem
    · rcases mem_foldl_goAlong (List.mem_reverse.mp hmem) with hnil | hmem
      · cases hnil
      · exact hsegments piece hmem
    · exact hlinks piece (List.mem_cons_of_mem _ hmem)

/-- A link leads beside the path that was asked for exactly if no segment of that path is a
step. -/
theorem splitOn_follow_iff (hpath : path.splitOn slash = [] :: (segments ++ [last]))
    (hlink : link.splitOn slash = [[dot], directory, file]) (hd : ¬IsStep directory)
    (hf : ¬IsStep file) :
    (follow path link).splitOn slash = [] :: (segments ++ [directory, file]) ↔
      ∀ segment ∈ segments, ¬IsStep segment := by
  rw [splitOn_follow hpath hlink hd hf]
  constructor
  · intro h
    have hsame : (segments.foldl goAlong []).reverse = segments :=
      List.append_cancel_right (List.cons.inj h).2
    have hle := length_foldl_goAlong segments []
    have hlength : (segments.foldl goAlong []).length = segments.length := by
      rw [← List.length_reverse, hsame]
    -- A step among the segments would leave fewer of them.
    have hall : (segments.filter fun segment => ¬IsStep segment).length = segments.length :=
      Nat.le_antisymm (List.length_filter_le _ _) (by rw [List.length_nil] at hle; omega)
    intro segment hmem
    simpa using List.length_filter_eq_length_iff.mp hall segment hmem
  · intro h
    rw [foldl_goAlong h, List.append_nil, List.reverse_reverse]

end TagRegistry.Path
