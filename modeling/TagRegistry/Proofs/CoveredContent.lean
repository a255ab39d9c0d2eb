import TagRegistry.Proofs.CompressedArchive

/-! Where a compressor is in its content.

The symbols of a block stand for the content from its start on, one after the other: when the
compressor has come to a place, everything before it is covered, but for the octet of a match that
waits. No match reaches over the end of the content, so at the end nothing waits and everything is
covered. What the matches say is of no concern here. -/

namespace TagRegistry.Deflate

/-! ## How long matches are -/

namespace Search

theorem matchLength_le (s : Search) (distance fuel length : Nat) :
    s.matchLength distance fuel length ≤ length + fuel := by
  induction fuel generalizing length with
  | zero => exact Nat.le_refl _
  | succ fuel ih =>
    rw [matchLength]
    split
    · exact Nat.le_trans (ih (length + 1)) (by omega)
    · exact Nat.le_add_right _ _

/-- A search gives the match that it had before, or a longer one within its limit. -/
theorem longest_cases (s : Search) (rounds link : Nat) (best : Match) :
    s.longest rounds link best = best ∨
      best.length < (s.longest rounds link best).length ∧
        (s.longest rounds link best).length ≤ s.limit := by
  induction rounds generalizing link best with
  | zero => exact .inl rfl
  | succ rounds ih =>
    rw [longest]
    split
    · exact .inl rfl
    · exact ih _ best
    · next link distance _ =>
      split
      · exact .inl rfl
      · have hlimit := s.matchLength_le distance s.limit 0
        rw [Nat.zero_add] at hlimit
        simp only
        split
        · exact ih link best
        · next hlonger =>
          split
          · exact .inr ⟨Nat.lt_of_not_le hlonger, hlimit⟩
          · rcases ih link ⟨s.matchLength distance s.limit 0, distance⟩ with heq | ⟨hlt, hle⟩
            · rw [heq]
              exact .inr ⟨Nat.lt_of_not_le hlonger, hlimit⟩
            · exact .inr ⟨Nat.lt_trans (Nat.lt_of_not_le hlonger) hlt, hle⟩

theorem run_cases (s : Search) (length : Nat) :
    s.run length = ⟨length, 0⟩ ∨
      length < (s.run length).length ∧ (s.run length).length ≤ s.limit := by
  rw [run]
  split
  · exact .inl rfl
  · exact s.longest_cases _ _ ⟨length, 0⟩

end Search

namespace Compressor

/-! ## One step -/

/-- Everything in front of a place is covered, but for the octet of a match that waits. That match
ends within the content, and another symbol comes before its end. -/
def CoversTo (size place : Nat) (block : OpenBlock) : Option Waiting → Prop
  | none => block.start + block.covered = place ∧ place ≤ size
  | some w => block.start + block.covered + 1 = place ∧ 2 ≤ w.found.length ∧
      place + w.found.length ≤ size + 1

/-- The length of the match that waits, or of one that is too short. -/
def known : Option Waiting → Nat
  | some w => w.found.length
  | none => shortestCopy - 1

/-- What a search may give at a place: nothing, or a longer match that ends within the content. -/
def Fits (size place : Nat) (waiting : Option Waiting) (found : Match) : Prop :=
  found.distance = 0 ∧ found.length ≤ known waiting ∨
    known waiting < found.length ∧ place + found.length ≤ size

theorem choose_coversTo {content : Array UInt8} {place : Nat} {found : Match} {block : OpenBlock}
    {waiting : Option Waiting} (h : CoversTo content.size place block waiting)
    (hplace : place < content.size) (hfits : Fits content.size place waiting found) :
    CoversTo content.size (place + (choose content place found block waiting).2.2)
        (choose content place found block waiting).1
        (choose content place found block waiting).2.1 ∧
      1 ≤ (choose content place found block waiting).2.2 := by
  cases waiting with
  | some w =>
    simp only [CoversTo, Fits, known] at h hfits
    rw [choose]
    split
    · simp only
      split
      · simp only [CoversTo, OpenBlock.addLiteral, OpenBlock.addCopy]
        omega
      · simp only [CoversTo, OpenBlock.addLiteral]
        omega
    · simp only [CoversTo, OpenBlock.addCopy]
      omega
  | none =>
    simp only [CoversTo, Fits, known, shortestCopy] at h hfits
    rw [choose]
    split
    · simp only [CoversTo, OpenBlock.addLiteral]
      omega
    · split
      · simp only [CoversTo, OpenBlock.addCopy]
        omega
      · simp only [CoversTo]
        omega

theorem choose_start (content : Array UInt8) (place : Nat) (found : Match) (block : OpenBlock)
    (waiting : Option Waiting) :
    (choose content place found block waiting).1.start = block.start := by
  unfold choose
  cases waiting with
  | some w =>
    simp only
    split
    · split
      · rfl
      · rfl
    · rfl
  | none =>
    simp only
    split
    · rfl
    · split
      · rfl
      · rfl

/-- A compressor has covered what is in front of its place. -/
def Covers (c : Compressor) : Prop := CoversTo c.content.size c.place c.block c.waiting

/-- What a search finds at a place fits there, also if it is then thrown away. -/
theorem fits_of_run {search : Search} {size place : Nat} {waiting : Option Waiting}
    (hlimit : place + search.limit ≤ size) :
    Fits size place waiting (if isUseless place (search.run (known waiting)) then ⟨0, 0⟩
      else search.run (known waiting)) := by
  split
  · exact .inl ⟨rfl, Nat.zero_le _⟩
  · rcases search.run_cases (known waiting) with heq | ⟨hlonger, hshort⟩
    · rw [heq]
      exact .inl ⟨rfl, Nat.le_refl _⟩
    · exact .inr ⟨hlonger, by omega⟩

/-- What a compressor looks at in a step. -/
def search (c : Compressor) : Search :=
  let ahead := min longestCopy (c.content.size - c.place)
  ⟨c.content, (c.chains.enterBefore c.content (c.place + ahead)).links, c.place,
    min (windowSize - ahead) c.reach, ahead⟩

/-- A step goes forward, and covers what it leaves behind. -/
theorem step_covers {c : Compressor} (h : c.Covers) (hplace : c.place < c.content.size) :
    c.step.Covers ∧ c.place < c.step.place := by
  have hlimit : c.place + c.search.limit ≤ c.content.size := by
    change c.place + min longestCopy (c.content.size - c.place) ≤ c.content.size
    omega
  obtain ⟨hcovers, hforward⟩ := choose_coversTo h hplace (fits_of_run hlimit)
  obtain ⟨content, chains, place, reach, waiting, block, tail, ready⟩ := c
  exact ⟨hcovers, Nat.lt_add_of_pos_right hforward⟩

/-- A step does not close the block. -/
theorem step_start (c : Compressor) : c.step.block.start = c.block.start := by
  obtain ⟨content, chains, place, reach, waiting, block, tail, ready⟩ := c
  exact choose_start _ _ _ _ _

/-! ## The way through the content -/

theorem closeBlock_covers (isLast : Bool) {c : Compressor} (h : c.Covers) :
    (c.closeBlock isLast).Covers := by
  obtain ⟨content, chains, place, reach, waiting, block, tail, ready⟩ := c
  cases waiting with
  | none => exact h
  | some w => exact h

theorem closeIfFull_covers {c : Compressor} (h : c.Covers) : c.closeIfFull.Covers := by
  rw [closeIfFull]
  split
  · exact closeBlock_covers false h
  · exact h

theorem closeIfFull_place (c : Compressor) : c.closeIfFull.place = c.place := by
  rw [closeIfFull]
  split
  · rfl
  · rfl

theorem advance_covers {ahead : Nat} (hahead : 1 ≤ ahead) (fuel : Nat) {c : Compressor}
    (h : c.Covers) : (advance ahead fuel c).Covers := by
  induction fuel generalizing c with
  | zero => exact h
  | succ fuel ih =>
    rw [advance]
    split
    · exact h
    · exact ih (closeIfFull_covers (step_covers h (by omega)).1)

/-- Enough steps come to where fewer octets are ahead than are needed. -/
theorem advance_reaches {ahead : Nat} (hahead : 1 ≤ ahead) {fuel : Nat} {c : Compressor}
    (h : c.Covers) (hfuel : c.content.size - c.place ≤ fuel) :
    c.content.size - (advance ahead fuel c).place < ahead := by
  induction fuel generalizing c with
  | zero =>
    rw [advance]
    omega
  | succ fuel ih =>
    rw [advance]
    split
    · next hnear => exact hnear
    · obtain ⟨hstep, hforward⟩ := step_covers h (by omega)
      have hcontent : c.step.closeIfFull.content = c.content := by
        rw [closeIfFull_content, step_content]
      have hrest := ih (closeIfFull_covers hstep) (by
        rw [hcontent, closeIfFull_place]
        omega)
      rwa [hcontent] at hrest

/-- A compressor to which more octets have come. -/
def withMore (bs : Bytes) (c : Compressor) : Compressor := { c with content := c.content ++ bs }

theorem feed_eq (bs : Bytes) (c : Compressor) :
    c.feed bs = advance longestCopy ((c.content ++ bs).size - c.place) (c.withMore bs) := rfl

theorem withMore_covers (bs : Bytes) {c : Compressor} (h : c.Covers) : (c.withMore bs).Covers := by
  obtain ⟨content, chains, place, reach, waiting, block, tail, ready⟩ := c
  have hsize : content.size ≤ (content ++ bs).size := by
    rw [← Array.length_toList, ← Array.length_toList, Array.toList_appendList, List.length_append]
    exact Nat.le_add_right _ _
  cases waiting with
  | none =>
    obtain ⟨hcovered, hend⟩ := h
    exact ⟨hcovered, Nat.le_trans hend hsize⟩
  | some w =>
    obtain ⟨hcovered, hlong, hend⟩ := h
    exact ⟨hcovered, hlong, Nat.le_trans hend (Nat.succ_le_succ hsize)⟩

/-- The block that is being gathered starts within the content. -/
theorem Covers.start_le {c : Compressor} (h : c.Covers) : c.block.start ≤ c.content.size := by
  obtain ⟨content, chains, place, reach, waiting, block, tail, ready⟩ := c
  cases waiting with
  | none =>
    obtain ⟨hcovered, hend⟩ := h
    simp only at hcovered hend ⊢
    omega
  | some w =>
    obtain ⟨hcovered, hlong, hend⟩ := h
    simp only at hcovered hlong hend ⊢
    omega

/-- The compressor behind the last step. -/
def atEnd (c : Compressor) : Compressor := advance 1 (c.content.size - c.place) c

/-- At the end nothing waits, and the last block reaches to the end of the content. -/
theorem atEnd_covered {c : Compressor} (h : c.Covers) :
    c.atEnd.block.start + c.atEnd.block.covered = c.content.size := by
  have hcovers : c.atEnd.Covers := advance_covers (Nat.le_refl 1) _ h
  have hreached : c.content.size - c.atEnd.place < 1 :=
    advance_reaches (Nat.le_refl 1) h (Nat.le_refl _)
  have hcontent : c.atEnd.content = c.content := advance_content 1 _ c
  rw [Covers, hcontent] at hcovers
  cases hwaiting : c.atEnd.waiting with
  | none =>
    rw [hwaiting] at hcovers
    obtain ⟨hcovered, hend⟩ := hcovers
    omega
  | some w =>
    rw [hwaiting] at hcovers
    obtain ⟨-, hlong, hend⟩ := hcovers
    omega

end Compressor

end TagRegistry.Deflate
