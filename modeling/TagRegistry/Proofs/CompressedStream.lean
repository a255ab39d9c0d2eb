import TagRegistry.Proofs.ArchiveRoundTrip
import TagRegistry.Proofs.CoveredContent
import TagRegistry.Proofs.SinkStages
import TagRegistry.Proofs.StreamReading

/-! What leaves a compressor.

Before a compressor is told that its content has ended, what has left it are blocks of which none is
the last one, and they give the content up to the block that is being gathered. At the end the last
block gives the rest. So the stream of a complete archive is read as the archive, and neither a
front part of it nor a stream that has not been finished is complete. -/

namespace TagRegistry

namespace Deflate.Compressor

open BitSource

/-! ## Closing a block -/

/-- A stored block fills the octet that bits in front of it have begun, and gives its octets. -/
theorem storedBlock_gives (isLast : Bool) (tail : List Bool) {bs : Bytes} {place : Nat}
    (before : Array UInt8) (hshort : bs.length ≤ storedLimit)
    (hplace : place % 8 = tail.length % 8) :
    ∃ block, octetBits (packPadded (tail ++ isLast :: storedForm) ++ storedOctets bs) =
        tail ++ block ∧
      Gives isLast place before (before ++ bs) block := by
  obtain ⟨zeros, hpadded, hzeros, hround⟩ := packPadded_bits (tail ++ isLast :: storedForm)
  have hform : (tail ++ isLast :: storedForm).length = tail.length + 3 := List.length_append
  refine ⟨storedPart isLast zeros bs, ?_, gives_stored hshort hzeros (by omega) before⟩
  rw [octetBits_append, hpadded, storedPart]
  simp only [List.append_assoc, List.cons_append]

/-- Stored blocks give the octets that were put into them. -/
theorem storedBits_gives (isLast : Bool) (tail : List Bool) (bs : Bytes) (place : Nat)
    (before : Array UInt8) (hplace : place % 8 = tail.length % 8) :
    ∃ front last mid, octetBits (storedBits isLast tail bs) = tail ++ (front ++ last) ∧
      Blocks place before front mid ∧
      Gives isLast (place + front.length) mid (before ++ bs) last := by
  induction tail, bs using storedBits.induct generalizing place before with
  | case1 tail bs rest ih =>
    obtain ⟨block, hbits, hblock⟩ := storedBlock_gives (isLast && rest.isEmpty) tail before
      (List.length_take_le storedLimit bs) hplace
    rw [storedBits_eq, octetBits_append, hbits]
    by_cases hempty : rest.isEmpty
    · have hall : bs.take storedLimit = bs :=
        List.take_of_length_le (List.drop_eq_nil_iff.mp (List.isEmpty_iff.mp hempty))
      rw [hempty, Bool.and_true, hall] at hblock
      rw [if_pos hempty, octetBits_nil, List.append_nil]
      exact ⟨[], block, before, rfl, .nil _ _, hblock⟩
    · rw [Bool.not_eq_true] at hempty
      rw [hempty, Bool.and_false] at hblock hbits
      have hend : (place + block.length) % 8 = 0 := by
        have hlength := congrArg List.length hbits
        simp only [octetBits_length, List.length_append] at hlength
        omega
      obtain ⟨front, last, mid, hrest, hblocks, hlast⟩ :=
        ih (by simp [hempty]) (place + block.length) (before ++ bs.take storedLimit) hend
      have hcontent : before ++ bs.take storedLimit ++ rest = before ++ bs := by
        apply Array.toList_inj.mp
        simp only [Array.toList_appendList, List.append_assoc, rest, List.take_append_drop]
      rw [hcontent] at hlast
      refine ⟨block ++ front, last, mid, ?_, .cons hblock hblocks,
        by rwa [List.length_append, ← Nat.add_assoc]⟩
      rw [if_neg (Bool.eq_false_iff.mp hempty), hrest, List.nil_append]
      simp only [List.append_assoc]

theorem extract_append (content : Array UInt8) {start stop : Nat} (h : start ≤ stop) :
    content.extract 0 start ++ (content.extract start stop).toList = content.extract 0 stop := by
  apply Array.toList_inj.mp
  rw [Array.toList_appendList, ← Array.toList_append, Array.extract_append_extract, Nat.zero_min,
    Nat.max_eq_right h]

/-- What a closed block adds to the bits that have left: blocks that give its octets, the last of
them marked as it should be, and at the end zeros that fill an octet. -/
theorem closeBlock_gives (isLast : Bool) (c : Compressor) {place : Nat}
    (hplace : place % 8 = c.tail.length % 8) :
    ∃ more front last mid zeros, (c.closeBlock isLast).ready = c.ready ++ more ∧
      octetBits more ++ (c.closeBlock isLast).tail =
        c.tail ++ (front ++ last) ++ List.replicate zeros false ∧
      (isLast = false → zeros = 0) ∧ (isLast = true → (c.closeBlock isLast).tail = []) ∧
      zeros < 8 ∧ Blocks place (c.content.extract 0 c.block.start) front mid ∧
      Gives isLast (place + front.length) mid
        (c.content.extract 0 (c.block.start + c.block.covered)) last := by
  have hstop : c.block.start ≤ c.block.start + c.block.covered := Nat.le_add_right _ _
  obtain ⟨packed, hready, htail, rfl | ⟨body, bits, hlong, hchecked, rfl⟩⟩ :=
    c.closeBlock_packed isLast
  · obtain ⟨front, last, mid, hbits, hblocks, hlast⟩ := storedBits_gives isLast c.tail
      (c.content.extract c.block.start (c.block.start + c.block.covered)).toList place
      (c.content.extract 0 c.block.start) hplace
    rw [extract_append c.content hstop] at hlast
    refine ⟨_, front, last, mid, 0, hready, ?_, fun _ => rfl, fun _ => htail, by decide, hblocks,
      hlast⟩
    rw [htail, hbits]
    rfl
  · have hblock := gives_of_checked hchecked hstop hlong place
    cases isLast with
    | false =>
      refine ⟨_, [], bits, _, 0, hready, ?_, fun _ => rfl, nofun, by decide, .nil _ _, hblock⟩
      rw [htail, if_neg Bool.false_ne_true, pack_bits]
      simp
    | true =>
      obtain ⟨zeros, hpadded, hzeros, -⟩ := packPadded_bits (c.tail ++ bits)
      refine ⟨_, [], bits, _, zeros, hready, ?_, nofun, fun _ => htail, hzeros, .nil _ _, hblock⟩
      rw [htail, if_pos rfl, hpadded]
      simp

/-! ## What has left a compressor -/

/-- What has left a compressor, behind these octets and in front of the bits that fill none, are
blocks that give the content up to the block that is being gathered. -/
structure Faithful (octets : Bytes) (c : Compressor) : Prop where
  covers : c.Covers
  blocks : Blocks 0 #[] (octetBits (octets ++ c.ready) ++ c.tail)
    (c.content.extract 0 c.block.start)

theorem faithful_empty : Faithful [] .empty := ⟨⟨rfl, Nat.le_refl 0⟩, .nil 0 #[]⟩

namespace Faithful

variable {octets : Bytes} {c : Compressor}

theorem place_mod (octets : Bytes) (c : Compressor) :
    (0 + (octetBits (octets ++ c.ready) ++ c.tail).length) % 8 = c.tail.length % 8 := by
  rw [List.length_append, octetBits_length]
  omega

theorem bits_closeBlock (octets : Bytes) {more : Bytes} {bits : List Bool} (isLast : Bool)
    (hready : (c.closeBlock isLast).ready = c.ready ++ more)
    (hbits : octetBits more ++ (c.closeBlock isLast).tail = c.tail ++ bits) :
    octetBits (octets ++ (c.closeBlock isLast).ready) ++ (c.closeBlock isLast).tail =
      octetBits (octets ++ c.ready) ++ c.tail ++ bits := by
  rw [hready, ← List.append_assoc, octetBits_append, List.append_assoc, hbits, List.append_assoc]

theorem closeBlock (h : Faithful octets c) : Faithful octets (c.closeBlock false) where
  covers := closeBlock_covers false h.covers
  blocks := by
    obtain ⟨more, front, last, mid, zeros, hready, hbits, hzeros, -, -, hblocks, hlast⟩ :=
      c.closeBlock_gives false (place_mod octets c)
    rw [hzeros rfl, List.replicate_zero, List.append_nil] at hbits
    rw [bits_closeBlock octets false hready hbits]
    exact h.blocks.append (hblocks.append hlast.blocks)

theorem step (h : Faithful octets c) (hplace : c.place < c.content.size) :
    Faithful octets c.step where
  covers := (step_covers h.covers hplace).1
  blocks := by
    rw [step_content, step_start]
    exact h.blocks

theorem closeIfFull (h : Faithful octets c) : Faithful octets c.closeIfFull := by
  rw [Compressor.closeIfFull]
  split
  · exact h.closeBlock
  · exact h

theorem advance {ahead : Nat} (hahead : 1 ≤ ahead) (fuel : Nat) (h : Faithful octets c) :
    Faithful octets (Compressor.advance ahead fuel c) := by
  induction fuel generalizing c with
  | zero => exact h
  | succ fuel ih =>
    rw [Compressor.advance]
    split
    · exact h
    · exact ih (h.step (by omega)).closeIfFull

/-- More content does not change what the blocks give. -/
theorem feed (h : Faithful octets c) (bs : Bytes) : Faithful octets (c.feed bs) := by
  have hmore : Faithful octets (c.withMore bs) := by
    refine ⟨withMore_covers bs h.covers, ?_⟩
    have hcontent : (c.withMore bs).content.extract 0 (c.withMore bs).block.start =
        c.content.extract 0 c.block.start := by
      apply Array.toList_inj.mp
      change ((c.content ++ bs).extract 0 c.block.start).toList = _
      have hstart : c.block.start ≤ c.content.toList.length := h.covers.start_le
      simp only [Array.toList_extract, Array.toList_appendList, List.extract_eq_take_drop,
        List.drop_zero, Nat.sub_zero, List.take_append_of_le_length hstart]
    rw [hcontent]
    exact h.blocks
  rw [feed_eq]
  exact hmore.advance (by decide) _

theorem takeReady (h : Faithful octets c) : Faithful (octets ++ c.ready) c.takeReady.2 := by
  obtain ⟨content, chains, place, reach, waiting, block, tail, ready⟩ := c
  refine ⟨h.covers, ?_⟩
  have hblocks := h.blocks
  rwa [← List.append_nil (octets ++ ready)] at hblocks

/-- A front part of what has left a compressor that is not finished is no stream. -/
theorem inflate_front (h : Faithful octets c) {front cut : Bytes} (hfront : octets = front ++ cut) :
    inflate front = none := by
  have hbits : octetBits front ++ (octetBits (cut ++ c.ready) ++ c.tail) =
      octetBits (octets ++ c.ready) ++ c.tail := by
    rw [hfront, List.append_assoc, octetBits_append front, List.append_assoc]
  exact h.blocks.inflate_front hbits

/-- A compressor that is finished has given everything. -/
theorem finish (h : Faithful octets c) : Deflated (octets ++ c.finish.ready) c.content := by
  have hend : Faithful octets c.atEnd := h.advance (Nat.le_refl 1) _
  have hcontent : c.atEnd.content = c.content := advance_content 1 _ c
  have hstop := atEnd_covered h.covers
  obtain ⟨more, front, last, mid, zeros, hready, hbits, -, htail, hzeros, hblocks, hlast⟩ :=
    c.atEnd.closeBlock_gives true (place_mod octets c.atEnd)
  rw [List.append_assoc] at hbits
  have hall := bits_closeBlock octets true hready hbits
  rw [htail rfl, List.append_nil, ← List.append_assoc] at hall
  rw [hstop, hcontent, Array.extract_size, Nat.zero_add] at hlast
  refine ⟨_, zeros, ?_, hall, hzeros⟩
  refine ⟨octetBits (octets ++ c.atEnd.ready) ++ c.atEnd.tail ++ front, last, mid,
    (List.append_assoc ..).symm, hend.blocks.append hblocks, ?_⟩
  rwa [List.length_append]

end Faithful

end Deflate.Compressor

/-! ## What has left an encoder -/

namespace Gzip.Encoder

open Deflate

theorem faithful_compressed {octets : Bytes} {c : Compressor} (h : c.Faithful octets)
    (bs : Bytes) : (compressed c bs).2.Faithful (octets ++ (compressed c bs).1.flatten) := by
  induction c, bs using compressed.induct generalizing octets with
  | case1 c bs hshort =>
    rw [compressed, if_pos hshort, List.flatten_singleton]
    exact h.takeReady.feed bs
  | case2 c bs hlong ih =>
    rw [compressed, if_neg hlong, List.flatten_cons, ← List.append_assoc]
    exact ih (h.takeReady.feed (bs.take partSize))

theorem compressed_content (c : Compressor) (bs : Bytes) :
    (compressed c bs).2.content.toList = c.content.toList ++ bs := by
  induction c, bs using compressed.induct with
  | case1 c bs hshort =>
    rw [compressed, if_pos hshort]
    exact Compressor.feed_content bs c.takeReady.2
  | case2 c bs hlong ih =>
    rw [compressed, if_neg hlong]
    refine ih.trans ?_
    rw [Compressor.feed_content, List.append_assoc, List.take_append_drop]
    rfl

/-- What an encoder has let through, with the header if that is still to come, is the header and
what has left the compressor. -/
theorem relayed_faithful {m : Bool × Compressor} {sent octets : Bytes}
    (h : m.2.Faithful octets) (hsent : sent ++ (opening m.1).flatten = header ++ octets)
    (parts : List Bytes) : ∃ octets',
      (relayed encoded m parts).2.2.Faithful octets' ∧
      (relayed encoded m parts).2.2.content.toList = m.2.content.toList ++ parts.flatten ∧
      sent ++ (relayed encoded m parts).1.flatten ++
        (opening (relayed encoded m parts).2.1).flatten = header ++ octets' := by
  induction parts generalizing m sent octets with
  | nil => exact ⟨octets, h, by simp [relayed], by simpa [relayed] using hsent⟩
  | cons part parts ih =>
    have hnext : sent ++ (encoded m part).1.flatten ++ (opening (encoded m part).2.1).flatten =
        header ++ (octets ++ (compressed m.2 part).1.flatten) := by
      simp only [encoded, opening, if_true, List.flatten_nil, List.append_nil]
      rw [List.flatten_append, ← List.append_assoc, ← List.append_assoc]
      exact congrArg (· ++ _) hsent
    obtain ⟨octets', hfaithful, hcontent, hall⟩ := ih (faithful_compressed h part) hnext
    refine ⟨octets', hfaithful, ?_, ?_⟩
    · rw [relayed, hcontent]
      simp only [encoded, compressed_content, List.flatten_cons, List.append_assoc]
    · rw [relayed, List.flatten_append, ← List.append_assoc]
      exact hall

end Gzip.Encoder

/-! ## The stream of an archive -/

namespace Archive

open Gzip

variable {t : Trace Bytes ArchiveError} {front cut : Bytes}

/-- What leaves an encoder that a trace is fed to: a front part of a stream if the trace fails, and
the whole stream if it does not. -/
theorem exists_encoded (t : Trace Bytes ArchiveError) :
    ∃ (octets : Bytes) (c : Deflate.Compressor), c.Faithful octets ∧
      c.content.toList = octetsOf t ∧
      (∀ cause, t.outcome = .error cause →
        ∃ cut, octetsOf (encodedTrace t) ++ cut = header ++ octets) ∧
      (t.outcome = .ok () → octetsOf (encodedTrace t) =
        header ++ (octets ++ c.finish.ready ++ footer (octetsOf t))) := by
  have hstart : [] ++ (Encoder.opening false).flatten = header ++ [] := by
    simp [Encoder.opening]
  obtain ⟨octets, hfaithful, hcontent, hsent⟩ :=
    Encoder.relayed_faithful (m := (false, .empty)) Deflate.Compressor.faithful_empty hstart t.events
  rw [List.nil_append] at hsent
  refine ⟨octets, _, hfaithful, hcontent, ?_, ?_⟩
  · intro cause hcause
    rw [encodedTrace, hcause, Trace.error_andThen]
    exact ⟨_, hsent⟩
  · intro hok
    rw [encodedTrace, hok, Trace.ok_andThen, octetsOf, List.flatten_append, Encoder.closing,
      List.flatten_append, ← List.append_assoc, hsent, hcontent]
    simp only [List.flatten_cons, List.flatten_nil, List.append_nil, List.append_assoc, octetsOf]
    rfl

/-- No front part of what leaves an encoder before a failure is a complete stream. -/
theorem decompress?_encodedTrace_front {cause : ArchiveError} (h : t.outcome = .error cause)
    (hfront : octetsOf (encodedTrace t) = front ++ cut) : decompress? front = none := by
  obtain ⟨octets, c, hfaithful, -, hfailed, -⟩ := exists_encoded t
  obtain ⟨later, hoctets⟩ := hfailed cause h
  rw [hfront, List.append_assoc] at hoctets
  obtain hnone | ⟨behind, rfl, hbehind⟩ := front_of_header hoctets.symm
  · exact hnone
  · exact decompress?_of_inflate (hfaithful.inflate_front hbehind)

/-- What leaves an encoder before a failure is not a complete stream. -/
theorem decompress?_encodedTrace {cause : ArchiveError} (h : t.outcome = .error cause) :
    decompress? (encodedTrace t).events.flatten = none :=
  decompress?_encodedTrace_front h (List.append_nil _).symm

/-- The stream of an archive that ends well is read as the archive. -/
theorem decompress?_encodedTrace_ok (h : t.outcome = .ok ()) :
    decompress? (octetsOf (encodedTrace t)) = some (octetsOf t) := by
  obtain ⟨octets, c, hfaithful, hcontent, -, hdone⟩ := exists_encoded t
  rw [hdone h, ← hcontent]
  exact decompress?_deflated hfaithful.finish

/-- The stream of an archive is complete only as a whole, and only if the archive is. -/
theorem decompress?_encodedTrace_cut (hne : cut ≠ [])
    (hfront : octetsOf (encodedTrace t) = front ++ cut) : decompress? front = none := by
  cases h : t.outcome with
  | error cause => exact decompress?_encodedTrace_front h hfront
  | ok u =>
    obtain ⟨octets, c, hfaithful, hcontent, -, hdone⟩ := exists_encoded t
    rw [hdone h, ← hcontent] at hfront
    exact decompress?_cut hfaithful.finish hne hfront

end Archive

end TagRegistry
