import TagRegistry.Gzip.Format
import TagRegistry.Proofs.BlockReading

/-! Reading a stream block by block.

A stream is a run of blocks of which only the last one says so. Reading goes through it block by
block and ends behind the last one, wherever the stream is cut off in what follows. Where it is cut
off before, reading does not end. -/

namespace TagRegistry

namespace Deflate

open BitSource

/-- Blocks one after the other, of which none is the last one. They give `after` behind
`before`. -/
inductive Blocks : Nat → Array UInt8 → List Bool → Array UInt8 → Prop where
  | nil (place : Nat) (before : Array UInt8) : Blocks place before [] before
  | cons {place : Nat} {before mid after : Array UInt8} {block rest : List Bool}
    (first : Gives false place before mid block)
    (next : Blocks (place + block.length) mid rest after) :
    Blocks place before (block ++ rest) after

/-- Blocks, and the last one behind them, that give this content. -/
def Finished (bits : List Bool) (content : Array UInt8) : Prop :=
  ∃ front last mid, bits = front ++ last ∧ Blocks 0 #[] front mid ∧
    Gives true front.length mid content last

section

variable {place : Nat} {before after : Array UInt8} {s : BitSource} {rest : List Bool}

theorem Gives.blocks {block : List Bool} (h : Gives false place before after block) :
    Blocks place before block after := by
  simpa only [List.append_nil] using Blocks.cons h (.nil _ _)

theorem Blocks.append {mid : Array UInt8} {bits more : List Bool}
    (h : Blocks place before bits mid) (h' : Blocks (place + bits.length) mid more after) :
    Blocks place before (bits ++ more) after := by
  induction h with
  | nil => exact h'
  | cons first _ ih =>
    rw [List.length_append, ← Nat.add_assoc] at h'
    rw [List.append_assoc]
    exact .cons first (ih h')

/-! ## A stream as a whole -/

/-- A block is read, and what follows it is left. -/
theorem Gives.reads {isLast : Bool} {block : List Bool}
    (h : Gives isLast place before after block) (hs : s.Aligned)
    (hplace : (place + s.ahead.length) % 8 = 0) (hahead : s.ahead = block ++ rest) :
    ∃ t, readBlock before s = some (isLast, after, t) ∧ t.Aligned ∧ t.ahead = rest := by
  obtain ⟨t, hread⟩ := h.read hs hplace hahead
  have hbits : s.ahead ++ [] = block ++ rest := by rw [List.append_nil, hahead]
  obtain ⟨-, ht, hleft⟩ := h.exact hs hplace hbits hread
  exact ⟨t, hread, ht, List.append_cancel_left (hleft.symm.trans hahead)⟩

/-- Blocks are read one after the other. No block is shorter than an octet. -/
theorem Blocks.reads {bits : List Bool} (h : Blocks place before bits after) (hs : s.Aligned)
    (hplace : (place + s.ahead.length) % 8 = 0) (hahead : s.ahead = bits ++ rest) :
    ∃ t count, 8 * count ≤ bits.length ∧ t.Aligned ∧ t.ahead = rest ∧
      ∀ fuel, readBlocks (fuel + count) before s = readBlocks fuel after t := by
  induction h generalizing s with
  | nil => exact ⟨s, 0, Nat.zero_le _, hs, hahead, fun _ => rfl⟩
  | @cons place before mid after block bits first _ ih =>
    rw [List.append_assoc] at hahead
    obtain ⟨t, hread, ht, hleft⟩ := first.reads hs hplace hahead
    rw [hahead, ← hleft, List.length_append, ← Nat.add_assoc] at hplace
    obtain ⟨u, count, hcount, hu, hrest, hreads⟩ := ih ht hplace hleft
    have hoctet := first.octet
    refine ⟨u, count + 1, by rw [List.length_append]; omega, hu, hrest, fun fuel => ?_⟩
    rw [← Nat.add_assoc, readBlocks, hread]
    exact hreads fuel

theorem Finished.reads {bits : List Bool} {content : Array UInt8} (h : Finished bits content)
    (hs : s.Aligned) (hplace : s.ahead.length % 8 = 0) (hahead : s.ahead = bits ++ rest)
    {fuel : Nat} (hfuel : bits.length ≤ 8 * fuel) :
    ∃ t, readBlocks fuel #[] s = some (content, t) ∧ t.Aligned ∧ t.ahead = rest := by
  obtain ⟨front, last, mid, rfl, hblocks, hlast⟩ := h
  rw [List.append_assoc] at hahead
  obtain ⟨t, count, hcount, ht, hleft, hreads⟩ :=
    hblocks.reads hs (by rwa [Nat.zero_add]) hahead
  have hoctet := hlast.octet
  rw [List.length_append] at hfuel
  obtain ⟨more, rfl⟩ : ∃ more, fuel = more + 1 + count := ⟨fuel - 1 - count, by omega⟩
  rw [hahead, ← hleft, List.length_append] at hplace
  obtain ⟨u, hread, hu, hrest⟩ := hlast.reads ht hplace hleft
  refine ⟨u, ?_, hu, hrest⟩
  rw [hreads, readBlocks, hread]
  rfl

/-! ## A stream that is cut off -/

/-- Where reading comes to an end, it has gone through all blocks that are not the last one. -/
theorem Blocks.behind {bits x y : List Bool} (h : Blocks place before bits after) (hs : s.Aligned)
    (hplace : (place + s.ahead.length) % 8 = 0) (hfront : s.ahead ++ x = bits ++ y)
    {fuel : Nat} {out found : Array UInt8} {t : BitSource}
    (hread : readBlocks fuel out s = some (found, t)) :
    ∃ u fuel' out', u.Aligned ∧ s.ahead = bits ++ u.ahead ∧
      readBlocks fuel' out' u = some (found, t) := by
  induction h generalizing s fuel out with
  | nil => exact ⟨s, fuel, out, hs, rfl, hread⟩
  | @cons place before mid after block bits first _ ih =>
    cases fuel with
    | zero => cases hread
    | succ fuel =>
      rw [readBlocks] at hread
      obtain ⟨⟨flag, next, u⟩, hblock, hread⟩ := Option.bind_eq_some_iff.mp hread
      rw [List.append_assoc] at hfront
      obtain ⟨rfl, hu, hahead⟩ := first.exact hs hplace hfront hblock
      rw [hahead, List.append_assoc] at hfront
      rw [hahead, List.length_append, ← Nat.add_assoc] at hplace
      obtain ⟨v, fuel', out', hv, hrest, hread⟩ :=
        ih hu hplace (List.append_cancel_left hfront) hread
      exact ⟨v, fuel', out', hv, by rw [hahead, hrest, List.append_assoc], hread⟩

/-- No front part of blocks that are not the last one is a stream. -/
theorem Blocks.readBlocks_front {bits x : List Bool} (h : Blocks place before bits after)
    (hs : s.Aligned) (hplace : (place + s.ahead.length) % 8 = 0) (hfront : s.ahead ++ x = bits)
    (fuel : Nat) (out : Array UInt8) : readBlocks fuel out s = none := by
  cases hread : readBlocks fuel out s with
  | none => rfl
  | some found =>
    obtain ⟨u, fuel', out', -, hahead, hread⟩ :=
      h.behind hs hplace (hfront.trans (List.append_nil bits).symm) hread
    have hnone : u.ahead = [] := by
      have hlength := congrArg List.length hfront
      rw [hahead, List.length_append, List.length_append] at hlength
      exact List.eq_nil_of_length_eq_zero (by omega)
    cases fuel' with
    | zero => cases hread
    | succ fuel' =>
      rw [readBlocks] at hread
      obtain ⟨⟨flag, next, v⟩, hblock, -⟩ := Option.bind_eq_some_iff.mp hread
      obtain ⟨w, hbit⟩ := bit?_of_readBlock hblock
      rw [ahead_of_bit? hbit] at hnone
      cases hnone

/-- Where reading comes to an end, it has gone through the whole stream. -/
theorem Finished.behind {bits x y : List Bool} {content : Array UInt8} (h : Finished bits content)
    (hs : s.Aligned) (hplace : s.ahead.length % 8 = 0) (hfront : s.ahead ++ x = bits ++ y)
    {fuel : Nat} {found : Array UInt8} {t : BitSource}
    (hread : readBlocks fuel #[] s = some (found, t)) :
    t.Aligned ∧ s.ahead = bits ++ t.ahead := by
  obtain ⟨front, last, mid, rfl, hblocks, hlast⟩ := h
  rw [List.append_assoc] at hfront
  obtain ⟨u, fuel', out', hu, hahead, hread⟩ :=
    hblocks.behind hs (by rwa [Nat.zero_add]) hfront hread
  cases fuel' with
  | zero => cases hread
  | succ fuel' =>
    rw [readBlocks] at hread
    obtain ⟨⟨flag, next, v⟩, hblock, hread⟩ := Option.bind_eq_some_iff.mp hread
    rw [hahead, List.append_assoc] at hfront
    rw [hahead, List.length_append] at hplace
    obtain ⟨rfl, hv, hleft⟩ :=
      hlast.exact hu hplace (List.append_cancel_left hfront) hblock
    cases hread
    exact ⟨hv, by rw [hahead, hleft, List.append_assoc]⟩

end

/-! ## Streams as octets -/

theorem ofBytes_aligned (bs : Bytes) : (ofBytes bs).Aligned := Nat.zero_lt_succ 7

theorem ofBytes_ahead_length (bs : Bytes) : (ofBytes bs).ahead.length % 8 = 0 := by
  rw [ahead_ofBytes, octetBits_length]
  exact Nat.mul_mod_right 8 bs.length

/-- Blocks that are cut off, none of them the last one, are no stream. -/
theorem Blocks.inflate_front {octets : Bytes} {bits x : List Bool} {after : Array UInt8}
    (h : Blocks 0 #[] bits after) (hfront : octetBits octets ++ x = bits) :
    inflate octets = none := by
  rw [inflate, h.readBlocks_front (ofBytes_aligned octets)
    (by rw [Nat.zero_add]; exact ofBytes_ahead_length octets) hfront]
  rfl

/-- Octets of a finished stream, the last one filled up with zeros. -/
def Deflated (octets : Bytes) (content : Array UInt8) : Prop :=
  ∃ bits zeros, Finished bits content ∧ octetBits octets = bits ++ List.replicate zeros false ∧
    zeros < 8

theorem octetBits_injective {bs cs : Bytes} (h : octetBits bs = octetBits cs) : bs = cs := by
  obtain ⟨more, rfl⟩ := exists_append_of_octetBits (h.trans (List.append_nil _).symm)
  have hlength := congrArg List.length h
  rw [octetBits_length, octetBits_length, List.length_append] at hlength
  rw [List.eq_nil_of_length_eq_zero (by omega : more.length = 0), List.append_nil]

section

variable {octets rest : Bytes} {content : Array UInt8}

/-- A stream is read as its content, and what follows it is left. -/
theorem Deflated.inflate (h : Deflated octets content) (rest : Bytes) :
    inflate (octets ++ rest) = some (content, rest) := by
  obtain ⟨bits, zeros, hfinished, hoctets, hzeros⟩ := h
  have hahead : (ofBytes (octets ++ rest)).ahead =
      bits ++ (List.replicate zeros false ++ octetBits rest) := by
    rw [ahead_ofBytes, octetBits_append, hoctets, List.append_assoc]
  have hfuel : bits.length ≤ 8 * ((octets ++ rest).length + 1) := by
    have hlength := congrArg List.length hoctets
    rw [octetBits_length, List.length_append] at hlength
    rw [List.length_append]
    omega
  obtain ⟨t, hread, ht, hleft⟩ :=
    hfinished.reads (ofBytes_aligned _) (ofBytes_ahead_length _) hahead hfuel
  have hplace : t.ahead.length % 8 = zeros := by
    rw [hleft, List.length_append, List.length_replicate, octetBits_length]
    omega
  have hbits : t.ahead ++ [] = List.replicate zeros false ++ (octetBits rest ++ []) := by
    rw [hleft, List.append_nil, List.append_nil]
  obtain ⟨-, hrest⟩ := pending_of_stored ht hplace hbits
  rw [List.append_nil, List.append_nil] at hrest
  have hsame : t.octets = rest := octetBits_injective hrest
  rw [Deflate.inflate, hread, ← hsame]
  rfl

/-- A front part of a stream, and of what follows it, is only read if the stream is there as a
whole. -/
theorem Deflated.inflate_front (h : Deflated octets content) {front cut left : Bytes}
    {found : Array UInt8} (hfront : octets ++ rest = front ++ cut)
    (hread : Deflate.inflate front = some (found, left)) :
    front.length = octets.length + left.length := by
  obtain ⟨bits, zeros, hfinished, hoctets, hzeros⟩ := h
  obtain ⟨⟨out, t⟩, hblocks, hleft⟩ := Option.map_eq_some_iff.mp hread
  cases hleft
  have hbits : (ofBytes front).ahead ++ octetBits cut =
      bits ++ (List.replicate zeros false ++ octetBits rest) := by
    rw [ahead_ofBytes, ← octetBits_append, ← hfront, octetBits_append, hoctets, List.append_assoc]
  obtain ⟨ht, hahead⟩ :=
    hfinished.behind (ofBytes_aligned _) (ofBytes_ahead_length _) hbits hblocks
  have hlength := congrArg List.length hahead
  have hwhole := congrArg List.length hoctets
  rw [ahead_ofBytes, octetBits_length, List.length_append, ahead_length] at hlength
  rw [octetBits_length, List.length_append, List.length_replicate] at hwhole
  rw [Aligned] at ht
  omega

end

end Deflate

namespace Gzip

open Deflate

theorem footer_size (content : Bytes) : (footer content).length = 8 := rfl

/-- A complete stream is read as its content. -/
theorem decompress?_deflated {octets : Bytes} {content : Array UInt8}
    (h : Deflated octets content) :
    decompress? (header ++ (octets ++ footer content.toList)) = some content.toList := by
  rw [decompress?, List.take_left, if_neg (not_not_intro rfl), List.drop_left, h.inflate]
  exact if_pos rfl

/-- What begins with a header holds what comes behind it, or is no stream. -/
theorem decompress?_of_inflate {octets : Bytes} (h : Deflate.inflate octets = none) :
    decompress? (header ++ octets) = none := by
  rw [decompress?, List.take_left, if_neg (not_not_intro rfl), List.drop_left, h]

/-- A front part of octets behind a header ends in the header or goes on behind it. -/
theorem front_of_header {front cut octets : Bytes} (h : header ++ octets = front ++ cut) :
    decompress? front = none ∨ ∃ behind, front = header ++ behind ∧ octets = behind ++ cut := by
  by_cases hheader : front.take header.length = header
  · have hbehind : front = header ++ front.drop header.length := by
      have hwhole := List.take_append_drop header.length front
      rw [hheader] at hwhole
      exact hwhole.symm
    rw [hbehind, List.append_assoc] at h
    exact .inr ⟨_, hbehind, List.append_cancel_left h⟩
  · exact .inl (if_pos hheader)

/-- A stream that is cut off is not complete. -/
theorem decompress?_cut {octets front cut : Bytes} {content : Array UInt8}
    (h : Deflated octets content) (hne : cut ≠ [])
    (hfront : header ++ (octets ++ footer content.toList) = front ++ cut) :
    decompress? front = none := by
  obtain hnone | ⟨behind, rfl, hbehind⟩ := front_of_header hfront
  · exact hnone
  cases hread : Deflate.inflate behind with
  | none => exact decompress?_of_inflate hread
  | some read =>
    obtain ⟨found, left⟩ := read
    have hlength := h.inflate_front hbehind hread
    have hwhole := congrArg List.length hbehind
    rw [List.length_append, List.length_append, footer_size] at hwhole
    have hcut := List.length_pos_iff.mpr hne
    have hshort : left ≠ footer found.toList := by
      intro heq
      rw [heq, footer_size] at hlength
      omega
    rw [decompress?, List.take_left, if_neg (not_not_intro rfl), List.drop_left, hread]
    exact if_neg hshort

end Gzip

end TagRegistry
