import TagRegistry.Deflate.Compressor
import TagRegistry.Proofs.BitReading

/-! Reading a block where more follows, and behind more octets.

A compressor reads a block back with nothing but its bits in front of it and nothing but the window
behind it. A reader of the stream meets the same bits in the middle of octets, behind everything
that came before. It finds the same there: symbols are read bit by bit, and a copy counts its
distance from the end. -/

namespace TagRegistry.Deflate

open BitSource

/-! ## Blocks that are read back -/

/-- A copy that stays behind the octets in front does not see them. -/
theorem copyBack_append (front : Array UInt8) {out : Array UInt8} {length distance : Nat}
    (h : distance ≤ out.size) :
    copyBack length distance (front ++ out) = front ++ copyBack length distance out := by
  induction length generalizing out with
  | zero => rfl
  | succ length ih =>
    have hoctet : (front ++ out).getD ((front ++ out).size - distance) 0 =
        out.getD (out.size - distance) 0 := by
      rw [Array.size_append, Nat.add_sub_assoc h, Array.getD_eq_getD_getElem?,
        Array.getD_eq_getD_getElem?, Array.getElem?_append_right (Nat.le_add_right _ _),
        Nat.add_sub_cancel_left]
    rw [copyBack, copyBack, hoctet, ← Array.append_push, ih]
    rw [Array.size_push]
    omega

section

variable {literals distances : PrefixCode} {fuel fuel' : Nat} {out out' : Array UInt8}
  {s t s' : BitSource} {rest : List Bool}

theorem size_eq_ahead_length (s : BitSource) : s.size = s.ahead.length := s.ahead_length.symm

/-- Symbols are read where more bits follow, and behind more octets. -/
theorem readSymbols_extend (front : Array UInt8)
    (h : readSymbols literals distances fuel out s = some (out', t))
    (hs : s'.ahead = s.ahead ++ rest) (hfuel : fuel ≤ fuel') :
    ∃ t', readSymbols literals distances fuel' (front ++ out) s' = some (front ++ out', t') := by
  induction fuel generalizing fuel' out s s' with
  | zero => cases h
  | succ fuel ih =>
    obtain ⟨fuel', rfl⟩ : ∃ n, fuel' = n + 1 := ⟨fuel' - 1, by omega⟩
    have hfuel : fuel ≤ fuel' := by omega
    obtain ⟨⟨number, s₁⟩, hnumber, h⟩ := Option.bind_eq_some_iff.mp h
    obtain ⟨s₁', hnumber', hs₁⟩ := (reads_read literals).extend hnumber hs
    simp only [readSymbols, hnumber', bind, Option.bind_some]
    simp only at h
    split at h
    · next hliteral =>
      rw [if_pos hliteral, ← Array.append_push]
      exact ih h hs₁ hfuel
    · next hliteral =>
      rw [if_neg hliteral]
      split at h
      · next hend =>
        cases h
        rw [if_pos hend]
        exact ⟨_, rfl⟩
      · next hend =>
        obtain ⟨⟨length, s₂⟩, hlength, h⟩ := Option.bind_eq_some_iff.mp h
        obtain ⟨s₂', hlength', hs₂⟩ := (reads_readLength number).extend hlength hs₁
        obtain ⟨⟨code, s₃⟩, hcode, h⟩ := Option.bind_eq_some_iff.mp h
        obtain ⟨s₃', hcode', hs₃⟩ := (reads_read distances).extend hcode hs₂
        obtain ⟨⟨distance, s₄⟩, hdistance, h⟩ := Option.bind_eq_some_iff.mp h
        obtain ⟨s₄', hdistance', hs₄⟩ := (reads_readDistance code).extend hdistance hs₃
        simp only at h
        split at h
        · cases h
        · next hinside =>
          have hinside' : ¬ (front ++ out).size < distance := by
            rw [Array.size_append]
            omega
          rw [if_neg hend]
          simp only [hlength', hcode', hdistance', Option.bind_some, if_neg hinside',
            copyBack_append front (Nat.le_of_not_lt hinside)]
          exact ih h hs₄ hfuel

theorem readBody_extend (front : Array UInt8) (h : readBody out s = some (out', t))
    (hs : s'.ahead = s.ahead ++ rest) (hnone : s.octets = []) :
    ∃ t', readBody (front ++ out) s' = some (front ++ out', t') := by
  have hfuel {u u' : BitSource} (hu : u'.ahead = u.ahead ++ rest) : u.size + 1 ≤ u'.size + 1 := by
    rw [size_eq_ahead_length, size_eq_ahead_length, hu, List.length_append]
    omega
  obtain ⟨⟨form, s₁⟩, hform, h⟩ := Option.bind_eq_some_iff.mp h
  obtain ⟨s₁', hform', hs₁⟩ := (reads_number? 2).extend hform hs
  simp only [readBody, hform', bind, Option.bind_some]
  simp only at h
  split at h
  · rw [readStored_of_no_octets (((reads_number? 2).later hform).no_octets hnone)] at h
    cases h
  · exact readSymbols_extend front h hs₁ (hfuel hs₁)
  · rw [readDescription_eq] at h ⊢
    obtain ⟨⟨literals, distances, s₂⟩, hcodes, h⟩ := Option.bind_eq_some_iff.mp h
    obtain ⟨⟨lengths, s₃⟩, hlengths, hcodes⟩ := Option.map_eq_some_iff.mp hcodes
    obtain ⟨s₃', hlengths', hs₃⟩ := reads_describedLengths.extend hlengths hs₁
    cases hcodes
    simp only [hlengths', Option.map_some, Option.bind_some]
    exact readSymbols_extend front h hs₃ (hfuel hs₃)
  · cases h

/-- A block that is not stored is read where more bits follow, and behind more octets. -/
theorem readBlock_extend {isLast : Bool} (front : Array UInt8)
    (h : readBlock out s = some (isLast, out', t)) (hs : s'.ahead = s.ahead ++ rest)
    (hnone : s.octets = []) :
    ∃ t', readBlock (front ++ out) s' = some (isLast, front ++ out', t') := by
  obtain ⟨⟨b, s₁⟩, hb, h⟩ := Option.bind_eq_some_iff.mp h
  obtain ⟨s₁', hb', hs₁⟩ := reads_bit?.extend hb hs
  obtain ⟨⟨after, u⟩, hbody, h⟩ := Option.bind_eq_some_iff.mp h
  obtain ⟨u', hbody'⟩ := readBody_extend front hbody hs₁ ((reads_bit?.later hb).no_octets hnone)
  cases h
  refine ⟨u', ?_⟩
  simp only [readBlock, hb', hbody', bind, Option.bind_some]
  rfl

end

/-! ## What the bits of a block say -/

/-- The bits of a block behind `place` others. Where they stand, or only some of them, a block that
can be read consists of exactly these bits, and others follow. -/
def Exact (isLast : Bool) (place : Nat) (block : List Bool) : Prop :=
  ∀ {s t : BitSource} {out after : Array UInt8} {flag : Bool} {x y : List Bool},
    s.Aligned → (place + s.ahead.length) % 8 = 0 → s.ahead ++ x = block ++ y →
    readBlock out s = some (flag, after, t) →
      flag = isLast ∧ t.Aligned ∧ s.ahead = block ++ t.ahead

/-- The bits of a block that gives `after` behind `before`. -/
structure Gives (isLast : Bool) (place : Nat) (before after : Array UInt8) (block : List Bool) :
    Prop where
  exact : Exact isLast place block
  read {s : BitSource} {rest : List Bool} : s.Aligned → (place + s.ahead.length) % 8 = 0 →
    s.ahead = block ++ rest → ∃ t, readBlock before s = some (isLast, after, t)
  octet : 8 ≤ block.length

theorem bit?_of_readBlock {s t : BitSource} {out after : Array UInt8} {isLast : Bool}
    (h : readBlock out s = some (isLast, after, t)) : ∃ u, s.bit? = some (isLast, u) := by
  obtain ⟨⟨b, u⟩, hbit, h⟩ := Option.bind_eq_some_iff.mp h
  obtain ⟨_, _, h⟩ := Option.bind_eq_some_iff.mp h
  cases h
  exact ⟨u, hbit⟩

/-- A block passes the check if reading its bits gives the octets that it stands for. -/
theorem checkedBits?_eq_some {content : Array UInt8} {start stop : Nat} {bits bits' : List Bool}
    (h : Compressor.checkedBits? content start stop bits = some bits') :
    bits' = bits ∧ ∃ flag rest, rest.ahead = [] ∧
      readBlock (content.extract (start - windowSize) start) (.ofBits bits) =
        some (flag, content.extract (start - windowSize) stop, rest) := by
  rw [Compressor.checkedBits?] at h
  split at h
  · next flag out rest hread =>
    split at h
    · next hchecked =>
      cases h
      obtain ⟨hrest, hout⟩ := Bool.and_eq_true_iff.mp hchecked
      have hempty : rest.ahead = [] := by
        simp only [isEmpty, Bool.and_eq_true, List.isEmpty_iff] at hrest
        rw [ahead, hrest.1, hrest.2]
        rfl
      rw [eq_of_beq hout] at hread
      exact ⟨rfl, flag, rest, hempty, hread⟩
    · cases h
  · cases h

/-- A block that passes the check is as it says, whatever stands around it. -/
theorem exact_of_checked {content : Array UInt8} {start stop : Nat} {isLast : Bool}
    {body bits : List Bool}
    (h : Compressor.checkedBits? content start stop (isLast :: body) = some bits) (place : Nat) :
    Exact isLast place bits := by
  obtain ⟨rfl, found, rest, hempty, hwindow⟩ := checkedBits?_eq_some h
  have hfound : found = isLast := by
    obtain ⟨u, hbit⟩ := bit?_of_readBlock hwindow
    cases hbit
    rfl
  intro s t out after flag x y hs _ hxy hread
  rw [← ahead_ofBits (isLast :: body)] at hxy ⊢
  rcases List.append_eq_append_iff.mp hxy with ⟨cut, hcut, -⟩ | ⟨more, hmore, -⟩
  · obtain ⟨rfl, hlater, -, hahead⟩ := readBlock_same hread hwindow hcut (.inr rfl)
    rw [hempty, eq_comm, List.append_eq_nil_iff] at hahead
    obtain ⟨ht, rfl⟩ := hahead
    exact ⟨hfound, hlater.aligned hs, by rw [ht, List.append_nil, hcut, List.append_nil]⟩
  · obtain ⟨rfl, -, hlater, hahead⟩ := readBlock_same hwindow hread hmore (.inl rfl)
    exact ⟨hfound, hlater.aligned hs, by rw [hmore, hahead, hempty, List.nil_append]⟩

/-- A block that passes the check gives the octets that it was made from. -/
theorem gives_of_checked {content : Array UInt8} {start stop : Nat} {isLast : Bool}
    {body bits : List Bool}
    (h : Compressor.checkedBits? content start stop (isLast :: body) = some bits)
    (hstop : start ≤ stop) (hlong : 8 ≤ (isLast :: body).length) (place : Nat) :
    Gives isLast place (content.extract 0 start) (content.extract 0 stop) bits := by
  obtain ⟨hbits, found, rest, -, hwindow⟩ := checkedBits?_eq_some h
  refine ⟨exact_of_checked h place, ?_, hbits ▸ hlong⟩
  intro s more _ _ hahead
  subst hbits
  have hback : start - windowSize ≤ start := Nat.sub_le start windowSize
  have hfront (upTo : Nat) (hupTo : start ≤ upTo) :
      content.extract 0 (start - windowSize) ++ content.extract (start - windowSize) upTo =
        content.extract 0 upTo := by
    rw [Array.extract_append_extract, Nat.zero_min, Nat.max_eq_right (Nat.le_trans hback hupTo)]
  have hbits : s.ahead = (ofBits (isLast :: body)).ahead ++ more := by
    rw [hahead, ahead_ofBits]
  obtain ⟨t, hread⟩ :=
    readBlock_extend (content.extract 0 (start - windowSize)) hwindow hbits rfl
  rw [hfront start (Nat.le_refl start), hfront stop hstop] at hread
  obtain ⟨u, hbit⟩ := bit?_of_readBlock hwindow
  cases hbit
  exact ⟨t, hread⟩

/-! ## Stored blocks -/

theorem fromLittleEndian_littleEndian {n : Nat} (h : n < 65536) :
    Bytes.fromLittleEndian (Bytes.littleEndian 2 n) = n := by
  simp only [Bytes.littleEndian, Bytes.fromLittleEndian, UInt8.toNat_ofNat']
  omega

theorem fromLittleEndian_lt (bs : Bytes) : Bytes.fromLittleEndian bs < 256 ^ bs.length := by
  induction bs with
  | nil => exact Nat.one_pos
  | cons b bs ih =>
    have hb : b.toNat < 256 := UInt8.toNat_lt b
    rw [Bytes.fromLittleEndian, List.length_cons, Nat.pow_succ]
    omega

/-- The octets of a stored block: how many there are, the complement of that, and they. -/
def storedOctets (bs : Bytes) : Bytes :=
  Bytes.littleEndian 2 bs.length ++ Bytes.littleEndian 2 (storedLimit - bs.length) ++ bs

/-- Where octets begin with a stored block, it is read. -/
theorem readStored_append {bs : Bytes} (h : bs.length ≤ storedLimit) (pending : List Bool)
    (out : Array UInt8) (rest : Bytes) :
    readStored out ⟨pending, storedOctets bs ++ rest⟩ = some (out ++ bs, ⟨[], rest⟩) := by
  have hlimit : storedLimit = 65535 := rfl
  have hsize : Bytes.fromLittleEndian ((storedOctets bs ++ rest).take 2) = bs.length :=
    fromLittleEndian_littleEndian (by omega)
  have hinverse : Bytes.fromLittleEndian (((storedOctets bs ++ rest).drop 2).take 2) =
      storedLimit - bs.length := fromLittleEndian_littleEndian (by omega)
  have hbody : (storedOctets bs ++ rest).drop 4 = bs ++ rest := rfl
  simp only [readStored, hsize, hinverse, hbody, List.take_left, List.drop_left, and_true]
  rw [if_pos (by omega)]

/-- A stored block is not read before it is there as a whole. -/
theorem readStored_cut {bs front cut : Bytes} (h : bs.length ≤ storedLimit)
    (hcut : storedOctets bs = front ++ cut) (hne : cut ≠ []) (pending : List Bool)
    (out : Array UInt8) : readStored out ⟨pending, front⟩ = none := by
  have hlimit : storedLimit = 65535 := rfl
  have hlength : (storedOctets bs).length = 4 + bs.length := by
    rw [storedOctets, List.length_append, List.length_append]
    rfl
  have hfront : front.length < 4 + bs.length := by
    have hcutlength := List.length_pos_iff.mpr hne
    rw [hcut, List.length_append] at hlength
    omega
  rw [readStored]
  refine if_neg ?_
  rintro ⟨hsum, hcontent⟩
  simp only at hsum hcontent
  rw [List.length_take, List.length_drop] at hcontent
  by_cases hshort : front.length < 4
  · -- Nothing is left of the content, and the complement of its size zero is not there either.
    have hlast : ((front.drop 2).take 2).length ≤ 1 := by
      rw [List.length_take, List.length_drop]
      omega
    have hinverse := fromLittleEndian_lt ((front.drop 2).take 2)
    have hpow : 256 ^ ((front.drop 2).take 2).length ≤ 256 ^ 1 :=
      Nat.pow_le_pow_right (by omega) hlast
    omega
  · have hsize : Bytes.fromLittleEndian (front.take 2) = bs.length := by
      rw [← List.take_append_of_le_length (by omega : 2 ≤ front.length), ← hcut]
      exact fromLittleEndian_littleEndian (by omega)
    rw [hsize] at hcontent
    omega

theorem octetBits_prefix {front bs : Bytes} {x y : List Bool}
    (h : octetBits front ++ x = octetBits bs ++ y) : front <+: bs ∨ bs <+: front := by
  induction front generalizing bs with
  | nil => exact .inl List.nil_prefix
  | cons octet front ih =>
    cases bs with
    | nil => exact .inr List.nil_prefix
    | cons octet' bs =>
      rw [octetBits_cons, octetBits_cons, List.append_assoc, List.append_assoc] at h
      obtain ⟨hoctet, hrest⟩ := List.append_inj h (by rw [lowBits_length, lowBits_length])
      have hsame : octet = octet' :=
        UInt8.toNat_inj.mp (lowBits_injective octet.toNat_lt octet'.toNat_lt hoctet)
      subst hsame
      exact (ih hrest).imp (List.prefix_cons_inj octet).mpr (List.prefix_cons_inj octet).mpr

/-- A stored block as bits, with zeros up to the next octet. -/
def storedPart (isLast : Bool) (zeros : Nat) (bs : Bytes) : List Bool :=
  isLast :: storedForm ++ (List.replicate zeros false ++ octetBits (storedOctets bs))

/-- Where a stored block goes on behind its form, the rest of the octet are its zeros. -/
theorem pending_of_stored {s : BitSource} {zeros : Nat} {octets x y : List Bool}
    (hs : s.Aligned) (hplace : s.ahead.length % 8 = zeros)
    (h : s.ahead ++ x = List.replicate zeros false ++ (octets ++ y)) :
    s.pending = List.replicate zeros false ∧ octetBits s.octets ++ x = octets ++ y := by
  have hpending : s.pending.length = (List.replicate zeros false).length := by
    rw [Aligned] at hs
    rw [ahead_length] at hplace
    rw [List.length_replicate]
    omega
  rw [ahead, List.append_assoc] at h
  exact List.append_inj h hpending

theorem exact_stored {isLast : Bool} {place zeros : Nat} {bs : Bytes}
    (h : bs.length ≤ storedLimit) (hzeros : zeros < 8) (hplace : (place + 3 + zeros) % 8 = 0) :
    Exact isLast place (storedPart isLast zeros bs) := by
  intro s t out after flag x y hs hspace hxy hread
  obtain ⟨⟨flag, s₁⟩, hflag, hread⟩ := Option.bind_eq_some_iff.mp hread
  obtain ⟨⟨_, _⟩, hbody, hread⟩ := Option.bind_eq_some_iff.mp hread
  cases hread
  obtain ⟨⟨form, s₃⟩, hform, hbody⟩ := Option.bind_eq_some_iff.mp hbody
  have hs₃ : s₃.Aligned :=
    ((reads_bit?.later hflag).trans ((reads_number? 2).later hform)).aligned hs
  obtain ⟨bits, hbits, hahead, hnumber⟩ := ahead_of_number? hform
  rw [ahead_of_bit? hflag, hahead] at hxy hspace ⊢
  simp only [storedPart, List.cons_append, List.append_assoc, List.cons.injEq] at hxy
  obtain ⟨rfl, hxy⟩ := hxy
  obtain ⟨rfl, hbody_ahead⟩ := List.append_inj hxy hbits
  have hstored : readStored out s₃ = some (after, t) := by
    rw [hnumber] at hbody
    exact hbody
  have hzeros' : s₃.ahead.length % 8 = zeros := by
    rw [List.length_cons, List.length_append, hbits] at hspace
    omega
  obtain ⟨hpending, hoctets⟩ := pending_of_stored hs₃ hzeros' hbody_ahead
  obtain ⟨pending, octets⟩ := s₃
  have hwhole : ∃ rest, octets = storedOctets bs ++ rest := by
    rcases octetBits_prefix hoctets with ⟨cut, hcut⟩ | ⟨rest, hrest⟩
    · by_cases hne : cut = []
      · exact ⟨[], by rw [← hcut, hne, List.append_nil, List.append_nil]⟩
      · rw [readStored_cut h hcut.symm hne] at hstored
        cases hstored
    · exact ⟨rest, hrest.symm⟩
  obtain ⟨rest, rfl⟩ := hwhole
  rw [readStored_append h] at hstored
  cases hstored
  refine ⟨rfl, Nat.zero_lt_succ 7, ?_⟩
  simp only at hpending
  rw [storedPart, ahead, ahead, hpending, octetBits_append]
  simp only [List.cons_append, List.append_assoc, List.nil_append]

/-- The bits of a number are read as it. -/
theorem number?_of_ahead {s : BitSource} {bits rest : List Bool} (h : s.ahead = bits ++ rest) :
    ∃ t, s.number? bits.length = some (number bits, t) ∧ t.ahead = rest := by
  induction bits generalizing s with
  | nil => exact ⟨s, rfl, h⟩
  | cons b bits ih =>
    obtain ⟨s₁, hb, hs₁⟩ := bit?_of_ahead h
    obtain ⟨t, hbits, ht⟩ := ih hs₁
    refine ⟨t, ?_, ht⟩
    simp only [List.length_cons, number?, hb, hbits, bind, Option.bind_some]
    rfl

/-- Octets whose bits begin with those of others begin with these. -/
theorem exists_append_of_octetBits {octets front : Bytes} {rest : List Bool}
    (h : octetBits octets = octetBits front ++ rest) : ∃ more, octets = front ++ more := by
  have hbits : octetBits octets ++ [] = octetBits front ++ rest := by rw [List.append_nil, h]
  rcases octetBits_prefix hbits with ⟨cut, hcut⟩ | ⟨more, hmore⟩
  · have hlength := congrArg List.length h
    rw [List.length_append, octetBits_length, octetBits_length, ← hcut, List.length_append]
      at hlength
    have hnil : cut = [] := List.eq_nil_of_length_eq_zero (by omega)
    exact ⟨[], by rw [← hcut, hnil, List.append_nil, List.append_nil]⟩
  · exact ⟨more, hmore.symm⟩

theorem gives_stored {isLast : Bool} {place zeros : Nat} {bs : Bytes}
    (h : bs.length ≤ storedLimit) (hzeros : zeros < 8) (hplace : (place + 3 + zeros) % 8 = 0)
    (before : Array UInt8) :
    Gives isLast place before (before ++ bs) (storedPart isLast zeros bs) where
  exact := exact_stored h hzeros hplace
  read {s rest} hs hspace hahead := by
    have hbits : s.ahead = isLast :: (storedForm ++
        (List.replicate zeros false ++ (octetBits (storedOctets bs) ++ rest))) := by
      simpa only [storedPart, List.cons_append, List.append_assoc] using hahead
    obtain ⟨s₁, hflag, hs₁⟩ := bit?_of_ahead hbits
    obtain ⟨s₃, hform, hs₃⟩ := number?_of_ahead hs₁
    have haligned : s₃.Aligned :=
      ((reads_bit?.later hflag).trans ((reads_number? 2).later hform)).aligned hs
    have hzeros' : s₃.ahead.length % 8 = zeros := by
      rw [hbits, ← hs₃, List.length_cons, List.length_append] at hspace
      have hform_length : storedForm.length = 2 := rfl
      omega
    obtain ⟨-, hoctets⟩ :=
      pending_of_stored haligned hzeros' ((List.append_nil s₃.ahead).trans hs₃)
    rw [List.append_nil] at hoctets
    obtain ⟨more, hmore⟩ := exists_append_of_octetBits hoctets
    obtain ⟨pending, octets⟩ := s₃
    simp only at hmore
    subst hmore
    refine ⟨⟨[], more⟩, ?_⟩
    simp only [readBlock, readBody, hflag, bind, Option.bind_some]
    have hform' : s₁.number? 2 = some (0, ⟨pending, storedOctets bs ++ more⟩) := hform
    simp only [hform', Option.bind_some, readStored_append h]
    rfl
  octet := by
    have hlength : 4 ≤ (storedOctets bs).length := by
      rw [storedOctets, List.length_append, List.length_append]
      exact Nat.le_add_right _ _
    simp only [storedPart, List.length_append, List.length_cons, octetBits_length]
    omega

/-! ## The blocks that a compressor writes -/

theorem le_length_symbolBits (literals distances : Array (List Bool)) (symbols : Array Symbol) :
    (literals.getD endNumber []).length ≤ (symbolBits literals distances symbols).length := by
  rw [symbolBits, ← Array.foldr_toList]
  induction symbols.toList with
  | nil => exact Nat.le_refl _
  | cons symbol symbols ih =>
    rw [List.foldr_cons, List.length_append]
    exact Nat.le_trans ih (Nat.le_add_left _ _)

theorem le_length_fixedBody (symbols : Array Symbol) : 7 ≤ (fixedBody symbols).length := by
  have hend : ((codeWords fixedLiteralLengths).getD endNumber []).length = 7 := by
    decide +kernel
  have hbits := le_length_symbolBits (codeWords fixedLiteralLengths)
    (codeWords fixedDistanceLengths) symbols
  rw [fixedBody, List.length_append]
  omega

theorem le_length_dynamicBody (symbols : Array Symbol) : 7 ≤ (dynamicBody symbols).length := by
  simp only [dynamicBody, describe, List.length_append, lowBits_length]
  omega

namespace Compressor

/-- Stored blocks, of which only the last one may be the last of the stream. -/
theorem storedBits_eq (isLast : Bool) (tail : List Bool) (bs : Bytes) :
    storedBits isLast tail bs =
      packPadded (tail ++ (isLast && (bs.drop storedLimit).isEmpty) :: storedForm) ++
        storedOctets (bs.take storedLimit) ++
        if (bs.drop storedLimit).isEmpty then []
        else storedBits isLast [] (bs.drop storedLimit) := by
  rw [storedBits, storedOctets, List.length_take, Nat.min_comm]
  simp only [List.append_assoc]

/-- A block that is closed is stored, or has passed the check. -/
theorem closeBlock_packed (isLast : Bool) (c : Compressor) :
    ∃ packed : Bytes × List Bool,
      (c.closeBlock isLast).ready = c.ready ++ packed.1 ∧ (c.closeBlock isLast).tail = packed.2 ∧
      (packed = (storedBits isLast c.tail
          (c.content.extract c.block.start (c.block.start + c.block.covered)).toList, []) ∨
        ∃ body bits, 8 ≤ (isLast :: body).length ∧
          checkedBits? c.content c.block.start (c.block.start + c.block.covered)
            (isLast :: body) = some bits ∧
          packed = if isLast then (packPadded (c.tail ++ bits), [])
            else pack (c.tail ++ bits)) := by
  obtain ⟨content, chains, place, reach, waiting, block, tail, ready⟩ := c
  have hlong : 8 ≤ (isLast :: if block.covered < fixedLimit then fixedBody block.symbols
      else dynamicBody block.symbols).length := by
    rw [List.length_cons]
    split
    · exact Nat.succ_le_succ (le_length_fixedBody block.symbols)
    · exact Nat.succ_le_succ (le_length_dynamicBody block.symbols)
  simp only [Compressor.closeBlock]
  generalize (if block.covered < fixedLimit then fixedBody block.symbols
    else dynamicBody block.symbols) = body at hlong ⊢
  split
  · exact ⟨_, rfl, rfl, .inl rfl⟩
  · split
    · next bits hchecked => exact ⟨_, rfl, rfl, .inr ⟨body, bits, hlong, hchecked, rfl⟩⟩
    · exact ⟨_, rfl, rfl, .inl rfl⟩

end Compressor

end TagRegistry.Deflate
