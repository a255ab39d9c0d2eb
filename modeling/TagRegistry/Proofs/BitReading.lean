import Mathlib.Algebra.Group.Nat.Defs
import TagRegistry.Deflate.Inflate

/-! What reading takes from a stream of bits.

Everything but a stored block is read bit by bit. So what a reader finds in a front part of a
stream it finds in the whole stream, and goes on at the same place. How many octets were read
before only decides whether reading fails. -/

namespace TagRegistry.Deflate

/-! ## Octets as bits -/

/-- The bits of octets, in the order in which they are read. -/
def octetBits (bs : Bytes) : List Bool := bs.flatMap fun octet => lowBits 8 octet.toNat

@[simp] theorem octetBits_nil : octetBits [] = [] := rfl

@[simp] theorem octetBits_cons (octet : UInt8) (bs : Bytes) :
    octetBits (octet :: bs) = lowBits 8 octet.toNat ++ octetBits bs := rfl

@[simp] theorem octetBits_append (bs cs : Bytes) :
    octetBits (bs ++ cs) = octetBits bs ++ octetBits cs :=
  List.flatMap_append

@[simp] theorem lowBits_length (width n : Nat) : (lowBits width n).length = width := by
  induction width generalizing n with
  | zero => rfl
  | succ width ih => rw [lowBits, List.length_cons, ih]

@[simp] theorem octetBits_length (bs : Bytes) : (octetBits bs).length = 8 * bs.length := by
  induction bs with
  | nil => rfl
  | cons octet bs ih => rw [octetBits_cons, List.length_append, lowBits_length, ih,
      List.length_cons, Nat.mul_add, Nat.add_comm]

theorem lowBits_zero (width : Nat) : lowBits width 0 = List.replicate width false := by
  induction width with
  | zero => rfl
  | succ width ih => rw [lowBits, ih]; rfl

/-- The lowest bits of the number that bits spell are these bits, with zeros behind them. -/
theorem lowBits_number (bits : List Bool) (zeros : Nat) :
    lowBits (bits.length + zeros) (number bits) = bits ++ List.replicate zeros false := by
  induction bits with
  | nil => rw [List.length_nil, Nat.zero_add, number, lowBits_zero, List.nil_append]
  | cons b bits ih =>
    have hodd : ((b.toNat + 2 * number bits) % 2 == 1) = b := by
      rw [Nat.add_mul_mod_self_left]
      cases b <;> rfl
    have hhalf : (b.toNat + 2 * number bits) / 2 = number bits := by
      have hb : b.toNat < 2 := Bool.toNat_lt b
      omega
    rw [List.length_cons, Nat.add_right_comm, lowBits, number, hodd, hhalf, ih, List.cons_append]

theorem number_lt (bits : List Bool) : number bits < 2 ^ bits.length := by
  induction bits with
  | nil => exact Nat.one_pos
  | cons b bits ih =>
    have hb : b.toNat < 2 := Bool.toNat_lt b
    rw [number, List.length_cons, Nat.pow_succ]
    omega

theorem lowBits_injective {width n m : Nat} (hn : n < 2 ^ width) (hm : m < 2 ^ width)
    (h : lowBits width n = lowBits width m) : n = m := by
  induction width generalizing n m with
  | zero => omega
  | succ width ih =>
    obtain ⟨hodd, hrest⟩ := List.cons.inj h
    rw [Nat.pow_succ] at hn hm
    have hhalf : n / 2 = m / 2 := ih (by omega) (by omega) hrest
    have hlow : n % 2 = m % 2 := by
      have hn2 := Nat.mod_two_eq_zero_or_one n
      have hm2 := Nat.mod_two_eq_zero_or_one m
      rcases hn2 with hn2 | hn2 <;> rcases hm2 with hm2 | hm2 <;> simp [hn2, hm2] at hodd ⊢
    omega

/-- The octet of bits, the missing ones being zeros. -/
theorem octetBits_ofNat (bits : List Bool) (h : bits.length ≤ 8) :
    octetBits [UInt8.ofNat (number bits)] = bits ++ List.replicate (8 - bits.length) false := by
  have hlt : number bits < 256 :=
    Nat.lt_of_lt_of_le (number_lt bits) (Nat.pow_le_pow_right (by omega) h)
  have hlow := lowBits_number bits (8 - bits.length)
  rw [Nat.add_sub_cancel' h] at hlow
  rw [octetBits_cons, octetBits_nil, List.append_nil, UInt8.toNat_ofNat_of_lt' hlt, hlow]

/-- Octets say the bits that were packed, but for those that fill none. -/
theorem pack_bits (bits : List Bool) : octetBits (pack bits).1 ++ (pack bits).2 = bits := by
  induction bits using pack.induct with
  | case1 a b c d e f g h rest octets left hpack ih =>
    rw [hpack] at ih
    have hoctet := octetBits_ofNat [a, b, c, d, e, f, g, h] (Nat.le_refl 8)
    rw [octetBits_cons, octetBits_nil, List.append_nil] at hoctet
    rw [pack, hpack, octetBits_cons, hoctet, List.append_assoc, ih]
    rfl
  | case2 left hshort =>
    rw [pack]
    · rfl
    · exact hshort

theorem pack_left_length (bits : List Bool) : (pack bits).2.length < 8 := by
  induction bits using pack.induct with
  | case1 a b c d e f g h rest octets left hpack ih =>
    rw [pack]
    exact ih
  | case2 left hshort =>
    rw [pack]
    · match left with
      | [] | [_] | [_, _] | [_, _, _] | [_, _, _, _] | [_, _, _, _, _] | [_, _, _, _, _, _]
      | [_, _, _, _, _, _, _] => simp
      | a :: b :: c :: d :: e :: f :: g :: h :: rest =>
        exact absurd rfl (hshort a b c d e f g h rest)
    · exact hshort

/-- The last octet is filled with zeros. -/
theorem packPadded_bits (bits : List Bool) :
    ∃ zeros, octetBits (packPadded bits) = bits ++ List.replicate zeros false ∧ zeros < 8 ∧
      (bits.length + zeros) % 8 = 0 := by
  have hbits := pack_bits bits
  have hleft := pack_left_length bits
  rw [packPadded]
  generalize pack bits = packed at hbits hleft
  obtain ⟨octets, left⟩ := packed
  simp only at hbits hleft ⊢
  subst hbits
  cases left with
  | nil => exact ⟨0, by simp, by omega, by simp⟩
  | cons b left =>
    rw [List.length_cons] at hleft
    refine ⟨8 - (b :: left).length, ?_, by rw [List.length_cons]; omega, ?_⟩
    · rw [List.isEmpty_cons, if_neg Bool.false_ne_true, octetBits_append,
        octetBits_ofNat (b :: left) (Nat.le_of_lt hleft), List.append_assoc]
    · rw [List.length_append, octetBits_length, List.length_cons]
      omega

/-! ## Reading bit by bit -/

namespace BitSource

/-- All bits that are left. -/
def ahead (s : BitSource) : List Bool := s.pending ++ octetBits s.octets

theorem ahead_length (s : BitSource) :
    s.ahead.length = s.pending.length + 8 * s.octets.length := by
  rw [ahead, List.length_append, octetBits_length]

theorem ahead_ofBytes (bs : Bytes) : (ofBytes bs).ahead = octetBits bs := rfl

theorem ahead_ofBits (bits : List Bool) : (ofBits bits).ahead = bits := List.append_nil bits

theorem ahead_of_bit? {s t : BitSource} {b : Bool} (h : s.bit? = some (b, t)) :
    s.ahead = b :: t.ahead := by
  obtain ⟨pending, octets⟩ := s
  match pending, octets with
  | _ :: _, _ | [], _ :: _ =>
    cases h
    rfl
  | [], [] => cases h

theorem bit?_of_ahead {s : BitSource} {b : Bool} {bits : List Bool} (h : s.ahead = b :: bits) :
    ∃ t, s.bit? = some (b, t) ∧ t.ahead = bits := by
  obtain ⟨pending, octets⟩ := s
  match pending, octets with
  | _ :: pending, octets | [], _ :: octets =>
    obtain ⟨rfl, rfl⟩ := List.cons.inj h
    exact ⟨_, rfl, rfl⟩
  | [], [] => cases h

/-- What is left after some bits have been read. -/
inductive Later : BitSource → BitSource → Prop where
  | refl (s : BitSource) : Later s s
  | step {s t u : BitSource} {b : Bool} : s.bit? = some (b, t) → Later t u → Later s u

theorem Later.trans {s t u : BitSource} (h : Later s t) (h' : Later t u) : Later s u := by
  induction h with
  | refl => exact h'
  | step hbit _ ih => exact .step hbit (ih h')

/-- The rest of an octet is less than an octet. -/
def Aligned (s : BitSource) : Prop := s.pending.length < 8

theorem Later.aligned {s t : BitSource} (h : Later s t) (hs : s.Aligned) : t.Aligned := by
  induction h with
  | refl => exact hs
  | @step s _ _ _ hbit _ ih =>
    refine ih ?_
    obtain ⟨pending, octets⟩ := s
    match pending, octets with
    | b :: pending, _ =>
      cases hbit
      exact Nat.lt_of_succ_lt hs
    | [], octet :: _ =>
      cases hbit
      exact (lowBits_length 7 (octet.toNat / 2)).symm ▸ (by decide : 7 < 8)
    | [], [] => cases hbit

theorem Later.no_octets {s t : BitSource} (h : Later s t) (hs : s.octets = []) :
    t.octets = [] := by
  induction h with
  | refl => exact hs
  | @step s _ _ _ hbit _ ih =>
    refine ih ?_
    obtain ⟨pending, octets⟩ := s
    cases hs
    cases pending with
    | nil => cases hbit
    | cons b pending => cases hbit; rfl

end BitSource

open BitSource

/-- A reader that reads bit by bit. What it finds it also finds where more bits follow. -/
structure Reads {α : Type} (f : BitSource → Option (α × BitSource)) : Prop where
  later {s t : BitSource} {a : α} : f s = some (a, t) → Later s t
  extend {s t s' : BitSource} {a : α} {rest : List Bool} : f s = some (a, t) →
    s'.ahead = s.ahead ++ rest → ∃ t', f s' = some (a, t') ∧ t'.ahead = t.ahead ++ rest

namespace Reads

variable {α β : Type} {f g : BitSource → Option (α × BitSource)}

theorem done (a : α) : Reads fun s => some (a, s) where
  later h := by
    cases h
    exact .refl _
  extend h hs := by
    cases h
    exact ⟨_, rfl, hs⟩

theorem fail : Reads fun _ => (none : Option (α × BitSource)) where
  later h := by cases h
  extend h := by cases h

theorem bind {k : α → BitSource → Option (β × BitSource)} (hf : Reads f) (hk : ∀ a, Reads (k a)) :
    Reads fun s => (f s).bind fun found => k found.1 found.2 where
  later h := by
    obtain ⟨⟨a, t⟩, hfirst, hrest⟩ := Option.bind_eq_some_iff.mp h
    exact (hf.later hfirst).trans ((hk a).later hrest)
  extend h hs := by
    obtain ⟨⟨a, t⟩, hfirst, hrest⟩ := Option.bind_eq_some_iff.mp h
    obtain ⟨t', hfirst', ht⟩ := hf.extend hfirst hs
    obtain ⟨u', hrest', hu⟩ := (hk a).extend hrest ht
    exact ⟨u', Option.bind_eq_some_iff.mpr ⟨_, hfirst', hrest'⟩, hu⟩

/-- A value that is there without reading, or is missing. -/
theorem given (a? : Option α) {k : α → BitSource → Option (β × BitSource)}
    (hk : ∀ a, Reads (k a)) : Reads fun s => a?.bind fun a => k a s := by
  cases a? with
  | none => exact .fail
  | some a => exact hk a

/-- Where more bits follow, the same is found, and these bits are left behind it. -/
theorem same {s t s' t' : BitSource} {a a' : α} {rest : List Bool} (hf : Reads f)
    (h : f s = some (a, t)) (h' : f s' = some (a', t')) (hs : s'.ahead = s.ahead ++ rest) :
    a' = a ∧ t'.ahead = t.ahead ++ rest := by
  obtain ⟨u, hu, hahead⟩ := hf.extend h hs
  cases h'.symm.trans hu
  exact ⟨rfl, hahead⟩

theorem ite (c : Prop) [Decidable c] (hf : Reads f) (hg : Reads g) :
    Reads fun s => if c then f s else g s := by
  by_cases hc : c
  · simpa only [if_pos hc] using hf
  · simpa only [if_neg hc] using hg

end Reads

theorem reads_bit? : Reads bit? where
  later h := .step h (.refl _)
  extend {s t s' a rest} h hs := by
    rw [ahead_of_bit? h] at hs
    exact bit?_of_ahead hs

theorem reads_number? (width : Nat) : Reads (number? width) := by
  induction width with
  | zero => exact .done 0
  | succ width ih => exact reads_bit?.bind fun b => ih.bind fun n => .done (b.toNat + 2 * n)

/-- A number is spelled by the bits that are read. -/
theorem ahead_of_number? {width n : Nat} {s t : BitSource} (h : s.number? width = some (n, t)) :
    ∃ bits, bits.length = width ∧ s.ahead = bits ++ t.ahead ∧ n = number bits := by
  induction width generalizing n s with
  | zero =>
    cases h
    exact ⟨[], rfl, rfl, rfl⟩
  | succ width ih =>
    obtain ⟨⟨b, s₁⟩, hb, h⟩ := Option.bind_eq_some_iff.mp h
    obtain ⟨⟨m, s₂⟩, hm, h⟩ := Option.bind_eq_some_iff.mp h
    cases h
    obtain ⟨bits, rfl, hahead, rfl⟩ := ih hm
    exact ⟨b :: bits, rfl, by rw [ahead_of_bit? hb, hahead, List.cons_append], rfl⟩

theorem reads_readFrom (symbols : Array Nat) (counts : List Nat) (word first index : Nat) :
    Reads (PrefixCode.readFrom symbols counts word first index) := by
  induction counts generalizing word first index with
  | nil => exact .fail
  | cons count counts ih =>
    exact reads_bit?.bind fun b => .ite (2 * word + b.toNat < 2 * first + count)
      (.given symbols[index + (2 * word + b.toNat - 2 * first)]? fun symbol => .done symbol)
      (ih (2 * word + b.toNat) (2 * first + count) (index + count))

theorem reads_read (code : PrefixCode) : Reads code.read := reads_readFrom _ _ _ _ _

theorem reads_readLength (number : Nat) : Reads (readLength number) := by
  unfold readLength
  exact .ite _ (.done _) (.ite _ (.done _) (.ite _ .fail
    ((reads_number? _).bind fun extra => .done (shortestCopy + _ + extra))))

theorem reads_readDistance (number : Nat) : Reads (readDistance number) := by
  refine .ite (number < 4) (.done _) (.ite (29 < number) .fail ?_)
  exact (reads_number? (number / 2 - 1)).bind fun extra =>
    .done (1 + ((2 + number % 2) <<< (number / 2 - 1)) + extra)

theorem reads_readLengths (items : PrefixCode) (fuel count : Nat) (before : List Nat) :
    Reads (readLengths items fuel count before) := by
  induction fuel generalizing count before with
  | zero =>
    cases count with
    | zero => exact .done _
    | succ count => exact .fail
  | succ fuel ih =>
    cases count with
    | zero => exact .done _
    | succ count =>
      have hrun (run : Nat × Nat × Nat) : Reads fun s =>
          (s.number? run.2.2).bind fun more =>
            if count + 1 < run.2.1 + more.1 then none
            else readLengths items fuel (count + 1 - (run.2.1 + more.1))
              (List.replicate (run.2.1 + more.1) run.1 ++ before) more.2 :=
        (reads_number? run.2.2).bind fun more => .ite (count + 1 < run.2.1 + more) .fail
          (ih (count + 1 - (run.2.1 + more)) (List.replicate (run.2.1 + more) run.1 ++ before))
      exact (reads_read items).bind fun number =>
        .ite (number < 16) (ih (count + 1 - 1) (number :: before))
          (.ite (number = 16) (.given (before.head?.map fun last => (last, 3, 2)) hrun)
            (.ite (number = 17) (.given (some (0, 3, 3)) hrun) (.given (some (0, 11, 7)) hrun)))

theorem reads_readItemLengths (count : Nat) : Reads (readItemLengths count) := by
  induction count with
  | zero => exact .done []
  | succ count ih =>
    exact (reads_number? 3).bind fun length => ih.bind fun lengths => .done (length :: lengths)

/-- The lengths of a description, and how many of them are for the first code. -/
def describedLengths (s : BitSource) : Option ((List Nat × Nat) × BitSource) := do
  let (literals, s) ← s.number? 5
  let (distances, s) ← s.number? 5
  let (items, s) ← s.number? 4
  let (written, s) ← readItemLengths (items + 4) s
  let code := PrefixCode.ofLengths (orderItemLengths written)
  let count := literals + 257 + distances + 1
  let (lengths, s) ← readLengths code count count [] s
  return ((lengths, literals + 257), s)

theorem readDescription_eq (s : BitSource) :
    readDescription s = (describedLengths s).map fun ((lengths, literals), s) =>
      (.ofLengths (lengths.take literals), .ofLengths (lengths.drop literals), s) := by
  simp only [readDescription, describedLengths, bind, pure, Option.map_bind, Function.comp_def,
    Option.map_some]

theorem reads_describedLengths : Reads describedLengths :=
  (reads_number? 5).bind fun literals => (reads_number? 5).bind fun distances =>
    (reads_number? 4).bind fun items => (reads_readItemLengths (items + 4)).bind fun written =>
      (reads_readLengths (.ofLengths (orderItemLengths written)) (literals + 257 + distances + 1)
        (literals + 257 + distances + 1) []).bind fun lengths => .done (lengths, literals + 257)

/-! ## Blocks of symbols -/

section

variable {literals distances : PrefixCode} {fuel : Nat} {out out' : Array UInt8} {s t : BitSource}

theorem later_of_readSymbols
    (h : readSymbols literals distances fuel out s = some (out', t)) : Later s t := by
  induction fuel generalizing out s with
  | zero => cases h
  | succ fuel ih =>
    obtain ⟨⟨number, s₁⟩, hnumber, h⟩ := Option.bind_eq_some_iff.mp h
    refine ((reads_read literals).later hnumber).trans ?_
    simp only at h
    split at h
    · exact ih h
    · split at h
      · cases h
        exact .refl _
      · obtain ⟨⟨length, s₂⟩, hlength, h⟩ := Option.bind_eq_some_iff.mp h
        obtain ⟨⟨code, s₃⟩, hcode, h⟩ := Option.bind_eq_some_iff.mp h
        obtain ⟨⟨distance, s₄⟩, hdistance, h⟩ := Option.bind_eq_some_iff.mp h
        refine ((reads_readLength number).later hlength).trans
          (((reads_read distances).later hcode).trans
            (((reads_readDistance code).later hdistance).trans ?_))
        simp only at h
        split at h
        · cases h
        · exact ih h

/-- Symbols that can be read behind other octets too take the same bits there. -/
theorem readSymbols_same {fuel' : Nat} {before' after' : Array UInt8} {s' t' : BitSource}
    {rest : List Bool} (h : readSymbols literals distances fuel out s = some (out', t))
    (h' : readSymbols literals distances fuel' before' s' = some (after', t'))
    (hs : s'.ahead = s.ahead ++ rest) : t'.ahead = t.ahead ++ rest := by
  induction fuel generalizing fuel' out before' s s' with
  | zero => cases h
  | succ fuel ih =>
    cases fuel' with
    | zero => cases h'
    | succ fuel' =>
      obtain ⟨⟨number, s₁⟩, hnumber, h⟩ := Option.bind_eq_some_iff.mp h
      obtain ⟨⟨number', s₁'⟩, hnumber', h'⟩ := Option.bind_eq_some_iff.mp h'
      obtain ⟨rfl, hs₁⟩ := (reads_read literals).same hnumber hnumber' hs
      simp only at h h'
      split at h
      · next hliteral =>
        rw [if_pos hliteral] at h'
        exact ih h h' hs₁
      · next hliteral =>
        rw [if_neg hliteral] at h'
        split at h
        · next hend =>
          rw [if_pos hend] at h'
          cases h
          cases h'
          exact hs₁
        · next hend =>
          rw [if_neg hend] at h'
          obtain ⟨⟨length, s₂⟩, hlength, h⟩ := Option.bind_eq_some_iff.mp h
          obtain ⟨⟨length', s₂'⟩, hlength', h'⟩ := Option.bind_eq_some_iff.mp h'
          obtain ⟨rfl, hs₂⟩ := (reads_readLength _).same hlength hlength' hs₁
          obtain ⟨⟨code, s₃⟩, hcode, h⟩ := Option.bind_eq_some_iff.mp h
          obtain ⟨⟨code', s₃'⟩, hcode', h'⟩ := Option.bind_eq_some_iff.mp h'
          obtain ⟨rfl, hs₃⟩ := (reads_read distances).same hcode hcode' hs₂
          obtain ⟨⟨distance, s₄⟩, hdistance, h⟩ := Option.bind_eq_some_iff.mp h
          obtain ⟨⟨distance', s₄'⟩, hdistance', h'⟩ := Option.bind_eq_some_iff.mp h'
          obtain ⟨rfl, hs₄⟩ := (reads_readDistance _).same hdistance hdistance' hs₃
          simp only at h h'
          split at h
          · cases h
          · split at h'
            · cases h'
            · exact ih h h' hs₄

/-- Nothing is stored where there are no octets. -/
theorem readStored_of_no_octets (h : s.octets = []) : readStored out s = none := by
  rw [readStored, h]
  rfl

theorem readBody_same {before' after' : Array UInt8} {s' t' : BitSource} {rest : List Bool}
    (h : readBody out s = some (out', t)) (h' : readBody before' s' = some (after', t'))
    (hs : s'.ahead = s.ahead ++ rest) (hnone : s.octets = [] ∨ s'.octets = []) :
    Later s t ∧ Later s' t' ∧ t'.ahead = t.ahead ++ rest := by
  obtain ⟨⟨form, s₁⟩, hform, h⟩ := Option.bind_eq_some_iff.mp h
  obtain ⟨⟨form', s₁'⟩, hform', h'⟩ := Option.bind_eq_some_iff.mp h'
  obtain ⟨rfl, hs₁⟩ := (reads_number? 2).same hform hform' hs
  have hlater : Later s s₁ := (reads_number? 2).later hform
  have hlater' : Later s' s₁' := (reads_number? 2).later hform'
  simp only at h h'
  split at h
  · rcases hnone with hnone | hnone
    · rw [readStored_of_no_octets (hlater.no_octets hnone)] at h
      cases h
    · rw [readStored_of_no_octets (hlater'.no_octets hnone)] at h'
      cases h'
  · exact ⟨hlater.trans (later_of_readSymbols h), hlater'.trans (later_of_readSymbols h'),
      readSymbols_same h h' hs₁⟩
  · simp only [readDescription_eq] at h h'
    obtain ⟨⟨literals, distances, s₂⟩, hcodes, h⟩ := Option.bind_eq_some_iff.mp h
    obtain ⟨⟨literals', distances', s₂'⟩, hcodes', h'⟩ := Option.bind_eq_some_iff.mp h'
    obtain ⟨⟨lengths, s₃⟩, hlengths, hcodes⟩ := Option.map_eq_some_iff.mp hcodes
    obtain ⟨⟨lengths', s₃'⟩, hlengths', hcodes'⟩ := Option.map_eq_some_iff.mp hcodes'
    obtain ⟨rfl, hs₃⟩ := reads_describedLengths.same hlengths hlengths' hs₁
    cases hcodes
    cases hcodes'
    exact ⟨hlater.trans ((reads_describedLengths.later hlengths).trans (later_of_readSymbols h)),
      hlater'.trans ((reads_describedLengths.later hlengths').trans (later_of_readSymbols h')),
      readSymbols_same h h' hs₃⟩
  · cases h

/-- Two readings of a block that is not stored, behind whatever octets, take the same bits. -/
theorem readBlock_same {before' after' : Array UInt8} {s' t' : BitSource} {rest : List Bool}
    {isLast isLast' : Bool} (h : readBlock out s = some (isLast, out', t))
    (h' : readBlock before' s' = some (isLast', after', t')) (hs : s'.ahead = s.ahead ++ rest)
    (hnone : s.octets = [] ∨ s'.octets = []) :
    isLast' = isLast ∧ Later s t ∧ Later s' t' ∧ t'.ahead = t.ahead ++ rest := by
  obtain ⟨⟨b, s₁⟩, hb, h⟩ := Option.bind_eq_some_iff.mp h
  obtain ⟨⟨b', s₁'⟩, hb', h'⟩ := Option.bind_eq_some_iff.mp h'
  obtain ⟨rfl, hs₁⟩ := reads_bit?.same hb hb' hs
  obtain ⟨⟨after, u⟩, hbody, h⟩ := Option.bind_eq_some_iff.mp h
  obtain ⟨⟨later, u'⟩, hbody', h'⟩ := Option.bind_eq_some_iff.mp h'
  cases h
  cases h'
  have hlater : Later s s₁ := reads_bit?.later hb
  have hlater' : Later s' s₁' := reads_bit?.later hb'
  obtain ⟨hrest, hrest', hahead⟩ :=
    readBody_same hbody hbody' hs₁ (hnone.imp hlater.no_octets hlater'.no_octets)
  exact ⟨rfl, hlater.trans hrest, hlater'.trans hrest', hahead⟩

end

end TagRegistry.Deflate
