import TagRegistry.Protocol.Operation

/-! Plain texts in request paths, and what the two paths of a download are split into. -/

namespace TagRegistry

open Bytes (slash ascii)

/-! ## Texts in paths -/

theorem Percent.decode_of_not_mem {bs : Bytes} (h : mark ∉ bs) : decode bs = bs := by
  fun_induction decode bs with
  | case1 => rfl
  | case2 | case3 => exact absurd List.mem_cons_self h
  | case4 b high low rest hb ih => rw [ih fun hm => h (List.mem_cons_of_mem b hm)]
  | case5 b rest _ ih => rw [ih fun hm => h (List.mem_cons_of_mem b hm)]

theorem Utf8.lead_ascii {c : Char} (h : c.toNat < 0x80) :
    lead (UInt8.ofNat c.toNat) = .char c := by
  have hnat : (UInt8.ofNat c.toNat).toNat = c.toNat := by
    rw [UInt8.toNat_ofNat']
    omega
  have hlow : UInt8.ofNat c.toNat < 0x80 := by
    rw [UInt8.lt_iff_toNat_lt, hnat]
    exact h
  rw [lead, if_pos hlow, hnat, Char.ofNat_toNat]

theorem Utf8.scan_ascii {cs : List Char} (h : ∀ c ∈ cs, c.toNat < 0x80) :
    scan (cs.map fun c => UInt8.ofNat c.toNat) = cs.map some := by
  induction cs with
  | nil => rfl
  | cons c cs ih =>
    have hrest := ih fun x hx => h x (List.mem_cons_of_mem c hx)
    rw [scan] at hrest ⊢
    rw [List.map_cons, scanFrom, lead_ascii (h c List.mem_cons_self)]
    simp only [hrest, List.map_cons]

theorem Utf8.mapM_map_some {α : Type} (items : List α) :
    (items.map some).mapM id = some items := by
  induction items with
  | nil => rfl
  | cons item items ih => simp [ih]

theorem Utf8.decode?_ascii {text : String} (h : ∀ c ∈ text.toList, c.toNat < 0x80) :
    decode? (ascii text) = some text := by
  rw [decode?, ascii, scan_ascii h, mapM_map_some, Option.map_some, String.ofList_toList]

/-- A text that a path spells with its own characters. -/
def IsPlain (text : String) : Prop := ∀ c ∈ text.toList, c.toNat < 0x80 ∧ c ≠ '%' ∧ c ≠ '/'

theorem not_mem_ascii {text : String} {c : Char} (h : ∀ x ∈ text.toList, x.toNat < 0x80 ∧ x ≠ c)
    (hc : c.toNat < 0x80) : UInt8.ofNat c.toNat ∉ ascii text := by
  intro hmem
  obtain ⟨x, hx, heq⟩ := List.mem_map.mp hmem
  obtain ⟨hlow, hne⟩ := h x hx
  have hnat := congrArg UInt8.toNat heq
  rw [UInt8.toNat_ofNat', UInt8.toNat_ofNat', Nat.mod_eq_of_lt (by omega),
    Nat.mod_eq_of_lt (by omega)] at hnat
  exact hne (Char.toNat_inj.mp hnat)

theorem readText_ascii {text : String} (h : IsPlain text) (parameter : Parameter) :
    Operation.readText parameter (ascii text) = .ok text := by
  have hmark : Percent.mark ∉ ascii text :=
    not_mem_ascii (c := '%') (fun x hx => ⟨(h x hx).1, (h x hx).2.1⟩) (by decide)
  rw [Operation.readText, Percent.decode_of_not_mem hmark,
    Utf8.decode?_ascii fun c hc => (h c hc).1]

/-! ## Paths of a download -/

namespace Operation

theorem location_of_decode {space name provider version : Bytes} {op : Operation String}
    (h : decode (.location space name provider version) = .ok op) :
    ∃ s n p v, op = .location s n p v ∧ readText .space space = .ok s ∧
      readText .name name = .ok n ∧ readText .provider provider = .ok p ∧
      readText .version version = .ok v := by
  rw [decode, mapM] at h
  cases hs : readText .space space with
  | error e => rw [hs] at h; cases h
  | ok s =>
    cases hn : readText .name name with
    | error e => rw [hs, hn] at h; cases h
    | ok n =>
      cases hp : readText .provider provider with
      | error e => rw [hs, hn, hp] at h; cases h
      | ok p =>
        cases hv : readText .version version with
        | error e => rw [hs, hn, hp, hv] at h; cases h
        | ok v =>
          rw [hs, hn, hp, hv] at h
          exact ⟨s, n, p, v, (Except.ok.inj h).symm, rfl, rfl, rfl, rfl⟩

theorem decode_archive {space name provider version treeId : Bytes} {s n p v t : String}
    (hs : readText .space space = .ok s) (hn : readText .name name = .ok n)
    (hp : readText .provider provider = .ok p) (hv : readText .version version = .ok v)
    (ht : readText .treeId treeId = .ok t) :
    decode (.archive space name provider version treeId) = .ok (.archive s n p v t) := by
  rw [decode, mapM, hs, hn, hp, hv, ht]
  rfl

variable {path space name provider version treeId : Bytes}

theorem ofPath?_eq_some {op : Operation Bytes} (h : ofPath? path = some op) :
    ∃ segments, path.splitOn slash = [] :: segments ∧ ofSegments? segments = some op := by
  unfold ofPath? at h
  split at h
  · next segments hs => exact ⟨segments, hs, h⟩
  · cases h

theorem splitOn_of_location (h : ofPath? path = some (.location space name provider version)) :
    path.splitOn slash = [] :: ([space, name, provider, version] ++ [ascii "download"]) := by
  obtain ⟨segments, hpath, hs⟩ := ofPath?_eq_some h
  rw [hpath]
  unfold ofSegments? at hs
  split at hs
  · cases hs
  · split at hs
    · split at hs <;> cases hs
    · cases hs
    · split at hs <;> cases hs
    · split at hs
      · next haction =>
        cases hs
        rw [haction]
        rfl
      · cases hs
    · split at hs <;> cases hs
    · cases hs

theorem ofPath?_archive_iff (hid : treeId ≠ []) :
    ofPath? path = some (.archive space name provider version treeId) ↔
      path.splitOn slash =
        [] :: ([space, name, provider, version] ++ [ascii "download", treeId]) := by
  constructor
  · intro h
    obtain ⟨segments, hpath, hs⟩ := ofPath?_eq_some h
    rw [hpath]
    unfold ofSegments? at hs
    split at hs
    · cases hs
    · split at hs
      · split at hs <;> cases hs
      · cases hs
      · split at hs <;> cases hs
      · split at hs <;> cases hs
      · split at hs
        · next haction =>
          cases hs
          rw [haction]
          rfl
        · cases hs
      · cases hs
  · intro h
    rw [ofPath?, h]
    simp [ofSegments?, hid]

end Operation

end TagRegistry
