import Mathlib.Data.List.Nodup
import Mathlib.Data.Option.Basic
import TagRegistry.Proofs.PrintedJson
import TagRegistry.Proofs.TextEncoding
import TagRegistry.Protocol.Body
import TagRegistry.Protocol.Response

/-! Bodies are read as what was written.

What a body is written as is legal JSON whatever texts it holds, and each of its records has every
field once, so that reading finds the fields again. The field of the page is the exception: a list
without page is written without it. -/

namespace TagRegistry

/-! ## Records -/

namespace Json.Value

variable {fields : List (String × Value)}

theorem legal_ofText (text : String) : (ofText text).Legal := .string (sealed_escape _)

theorem legal_record (h : ∀ field ∈ fields, field.2.Legal) : (record fields).Legal := by
  refine .object ?_ ?_
  · intro field hfield
    obtain ⟨source, -, rfl⟩ := List.mem_map.mp hfield
    exact sealed_escape _
  · intro field hfield
    obtain ⟨source, hsource, rfl⟩ := List.mem_map.mp hfield
    exact h source hsource

theorem legal_array_map {α : Type} {items : List α} {toJson : α → Value}
    (h : ∀ a, (toJson a).Legal) : (array (items.map toJson)).Legal := by
  refine .array ?_
  intro item hitem
  obtain ⟨a, -, rfl⟩ := List.mem_map.mp hitem
  exact h a

@[simp]
theorem text?_ofText (text : String) : (ofText text).text? = some text := by
  rw [ofText, text?, unescape?_escape, Option.map_some, String.ofList_toList]

theorem named?_escaped (fields : List (String × Value)) :
    named? (fields.map fun field => (escape field.1.toList, field.2)) = some fields := by
  rw [named?]
  induction fields with
  | nil => rfl
  | cons field fields ih =>
    rw [List.map_cons, List.mapM_cons, ih, unescape?_escape]
    simp

/-- Of a record each field is found by its name. -/
theorem fields?_record (h : (fields.map Prod.fst).Nodup) (names : List String) :
    (record fields).fields? names = some (names.map fun name => fields.lookup name) := by
  have honce (name : String) : fields.countP (fun field => field.1 == name) ≤ 1 := by
    have hcount := List.nodup_iff_count_le_one.mp h name
    rwa [List.count, List.countP_map] at hcount
  rw [record, fields?, named?_escaped]
  simp [honce]

end Json.Value

theorem mapM_map_eq_some {α β : Type} {write : α → β} {read? : β → Option α}
    (h : ∀ a, read? (write a) = some a) (items : List α) :
    (items.map write).mapM read? = some items := by
  induction items with
  | nil => rfl
  | cons item items ih => simp [h, ih]

/-! ## Bodies as values -/

open Json

namespace ModuleSummary

theorem legal_toJson (s : ModuleSummary) : s.toJson.Legal := by
  refine Value.legal_record ?_
  simp [Value.legal_ofText]

theorem ofJson?_toJson (s : ModuleSummary) : ofJson? s.toJson = some s := by
  have hfields : s.toJson.fields? fieldNames = some [some (.ofText s.id), some (.ofText s.space),
      some (.ofText s.name), some (.ofText s.provider), some (.ofText s.version)] := by
    rw [toJson, Value.fields?_record (by simp)]
    rfl
  rw [ofJson?, hfields]
  simp

end ModuleSummary

namespace PageMeta

theorem legal_toJson (m : PageMeta) : m.toJson.Legal := by
  refine Value.legal_record ?_
  simp [Value.legal_ofText]

theorem ofJson?_toJson (m : PageMeta) : ofJson? m.toJson = some m := by
  have hfields : m.toJson.fields? fieldNames = some [some (.ofText m.limit),
      some (.ofText m.currentOffset), some (.ofText m.nextOffset),
      some (.ofText m.prevOffset)] := by
    rw [toJson, Value.fields?_record (by simp)]
    rfl
  rw [ofJson?, hfields]
  simp

end PageMeta

namespace ModuleList

theorem legal_toJson (l : ModuleList) : l.toJson.Legal := by
  refine Value.legal_record ?_
  cases l.page <;> simp [Value.legal_array_map ModuleSummary.legal_toJson, PageMeta.legal_toJson]

theorem fields?_toJson_eq (l : ModuleList) (names : List String) : l.toJson.fields? names =
    some (names.map fun name =>
      (("modules", Value.array (l.modules.map ModuleSummary.toJson)) ::
        (l.page.map fun page => ("meta", page.toJson)).toList).lookup name) := by
  rw [toJson, Value.fields?_record]
  cases l.page <;> simp

/-- The field of the page is there if there is a page. -/
theorem fields?_toJson (l : ModuleList) : l.toJson.fields? fieldNames =
    some [some (.array (l.modules.map ModuleSummary.toJson)), l.page.map PageMeta.toJson] := by
  rw [fields?_toJson_eq]
  cases l.page <;> rfl

theorem pageOf?_toJson (page : Option PageMeta) :
    pageOf? (page.map PageMeta.toJson) = some page := by
  cases page with
  | none => rfl
  | some page =>
    show (PageMeta.ofJson? page.toJson).map some = some (some page)
    rw [PageMeta.ofJson?_toJson, Option.map_some]

theorem ofJson?_toJson (l : ModuleList) : ofJson? l.toJson = some l := by
  rw [ofJson?, fields?_toJson]
  simp [Value.items?, mapM_map_eq_some ModuleSummary.ofJson?_toJson, pageOf?_toJson]

/-- A page is read as none if its field is absent or null. -/
theorem pageOf?_eq_none_iff {field : Option Value} {page : Option PageMeta}
    (h : pageOf? field = some page) : page = none ↔ field = none ∨ field = some .null := by
  unfold pageOf? at h
  split at h
  · cases h
    simp
  · cases h
    simp
  · next v hnull =>
    obtain ⟨m, -, rfl⟩ := Option.map_eq_some_iff.mp h
    simpa using hnull

theorem page_eq_none_iff {v : Value} {modules page : Option Value} {l : ModuleList}
    (hfields : v.fields? fieldNames = some [modules, page]) (hread : ofJson? v = some l) :
    l.page = none ↔ page = none ∨ page = some .null := by
  rw [ofJson?, hfields] at hread
  cases modules with
  | none => cases hread
  | some modules =>
    change (modules.items?.bind fun items =>
      (items.mapM ModuleSummary.ofJson?).bind fun summaries =>
        (pageOf? page).bind fun page => some (⟨summaries, page⟩ : ModuleList)) = some l at hread
    obtain ⟨items, -, hread⟩ := Option.bind_eq_some_iff.mp hread
    obtain ⟨summaries, -, hread⟩ := Option.bind_eq_some_iff.mp hread
    obtain ⟨found, hfound, hread⟩ := Option.bind_eq_some_iff.mp hread
    cases hread
    exact pageOf?_eq_none_iff hfound

/-- The field of the page is written exactly if there is a page. -/
theorem fields?_meta (l : ModuleList) :
    l.toJson.fields? ["meta"] = some [l.page.map PageMeta.toJson] := by
  rw [fields?_toJson_eq]
  cases l.page <;> rfl

end ModuleList

namespace VersionEntry

theorem legal_toJson (e : VersionEntry) : e.toJson.Legal := by
  refine Value.legal_record ?_
  simp [Value.legal_ofText]

theorem ofJson?_toJson (e : VersionEntry) : ofJson? e.toJson = some e := by
  have hfields : e.toJson.fields? ["version"] = some [some (.ofText e.version)] := by
    rw [toJson, Value.fields?_record (by simp)]
    rfl
  rw [ofJson?, hfields]
  simp

end VersionEntry

namespace ProviderVersions

theorem legal_toJson (p : ProviderVersions) : p.toJson.Legal := by
  refine Value.legal_record ?_
  simp [Value.legal_ofText, Value.legal_array_map VersionEntry.legal_toJson]

theorem ofJson?_toJson (p : ProviderVersions) : ofJson? p.toJson = some p := by
  have hfields : p.toJson.fields? ["source", "versions"] =
      some [some (.ofText p.source), some (.array (p.versions.map VersionEntry.toJson))] := by
    rw [toJson, Value.fields?_record (by simp)]
    rfl
  rw [ofJson?, hfields]
  simp [Value.items?, mapM_map_eq_some VersionEntry.ofJson?_toJson]

end ProviderVersions

namespace VersionList

theorem legal_toJson (l : VersionList) : l.toJson.Legal := by
  refine Value.legal_record ?_
  simp [Value.legal_array_map ProviderVersions.legal_toJson]

theorem ofJson?_toJson (l : VersionList) : ofJson? l.toJson = some l := by
  have hfields : l.toJson.fields? ["modules"] =
      some [some (.array (l.modules.map ProviderVersions.toJson))] := by
    rw [toJson, Value.fields?_record (by simp)]
    rfl
  rw [ofJson?, hfields]
  simp [Value.items?, mapM_map_eq_some ProviderVersions.ofJson?_toJson]

end VersionList

/-! ## Bodies as octets -/

section

variable {α : Type} (toJson : α → Value) (ofJson? : Value → Option α)

/-- The octets that a body is sent as. -/
def encodeBody (a : α) : Bytes := Utf8.encode (toJson a).render

/-- What octets mean as a body. -/
def decodeBody? (octets : Bytes) : Option α := do
  ofJson? (← read? (← Utf8.decode? octets))

/-- Writes what octets mean as a body. -/
def rewriteBody? (octets : Bytes) : Option Bytes :=
  (decodeBody? ofJson? octets).map (encodeBody toJson)

/-- Bodies of a kind are read as what was written, and writing what was read changes nothing the
second time. -/
structure ReadAsWritten : Prop where
  sent : ∀ a, (Response.json (toJson a)).body = .whole (encodeBody toJson a)
  decode_encode : ∀ a, decodeBody? ofJson? (encodeBody toJson a) = some a
  rewrite : ∀ octets once, rewriteBody? toJson ofJson? octets = some once →
    decodeBody? ofJson? once = decodeBody? ofJson? octets ∧
      rewriteBody? toJson ofJson? once = some once

variable {toJson ofJson?}

theorem readAsWritten (hlegal : ∀ a, (toJson a).Legal)
    (hback : ∀ a, ofJson? (toJson a) = some a) : ReadAsWritten toJson ofJson? := by
  have hdecode (a : α) : decodeBody? ofJson? (encodeBody toJson a) = some a := by
    rw [decodeBody?, encodeBody, Utf8.decode?_encode]
    show (read? (toJson a).render).bind ofJson? = some a
    rw [read?_render (hlegal a), Option.bind_some, hback]
  refine ⟨fun a => rfl, hdecode, ?_⟩
  intro octets once honce
  obtain ⟨a, ha, rfl⟩ := Option.map_eq_some_iff.mp honce
  rw [rewriteBody?, hdecode, ha]
  exact ⟨rfl, rfl⟩

end

/-- Every body is read as what was written, whatever texts and lists it holds. A page that is absent
or null is read as none, and the field is written exactly if there is a page. -/
theorem bodies_read_as_written :
    ReadAsWritten ModuleSummary.toJson ModuleSummary.ofJson? ∧
    ReadAsWritten ModuleList.toJson ModuleList.ofJson? ∧
    ReadAsWritten VersionList.toJson VersionList.ofJson? ∧
    (∀ v l modules page, v.fields? ModuleList.fieldNames = some [modules, page] →
      ModuleList.ofJson? v = some l → (l.page = none ↔ page = none ∨ page = some .null)) ∧
    ∀ l : ModuleList, l.toJson.fields? ["meta"] = some [l.page.map PageMeta.toJson] :=
  ⟨readAsWritten ModuleSummary.legal_toJson ModuleSummary.ofJson?_toJson,
    readAsWritten ModuleList.legal_toJson ModuleList.ofJson?_toJson,
    readAsWritten VersionList.legal_toJson VersionList.ofJson?_toJson,
    fun _ _ _ _ => ModuleList.page_eq_none_iff, ModuleList.fields?_meta⟩

/-- A list whose page is null, with its fields in another order. -/
def nullPage : Value := .record [("meta", .null), ("modules", .array [])]

theorem fields?_nullPage :
    nullPage.fields? ModuleList.fieldNames = some [some (.array []), some .null] := by
  rw [nullPage, Value.fields?_record (by simp)]
  rfl

theorem ofJson?_nullPage : ModuleList.ofJson? nullPage = some ⟨[], none⟩ := by
  rw [ModuleList.ofJson?, fields?_nullPage]
  rfl

theorem bodies_read_as_written_nullPage :
    ModuleList.ofJson? nullPage = some ⟨[], none⟩ ∧
      (⟨[], none⟩ : ModuleList).toJson.fields? ["meta"] = some [none] ∧
      ((⟨[], none⟩ : ModuleList).page = none ↔
        some Value.null = none ∨ some Value.null = some .null) :=
  ⟨ofJson?_nullPage, bodies_read_as_written.2.2.2.2 _,
    bodies_read_as_written.2.2.2.1 nullPage _ _ _ fields?_nullPage ofJson?_nullPage⟩

end TagRegistry
