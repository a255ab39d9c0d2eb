import Mathlib.Data.Option.Basic
import TagRegistry.Proofs.FlatModules
import TagRegistry.Proofs.HostnameGrammar
import TagRegistry.Protocol.Body

/-! The texts that clients know modules by.

An id and a source address are put together from parts with slashes between them, and no part has a
slash of its own: those of a coordinate are checked for it, and versions and hostnames are made of
other characters. Cutting such a text at its slashes gives back the parts, and the text of a version
gives back the version, field by field. -/

namespace TagRegistry

open Text

/-! ## Parts without slashes -/

theorem slash_not_mem_of_isSegment {s : String} (h : isSegment s = true) : '/' ∉ s.toList := by
  simp only [isSegment, Bool.and_eq_true, Bool.not_eq_true'] at h
  simpa using h.2

theorem Version.slash_not_mem_chars (v : Version) : '/' ∉ v.chars :=
  fun hmem => absurd (mem_chars hmem) (by decide)

namespace Hostname

theorem slash_not_mem_of_labelFault? {label : List Char} (h : labelFault? label = none) :
    '/' ∉ label := by
  obtain ⟨-, -, -, -, hall⟩ := labelFault?_checks.mp h
  intro hmem
  exact absurd (List.all_eq_true.mp hall '/' hmem) (by decide)

theorem slash_not_mem_of_labels {name : List Char}
    (h : (name.splitOn '.').findSome? labelFault? = none) : '/' ∉ name := by
  intro hmem
  have hdotted : '/' ∈ dotted (name.splitOn '.') := by rwa [dotted_splitOn]
  rcases mem_of_mem_intercalate hdotted with heq | ⟨label, hlabel, hslash⟩
  · cases heq
  · exact slash_not_mem_of_labelFault? (List.findSome?_eq_none_iff.mp h label hlabel) hslash

theorem slash_not_mem_chars (h : Hostname) : '/' ∉ h.chars := by
  -- The type does not say that letters are small, so the grammar of lowered texts does not apply.
  have hlegal := h.legal
  cases hcut : cutLast ':' h.chars with
  | none =>
    have hcolon : ':' ∉ h.chars := (cutLast_eq_none_iff ':' h.chars).mp hcut
    exact slash_not_mem_of_labels ((fault?_of_labels hcolon).mp hlegal)
  | some parts =>
    obtain ⟨name, port⟩ := parts
    obtain ⟨hcolon, hchars⟩ := (cutLast_eq_some_iff ':' h.chars name port).mp hcut
    rw [hchars] at hlegal
    obtain ⟨hlabels, hport⟩ := (fault?_of_labels_port hcolon).mp hlegal
    rw [hchars, List.mem_append, List.mem_cons, not_or, not_or]
    refine ⟨slash_not_mem_of_labels hlabels, by decide, fun hmem => ?_⟩
    exact absurd (char_of_isPort hport '/' hmem) (by decide)

end Hostname

/-! ## Cutting at slashes -/

namespace Coordinate

variable (c : Coordinate)

/-- The parts of a coordinate, as they stand between slashes. -/
def words : List (List Char) := [c.space.toList, c.name.toList, c.provider.toList]

theorem splitOn_text : c.text.toList.splitOn '/' = c.words := by
  obtain ⟨hspace, hname, hprovider⟩ := c.segments
  have htext : c.text.toList =
      c.space.toList ++ '/' :: (c.name.toList ++ '/' :: c.provider.toList) := by
    simp [text]
  rw [htext, List.splitOn_append_cons_self, List.splitOn_append_cons_self,
    List.splitOn_eq_singleton (slash_not_mem_of_isSegment hspace),
    List.splitOn_eq_singleton (slash_not_mem_of_isSegment hname),
    List.splitOn_eq_singleton (slash_not_mem_of_isSegment hprovider)]
  rfl

theorem splitOn_moduleId (v : Version) :
    (c.moduleId v).toList.splitOn '/' = c.words ++ [v.chars] := by
  have hid : (c.moduleId v).toList = c.text.toList ++ '/' :: v.chars := by
    simp [moduleId, Version.render]
  rw [hid, List.splitOn_append_cons_self, c.splitOn_text,
    List.splitOn_eq_singleton v.slash_not_mem_chars]

theorem splitOn_source (h : Hostname) :
    (h.text ++ "/" ++ c.text).toList.splitOn '/' = h.chars :: c.words := by
  have hsource : (h.text ++ "/" ++ c.text).toList = h.chars ++ '/' :: c.text.toList := by
    simp [Hostname.text]
  rw [hsource, List.splitOn_append_cons_self, c.splitOn_text,
    List.splitOn_eq_singleton h.slash_not_mem_chars]
  rfl

end Coordinate

/-! ## What the texts tell -/

theorem Coordinate.eq_iff {c c' : Coordinate} :
    c = c' ↔ c.space = c'.space ∧ c.name = c'.name ∧ c.provider = c'.provider := by
  rw [← Coordinate.parts_injective.eq_iff]
  simp only [parts, Prod.mk.injEq]

theorem Coordinate.words_inj {c c' : Coordinate} : c.words = c'.words ↔ c = c' := by
  rw [Coordinate.eq_iff]
  simp [words, String.toList_inj]

theorem Identifiers.text_injective : Function.Injective Identifiers.text := by
  intro ids ids' h
  cases ids
  cases ids'
  cases String.ofList_injective h
  rfl

/-- Versions are the same if their numbers and the texts of their parts are. -/
theorem Version.eq_iff {v w : Version} :
    v = w ↔ v.segments = w.segments ∧
      v.prerelease.map Identifiers.text = w.prerelease.map Identifiers.text ∧
      v.metadata.map Identifiers.text = w.metadata.map Identifiers.text := by
  have hparts : Function.Injective (Option.map Identifiers.text) :=
    Option.map_injective Identifiers.text_injective
  rw [hparts.eq_iff, hparts.eq_iff]
  cases v
  cases w
  simp only [Version.mk.injEq]

theorem moduleId_inj {c c' : Coordinate} {v v' : Version} :
    c.moduleId v = c'.moduleId v' ↔ c = c' ∧ v = v' := by
  constructor
  · intro h
    have hcut := congrArg (fun id => id.toList.splitOn '/') h
    simp only [Coordinate.splitOn_moduleId] at hcut
    -- The version is one piece behind the others, whatever they are.
    obtain ⟨hwords, hchars⟩ := List.append_inj' hcut rfl
    have hrender : v.render = v'.render := congrArg String.ofList (List.singleton_inj.mp hchars)
    exact ⟨Coordinate.words_inj.mp hwords, Version.render_injective hrender⟩
  · rintro ⟨rfl, rfl⟩
    rfl

theorem source_inj {h h' : Hostname} {c c' : Coordinate} :
    h.text ++ "/" ++ c.text = h'.text ++ "/" ++ c'.text ↔ h.text = h'.text ∧ c = c' := by
  constructor
  · intro heq
    have hcut := congrArg (fun source => source.toList.splitOn '/') heq
    simp only [Coordinate.splitOn_source] at hcut
    obtain ⟨hchars, hwords⟩ := List.cons.inj hcut
    exact ⟨congrArg String.ofList hchars, Coordinate.words_inj.mp hwords⟩
  · rintro ⟨htext, rfl⟩
    rw [htext]

/-- Versions of modules have the same id exactly if their coordinates and the versions themselves
are the same, field by field; so the id stands for all that a summary says. Modules have the same
source address exactly if hostnames and coordinates are the same. -/
theorem module_identity (c c' : Coordinate) (v v' : Version) (h h' : Hostname)
    (versions versions' : List Version) :
    (c.moduleId v = c'.moduleId v' ↔
      (c.space = c'.space ∧ c.name = c'.name ∧ c.provider = c'.provider) ∧
      v.segments = v'.segments ∧
      v.prerelease.map Identifiers.text = v'.prerelease.map Identifiers.text ∧
      v.metadata.map Identifiers.text = v'.metadata.map Identifiers.text) ∧
    ((ModuleSummary.of c v).id = (ModuleSummary.of c' v').id ↔
      ModuleSummary.of c v = ModuleSummary.of c' v') ∧
    ((VersionList.of h.text c versions).modules.map ProviderVersions.source =
        (VersionList.of h'.text c' versions').modules.map ProviderVersions.source ↔
      h.text = h'.text ∧ c.space = c'.space ∧ c.name = c'.name ∧ c.provider = c'.provider) := by
  refine ⟨?_, ⟨fun hid => ?_, congrArg ModuleSummary.id⟩, ?_⟩
  · rw [moduleId_inj, Coordinate.eq_iff, Version.eq_iff]
  · obtain ⟨rfl, rfl⟩ := moduleId_inj.mp hid
    rfl
  · rw [← Coordinate.eq_iff, ← source_inj]
    exact List.singleton_inj

end TagRegistry
