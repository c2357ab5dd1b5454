import LineComment.Language
import LineComment.Proofs.Lists
import Mathlib.Data.String.Basic

/-! What entering a language makes of a registry. A registry is asked in three ways: for the language of a name,
for the name behind an alias, and for the name under which an extension stands in the index. For each of them there is
one equation here, and it holds of every registry, whether or not its maps agree with each other. -/

namespace LineComment

namespace NameIndex

theorem lookup_without (index : NameIndex) (key text : String) :
    (index.without key).lookup text = if text = key then none else index.lookup text := by
  rw [without, lookup_filter index (fun item => item != key)]
  by_cases htext : text = key
  · rw [if_pos htext, if_neg (by simpa using htext)]
  · rw [if_neg htext, if_pos (by simpa using htext)]

theorem lookup_assign (index : NameIndex) (key name text : String) :
    (index.assign key name).lookup text = if text = key then some name else index.lookup text := by
  rw [assign, lookup_cons_ite, lookup_without]
  split_ifs <;> rfl

theorem lookup_foldl_without (index : NameIndex) (keys : List String) (text : String) :
    (keys.foldl without index).lookup text = if text ∈ keys then none else index.lookup text := by
  induction keys generalizing index with
  | nil => rfl
  | cons key keys ih =>
      rw [List.foldl_cons, ih, lookup_without]
      by_cases htext : text = key
      · simp [htext]
      · simp [htext]

end NameIndex

namespace Registry

variable (registry : Registry) (name other extension : String) (marker : Marker) (extensions : List String)

theorem find?_cons_name (item : Language) (languages : List Language) (name : String) :
    ((item :: languages).find? fun other => other.name == name) =
      if name = item.name then some item else languages.find? fun other => other.name == name := by
  rw [List.find?_cons]
  by_cases hname : name = item.name
  · rw [if_pos hname, beq_iff_eq.mpr hname.symm]
  · rw [if_neg hname, beq_false_of_ne (Ne.symm hname)]

/-- Among languages in any order, the one that was placed is found by its name, and every other one as before. -/
theorem find?_place (language : Language) (languages : List Language) (name : String) :
    ((place language languages).find? fun other => other.name == name) =
      if name = language.name then some language else languages.find? fun other => other.name == name := by
  induction languages with
  | nil => rw [place, find?_cons_name]
  | cons item languages ih =>
      by_cases hitem : language.name = item.name
      · rw [place, if_pos hitem, find?_cons_name, find?_cons_name, hitem]
        split_ifs <;> rfl
      · by_cases hless : language.name < item.name
        · rw [place, if_neg hitem, if_pos hless, find?_cons_name]
        · rw [place, if_neg hitem, if_neg hless, find?_cons_name, find?_cons_name, ih]
          split_ifs with hname hlanguage
          · exact absurd (hlanguage.symm.trans hname) hitem
          · rfl
          · rfl
          · rfl

theorem mem_of_mem_place {language item : Language} {languages : List Language} (h : item ∈ place language languages) :
    item = language ∨ item ∈ languages := by
  induction languages with
  | nil => exact .inl (List.mem_singleton.mp h)
  | cons first languages ih =>
      rw [place] at h
      split_ifs at h with hfirst hless
      · exact (List.mem_cons.mp h).imp_right (List.mem_cons_of_mem first)
      · exact List.mem_cons.mp h
      · rcases List.mem_cons.mp h with rfl | hrest
        · exact .inr List.mem_cons_self
        · exact (ih hrest).imp_right (List.mem_cons_of_mem first)

/-- A language is placed where the order of the names wants it. -/
theorem pairwise_place (language : Language) {languages : List Language}
    (h : languages.Pairwise (·.name < ·.name)) : (place language languages).Pairwise (·.name < ·.name) := by
  induction languages with
  | nil => exact List.pairwise_singleton _ _
  | cons first languages ih =>
      obtain ⟨hfirst, hrest⟩ := List.pairwise_cons.mp h
      rw [place]
      split_ifs with hname hless
      · exact List.pairwise_cons.mpr ⟨fun item hitem => hname ▸ hfirst item hitem, hrest⟩
      · refine List.pairwise_cons.mpr ⟨fun item hitem => ?_, h⟩
        rcases List.mem_cons.mp hitem with rfl | hitem
        · exact hless
        · exact hless.trans (hfirst item hitem)
      · refine List.pairwise_cons.mpr ⟨fun item hitem => ?_, ih hrest⟩
        rcases mem_of_mem_place hitem with rfl | hitem
        · exact lt_of_le_of_ne (not_lt.mp hless) fun h => hname h.symm
        · exact hfirst item hitem

theorem name_eq_of_get? {registry : Registry} {name : String} {language : Language}
    (h : registry.get? name = some language) :
    language.name = name := by
  simpa using List.find?_some h

theorem mem_listed_iff :
    extension ∈ registry.listed name ↔ ∃ language, registry.get? name = some language ∧
      extension ∈ language.extensions := by
  rw [listed]
  cases registry.get? name <;> simp

theorem owners_claim (text : String) :
    (claim name registry extension).owners.lookup text =
      if text = extension then some name else registry.owners.lookup text :=
  NameIndex.lookup_assign registry.owners extension name text

theorem owners_foldl_claim (text : String) :
    (extensions.foldl (claim name) registry).owners.lookup text =
      if text ∈ extensions then some name else registry.owners.lookup text := by
  induction extensions generalizing registry with
  | nil => rfl
  | cons extension extensions ih =>
      rw [List.foldl_cons, ih, owners_claim]
      by_cases htext : text = extension
      · simp [htext]
      · simp [htext]

/-- What is left of a language once another name has claimed some extensions: those of them that stand in the index
under its own name are gone. -/
def yielded (name : String) (index : NameIndex) (extensions : List String) (language : Language) : Language :=
  { language with
    extensions := language.extensions.filter fun extension =>
      ¬(extension ∈ extensions ∧ index.lookup extension = some language.name ∧ language.name ≠ name) }

theorem yielded_nil (index : NameIndex) (language : Language) : yielded name index [] language = language := by
  simp [yielded]

theorem yielded_singleton (index : NameIndex) (language : Language) :
    yielded name index [extension] language =
      if index.lookup extension = some language.name ∧ language.name ≠ name then release extension language
      else language := by
  rw [yielded]
  split_ifs with howner
  · rw [release]
    congr 1
    refine List.filter_congr fun item _ => ?_
    by_cases hitem : item = extension <;> simp [hitem, howner]
  · congr 1
    refine List.filter_eq_self.mpr fun item _ => ?_
    rw [decide_eq_true_iff]
    rintro ⟨hmem, hitem⟩
    rw [List.mem_singleton.mp hmem] at hitem
    exact howner hitem

theorem yielded_cons (index : NameIndex) (language : Language) :
    yielded name (index.assign extension name) extensions (yielded name index [extension] language) =
      yielded name index (extension :: extensions) language := by
  simp only [yielded, List.filter_filter]
  congr 1
  refine List.filter_congr fun item _ => ?_
  rw [NameIndex.lookup_assign]
  by_cases hitem : item = extension
  · simp [hitem, eq_comm]
  · simp [hitem]

theorem languages_claim :
    (claim name registry extension).languages = registry.languages.map (yielded name registry.owners [extension]) := by
  have hself :
      (∀ language : Language, ¬(registry.owners.lookup extension = some language.name ∧ language.name ≠ name)) →
      registry.languages = registry.languages.map (yielded name registry.owners [extension]) := by
    intro hnone
    refine (List.map_id'' (fun language => ?_) _).symm
    rw [yielded_singleton, if_neg (hnone language)]
  rw [claim]
  cases howner : registry.owners.lookup extension with
  | none => exact hself fun language h => by simp [howner] at h
  | some previous =>
      dsimp only
      by_cases hprevious : previous = name
      · rw [if_pos hprevious]
        refine hself fun language h => h.2 ?_
        rw [howner] at h
        exact (Option.some.inj h.1).symm.trans hprevious
      · rw [if_neg hprevious]
        refine List.map_congr_left fun language _ => ?_
        rw [yielded_singleton, howner]
        refine if_congr ⟨?_, ?_⟩ rfl rfl
        · rintro rfl
          exact ⟨rfl, hprevious⟩
        · rintro ⟨hlanguage, -⟩
          exact (Option.some.inj hlanguage).symm

theorem languages_foldl_claim :
    (extensions.foldl (claim name) registry).languages =
      registry.languages.map (yielded name registry.owners extensions) := by
  induction extensions generalizing registry with
  | nil => exact (List.map_id'' (yielded_nil name registry.owners) _).symm
  | cons extension extensions ih =>
      rw [List.foldl_cons, ih, languages_claim, List.map_map]
      exact List.map_congr_left fun language _ => yielded_cons name extension extensions registry.owners language

theorem aliases_foldl_claim : (extensions.foldl (claim name) registry).aliases = registry.aliases := by
  induction extensions generalizing registry with
  | nil => rfl
  | cons extension extensions ih =>
      rw [List.foldl_cons, ih]
      rfl

theorem lookup_disown (kept : List String) (text : String) :
    (registry.disown name kept).owners.lookup text =
      if text ∈ registry.listed name ∧ text ∉ kept then none else registry.owners.lookup text := by
  rw [disown, NameIndex.lookup_foldl_without]
  simp

/-- No extension that is kept leaves the index. -/
theorem yielded_disown (kept : List String) :
    yielded name (registry.disown name kept).owners kept = yielded name registry.owners kept := by
  funext language
  rw [yielded, yielded]
  congr 1
  refine List.filter_congr fun text _ => ?_
  rw [lookup_disown]
  by_cases htext : text ∈ kept <;> simp [htext]

theorem lookup_aliases_insert (text : String) :
    (registry.insert name marker extensions).aliases.lookup text =
      if text = Text.lowercase name then none else registry.aliases.lookup text := by
  rw [insert, aliases_foldl_claim, NameIndex.lookup_without]
  rfl

/-- Afterwards the index has the extensions of the language under its name, and no longer those it had before. -/
theorem lookup_owners_insert (text : String) :
    (registry.insert name marker extensions).owners.lookup text =
      if text ∈ registry.claimed (Text.lowercase name) extensions then some (Text.lowercase name)
      else if text ∈ registry.listed (Text.lowercase name) then none else registry.owners.lookup text := by
  rw [insert, owners_foldl_claim, lookup_disown]
  by_cases hclaimed : text ∈ registry.claimed (Text.lowercase name) extensions
  · rw [if_pos hclaimed, if_pos hclaimed]
  · simp only [hclaimed, not_false_eq_true, and_true]

theorem languages_insert :
    (registry.insert name marker extensions).languages =
      place ⟨Text.lowercase name, marker, registry.claimed (Text.lowercase name) extensions⟩
        (registry.languages.map
          (yielded (Text.lowercase name) registry.owners (registry.claimed (Text.lowercase name) extensions))) := by
  rw [← yielded_disown]
  exact congrArg (place _) (languages_foldl_claim _ _ _)

/-- The language is found by its name, and of every other one what it has not lost to it. -/
theorem get?_insert (other : String) :
    (registry.insert name marker extensions).get? other =
      if other = Text.lowercase name then
        some ⟨Text.lowercase name, marker, registry.claimed (Text.lowercase name) extensions⟩
      else (registry.get? other).map
        (yielded (Text.lowercase name) registry.owners (registry.claimed (Text.lowercase name) extensions)) := by
  rw [get?, languages_insert, find?_place, List.find?_map]
  rfl

/-- The marker of the language of this name. -/
def markerOf? (registry : Registry) (name : String) : Option Marker := (registry.get? name).map Language.marker

theorem markerOf?_insert (other : String) :
    (registry.insert name marker extensions).markerOf? other =
      if other = Text.lowercase name then some marker else registry.markerOf? other := by
  rw [markerOf?, get?_insert]
  split_ifs
  · rfl
  · rw [Option.map_map]
    rfl

theorem pairwise_insert (h : registry.languages.Pairwise (·.name < ·.name)) :
    (registry.insert name marker extensions).languages.Pairwise (·.name < ·.name) := by
  rw [languages_insert]
  exact pairwise_place _ (List.pairwise_map.mpr h)

/-- The language has the extensions it claimed, and every other one those of its own that were not claimed. -/
theorem mem_listed_insert (other text : String) :
    text ∈ (registry.insert name marker extensions).listed other ↔
      if other = Text.lowercase name then text ∈ registry.claimed (Text.lowercase name) extensions
      else text ∈ registry.listed other ∧
        ¬(text ∈ registry.claimed (Text.lowercase name) extensions ∧ registry.owners.lookup text = some other) := by
  rw [mem_listed_iff, get?_insert]
  split_ifs with hother
  · simp
  · rw [mem_listed_iff]
    constructor
    · rintro ⟨language, hlanguage, htext⟩
      obtain ⟨old, hold, rfl⟩ := Option.map_eq_some_iff.mp hlanguage
      obtain ⟨htext, hkept⟩ := List.mem_filter.mp htext
      refine ⟨⟨old, hold, htext⟩, ?_⟩
      rintro ⟨hclaimed, howner⟩
      rw [decide_eq_true_iff, name_eq_of_get? hold] at hkept
      exact hkept ⟨hclaimed, howner, hother⟩
    · rintro ⟨⟨old, hold, htext⟩, hkept⟩
      refine ⟨_, Option.map_eq_some_iff.mpr ⟨old, hold, rfl⟩, List.mem_filter.mpr ⟨htext, ?_⟩⟩
      rw [decide_eq_true_iff, name_eq_of_get? hold]
      rintro ⟨hclaimed, howner, -⟩
      exact hkept ⟨hclaimed, howner⟩

end Registry

end LineComment
