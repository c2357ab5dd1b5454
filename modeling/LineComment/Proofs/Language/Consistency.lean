import LineComment.Language
import LineComment.Proofs.Language.Insert
import LineComment.Proofs.LowerCase
import LineComment.Proofs.Utf8.Reading
import Mathlib.Data.List.Nodup

/-! The maps of a registry agree. The index of extensions says of every language just what its list says, and no
alias is the name of a language, so a marker looked up is the one a reader of the list would choose. Entering a
language keeps this, whatever it is and whatever it takes from the others. -/

namespace LineComment

namespace Registry

/-- An extension as it stands in a list: not empty, no dot in front, and in lower case. -/
structure IsNormal (extension : String) : Prop where
  ne_empty : extension ≠ ""
  not_dot : extension.toList.head? ≠ some '.'
  lowercase : Text.lowercase extension = extension

theorem isNormal_of_mem_usable {extensions : List String} {extension : String} (h : extension ∈ usable extensions) :
    IsNormal extension := by
  obtain ⟨hmem, hne⟩ := List.mem_filter.mp h
  obtain ⟨given, -, rfl⟩ := List.mem_map.mp hmem
  refine ⟨bne_iff_ne.mp hne, ?_, Text.lowercase_lowercase _⟩
  intro hdot
  rw [normalExtension, Text.toList_lowercase, String.toList_ofList, List.head?_map, Option.map_eq_some_iff] at hdot
  obtain ⟨c, hc, hlower⟩ := hdot
  rw [Text.toLower_eq_iff (by decide)] at hlower
  have hhead := List.head?_dropWhile_not (· == '.') given.toList
  rw [hc, hlower] at hhead
  exact absurd hhead (by decide)

theorem mem_claimed {registry : Registry} {name extension : String} {extensions : List String}
    (h : extension ∈ registry.claimed name extensions) :
    extension ∈ registry.listed name ∨ extension ∈ usable extensions := by
  rw [claimed] at h
  split_ifs at h
  · exact .inl h
  · exact .inr h

/-- What holds of a registry whose maps agree. -/
structure Consistent (registry : Registry) : Prop where
  sorted : registry.languages.Pairwise (·.name < ·.name)
  names : ∀ name, (registry.get? name).isSome → Text.lowercase name = name
  extensions : ∀ name extension, extension ∈ registry.listed name → IsNormal extension
  owners : ∀ extension name, registry.owners.lookup extension = some name ↔ extension ∈ registry.listed name
  aliases : ∀ text name, registry.aliases.lookup text = some name →
    registry.get? text = none ∧ (registry.get? name).isSome
  aliasTexts : ∀ text name, registry.aliases.lookup text = some name →
    Text.lowercase text = text ∧ Text.trim text.toList = text.toList

theorem consistent_empty : Consistent {} where
  sorted := .nil
  names := by simp [get?]
  extensions := by simp [listed, get?]
  owners := by simp [listed, get?]
  aliases := by simp
  aliasTexts := by simp

variable {registry : Registry}

theorem isSome_get?_insert (name : String) (marker : Marker) (extensions : List String) (other : String) :
    ((registry.insert name marker extensions).get? other).isSome ↔
      other = Text.lowercase name ∨ (registry.get? other).isSome := by
  rw [get?_insert]
  split_ifs with hother
  · simp [hother]
  · simp [hother]

namespace Consistent

/-- After an insertion the index of extensions and the lists of the languages agree again. -/
theorem lookup_owners_insert_iff (h : registry.Consistent) {name : String} {marker : Marker}
    {extensions : List String} {extension other : String} :
    (registry.insert name marker extensions).owners.lookup extension = some other ↔
      extension ∈ (registry.insert name marker extensions).listed other := by
  rw [lookup_owners_insert, mem_listed_insert]
  by_cases hclaimed : extension ∈ registry.claimed (Text.lowercase name) extensions
  · -- It stands under the new name, and was taken away from whoever had it.
    rw [if_pos hclaimed]
    split_ifs with hother
    · simp [hclaimed, hother]
    · refine iff_of_false (fun howner => hother (Option.some.inj howner).symm) ?_
      rintro ⟨hlisted, hkept⟩
      exact hkept ⟨hclaimed, (h.owners _ _).mpr hlisted⟩
  · rw [if_neg hclaimed]
    split_ifs with hold hother hother
    · simp [hclaimed]
    · refine iff_of_false (by simp) ?_
      rintro ⟨hlisted, -⟩
      have howner := (h.owners _ _).mpr hlisted
      rw [(h.owners _ _).mpr hold] at howner
      exact hother (Option.some.inj howner).symm
    · refine iff_of_false (fun howner => hold ?_) hclaimed
      rw [← hother]
      exact (h.owners _ _).mp howner
    · rw [h.owners]
      simp [hclaimed]

theorem insert (h : registry.Consistent) (name : String) (marker : Marker) (extensions : List String) :
    (registry.insert name marker extensions).Consistent where
  sorted := pairwise_insert registry name marker extensions h.sorted
  names := by
    intro other hother
    rcases (isSome_get?_insert name marker extensions other).mp hother with rfl | hother
    · exact Text.lowercase_lowercase name
    · exact h.names other hother
  extensions := by
    intro other extension hlisted
    rw [mem_listed_insert] at hlisted
    split_ifs at hlisted
    · rcases mem_claimed hlisted with hlisted | hgiven
      · exact h.extensions _ _ hlisted
      · exact isNormal_of_mem_usable hgiven
    · exact h.extensions _ _ hlisted.1
  owners := fun _ _ => h.lookup_owners_insert_iff
  aliases := by
    intro text other halias
    rw [lookup_aliases_insert] at halias
    split_ifs at halias with htext
    obtain ⟨hfree, hother⟩ := h.aliases text other halias
    rw [get?_insert, if_neg htext, hfree]
    exact ⟨rfl, (isSome_get?_insert name marker extensions other).mpr (.inr hother)⟩
  aliasTexts := by
    intro text other halias
    rw [lookup_aliases_insert] at halias
    split_ifs at halias
    exact h.aliasTexts text other halias

theorem addAlias (h : registry.Consistent) {text name : String} (hfree : registry.get? text = none)
    (hname : (registry.get? name).isSome) (hlower : Text.lowercase text = text)
    (htrim : Text.trim text.toList = text.toList) : (registry.addAlias text name).Consistent where
  sorted := h.sorted
  names := h.names
  extensions := h.extensions
  owners := h.owners
  aliases := by
    intro other target halias
    rw [Registry.addAlias, NameIndex.lookup_assign] at halias
    split_ifs at halias with hother
    · cases halias
      rw [hother]
      exact ⟨hfree, hname⟩
    · exact h.aliases other target halias
  aliasTexts := by
    intro other target halias
    rw [Registry.addAlias, NameIndex.lookup_assign] at halias
    split_ifs at halias with hother
    · rw [hother]
      exact ⟨hlower, htrim⟩
    · exact h.aliasTexts other target halias

end Consistent

/-- The names of the built-in languages. -/
def builtinNames : List String := BuiltinLanguage.table.map fun language => language.name

theorem lowercase_of_mem_table : ∀ language ∈ BuiltinLanguage.table, Text.lowercase language.name = language.name := by
  decide +kernel

/-- No other name of a built-in language is the name of one. -/
theorem aliases_of_mem_table : ∀ language ∈ BuiltinLanguage.table, ∀ text ∈ language.aliases,
    text ∉ builtinNames ∧ Text.lowercase text = text ∧ Text.trim text.toList = text.toList := by
  decide +kernel

/-- A registry on the way to that of the built-in languages. -/
structure Building (registry : Registry) : Prop where
  consistent : registry.Consistent
  names : ∀ name, (registry.get? name).isSome → name ∈ builtinNames

theorem Building.insertBuiltin (h : Building registry) {language : BuiltinLanguage}
    (hlanguage : language ∈ BuiltinLanguage.table) : Building (registry.insertBuiltin language) := by
  have hlower := lowercase_of_mem_table language hlanguage
  have hentered : Building (registry.insert language.name language.marker language.extensions) := by
    refine ⟨h.consistent.insert _ _ _, fun name hname => ?_⟩
    rcases (isSome_get?_insert _ _ _ name).mp hname with rfl | hname
    · rw [hlower]
      exact List.mem_map_of_mem hlanguage
    · exact h.names name hname
  have hname : ((registry.insert language.name language.marker language.extensions).get? language.name).isSome :=
    (isSome_get?_insert _ _ _ _).mpr (.inl hlower.symm)
  rw [Registry.insertBuiltin]
  refine (List.foldlRecOn (motive := fun registry => Building registry ∧ (registry.get? language.name).isSome)
    _ _ ⟨hentered, hname⟩ ?_).1
  rintro registry ⟨hbuilding, hname⟩ text htext
  obtain ⟨hfree, htextLower, htrim⟩ := aliases_of_mem_table language hlanguage text htext
  have hnone : registry.get? text = none := by
    by_contra hsome
    exact hfree (hbuilding.names text (Option.isSome_iff_ne_none.mpr hsome))
  exact ⟨⟨hbuilding.consistent.addAlias hnone hname htextLower htrim, hbuilding.names⟩, hname⟩

theorem consistent_builtin : builtin.Consistent := by
  refine Building.consistent (List.foldlRecOn _ _ ⟨consistent_empty, by simp [get?]⟩ ?_)
  exact fun registry h language hlanguage => h.insertBuiltin hlanguage

/-- The registries that entering languages makes of the built-in one. -/
inductive Reachable : Registry → Prop
  | builtin : Reachable builtin
  | insert {registry : Registry} (h : Reachable registry) (name : String) (marker : Marker)
      (extensions : List String) : Reachable (registry.insert name marker extensions)

theorem Reachable.consistent (h : registry.Reachable) : registry.Consistent := by
  induction h with
  | builtin => exact consistent_builtin
  | insert _ name marker extensions ih => exact ih.insert name marker extensions

/-- A path has the marker of the language that has its extension. -/
theorem byPath_eq {path : Path} {text : List Char} (hpath : path.extension? = some (Utf8.encode text)) :
    registry.byPath path =
      match (registry.owners.lookup (Text.lowercase (String.ofList text))).bind registry.markerOf? with
      | some marker => .ok marker
      | none => .error (.unsupportedExtension ("." ++ String.ofList text)) := by
  have hdecode : path.extension?.bind Utf8.decode? = some text := by
    rw [hpath, Option.bind_some, Utf8.decode?_eq_some_iff.mpr rfl]
  rw [byPath, hdecode]
  dsimp only [owner?]
  cases registry.owners.lookup (Text.lowercase (String.ofList text)) with
  | none => rfl
  | some name =>
      rw [Option.bind_some, Option.bind_some, markerOf?]
      cases registry.get? name <;> rfl

/-- A name has the marker of the language that it or the alias it is stands for. -/
theorem byName_eq (name : String) :
    let key := Text.lowercase (String.ofList (Text.trim name.toList))
    registry.byName name =
      match registry.markerOf? ((registry.aliases.lookup key).getD key) with
      | some marker => .ok marker
      | none => .error (.unsupportedLanguage name) := by
  intro key
  rw [byName, markerOf?]
  cases registry.get? ((registry.aliases.lookup key).getD key) <;> rfl

namespace Consistent

theorem mem_languages_iff (h : registry.Consistent) {language : Language} :
    language ∈ registry.languages ↔ registry.get? language.name = some language := by
  constructor
  · intro hmem
    have hnames : (registry.languages.map Language.name).Nodup :=
      List.pairwise_map.mpr (h.sorted.imp fun hless => ne_of_lt hless)
    have hfound : (registry.get? language.name).isSome :=
      List.find?_isSome.mpr ⟨language, hmem, beq_self_eq_true _⟩
    obtain ⟨found, hfound⟩ := Option.isSome_iff_exists.mp hfound
    rw [hfound, List.inj_on_of_nodup_map hnames (List.mem_of_find?_eq_some hfound) hmem (name_eq_of_get? hfound)]
  · exact List.mem_of_find?_eq_some

theorem mem_listed (h : registry.Consistent) {language : Language} (hmem : language ∈ registry.languages)
    {extension : String} (hextension : extension ∈ language.extensions) : extension ∈ registry.listed language.name :=
  (mem_listed_iff _ _ _).mpr ⟨language, h.mem_languages_iff.mp hmem, hextension⟩

/-- The index leads to the language that lists an extension. -/
theorem owner?_eq_some_iff (h : registry.Consistent) {extension : String} {language : Language} :
    registry.owner? extension = some language ↔
      language ∈ registry.languages ∧ extension ∈ language.extensions := by
  rw [owner?, Option.bind_eq_some_iff]
  constructor
  · rintro ⟨name, howner, hlanguage⟩
    obtain ⟨found, hfound, hextension⟩ := (mem_listed_iff _ _ _).mp ((h.owners extension name).mp howner)
    obtain rfl : found = language := Option.some.inj (hfound.symm.trans hlanguage)
    exact ⟨List.mem_of_find?_eq_some hlanguage, hextension⟩
  · rintro ⟨hmem, hextension⟩
    exact ⟨language.name, (h.owners _ _).mpr (h.mem_listed hmem hextension), h.mem_languages_iff.mp hmem⟩

theorem eq_of_mem_extensions (h : registry.Consistent) {first second : Language} {extension : String}
    (hfirst : first ∈ registry.languages) (hsecond : second ∈ registry.languages)
    (hextension : extension ∈ first.extensions) (hagain : extension ∈ second.extensions) : first = second :=
  Option.some.inj <| (h.owner?_eq_some_iff.mpr ⟨hfirst, hextension⟩).symm.trans
    (h.owner?_eq_some_iff.mpr ⟨hsecond, hagain⟩)

theorem byPath_eq_ok_iff (h : registry.Consistent) {path : Path} {marker : Marker} :
    registry.byPath path = .ok marker ↔
      ∃ extension, path.extension? = some (Utf8.encode extension) ∧ ∃ language ∈ registry.languages,
        Text.lowercase (String.ofList extension) ∈ language.extensions ∧ language.marker = marker := by
  have hdecoded : ∀ text, path.extension?.bind Utf8.decode? = some text ↔
      path.extension? = some (Utf8.encode text) := by
    intro text
    simp only [Option.bind_eq_some_iff, Utf8.decode?_eq_some_iff]
    constructor
    · rintro ⟨_, hextension, rfl⟩
      exact hextension
    · exact fun hextension => ⟨_, hextension, rfl⟩
  simp only [← hdecoded, byPath]
  cases path.extension?.bind Utf8.decode? with
  | none => simp
  | some text =>
      dsimp only
      cases howner : registry.owner? (Text.lowercase (String.ofList text)) with
      | none =>
          refine iff_of_false (by simp) ?_
          rintro ⟨_, ⟨⟩, language, hmem, hextension, -⟩
          rw [h.owner?_eq_some_iff.mpr ⟨hmem, hextension⟩] at howner
          cases howner
      | some language =>
          obtain ⟨hmem, hextension⟩ := h.owner?_eq_some_iff.mp howner
          constructor
          · intro hmarker
            exact ⟨text, rfl, language, hmem, hextension, Except.ok.inj hmarker⟩
          · rintro ⟨_, ⟨⟩, other, hother, hagain, rfl⟩
            rw [h.eq_of_mem_extensions hmem hother hextension hagain]

/-- A name in any case and between blanks is read as the name. -/
theorem byName_eq_ok (h : registry.Consistent) {language : Language} (hmem : language ∈ registry.languages)
    (htrim : Text.trim language.name.toList = language.name.toList) {front word back : List Char}
    (hfront : ∀ c ∈ front, Text.isBlank c) (hback : ∀ c ∈ back, Text.isBlank c)
    (hword : Text.lowercase (String.ofList word) = language.name) :
    registry.byName (String.ofList (front ++ (word ++ back))) = .ok language.marker := by
  have hlower : word.map Char.toLower = language.name.toList := by
    rw [← hword, Text.toList_lowercase, String.toList_ofList]
  have hkey : Text.lowercase (String.ofList (Text.trim (front ++ (word ++ back)))) = language.name := by
    rw [Text.trim_between hfront hback, Text.lowercase, String.toList_ofList, ← Text.trim_map_toLower, hlower, htrim,
      String.ofList_toList]
  have hfound := h.mem_languages_iff.mp hmem
  have halias : registry.aliases.lookup language.name = none := by
    by_contra hsome
    obtain ⟨target, htarget⟩ := Option.ne_none_iff_exists'.mp hsome
    rw [(h.aliases _ _ htarget).1] at hfound
    cases hfound
  rw [byName, String.toList_ofList, hkey, halias, Option.getD_none, hfound]

/-- Every alias stands for a language. -/
theorem byName_alias (h : registry.Consistent) {text name : String}
    (halias : registry.aliases.lookup text = some name) :
    ∃ language ∈ registry.languages, language.name = name ∧ registry.byName text = .ok language.marker := by
  obtain ⟨language, hlanguage⟩ := Option.isSome_iff_exists.mp (h.aliases _ _ halias).2
  obtain ⟨hlower, htrim⟩ := h.aliasTexts _ _ halias
  refine ⟨language, List.mem_of_find?_eq_some hlanguage, name_eq_of_get? hlanguage, ?_⟩
  rw [byName, htrim, String.ofList_toList, hlower, halias, Option.getD_some, hlanguage]

end Consistent

theorem unsupportedExtension_of_byPath {path : Path} {error : Error} (h : registry.byPath path = .error error) :
    ∃ text, error = .unsupportedExtension text := by
  rw [byPath] at h
  split at h
  · exact ⟨_, (Except.error.inj h).symm⟩
  · dsimp only at h
    split at h
    · cases h
    · exact ⟨_, (Except.error.inj h).symm⟩

/-- Whatever languages are entered, the lookups say what the list of languages says. Every extension is in the list
of one language at most. A path has a marker exactly if its extension is UTF-8 and a language lists it in lower case,
and it is that language's marker. A language is found by its name in any case and between blanks, since no
alias is the name of a language; and every alias stands for one. -/
theorem lookups_agree (h : registry.Reachable) :
    registry.languages.Pairwise (·.name < ·.name) ∧
    (∀ first ∈ registry.languages, ∀ second ∈ registry.languages, ∀ extension,
      extension ∈ first.extensions → extension ∈ second.extensions → first = second) ∧
    (∀ language ∈ registry.languages, (∀ c ∈ language.name.toList, ¬c.isUpper) ∧
      ∀ extension ∈ language.extensions,
        extension ≠ "" ∧ extension.toList.head? ≠ some '.' ∧ ∀ c ∈ extension.toList, ¬c.isUpper) ∧
    (∀ path marker, registry.byPath path = .ok marker ↔
      ∃ extension, path.extension? = some (Utf8.encode extension) ∧ ∃ language ∈ registry.languages,
        Text.lowercase (String.ofList extension) ∈ language.extensions ∧ language.marker = marker) ∧
    (∀ path error, registry.byPath path = .error error → ∃ text, error = .unsupportedExtension text) ∧
    (∀ language ∈ registry.languages, Text.trim language.name.toList = language.name.toList →
      ∀ front word back : List Char, (∀ c ∈ front, Text.isBlank c) → (∀ c ∈ back, Text.isBlank c) →
        Text.lowercase (String.ofList word) = language.name →
        registry.byName (String.ofList (front ++ (word ++ back))) = .ok language.marker) ∧
    ∀ text name, registry.aliases.lookup text = some name →
      (∀ language ∈ registry.languages, language.name ≠ text) ∧
      ∃ language ∈ registry.languages, language.name = name ∧ registry.byName text = .ok language.marker := by
  have hconsistent := h.consistent
  refine ⟨hconsistent.sorted, fun first hfirst second hsecond extension hextension hagain =>
    hconsistent.eq_of_mem_extensions hfirst hsecond hextension hagain,
    fun language hmem => ⟨?_, fun extension hext => ?_⟩,
    fun path marker => hconsistent.byPath_eq_ok_iff, fun path error => unsupportedExtension_of_byPath,
    fun language hmem htrim front word back hfront hback => hconsistent.byName_eq_ok hmem htrim hfront hback,
    fun text name halias => ⟨fun language hmem hname => ?_, hconsistent.byName_alias halias⟩⟩
  · refine Text.lowercase_eq_self_iff.mp (hconsistent.names _ ?_)
    rw [hconsistent.mem_languages_iff.mp hmem]
    rfl
  · obtain ⟨hne, hdot, hlower⟩ := hconsistent.extensions _ _ (hconsistent.mem_listed hmem hext)
    exact ⟨hne, hdot, Text.lowercase_eq_self_iff.mp hlower⟩
  · have hfree := (hconsistent.aliases _ _ halias).1
    rw [← hname, hconsistent.mem_languages_iff.mp hmem] at hfree
    cases hfree

/-- A language that takes an alias for its name and extensions from two others. -/
theorem lookups_agree_taken :
    let registry := builtin.insert "Py" (.simple ";") [".JS", "sh"]
    registry.byPath (.ofString "a.js") = .ok (.simple ";") ∧ registry.byPath (.ofString "a.bash") = .ok (.simple "#") ∧
      registry.byName " PY\t" = .ok (.simple ";") ∧ registry.byName "python" = .ok (.simple "#") := by
  intro registry
  obtain ⟨-, -, -, hpath, -, hname, -⟩ := lookups_agree (.insert .builtin "Py" (.simple ";") [".JS", "sh"])
  obtain ⟨hpy, hbash, hpython⟩ : (⟨"py", .simple ";", ["js", "sh"]⟩ : Language) ∈ registry.languages ∧
      (⟨"bash", .simple "#", ["bash"]⟩ : Language) ∈ registry.languages ∧
      (⟨"python", .simple "#", ["py"]⟩ : Language) ∈ registry.languages := by
    decide +kernel
  refine ⟨(hpath _ _).mpr ⟨['j', 's'], by decide +kernel, _, hpy, by decide +kernel, rfl⟩,
    (hpath _ _).mpr ⟨['b', 'a', 's', 'h'], by decide +kernel, _, hbash, by decide +kernel, rfl⟩,
    hname _ hpy (by decide +kernel) [' '] ['P', 'Y'] ['\t'] (List.forall_mem_singleton.mpr (by decide))
      (List.forall_mem_singleton.mpr (by decide)) (by decide +kernel),
    hname _ hpython (by decide +kernel) [] "python".toList [] (by simp) (by simp) (by decide +kernel)⟩

end Registry

end LineComment
