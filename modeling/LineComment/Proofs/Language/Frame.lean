import LineComment.Proofs.Language.Consistency

/-! What entering a language changes in a registry, and that it changes nothing else. The language stands under its name
with the extensions it was given, or with those it had if it was given none; the others lose to it what it claims; and
what is looked up by path or by name afterwards differs from before only where it has to. -/

namespace LineComment.Registry

variable {registry : Registry} {languages : List Language} {language : Language} {name extension : String}
  {marker : Marker} {extensions : List String}

theorem filter_name_eq (hsorted : languages.Pairwise (·.name < ·.name)) (hmem : language ∈ languages) :
    languages.filter (fun other => other.name == language.name) = [language] := by
  induction languages with
  | nil => cases hmem
  | cons first rest ih =>
      obtain ⟨hfirst, hrest⟩ := List.pairwise_cons.mp hsorted
      rcases List.mem_cons.mp hmem with rfl | hmem
      · have hnone : ∀ other ∈ rest, ¬(other.name == language.name) := fun other hother hsame =>
          absurd (hfirst other hother) (by rw [beq_iff_eq.mp hsame]; exact lt_irrefl _)
        rw [List.filter_cons, if_pos (beq_self_eq_true _), List.filter_eq_nil_iff.mpr hnone]
      · have hne : ¬(first.name == language.name) := fun hsame =>
          absurd (hfirst language hmem) (by rw [beq_iff_eq.mp hsame]; exact lt_irrefl _)
        rw [List.filter_cons, if_neg hne, ih hrest hmem]

/-- Whoever leaves the placed language out of account sees no difference. -/
theorem filter_name_ne_place (language : Language) (languages : List Language) :
    (place language languages).filter (fun other => other.name != language.name) =
      languages.filter fun other => other.name != language.name := by
  have hself : ¬(language.name != language.name) := by simp
  induction languages with
  | nil => rw [place, List.filter_cons, if_neg hself]
  | cons first rest ih =>
      rw [place]
      split_ifs with hsame hless
      · rw [List.filter_cons, if_neg hself, List.filter_cons, if_neg (by simp [hsame])]
      · rw [List.filter_cons, if_neg hself]
      · rw [List.filter_cons, List.filter_cons, ih]

theorem mem_place (language : Language) (languages : List Language) : language ∈ place language languages := by
  induction languages with
  | nil => exact List.mem_singleton_self language
  | cons first rest ih =>
      rw [place]
      split_ifs
      · exact List.mem_cons_self
      · exact List.mem_cons_self
      · exact List.mem_cons_of_mem first ih

namespace Consistent

/-- What a language loses is what it lists of the extensions claimed. -/
theorem yielded_eq (h : registry.Consistent) (hmem : language ∈ registry.languages) (hname : language.name ≠ name) :
    yielded name registry.owners extensions language =
      { language with extensions := language.extensions.filter fun extension => !extensions.contains extension } := by
  rw [yielded]
  congr 1
  refine List.filter_congr fun extension hextension => ?_
  simp [(h.owners _ _).mpr (h.mem_listed hmem hextension), hname]

theorem languages_insert_self (h : registry.Consistent) :
    (registry.insert name marker extensions).languages.filter (fun other => other.name == Text.lowercase name) =
      [⟨Text.lowercase name, marker, registry.claimed (Text.lowercase name) extensions⟩] := by
  have hmem := mem_place ⟨Text.lowercase name, marker, registry.claimed (Text.lowercase name) extensions⟩
    (registry.languages.map
      (yielded (Text.lowercase name) registry.owners (registry.claimed (Text.lowercase name) extensions)))
  rw [← languages_insert] at hmem
  exact filter_name_eq (pairwise_insert registry name marker extensions h.sorted) hmem

theorem languages_insert_others (h : registry.Consistent) :
    (registry.insert name marker extensions).languages.filter (fun other => other.name != Text.lowercase name) =
      (registry.languages.filter fun other => other.name != Text.lowercase name).map fun language =>
        { language with
          extensions := language.extensions.filter fun extension =>
            !(registry.claimed (Text.lowercase name) extensions).contains extension } := by
  rw [languages_insert,
    filter_name_ne_place ⟨Text.lowercase name, marker, registry.claimed (Text.lowercase name) extensions⟩,
    List.filter_map]
  refine List.map_congr_left fun language hlanguage => ?_
  obtain ⟨hmem, hname⟩ := List.mem_filter.mp hlanguage
  exact h.yielded_eq hmem (bne_iff_ne.mp hname)

theorem byPath_insert (h : registry.Consistent) (name : String) (marker : Marker) (extensions : List String)
    {path : Path} {text : List Char} (hpath : path.extension? = some (Utf8.encode text)) :
    (registry.insert name marker extensions).byPath path =
      if Text.lowercase (String.ofList text) ∈ registry.claimed (Text.lowercase name) extensions then .ok marker
      else if Text.lowercase (String.ofList text) ∈ registry.listed (Text.lowercase name) then
        .error (.unsupportedExtension ("." ++ String.ofList text))
      else registry.byPath path := by
  rw [byPath_eq hpath, byPath_eq hpath, lookup_owners_insert]
  split_ifs with hclaimed hlisted
  · rw [Option.bind_some, markerOf?_insert, if_pos rfl]
  · rfl
  · cases howner : registry.owners.lookup (Text.lowercase (String.ofList text)) with
    | none => rfl
    | some other =>
        have hother : other ≠ Text.lowercase name := by
          rintro rfl
          exact hlisted ((h.owners _ _).mp howner)
        rw [Option.bind_some, Option.bind_some, markerOf?_insert, if_neg hother]

end Consistent

theorem byPath_insert_of_unreadable {path : Path} (hpath : ∀ text, path.extension? ≠ some (Utf8.encode text)) :
    (registry.insert name marker extensions).byPath path = registry.byPath path := by
  have hnone : path.extension?.bind Utf8.decode? = none := by
    rw [Option.bind_eq_none_iff]
    intro bytes hbytes
    by_contra htext
    obtain ⟨text, htext⟩ := Option.ne_none_iff_exists'.mp htext
    exact hpath text (by rw [hbytes, Utf8.decode?_eq_some_iff.mp htext])
  rw [byPath, byPath, hnone]

theorem byName_insert (registry : Registry) (name : String) (marker : Marker) (extensions : List String)
    (query : String) :
    let key := Text.lowercase (String.ofList (Text.trim query.toList))
    (registry.insert name marker extensions).byName query =
      if key = Text.lowercase name ∨ registry.aliases.lookup key = some (Text.lowercase name) then .ok marker
      else registry.byName query := by
  intro key
  have hkey : Text.lowercase (String.ofList (Text.trim query.toList)) = key := rfl
  rw [byName_eq, byName_eq, hkey, lookup_aliases_insert, markerOf?_insert]
  by_cases hname : key = Text.lowercase name
  · rw [if_pos hname, Option.getD_none, if_pos hname, if_pos (Or.inl hname)]
  · rw [if_neg hname]
    cases halias : registry.aliases.lookup key with
    | none =>
        rw [Option.getD_none, if_neg hname, if_neg (by simp [hname])]
    | some target =>
        rw [Option.getD_some]
        by_cases htarget : target = Text.lowercase name
        · rw [if_pos htarget, if_pos (Or.inr (congrArg some htarget))]
        · rw [if_neg htarget, if_neg (by simp [hname, htarget])]

/-- Entering a language, whatever the registry has been made of. The languages stay in order: the entered one has its
marker and what it claims, the others have all but that. A path is looked up as before unless its extension is claimed,
which gives the new marker, or given up, which leaves it unsupported. A name is looked up as before unless it is the
language's, or an alias of it. -/
theorem insert_effect (h : registry.Reachable) (name : String) (marker : Marker) (extensions : List String) :
    let known := Text.lowercase name
    let given := (extensions.map fun extension =>
      Text.lowercase (String.ofList (extension.toList.dropWhile (· == '.')))).filter (· != "")
    let own := if given = [] then registry.listed known else given
    let entered := registry.insert name marker extensions
    (entered.languages.Pairwise (·.name < ·.name) ∧
      entered.languages.filter (fun language => language.name == known) = [⟨known, marker, own⟩] ∧
      entered.languages.filter (fun language => language.name != known) =
        (registry.languages.filter fun language => language.name != known).map fun language =>
          { language with extensions := language.extensions.filter fun extension => !own.contains extension }) ∧
    (∀ path text, path.extension? = some (Utf8.encode text) →
      let extension := Text.lowercase (String.ofList text)
      (extension ∈ own → entered.byPath path = .ok marker) ∧
      (extension ∉ own → extension ∈ registry.listed known →
        entered.byPath path = .error (.unsupportedExtension ("." ++ String.ofList text))) ∧
      (extension ∉ own → extension ∉ registry.listed known → entered.byPath path = registry.byPath path)) ∧
    (∀ path, (∀ text, path.extension? ≠ some (Utf8.encode text)) → entered.byPath path = registry.byPath path) ∧
    ∀ query,
      let key := Text.lowercase (String.ofList (Text.trim query.toList))
      (key = known ∨ registry.aliases.lookup key = some known → entered.byName query = .ok marker) ∧
      (key ≠ known → registry.aliases.lookup key ≠ some known → entered.byName query = registry.byName query) := by
  intro known given own entered
  have hconsistent := h.consistent
  refine ⟨⟨pairwise_insert registry name marker extensions hconsistent.sorted, hconsistent.languages_insert_self,
    hconsistent.languages_insert_others⟩, fun path text hpath => ?_, fun path => byPath_insert_of_unreadable,
    fun query => ?_⟩
  · have hlookup := hconsistent.byPath_insert name marker extensions hpath
    exact ⟨fun hown => hlookup.trans (if_pos hown),
      fun hown hlisted => hlookup.trans ((if_neg hown).trans (if_pos hlisted)),
      fun hown hlisted => hlookup.trans ((if_neg hown).trans (if_neg hlisted))⟩
  · have hlookup := byName_insert registry name marker extensions query
    exact ⟨fun hname => hlookup.trans (if_pos hname),
      fun hname halias => hlookup.trans (if_neg (not_or.mpr ⟨hname, halias⟩))⟩

/-- A known language that takes extensions from two others, names one twice, and gives up the most of its own. -/
theorem insert_effect_taken :
    let entered := builtin.insert "C" (.simple ";") ["..JS", "sh", "", "h", "h"]
    entered.languages.filter (fun language => language.name == "c") = [⟨"c", .simple ";", ["js", "sh", "h", "h"]⟩] ∧
      entered.byPath (.ofString "a.Js") = .ok (.simple ";") ∧
      entered.byPath (.ofString "a.CPP") = .error (.unsupportedExtension ".CPP") ∧
      entered.byPath (.ofString "a.bash") = builtin.byPath (.ofString "a.bash") ∧
      entered.byPath (.ofString "Makefile") = builtin.byPath (.ofString "Makefile") ∧
      entered.byName " C++\n" = .ok (.simple ";") ∧ entered.byName "Shell" = builtin.byName "Shell" := by
  obtain ⟨⟨-, hself, -⟩, hpath, hunreadable, hname⟩ :=
    insert_effect .builtin "C" (.simple ";") ["..JS", "sh", "", "h", "h"]
  have hlower : Text.lowercase "C" = "c" := by decide +kernel
  have hlisted : builtin.listed (Text.lowercase "C") = ["c", "h", "cc", "cpp"] := by decide +kernel
  have hunclaimed : Text.lowercase (String.ofList ['b', 'a', 's', 'h']) ∉ builtin.listed (Text.lowercase "C") := by
    rw [hlisted]
    decide +kernel
  have hgivenUp : Text.lowercase (String.ofList ['C', 'P', 'P']) ∈ builtin.listed (Text.lowercase "C") := by
    rw [hlisted]
    decide +kernel
  refine ⟨?_, (hpath _ ['J', 's'] (by decide +kernel)).1 (by decide +kernel),
    (hpath _ ['C', 'P', 'P'] (by decide +kernel)).2.1 (by decide +kernel) hgivenUp,
    (hpath _ ['b', 'a', 's', 'h'] (by decide +kernel)).2.2 (by decide +kernel) hunclaimed,
    hunreadable _ ?_, (hname _).1 (by decide +kernel), (hname _).2 (by decide +kernel) (by decide +kernel)⟩
  · rw [hlower] at hself
    refine hself.trans ?_
    decide +kernel
  · have hnone : Path.extension? (.ofString "Makefile") = none := by decide +kernel
    simp [hnone]

end LineComment.Registry
