import LineComment.Proofs.Language.Consistency
import LineComment.Proofs.Language.Parsed
import LineComment.Proofs.Utf8.Spelling
import LineComment.Settings

/-! The languages of a configuration on top of the built-in ones. They are entered one after the other, and each may
take extensions from others, give up its own, or keep them; what the registry answers in the end depends on the
entries alone: on the last that lists an extension and, if none does, on the one that redefines the language which has
the extension by default. -/

namespace LineComment

theorem Marker.parse_ok_iff {text : String} :
    (∃ marker, parse text = .ok marker) ↔
      (Text.words text.toList).length = 1 ∨ (Text.words text.toList).length = 2 := by
  unfold parse
  split
  · next token hwords => simp [hwords]
  · next opening closing hwords => simp [hwords]
  · next hone htwo =>
      refine iff_of_false (by simp) ?_
      rintro (hlength | hlength)
      · obtain ⟨token, hwords⟩ := List.length_eq_one_iff.mp hlength
        exact hone token hwords
      · obtain ⟨opening, closing, hwords⟩ := List.length_eq_two.mp hlength
        exact htwo opening closing hwords

theorem Marker.eq_of_parse_error {text : String} {error : Error} (h : parse text = .error error) :
    error = .invalidMarker text := by
  unfold parse at h
  split at h
  · cases h
  · cases h
  · exact (Except.error.inj h).symm

namespace Settings

/-- A configured language, as one that stands among others in the order of their names. -/
def asLanguage (item : String × LanguageEntry) : Language := ⟨item.1, .simple item.2.marker, item.2.extensions⟩

theorem map_place (name : String) (entry : LanguageEntry) (entries : List (String × LanguageEntry)) :
    (place name entry entries).map asLanguage = Registry.place (asLanguage (name, entry)) (entries.map asLanguage) := by
  induction entries with
  | nil => rfl
  | cons other rest ih =>
      have hsame : (asLanguage (name, entry)).name = (asLanguage other).name ↔ name = other.1 := Iff.rfl
      have hless : (asLanguage (name, entry)).name < (asLanguage other).name ↔ name < other.1 := Iff.rfl
      rw [place, List.map_cons, Registry.place, ← ih]
      simp only [hsame, hless]
      split_ifs <;> rfl

/-- Laying a layer over settings keeps the configured languages in the order of their names, one for each name. -/
theorem pairwise_overlay {settings : Settings} (layer : Layer) (h : settings.languages.Pairwise (·.1 < ·.1)) :
    (settings.overlay layer).languages.Pairwise (·.1 < ·.1) := by
  refine List.foldlRecOn layer.languages _ h ?_
  rintro entries hentries ⟨name, entry⟩ -
  have hmapped : (entries.map asLanguage).Pairwise (·.name < ·.name) := List.pairwise_map.mpr hentries
  have hplaced := Registry.pairwise_place (asLanguage (name, entry)) hmapped
  rw [← map_place, List.pairwise_map] at hplaced
  exact hplaced

end Settings

namespace Registry

variable {registry extended : Registry} {entries : List (String × LanguageEntry)} {item : String × LanguageEntry}
  {name extension : String} {marker : Marker}

theorem exists_marker_of_mem (hextend : registry.extend entries = .ok extended) (hitem : item ∈ entries) :
    ∃ marker, Marker.parse item.2.marker = .ok marker := by
  induction entries generalizing registry with
  | nil => cases hitem
  | cons first rest ih =>
      obtain ⟨marker, hmarker, hrest⟩ := exists_marker_of_extend hextend
      rcases List.mem_cons.mp hitem with rfl | hitem
      · exact ⟨marker, hmarker⟩
      · exact ih hrest hitem

theorem exists_extend (registry : Registry) (h : ∀ item ∈ entries, ∃ marker, Marker.parse item.2.marker = .ok marker) :
    ∃ extended, registry.extend entries = .ok extended := by
  induction entries generalizing registry with
  | nil => exact ⟨registry, rfl⟩
  | cons item rest ih =>
      obtain ⟨⟨marker, hmarker⟩, hrest⟩ := List.forall_mem_cons.mp h
      rw [extend_cons rest hmarker]
      exact ih _ hrest

/-- The first entry whose marker cannot be read is the one that is reported. -/
theorem exists_of_extend_error {error : Error} (h : registry.extend entries = .error error) :
    ∃ front item back, entries = front ++ item :: back ∧
      (∀ earlier ∈ front, ∃ marker, Marker.parse earlier.2.marker = .ok marker) ∧
      (¬∃ marker, Marker.parse item.2.marker = .ok marker) ∧ error = .invalidMarker item.2.marker := by
  induction entries generalizing registry with
  | nil => cases h
  | cons item rest ih =>
      cases hmarker : Marker.parse item.2.marker with
      | error reason =>
          rw [extend, hmarker] at h
          obtain rfl : reason = error := Except.error.inj h
          exact ⟨[], item, rest, rfl, by simp, by simp [hmarker], Marker.eq_of_parse_error hmarker⟩
      | ok marker =>
          rw [extend_cons rest hmarker] at h
          obtain ⟨front, first, back, rfl, hfront, hfirst⟩ := ih h
          exact ⟨item :: front, first, back, rfl, List.forall_mem_cons.mpr ⟨⟨marker, hmarker⟩, hfront⟩, hfirst⟩

theorem Consistent.extend (h : registry.Consistent) (hextend : registry.extend entries = .ok extended) :
    extended.Consistent := by
  induction entries generalizing registry with
  | nil =>
      cases hextend
      exact h
  | cons item rest ih =>
      obtain ⟨marker, _, hrest⟩ := exists_marker_of_extend hextend
      exact ih (h.insert item.1 marker item.2.extensions) hrest

theorem markerOf?_extend_of_ne (hextend : registry.extend entries = .ok extended)
    (hnames : ∀ item ∈ entries, Text.lowercase item.1 ≠ name) : extended.markerOf? name = registry.markerOf? name := by
  induction entries generalizing registry with
  | nil =>
      cases hextend
      rfl
  | cons item rest ih =>
      obtain ⟨marker, _, hrest⟩ := exists_marker_of_extend hextend
      obtain ⟨hname, hnames⟩ := List.forall_mem_cons.mp hnames
      rw [ih hrest hnames, markerOf?_insert, if_neg (Ne.symm hname)]

/-- A configured language has the marker it is configured with. -/
theorem markerOf?_extend (hextend : registry.extend entries = .ok extended)
    (hdistinct : (entries.map fun item => Text.lowercase item.1).Nodup) (hitem : item ∈ entries)
    (hmarker : Marker.parse item.2.marker = .ok marker) :
    extended.markerOf? (Text.lowercase item.1) = some marker := by
  induction entries generalizing registry with
  | nil => cases hitem
  | cons first rest ih =>
      obtain ⟨found, hfound, hrest⟩ := exists_marker_of_extend hextend
      obtain ⟨hfirst, hdistinct⟩ := List.nodup_cons.mp hdistinct
      rcases List.mem_cons.mp hitem with rfl | hitem
      · obtain rfl : marker = found := Except.ok.inj (hmarker.symm.trans hfound)
        have hnames : ∀ other ∈ rest, Text.lowercase other.1 ≠ Text.lowercase item.1 :=
          fun other hother heq => hfirst (List.mem_map.mpr ⟨other, hother, heq⟩)
        rw [markerOf?_extend_of_ne hrest hnames, markerOf?_insert, if_pos rfl]
      · exact ih hrest hdistinct hitem

/-- The owner of an extension after an entry: the entry's language if it lists the extension, nobody if that language
had it and lists others, and else the one before. -/
def passOn (extension : String) (owner : Option String) (item : String × LanguageEntry) : Option String :=
  if extension ∈ usable item.2.extensions then some (Text.lowercase item.1)
  else if usable item.2.extensions ≠ [] ∧ owner = some (Text.lowercase item.1) then none
  else owner

theorem Consistent.lookup_owners_insert (h : registry.Consistent) (marker : Marker) :
    (registry.insert item.1 marker item.2.extensions).owners.lookup extension =
      passOn extension (registry.owners.lookup extension) item := by
  rw [Registry.lookup_owners_insert, passOn, claimed]
  by_cases hempty : usable item.2.extensions = []
  · simp only [hempty, if_true, ← h.owners, List.not_mem_nil, if_false, ne_eq, not_true_eq_false, false_and]
    split_ifs with howner
    · exact howner.symm
    · rfl
  · simp only [hempty, if_false, ← h.owners, ne_eq, not_false_eq_true, true_and]

theorem Consistent.lookup_owners_extend (h : registry.Consistent) (hextend : registry.extend entries = .ok extended)
    (extension : String) :
    extended.owners.lookup extension = entries.foldl (passOn extension) (registry.owners.lookup extension) := by
  induction entries generalizing registry with
  | nil =>
      cases hextend
      rfl
  | cons item rest ih =>
      obtain ⟨marker, _, hrest⟩ := exists_marker_of_extend hextend
      rw [ih (h.insert item.1 marker item.2.extensions) hrest, h.lookup_owners_insert, List.foldl_cons]

theorem foldl_passOn_none (hunlisted : ∀ item ∈ entries, extension ∉ usable item.2.extensions) :
    entries.foldl (passOn extension) none = none := by
  induction entries with
  | nil => rfl
  | cons item rest ih =>
      obtain ⟨hitem, hrest⟩ := List.forall_mem_cons.mp hunlisted
      rw [List.foldl_cons, passOn, if_neg hitem, if_neg (by simp), ih hrest]

theorem foldl_passOn_kept (hunlisted : ∀ item ∈ entries, extension ∉ usable item.2.extensions)
    (hkept : ∀ item ∈ entries, Text.lowercase item.1 = name → usable item.2.extensions = []) :
    entries.foldl (passOn extension) (some name) = some name := by
  induction entries with
  | nil => rfl
  | cons item rest ih =>
      obtain ⟨hitem, hrest⟩ := List.forall_mem_cons.mp hunlisted
      obtain ⟨hempty, hkept⟩ := List.forall_mem_cons.mp hkept
      have hstays : ¬(usable item.2.extensions ≠ [] ∧ some name = some (Text.lowercase item.1)) :=
        fun h => h.1 (hempty (Option.some.inj h.2).symm)
      rw [List.foldl_cons, passOn, if_neg hitem, if_neg hstays, ih hrest hkept]

theorem foldl_passOn_dropped (hunlisted : ∀ item ∈ entries, extension ∉ usable item.2.extensions)
    (hitem : item ∈ entries)
    (hname : Text.lowercase item.1 = name) (hlists : usable item.2.extensions ≠ []) :
    entries.foldl (passOn extension) (some name) = none := by
  induction entries with
  | nil => cases hitem
  | cons first rest ih =>
      obtain ⟨hfirst, hrest⟩ := List.forall_mem_cons.mp hunlisted
      rw [List.foldl_cons, passOn, if_neg hfirst]
      split_ifs with hgone
      · exact foldl_passOn_none hrest
      · rcases List.mem_cons.mp hitem with rfl | hitem
        · exact absurd ⟨hlists, congrArg some hname.symm⟩ hgone
        · exact ih hrest hitem

/-- The last entry that lists an extension has it in the end. -/
theorem foldl_passOn_last {front back : List (String × LanguageEntry)} (owner : Option String)
    (hlists : extension ∈ usable item.2.extensions) (hback : ∀ other ∈ back, extension ∉ usable other.2.extensions)
    (hdistinct : ∀ other ∈ back, Text.lowercase other.1 ≠ Text.lowercase item.1) :
    (front ++ item :: back).foldl (passOn extension) owner = some (Text.lowercase item.1) := by
  rw [List.foldl_append, List.foldl_cons, passOn, if_pos hlists]
  exact foldl_passOn_kept hback fun other hother heq => absurd heq (hdistinct other hother)

theorem Consistent.exists_of_lookup_owners (h : registry.Consistent)
    (howner : registry.owners.lookup extension = some name) :
    ∃ language ∈ registry.languages, extension ∈ language.extensions := by
  obtain ⟨language, hlanguage, hextension⟩ := (mem_listed_iff _ _ _).mp ((h.owners extension name).mp howner)
  exact ⟨language, List.mem_of_find?_eq_some hlanguage, hextension⟩

theorem builtin_of_mem_table : ∀ language ∈ BuiltinLanguage.table,
    builtin.markerOf? language.name = some language.marker ∧
      ∀ extension ∈ language.extensions, builtin.owners.lookup extension = some language.name := by
  decide +kernel

theorem exists_mem_table : ∀ language ∈ builtin.languages, ∀ extension ∈ language.extensions,
    ∃ entry ∈ BuiltinLanguage.table, extension ∈ entry.extensions := by
  decide +kernel

theorem lookup_builtin_eq_none (h : ∀ language ∈ BuiltinLanguage.table, extension ∉ language.extensions) :
    builtin.owners.lookup extension = none := by
  by_contra howner
  obtain ⟨name, hname⟩ := Option.ne_none_iff_exists'.mp howner
  obtain ⟨language, hlanguage, hextension⟩ := consistent_builtin.exists_of_lookup_owners hname
  obtain ⟨entry, hentry, hlisted⟩ := exists_mem_table language hlanguage extension hextension
  exact h entry hentry hlisted

theorem Consistent.byName_eq (h : registry.Consistent) (htrim : Text.trim name.toList = name.toList)
    (hfound : registry.markerOf? (Text.lowercase name) = some marker) : registry.byName name = .ok marker := by
  obtain ⟨language, hlanguage, rfl⟩ := Option.map_eq_some_iff.mp hfound
  have hname : language.name = Text.lowercase name := name_eq_of_get? hlanguage
  have hlower : Text.trim language.name.toList = language.name.toList := by
    rw [hname, Text.toList_lowercase, Text.trim_map_toLower, htrim]
  have hnone : ∀ c ∈ ([] : List Char), Text.isBlank c := fun _ hc => absurd hc List.not_mem_nil
  have hword : Text.lowercase (String.ofList name.toList) = language.name := by rw [String.ofList_toList, hname]
  have hok := h.byName_eq_ok (List.mem_of_find?_eq_some hlanguage) hlower hnone hnone hword
  rwa [List.nil_append, List.append_nil, String.ofList_toList] at hok

theorem exists_last {α : Type} {p : α → Prop} {list : List α} (h : ∃ a ∈ list, p a) :
    ∃ front a back, list = front ++ a :: back ∧ p a ∧ ∀ b ∈ back, ¬p b := by
  induction list with
  | nil =>
      obtain ⟨_, hmem, _⟩ := h
      cases hmem
  | cons first rest ih =>
      by_cases hrest : ∃ a ∈ rest, p a
      · obtain ⟨front, a, back, rfl, ha, hback⟩ := ih hrest
        exact ⟨first :: front, a, back, rfl, ha, hback⟩
      · obtain ⟨a, hmem, ha⟩ := h
        rcases List.mem_cons.mp hmem with rfl | hmem
        · exact ⟨[], a, rest, rfl, ha, fun b hb hpb => hrest ⟨b, hb, hpb⟩⟩
        · exact absurd ⟨a, hmem, ha⟩ hrest

/-- The language that has an extension in the end, when some entry lists it: the greatest of those that do. -/
theorem Consistent.exists_owner_extend (h : registry.Consistent) (hextend : registry.extend entries = .ok extended)
    (hsorted : entries.Pairwise (·.1 < ·.1)) (hdistinct : (entries.map fun item => Text.lowercase item.1).Nodup)
    (hlisted : ∃ item ∈ entries, extension ∈ usable item.2.extensions) :
    ∃ item ∈ entries, extension ∈ usable item.2.extensions ∧
      (∀ other ∈ entries, extension ∈ usable other.2.extensions → other ≠ item → other.1 < item.1) ∧
      extended.owners.lookup extension = some (Text.lowercase item.1) := by
  obtain ⟨front, item, back, rfl, hitem, hback⟩ := exists_last hlisted
  have hmem : item ∈ front ++ item :: back := List.mem_append_right front List.mem_cons_self
  refine ⟨item, hmem, hitem, fun other hother hlists hne => ?_, ?_⟩
  · rcases List.mem_append.mp hother with hfront | hrest
    · exact (List.pairwise_append.mp hsorted).2.2 other hfront item List.mem_cons_self
    · rcases List.mem_cons.mp hrest with rfl | hrest
      · exact absurd rfl hne
      · exact absurd hlists (hback other hrest)
  · rw [h.lookup_owners_extend hextend]
    refine foldl_passOn_last _ hitem hback fun other hother heq => ?_
    rw [List.map_append, List.map_cons] at hdistinct
    exact (List.nodup_cons.mp (List.nodup_append.mp hdistinct).2.1).1 (List.mem_map.mpr ⟨other, hother, heq⟩)

theorem exists_extend_error_iff : (∃ error, registry.extend entries = .error error) ↔
    ∃ item ∈ entries, ¬∃ marker, Marker.parse item.2.marker = .ok marker := by
  constructor
  · rintro ⟨error, herror⟩
    obtain ⟨front, item, back, rfl, -, hitem, -⟩ := exists_of_extend_error herror
    exact ⟨item, List.mem_append_right front List.mem_cons_self, hitem⟩
  · rintro ⟨item, hitem, hmarker⟩
    cases hextend : registry.extend entries with
    | error error => exact ⟨error, rfl⟩
    | ok extended => exact absurd (exists_marker_of_mem hextend hitem) hmarker

section ByPath

variable {path : Path} {text : List Char}

/-- The extension of a path is listed by an entry. -/
theorem Consistent.exists_byPath_extend (h : registry.Consistent) (hextend : registry.extend entries = .ok extended)
    (hsorted : entries.Pairwise (·.1 < ·.1)) (hdistinct : (entries.map fun item => Text.lowercase item.1).Nodup)
    (hpath : path.extension? = some (Utf8.encode text))
    (hlisted : ∃ item ∈ entries, Text.lowercase (String.ofList text) ∈ usable item.2.extensions) :
    ∃ item ∈ entries, Text.lowercase (String.ofList text) ∈ usable item.2.extensions ∧
      (∀ other ∈ entries, Text.lowercase (String.ofList text) ∈ usable other.2.extensions → other ≠ item →
        Utf8.encode other.1.toList < Utf8.encode item.1.toList) ∧
      extended.byPath path = Marker.parse item.2.marker := by
  obtain ⟨item, hitem, hlists, hgreatest, howner⟩ := h.exists_owner_extend hextend hsorted hdistinct hlisted
  obtain ⟨marker, hmarker⟩ := exists_marker_of_mem hextend hitem
  refine ⟨item, hitem, hlists, fun other hother hagain hne =>
    Utf8.encode_lt_encode_iff.mpr (hgreatest other hother hagain hne), ?_⟩
  rw [byPath_eq hpath, howner, Option.bind_some, markerOf?_extend hextend hdistinct hitem hmarker, hmarker]

variable {language : BuiltinLanguage} (hextend : builtin.extend entries = .ok extended)
  (hpath : path.extension? = some (Utf8.encode text))
  (hunlisted : ∀ item ∈ entries, Text.lowercase (String.ofList text) ∉ usable item.2.extensions)
include hextend hpath hunlisted

/-- No entry lists the extension of a path, a built-in language does, and an entry redefines this language. -/
theorem byPath_extend_redefined (hdistinct : (entries.map fun item => Text.lowercase item.1).Nodup)
    (hlanguage : language ∈ BuiltinLanguage.table)
    (hextension : Text.lowercase (String.ofList text) ∈ language.extensions)
    (hitem : item ∈ entries) (hname : Text.lowercase item.1 = language.name) :
    extended.byPath path =
      if usable item.2.extensions = [] then Marker.parse item.2.marker
      else .error (.unsupportedExtension ("." ++ String.ofList text)) := by
  have howner := consistent_builtin.lookup_owners_extend hextend (Text.lowercase (String.ofList text))
  rw [(builtin_of_mem_table language hlanguage).2 _ hextension] at howner
  split_ifs with hempty
  · have hkept : ∀ other ∈ entries, Text.lowercase other.1 = language.name → usable other.2.extensions = [] := by
      intro other hother heq
      obtain rfl : other = item := List.inj_on_of_nodup_map hdistinct hother hitem (heq.trans hname.symm)
      exact hempty
    obtain ⟨marker, hmarker⟩ := exists_marker_of_mem hextend hitem
    rw [byPath_eq hpath, howner, foldl_passOn_kept hunlisted hkept, Option.bind_some, ← hname,
      markerOf?_extend hextend hdistinct hitem hmarker, hmarker]
  · rw [byPath_eq hpath, howner, foldl_passOn_dropped hunlisted hitem hname hempty]
    rfl

/-- No entry lists the extension of a path, a built-in language does, and no entry redefines this language. -/
theorem byPath_extend_builtin (hlanguage : language ∈ BuiltinLanguage.table)
    (hextension : Text.lowercase (String.ofList text) ∈ language.extensions)
    (hnames : ∀ item ∈ entries, Text.lowercase item.1 ≠ language.name) :
    extended.byPath path = .ok language.marker := by
  obtain ⟨hdefault, howners⟩ := builtin_of_mem_table language hlanguage
  have howner := consistent_builtin.lookup_owners_extend hextend (Text.lowercase (String.ofList text))
  rw [howners _ hextension, foldl_passOn_kept hunlisted fun item hitem hname => absurd hname (hnames item hitem)]
    at howner
  rw [byPath_eq hpath, howner, Option.bind_some, markerOf?_extend_of_ne hextend hnames, hdefault]

/-- Neither an entry nor a built-in language lists the extension of a path. -/
theorem byPath_extend_unlisted
    (hunknown : ∀ language ∈ BuiltinLanguage.table, Text.lowercase (String.ofList text) ∉ language.extensions) :
    extended.byPath path = .error (.unsupportedExtension ("." ++ String.ofList text)) := by
  have howner := consistent_builtin.lookup_owners_extend hextend (Text.lowercase (String.ofList text))
  rw [lookup_builtin_eq_none hunknown, foldl_passOn_none hunlisted] at howner
  rw [byPath_eq hpath, howner]
  rfl

end ByPath

/-- The registry of a configuration, by a rule that does not speak of the order in which its languages are entered.
Entering fails if and only if a marker does not have one or two tokens, with the first such marker. Otherwise an
extension is that of the configured language with the greatest name among those that list it; if none lists it, a
language that has it by default gives it its own marker, or the configured one if the configuration redefines that
language without an extension, and gives it up if the configuration redefines it with one. A configured name has the
configured marker. -/
theorem extend_builtin_resolves :
    (∀ entries, (∃ error, builtin.extend entries = .error error) ↔
      ∃ item ∈ entries,
        ¬((Text.words item.2.marker.toList).length = 1 ∨ (Text.words item.2.marker.toList).length = 2)) ∧
    (∀ entries error, builtin.extend entries = .error error → ∃ front item back, entries = front ++ item :: back ∧
      (∀ earlier ∈ front, ∃ marker, Marker.parse earlier.2.marker = .ok marker) ∧
        error = .invalidMarker item.2.marker) ∧
    ∀ entries : List (String × LanguageEntry), entries.Pairwise (·.1 < ·.1) →
      (entries.map fun item => Text.lowercase item.1).Nodup →
      (∀ item ∈ entries, ∃ marker, Marker.parse item.2.marker = .ok marker) →
      ∃ registry, builtin.extend entries = .ok registry ∧
        (∀ path text, path.extension? = some (Utf8.encode text) →
          let extension := Text.lowercase (String.ofList text)
          let unsupported := Except.error (.unsupportedExtension ("." ++ String.ofList text))
          ((∃ item ∈ entries, extension ∈ usable item.2.extensions) →
            ∃ item ∈ entries, extension ∈ usable item.2.extensions ∧
              (∀ other ∈ entries, extension ∈ usable other.2.extensions → other ≠ item →
                Utf8.encode other.1.toList < Utf8.encode item.1.toList) ∧
              registry.byPath path = Marker.parse item.2.marker) ∧
          ((∀ item ∈ entries, extension ∉ usable item.2.extensions) →
            (∀ language ∈ BuiltinLanguage.table, extension ∈ language.extensions →
              (∀ item ∈ entries, Text.lowercase item.1 = language.name →
                registry.byPath path =
                  if usable item.2.extensions = [] then Marker.parse item.2.marker else unsupported) ∧
              ((∀ item ∈ entries, Text.lowercase item.1 ≠ language.name) →
                registry.byPath path = .ok language.marker)) ∧
            ((∀ language ∈ BuiltinLanguage.table, extension ∉ language.extensions) →
              registry.byPath path = unsupported))) ∧
        ∀ item ∈ entries, Text.trim item.1.toList = item.1.toList →
          registry.byName item.1 = Marker.parse item.2.marker := by
  refine ⟨fun entries => ?_, fun entries error herror => ?_, fun entries hsorted hdistinct hparse => ?_⟩
  · simp only [← Marker.parse_ok_iff]
    exact exists_extend_error_iff
  · obtain ⟨front, item, back, heq, hfront, -, hitem⟩ := exists_of_extend_error herror
    exact ⟨front, item, back, heq, hfront, hitem⟩
  · obtain ⟨registry, hextend⟩ := exists_extend builtin hparse
    refine ⟨registry, hextend, fun path text hpath => ⟨fun hlisted => ?_, fun hunlisted => ⟨?_, fun hunknown => ?_⟩⟩,
      fun item hitem htrim => ?_⟩
    · exact consistent_builtin.exists_byPath_extend hextend hsorted hdistinct hpath hlisted
    · intro language hlanguage hextension
      exact ⟨fun item => byPath_extend_redefined hextend hpath hunlisted hdistinct hlanguage hextension,
        byPath_extend_builtin hextend hpath hunlisted hlanguage hextension⟩
    · exact byPath_extend_unlisted hextend hpath hunlisted hunknown
    · obtain ⟨marker, hmarker⟩ := hparse item hitem
      have hfound := markerOf?_extend hextend hdistinct hitem hmarker
      rw [(consistent_builtin.extend hextend).byName_eq htrim hfound, hmarker]

/-- A configuration that redefines a built-in language without an extension, and gives the extension of another one,
which it redefines as well, to a language with the name of an alias. -/
theorem extend_builtin_resolves_redefined :
    let languages := [("py", ⟨"{ }", [".RS"]⟩), ("Go", ⟨"--", []⟩), ("rust", ⟨";", ["rsx"]⟩)]
    ∃ registry, builtin.extend (({} : Settings).overlay { languages }).languages = .ok registry ∧
      registry.byPath (.ofString "a.rs") = Marker.parse "{ }" ∧ registry.byPath (.ofString "a.GO") = Marker.parse "--" ∧
      registry.byName "py" = Marker.parse "{ }" := by
  intro languages
  have hentries : (({} : Settings).overlay { languages }).languages =
      [("Go", ⟨"--", []⟩), ("py", ⟨"{ }", [".RS"]⟩), ("rust", ⟨";", ["rsx"]⟩)] := by decide +kernel
  have hnone : ({} : Settings).languages.Pairwise (·.1 < ·.1) := .nil
  have hsorted := Settings.pairwise_overlay { languages } hnone
  rw [hentries] at hsorted ⊢
  have hparse : ∀ item ∈ [("Go", ⟨"--", []⟩), ("py", ⟨"{ }", [".RS"]⟩), ("rust", (⟨";", ["rsx"]⟩ : LanguageEntry))],
      ∃ marker, Marker.parse item.2.marker = .ok marker := by
    simp only [Marker.parse_ok_iff]
    decide +kernel
  obtain ⟨registry, hextend, hpath, hname⟩ := extend_builtin_resolves.2.2 _ hsorted (by decide +kernel) hparse
  have hrust := (hpath (.ofString "a.rs") ['r', 's'] (by decide +kernel)).1 (by decide +kernel)
  have hgo := (hpath (.ofString "a.GO") ['G', 'O'] (by decide +kernel)).2 (by decide +kernel)
  refine ⟨registry, hextend, ?_, ?_, ?_⟩
  · obtain ⟨item, hitem, hlists, -, hmarker⟩ := hrust
    simp only [List.mem_cons, List.not_mem_nil, or_false] at hitem
    rcases hitem with rfl | rfl | rfl
    · exact absurd hlists (by decide +kernel)
    · exact hmarker
    · exact absurd hlists (by decide +kernel)
  · have hredefined :=
      (hgo.1 _ List.mem_cons_self (by decide +kernel)).1 ("Go", ⟨"--", []⟩) (by simp) (by decide +kernel)
    rw [hredefined, if_pos (by decide +kernel)]
  · exact hname ("py", ⟨"{ }", [".RS"]⟩) (by simp) (by decide +kernel)

end Registry

end LineComment
