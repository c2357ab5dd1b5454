import LineComment.Language
import LineComment.Proofs.Language.Insert
import LineComment.Proofs.LineEdit

/-! The markers of a registry. Those of the built-in languages could have been read from a text, and a configuration
enters no others, so every marker that is looked up is well-formed. -/

namespace LineComment.Registry

variable {registry extended : Registry} {entries : List (String × LanguageEntry)} {item : String × LanguageEntry}
  {marker : Marker}

/-- Every language has a marker that can be read from a text. -/
def Parsed (registry : Registry) : Prop :=
  ∀ name language, registry.get? name = some language → ∃ text, Marker.parse text = .ok language.marker

theorem parsed_empty : Parsed {} := by simp [Parsed, get?]

theorem Parsed.insert (h : registry.Parsed) (name : String) {text : String}
    (hmarker : Marker.parse text = .ok marker) (extensions : List String) :
    (registry.insert name marker extensions).Parsed := by
  intro other language hlanguage
  rw [get?_insert] at hlanguage
  split_ifs at hlanguage
  · cases hlanguage
    exact ⟨text, hmarker⟩
  · obtain ⟨previous, hprevious, rfl⟩ := Option.map_eq_some_iff.mp hlanguage
    exact h other previous hprevious

theorem parse_of_mem_table : ∀ language ∈ BuiltinLanguage.table,
    ∃ text ∈ ["//", "#", "--", "%", "<!-- -->"], Marker.parse text = .ok language.marker := by
  decide +kernel

theorem parsed_builtin : builtin.Parsed := by
  refine List.foldlRecOn _ _ parsed_empty fun registry h language hlanguage => ?_
  obtain ⟨text, -, hmarker⟩ := parse_of_mem_table language hlanguage
  rw [insertBuiltin]
  exact List.foldlRecOn _ _ (h.insert language.name hmarker language.extensions) fun registry h _ _ => h

theorem extend_cons (rest : List (String × LanguageEntry)) (hmarker : Marker.parse item.2.marker = .ok marker) :
    registry.extend (item :: rest) = (registry.insert item.1 marker item.2.extensions).extend rest := by
  rw [extend, hmarker]
  rfl

theorem exists_marker_of_extend {rest : List (String × LanguageEntry)}
    (h : registry.extend (item :: rest) = .ok extended) :
    ∃ marker, Marker.parse item.2.marker = .ok marker ∧
      (registry.insert item.1 marker item.2.extensions).extend rest = .ok extended := by
  cases hmarker : Marker.parse item.2.marker with
  | error error =>
      rw [extend, hmarker] at h
      cases h
  | ok marker => exact ⟨marker, rfl, extend_cons rest hmarker ▸ h⟩

/-- A configuration is read before its languages are entered. -/
theorem Parsed.extend (h : registry.Parsed) (hextend : registry.extend entries = .ok extended) : extended.Parsed := by
  induction entries generalizing registry with
  | nil =>
      cases hextend
      exact h
  | cons item rest ih =>
      obtain ⟨marker, hmarker, hrest⟩ := exists_marker_of_extend hextend
      exact ih (h.insert item.1 hmarker item.2.extensions) hrest

theorem Parsed.resolve (h : registry.Parsed) {language : Option String} {path : Option Path}
    (hresolve : registry.resolve language path = .ok marker) : ∃ text, Marker.parse text = .ok marker := by
  unfold Registry.resolve byName byPath owner? at hresolve
  dsimp only at hresolve
  split at hresolve
  · split at hresolve
    · next found hfound =>
        cases hresolve
        exact h _ found hfound
    · cases hresolve
  · split at hresolve
    · cases hresolve
    · split at hresolve
      · next found hfound =>
          cases hresolve
          obtain ⟨name, -, hname⟩ := Option.bind_eq_some_iff.mp hfound
          exact h name found hname
      · cases hresolve
  · cases hresolve

end LineComment.Registry
