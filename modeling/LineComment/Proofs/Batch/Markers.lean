import LineComment.Proofs.Batch.Edit
import LineComment.Proofs.Language.Parsed
import LineComment.Proofs.Precedence

/-! The markers that jobs work with. A text is read as a marker exactly if it holds one word or two with blanks around
them, and writing a marker out gives such a text. Whatever a job's marker comes from, the built-in languages, a
configuration, a language entered later or the command line, it has once been read from a text, so none of its tokens is
empty or holds a blank. -/

namespace LineComment

namespace Text

/-- One or more characters, none of which is a blank. -/
structure IsWord (text : List Char) : Prop where
  ne_nil : text ≠ []
  no_blank : ∀ c ∈ text, isBlank c = false

variable {front word rest text : List Char}

theorem words_cons_blank {c : Char} (hc : isBlank c) (rest : List Char) : words (c :: rest) = words rest := by
  have hsplit := List.splitOnP_append_cons [] rest hc
  rw [List.nil_append] at hsplit
  rw [words, hsplit, List.filter_append, List.splitOnP_nil]
  rfl

theorem words_append_blanks (hfront : ∀ c ∈ front, isBlank c) (rest : List Char) :
    words (front ++ rest) = words rest := by
  induction front with
  | nil => rfl
  | cons c front ih =>
      rw [List.cons_append, words_cons_blank (hfront c List.mem_cons_self)]
      exact ih fun d hd => hfront d (List.mem_cons_of_mem c hd)

theorem words_blanks (hfront : ∀ c ∈ front, isBlank c) : words front = [] := by
  have hnone := words_append_blanks hfront []
  rwa [List.append_nil] at hnone

theorem IsWord.words_eq (h : IsWord word) : words word = [word] := by
  rw [words, List.splitOnP_eq_singleton h.no_blank]
  simp [h.ne_nil]

/-- A word that is followed by a blank, or by nothing, is the first one. -/
theorem IsWord.words_append (h : IsWord word) (hrest : ∀ c ∈ rest.head?, isBlank c) :
    words (word ++ rest) = word :: words rest := by
  cases rest with
  | nil =>
      have hnone : words [] = [] := words_blanks (by simp)
      rw [List.append_nil, h.words_eq, hnone]
  | cons c rest =>
      have hc : isBlank c := hrest c rfl
      rw [words_cons_blank hc, words, List.splitOnP_append_cons word rest hc, List.filter_append]
      exact congrArg (· ++ words rest) h.words_eq

/-- A text holds nothing but blanks, or it has a first word. -/
theorem blanks_or_exists_word (text : List Char) :
    (∀ c ∈ text, isBlank c) ∨ ∃ front word rest, text = front ++ (word ++ rest) ∧ (∀ c ∈ front, isBlank c) ∧
      IsWord word ∧ ∀ c ∈ rest.head?, isBlank c := by
  obtain ⟨front, core, hfront, htext, hcore⟩ : ∃ front core, (∀ c ∈ front, isBlank c) ∧ text = front ++ core ∧
      ∀ c ∈ core.head?, isBlank c = false :=
    ⟨text.takeWhile isBlank, text.dropWhile isBlank, fun c hc => List.all_eq_true.mp List.all_takeWhile c hc,
      List.takeWhile_append_dropWhile.symm, head?_dropWhile_isBlank text⟩
  cases core with
  | nil =>
      rw [List.append_nil] at htext
      exact .inl (htext ▸ hfront)
  | cons c core =>
      have hc : isBlank c = false := hcore c rfl
      refine .inr ⟨front, c :: core.takeWhile fun d => !isBlank d, core.dropWhile fun d => !isBlank d, ?_, hfront,
        ⟨List.cons_ne_nil c _, fun d hd => ?_⟩, fun d hd => ?_⟩
      · rw [htext, List.cons_append, List.takeWhile_append_dropWhile]
      · rcases List.mem_cons.mp hd with rfl | hd
        · exact hc
        · simpa using List.all_eq_true.mp List.all_takeWhile d hd
      · have hhead := List.head?_dropWhile_not (fun d => !isBlank d) core
        rw [Option.mem_def.mp hd] at hhead
        simpa using hhead

/-- The first word of a text, if it has words, and where it stands. -/
theorem exists_of_words_eq_cons {others : List (List Char)} (h : words text = word :: others) :
    ∃ front rest, text = front ++ (word ++ rest) ∧ (∀ c ∈ front, isBlank c) ∧ IsWord word ∧
      (∀ c ∈ rest.head?, isBlank c) ∧ words rest = others := by
  rcases blanks_or_exists_word text with hblank | ⟨front, first, rest, rfl, hfront, hfirst, hrest⟩
  · rw [words_blanks hblank] at h
    cases h
  · rw [words_append_blanks hfront, hfirst.words_append hrest] at h
    obtain ⟨rfl, hothers⟩ := List.cons.inj h
    exact ⟨front, rest, rfl, hfront, hfirst, hrest, hothers⟩

theorem blanks_of_words_eq_nil (h : words text = []) : ∀ c ∈ text, isBlank c := by
  rcases blanks_or_exists_word text with hblank | ⟨front, first, rest, rfl, hfront, hfirst, hrest⟩
  · exact hblank
  · rw [words_append_blanks hfront, hfirst.words_append hrest] at h
    cases h

theorem IsWord.tight (h : IsWord word) : Tight word :=
  ⟨fun c hc => h.no_blank c (List.mem_of_mem_head? hc), fun c hc => h.no_blank c (List.mem_of_getLast? hc)⟩

end Text

open Text

namespace Marker

/-- How a marker is written, the blanks around it aside: a word, or two with blanks between them. -/
inductive Spelled : Marker → List Char → Prop where
  | simple {token : String} (htoken : IsWord token.toList) : Spelled (simple token) token.toList
  | paired {opening closing : String} {gap : List Char} (hopening : IsWord opening.toList)
      (hclosing : IsWord closing.toList) (hgap : gap ≠ []) (hblank : ∀ c ∈ gap, isBlank c) :
      Spelled (paired opening closing) (opening.toList ++ (gap ++ closing.toList))

variable {marker : Marker} {text : String}

theorem Spelled.tight {core : List Char} (h : marker.Spelled core) : Tight core := by
  cases h with
  | simple htoken => exact htoken.tight
  | @paired opening closing gap hopening hclosing hgap hblank =>
      constructor
      · rw [List.head?_append_of_ne_nil _ hopening.ne_nil]
        exact hopening.tight.head
      · rw [← List.append_assoc, List.getLast?_append_of_ne_nil _ hclosing.ne_nil]
        exact hclosing.tight.last

/-- A text is read as a marker if and only if this is how the marker is written. -/
theorem parse_eq_ok_iff : parse text = .ok marker ↔ Padded marker.Spelled text.toList := by
  constructor
  · intro h
    have hwords := words_eq_of_parse h
    cases marker with
    | simple token =>
        obtain ⟨front, rest, htext, hfront, htoken, -, hrest⟩ := exists_of_words_eq_cons hwords
        exact ⟨front, token.toList, rest, hfront, blanks_of_words_eq_nil hrest, htext, .simple htoken⟩
    | paired opening closing =>
        obtain ⟨front, rest, htext, hfront, hopening, hhead, hrest⟩ := exists_of_words_eq_cons hwords
        obtain ⟨gap, back, rfl, hgap, hclosing, -, hback⟩ := exists_of_words_eq_cons hrest
        refine ⟨front, _, back, hfront, blanks_of_words_eq_nil hback, ?_, .paired hopening hclosing ?_ hgap⟩
        · rw [htext]
          simp
        · rintro rfl
          obtain ⟨c, closing', hclosing'⟩ := List.exists_cons_of_ne_nil hclosing.ne_nil
          have hblank := hhead c (by rw [hclosing']; rfl)
          rw [hclosing.no_blank c (hclosing' ▸ List.mem_cons_self)] at hblank
          cases hblank
  · rintro ⟨front, core, back, hfront, hback, htext, hspelled⟩
    have hend : ∀ c ∈ back.head?, isBlank c := fun c hc => hback c (List.mem_of_mem_head? hc)
    cases hspelled with
    | @simple token htoken =>
        have hwords : words text.toList = [token.toList] := by
          rw [htext, words_append_blanks hfront, htoken.words_append hend, words_blanks hback]
        simp [parse, hwords]
    | @paired opening closing gap hopening hclosing hgap hblank =>
        obtain ⟨c, gap', rfl⟩ := List.exists_cons_of_ne_nil hgap
        have hnext : ∀ d ∈ (c :: gap' ++ (closing.toList ++ back)).head?, isBlank d := by
          rintro d ⟨⟩
          exact hblank c List.mem_cons_self
        have hwords : words text.toList = [opening.toList, closing.toList] := by
          rw [htext, words_append_blanks hfront, List.append_assoc, List.append_assoc, hopening.words_append hnext,
            words_append_blanks hblank, hclosing.words_append hend, words_blanks hback]
        simp [parse, hwords]

/-- What is printed of a marker that was read is read as this marker. -/
theorem parse_print (h : parse text = .ok marker) : parse marker.print = .ok marker := by
  obtain ⟨-, core, -, -, -, -, hspelled⟩ := parse_eq_ok_iff.mp h
  refine parse_eq_ok_iff.mpr ⟨[], marker.print.toList, [], by simp, by simp, by simp, ?_⟩
  cases hspelled with
  | simple htoken => exact .simple htoken
  | @paired opening closing gap hopening hclosing hgap hblank =>
      have hprint : (paired opening closing).print.toList = opening.toList ++ ([' '] ++ closing.toList) := by
        simp [print]
      rw [hprint]
      exact .paired hopening hclosing (by simp) (List.forall_mem_singleton.mpr (by decide))

end Marker

namespace Registry

variable {registry : Registry}

/-- What a configuration makes of the built-in languages, and entering more languages of that. -/
inductive Configured : Registry → Prop where
  | extended {registry : Registry} {entries : List (String × LanguageEntry)}
      (hextend : builtin.extend entries = .ok registry) : Configured registry
  | inserted {registry : Registry} (h : Configured registry) (name : String) {text : String} {marker : Marker}
      (hmarker : Marker.parse text = .ok marker) (extensions : List String) :
      Configured (registry.insert name marker extensions)

theorem Configured.parsed (h : registry.Configured) : registry.Parsed := by
  induction h with
  | extended hextend => exact parsed_builtin.extend hextend
  | inserted _ name hmarker extensions ih => exact ih.insert name hmarker extensions

end Registry

namespace BatchOptions

open Registry

variable {options : BatchOptions} {registry : Registry} {source : Source} {own : Option Selection} {job : Job}

/-- The marker of a job has been read from a text, whether it was given or found in the registry. -/
theorem exists_parse_of_job (hregistry : registry.Parsed)
    (hgiven : ∀ marker, options.marker = some marker → ∃ text, Marker.parse text = .ok marker)
    (hjob : options.job registry source own = .ok job) : ∃ text, Marker.parse text = .ok job.marker := by
  obtain ⟨selection, marker, -, hmarker, rfl⟩ := job_eq_ok_iff.mp hjob
  rw [markerFor] at hmarker
  cases hoption : options.marker with
  | some given =>
      rw [hoption] at hmarker
      exact Except.ok.inj hmarker ▸ hgiven given hoption
  | none =>
      rw [hoption] at hmarker
      exact hregistry.resolve hmarker

theorem exists_parse_of_options {arguments : CommandLine.Arguments} {settings : Settings}
    (h : arguments.options settings = .ok options) {marker : Marker} (hmarker : options.marker = some marker) :
    ∃ text, Marker.parse text = .ok marker := by
  obtain ⟨-, hread, -⟩ := CommandLine.Arguments.options_eq_ok_iff.mp h
  cases hgiven : arguments.marker with
  | none =>
      rw [hgiven, hmarker] at hread
      cases hread
  | some text =>
      rw [hgiven, Option.mapM_some, hmarker] at hread
      refine ⟨text, ?_⟩
      cases hparse : Marker.parse text with
      | error error =>
          rw [hparse] at hread
          cases hread
      | ok parsed =>
          rw [hparse] at hread
          cases hread
          rfl

/-- Every token of the marker of every job holds a character and no blank, and so no line feed, carriage return or
space, provided that a marker given for the batch was read from a text, as that of the command line is. Exactly the
texts with one word or two can be read, and what is printed of a marker that was read gives it back. -/
theorem job_marker_tokens :
    (∀ registry : Registry, registry.Configured → ∀ (options : BatchOptions) (source : Source) (own : Option Selection)
      (job : Job), (∀ marker, options.marker = some marker → ∃ text, Marker.parse text = .ok marker) →
      options.job registry source own = .ok job →
        ∀ token ∈ job.marker.tokens, token ≠ "" ∧ (∀ c ∈ token.toList, isBlank c = false) ∧
          '\n' ∉ token.toList ∧ '\r' ∉ token.toList ∧ ' ' ∉ token.toList) ∧
    (∀ (arguments : CommandLine.Arguments) settings options, arguments.options settings = .ok options →
      ∀ marker, options.marker = some marker → ∃ text, Marker.parse text = .ok marker) ∧
    (∀ text marker, Marker.parse text = .ok marker ↔ Padded marker.Spelled text.toList) ∧
    ∀ text marker, Marker.parse text = .ok marker → Marker.parse marker.print = .ok marker := by
  refine ⟨fun registry hregistry options source own job hgiven hjob token htoken => ?_,
    fun arguments settings options hoptions marker hmarker => exists_parse_of_options hoptions hmarker,
    fun text marker => Marker.parse_eq_ok_iff, fun text marker h => Marker.parse_print h⟩
  obtain ⟨text, hparse⟩ := exists_parse_of_job hregistry.parsed hgiven hjob
  obtain ⟨hempty, hblank⟩ := Marker.wellFormed_of_parse hparse
  have hnone : ∀ c, isBlank c = true → c ∉ token.toList := by
    intro c hc hmem
    rw [hblank token htoken c hmem] at hc
    cases hc
  exact ⟨hempty token htoken, hblank token htoken, hnone _ (by decide), hnone _ (by decide), hnone _ (by decide)⟩

/-- A marker with blanks of three kinds in a configuration, and a language entered later. -/
theorem job_marker_tokens_wide_blanks :
    let text := "\u3000<!--\u0085-->\x0b"
    let options : BatchOptions := { selection := some (.lines ⟨1, 1, by decide, by decide⟩) }
    ∃ registry, builtin.extend [("xml", ⟨text, ["xml"]⟩)] = .ok registry ∧ ∃ job,
      options.job (registry.insert "nim" (.simple "#") ["nim"]) (.file (.ofString "a.XML")) none = .ok job ∧
      job.marker = .paired "<!--" "-->" ∧
      (∀ token ∈ ["<!--", "-->"], token ≠ "" ∧ (∀ c ∈ token.toList, isBlank c = false) ∧
        '\n' ∉ token.toList ∧ '\r' ∉ token.toList ∧ ' ' ∉ token.toList) ∧
      Padded (Marker.paired "<!--" "-->").Spelled text.toList ∧
      Marker.parse (Marker.paired "<!--" "-->").print = .ok (.paired "<!--" "-->") := by
  intro text options
  obtain ⟨htokens, -, hspelled, hprint⟩ := job_marker_tokens
  have hparse : Marker.parse text = .ok (.paired "<!--" "-->") := by decide +kernel
  have hjob : ((builtin.extend [("xml", ⟨text, ["xml"]⟩)]).bind fun registry =>
      options.job (registry.insert "nim" (.simple "#") ["nim"]) (.file (.ofString "a.XML")) none) =
        .ok ⟨.file (.ofString "a.XML"), .lines ⟨1, 1, by decide, by decide⟩, .paired "<!--" "-->", .toggle, false⟩ := by
    decide +kernel
  cases hextend : builtin.extend [("xml", ⟨text, ["xml"]⟩)] with
  | error error =>
      rw [hextend] at hjob
      cases hjob
  | ok registry =>
      rw [hextend, Except.bind] at hjob
      have hhash : Marker.parse "#" = .ok (.simple "#") := by decide +kernel
      have hconfigured : (registry.insert "nim" (.simple "#") ["nim"]).Configured :=
        .inserted (.extended hextend) "nim" hhash ["nim"]
      exact ⟨registry, rfl, _, hjob, rfl, htokens _ hconfigured options _ _ _ (by simp [options]) hjob,
        (hspelled _ _).mp hparse, hprint _ _ hparse⟩

end BatchOptions

end LineComment
