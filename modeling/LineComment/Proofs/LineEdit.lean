import LineComment.LineEdit
import LineComment.Proofs.Lists
import Mathlib.Data.List.Basic

/-! What the actions do to a line, measured. Each token of a marker that was read holds a character and no blank, so
commenting makes every line longer, and uncommenting makes a commented line shorter and leaves any other as it is. An
action then changes a line exactly when its name promises a change, and counting changed lines needs no comparison of
their bytes. -/

namespace LineComment

namespace Text

theorem ne_nil_of_mem_words {text word : List Char} (hword : word ∈ words text) : word ≠ [] := by
  have hfilter := (List.mem_filter.mp hword).2
  simpa using hfilter

theorem isBlank_eq_false_of_mem_words {text word : List Char} (hword : word ∈ words text)
    {c : Char} (hc : c ∈ word) : isBlank c = false :=
  eq_false_of_mem_splitOnP (List.mem_filter.mp hword).1 hc

end Text

namespace Marker

/-- The tokens of a marker. -/
def tokens : Marker → List String
  | simple token => [token]
  | paired opening closing => [opening, closing]

/-- Each token holds at least one character, and no blank. -/
structure WellFormed (marker : Marker) : Prop where
  ne_empty : ∀ token ∈ marker.tokens, token ≠ ""
  no_blank : ∀ token ∈ marker.tokens, ∀ c ∈ token.toList, Text.isBlank c = false

/-- A marker that was read has the words of its text as tokens. -/
theorem words_eq_of_parse {text : String} {marker : Marker} (h : parse text = .ok marker) :
    Text.words text.toList = marker.tokens.map String.toList := by
  unfold parse at h
  split at h
  · next token hwords =>
      cases h
      simp [hwords, tokens]
  · next opening closing hwords =>
      cases h
      simp [hwords, tokens]
  · cases h

/-- Every marker that was read is well-formed. -/
theorem wellFormed_of_parse {text : String} {marker : Marker} (h : parse text = .ok marker) :
    marker.WellFormed := by
  have hmem : ∀ token ∈ marker.tokens, token.toList ∈ Text.words text.toList := fun token htoken => by
    rw [words_eq_of_parse h]
    exact List.mem_map_of_mem htoken
  constructor
  · rintro token htoken rfl
    exact Text.ne_nil_of_mem_words (hmem _ htoken) rfl
  · intro token htoken c hc
    exact Text.isBlank_eq_false_of_mem_words (hmem token htoken) hc

/-- A token that holds a character stands for at least one byte. -/
theorem bytes_ne_nil {token : String} (h : token ≠ "") : bytes token ≠ [] := by
  obtain ⟨c, rest, hlist⟩ := List.exists_cons_of_ne_nil (mt String.toList_eq_nil_iff.mp h)
  rw [bytes, hlist]
  simp [Utf8.encode, Utf8.encodeOne]

theorem WellFormed.token_ne_nil {token : String} (h : (simple token).WellFormed) : bytes token ≠ [] :=
  bytes_ne_nil (h.ne_empty token List.mem_cons_self)

theorem WellFormed.opening_ne_nil {opening closing : String} (h : (paired opening closing).WellFormed) :
    bytes opening ≠ [] :=
  bytes_ne_nil (h.ne_empty opening List.mem_cons_self)

end Marker

namespace Bytes

theorem length_dropSpace_le (line : Bytes) : (dropSpace line).length ≤ line.length := by
  cases line with
  | nil => exact Nat.le_refl 0
  | cons b rest =>
      rw [dropSpace]
      split_ifs
      · exact Nat.le_succ rest.length
      · exact Nat.le_refl _

theorem length_dropLastSpace_le (line : Bytes) : (dropLastSpace line).length ≤ line.length := by
  have hreverse := length_dropSpace_le line.reverse
  rw [List.length_reverse] at hreverse
  rwa [dropLastSpace, List.length_reverse]

/-- The blanks at the end of a line stand behind what is left of it without the blanks in front. -/
theorem trailing_eq_trailing_trimStart {line : Bytes} (h : line.trim ≠ []) :
    line.trailing = line.trimStart.trailing := by
  have hreverse : line.reverse = line.trimStart.reverse ++ line.leading.reverse := by
    rw [← List.reverse_append, leading_append_trimStart]
  have hnot : (line.trimStart.reverse.takeWhile isBlank).length ≠ line.trimStart.reverse.length := by
    intro hall
    have hsplit := congrArg List.length
      (List.takeWhile_append_dropWhile (p := isBlank) (l := line.trimStart.reverse))
    rw [List.length_append, hall] at hsplit
    have hnil : line.trimStart.reverse.dropWhile isBlank = [] := List.eq_nil_of_length_eq_zero (by omega)
    exact h (by rw [trim, trimEnd, hnil, List.reverse_nil])
  rw [trailing, trailing, hreverse, List.takeWhile_append, if_neg hnot]

/-- A line that holds more than blanks is what is left without them, between them. -/
theorem leading_append_trim_append_trailing {line : Bytes} (h : line.trim ≠ []) :
    line.leading ++ (line.trim ++ line.trailing) = line := by
  rw [trailing_eq_trailing_trimStart h, trim, trimEnd_append_trailing, leading_append_trimStart]

end Bytes

namespace Marker

/-- A body stands between two delimiters exactly where the text is the three of them in a row. -/
theorem body?_eq_some_iff {opening closing text body : Bytes} :
    body? opening closing text = some body ↔ opening ++ (body ++ closing) = text := by
  unfold body?
  constructor
  · intro h
    split_ifs at h
    obtain ⟨rest, hrest, hbody⟩ := Option.bind_eq_some_iff.mp h
    rw [List.isSuffixOf?_eq_some_iff_append_eq] at hbody
    rw [hbody]
    exact List.isPrefixOf?_eq_some_iff_append_eq.mp hrest
  · rintro rfl
    have hlength : ¬(opening ++ (body ++ closing)).length < opening.length + closing.length := by
      simp only [List.length_append]
      omega
    rw [if_neg hlength, List.isPrefixOf?_eq_some_iff_append_eq.mpr rfl]
    exact List.isSuffixOf?_eq_some_iff_append_eq.mpr rfl

theorem isCommented_simple_iff {token : String} {line : Bytes} :
    (simple token).isCommented line ↔ ∃ rest, bytes token ++ rest = line.trimStart :=
  List.isPrefixOf_iff_prefix

theorem isCommented_paired_iff {opening closing : String} {line : Bytes} :
    (paired opening closing).isCommented line ↔
      ∃ body, bytes opening ++ (body ++ bytes closing) = line.trim := by
  rw [isCommented, Option.isSome_iff_exists]
  simp only [body?_eq_some_iff]

/-- Nothing is removed from a line that is no comment. -/
theorem uncomment_of_not_isCommented {marker : Marker} {line : Bytes} (h : ¬marker.isCommented line) :
    marker.uncomment line = line := by
  cases marker with
  | simple token =>
      rw [isCommented_simple_iff] at h
      have hnone : (bytes token).isPrefixOf? line.trimStart = none :=
        Option.eq_none_iff_forall_not_mem.mpr fun rest hrest =>
          h ⟨rest, List.isPrefixOf?_eq_some_iff_append_eq.mp hrest⟩
      simp only [uncomment, hnone]
  | paired opening closing =>
      rw [isCommented_paired_iff] at h
      have hnone : body? (bytes opening) (bytes closing) line.trim = none :=
        Option.eq_none_iff_forall_not_mem.mpr fun body hbody => h ⟨body, body?_eq_some_iff.mp hbody⟩
      simp only [uncomment, hnone]

/-- A commented line loses its tokens at least. -/
theorem length_uncomment_lt {marker : Marker} (hmarker : marker.WellFormed) {line : Bytes}
    (h : marker.isCommented line) : (marker.uncomment line).length < line.length := by
  cases marker with
  | simple token =>
      obtain ⟨rest, hrest⟩ := isCommented_simple_iff.mp h
      have hsome : (bytes token).isPrefixOf? line.trimStart = some rest :=
        List.isPrefixOf?_eq_some_iff_append_eq.mpr hrest
      have htoken := List.length_pos_of_ne_nil hmarker.token_ne_nil
      have hspace := Bytes.length_dropSpace_le rest
      have hline := congrArg List.length (Bytes.leading_append_trimStart line)
      rw [← hrest] at hline
      simp only [List.length_append] at hline
      simp only [uncomment, hsome, List.length_append]
      omega
  | paired opening closing =>
      obtain ⟨body, hbody⟩ := isCommented_paired_iff.mp h
      have hsome : body? (bytes opening) (bytes closing) line.trim = some body := body?_eq_some_iff.mpr hbody
      have hopening := List.length_pos_of_ne_nil hmarker.opening_ne_nil
      have htrim : line.trim ≠ [] := by
        rw [← hbody]
        exact List.append_ne_nil_of_left_ne_nil hmarker.opening_ne_nil _
      have hspace := Bytes.length_dropSpace_le body
      have hspaces := Bytes.length_dropLastSpace_le (Bytes.dropSpace body)
      have hline := congrArg List.length (Bytes.leading_append_trim_append_trailing htrim)
      rw [← hbody] at hline
      simp only [List.length_append] at hline
      simp only [uncomment, hsome, List.length_append]
      omega

theorem uncomment_ne_iff {marker : Marker} (hmarker : marker.WellFormed) {line : Bytes} :
    marker.uncomment line ≠ line ↔ marker.isCommented line := by
  constructor
  · exact fun h => by_contra fun hnot => h (uncomment_of_not_isCommented hnot)
  · intro h heq
    exact Nat.ne_of_lt (length_uncomment_lt hmarker h) (congrArg List.length heq)

theorem length_lt_comment (marker : Marker) (line : Bytes) : line.length < (marker.comment line).length := by
  cases marker <;> simp only [comment, List.length_append, List.length_cons] <;> omega

theorem comment_ne (marker : Marker) (line : Bytes) : marker.comment line ≠ line :=
  fun h => Nat.ne_of_lt (length_lt_comment marker line) (congrArg List.length h.symm)

theorem toggle_ne {marker : Marker} (hmarker : marker.WellFormed) (line : Bytes) : marker.toggle line ≠ line := by
  rw [toggle]
  split_ifs with h
  · exact (uncomment_ne_iff hmarker).mpr h
  · exact comment_ne marker line

end Marker

/-- Whether an action makes a line different: uncommenting does so for comments only. -/
def Action.changes (action : Action) (marker : Marker) (line : Bytes) : Bool :=
  match action with
  | uncomment => marker.isCommented line
  | comment | toggle => true

theorem Action.apply_ne_iff {marker : Marker} (hmarker : marker.WellFormed) {action : Action} {line : Bytes} :
    action.apply marker line ≠ line ↔ action.changes marker line := by
  cases action with
  | comment => exact iff_of_true (marker.comment_ne line) rfl
  | uncomment => exact Marker.uncomment_ne_iff hmarker
  | toggle => exact iff_of_true (Marker.toggle_ne hmarker line) rfl

end LineComment
