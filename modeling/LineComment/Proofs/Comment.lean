import LineComment.Proofs.LineEdit
import LineComment.Proofs.Utf8.Spelling

/-! What becomes of a line that is commented. The tokens of a marker hold no blank, as a text and as bytes, and
so a comment is recognised as one and uncommenting it gives the line back, whatever bytes the line holds; and no
action puts a line feed into a line. -/

namespace LineComment

namespace Bytes

variable {line : Bytes}

theorem trimStart_eq_self (hhead : ∀ b ∈ line.head?, ¬isBlank b) : line.trimStart = line := by
  cases line with
  | nil => rfl
  | cons b rest => exact List.dropWhile_cons_of_neg (hhead b rfl)

theorem leading_eq_nil (hhead : ∀ b ∈ line.head?, ¬isBlank b) : line.leading = [] := by
  cases line with
  | nil => rfl
  | cons b rest => exact List.takeWhile_cons_of_neg (hhead b rfl)

theorem trimEnd_eq_self (hlast : ∀ b ∈ line.getLast?, ¬isBlank b) : line.trimEnd = line := by
  rw [← List.head?_reverse] at hlast
  rw [trimEnd, show line.reverse.dropWhile isBlank = line.reverse from trimStart_eq_self hlast, List.reverse_reverse]

theorem trailing_eq_nil (hlast : ∀ b ∈ line.getLast?, ¬isBlank b) : line.trailing = [] := by
  rw [← List.head?_reverse] at hlast
  rw [trailing, show line.reverse.takeWhile isBlank = [] from leading_eq_nil hlast, List.reverse_nil]

theorem dropSpace_subset (line : Bytes) : dropSpace line ⊆ line := by
  cases line with
  | nil => exact List.Subset.refl []
  | cons b rest =>
      rw [dropSpace]
      split_ifs
      · exact List.subset_cons_self b rest
      · exact List.Subset.refl _

theorem dropLastSpace_subset (line : Bytes) : dropLastSpace line ⊆ line := by
  intro b hb
  rw [dropLastSpace, List.mem_reverse] at hb
  exact List.mem_reverse.mp (dropSpace_subset line.reverse hb)

theorem dropLastSpace_append_space (line : Bytes) : dropLastSpace (line ++ [space]) = line := by
  simp [dropLastSpace, dropSpace]

end Bytes

namespace Marker

variable {marker : Marker} {token opening closing : String} {line : Bytes}

/-- Every blank of the lines is a blank of the texts too, and no byte of a longer character is one. -/
theorem WellFormed.not_isBlank (hmarker : marker.WellFormed) (htoken : token ∈ marker.tokens) {b : UInt8}
    (hb : b ∈ bytes token) : ¬Bytes.isBlank b := by
  intro hblank
  have hcases : b = 0x20 ∨ b = 0x09 ∨ b = 0x0a ∨ b = 0x0c ∨ b = 0x0d := by
    simpa [Bytes.isBlank, Bytes.space, Bytes.lineFeed, Bytes.carriageReturn, or_assoc] using hblank
  rcases hcases with rfl | rfl | rfl | rfl | rfl
  all_goals
    rw [bytes, Utf8.mem_encode_iff (by decide)] at hb
    exact absurd (hmarker.no_blank token htoken _ hb) (by decide)

theorem WellFormed.closing_ne_nil (hmarker : (paired opening closing).WellFormed) : bytes closing ≠ [] :=
  bytes_ne_nil (hmarker.ne_empty closing (by simp [tokens]))

theorem WellFormed.not_isBlank_of_head? (hmarker : marker.WellFormed) :
    ∀ b ∈ (marker.comment line).head?, ¬Bytes.isBlank b := by
  intro b hb
  cases marker with
  | simple token =>
      rw [comment, List.head?_append_of_ne_nil _ hmarker.token_ne_nil] at hb
      exact hmarker.not_isBlank (by simp [tokens]) (List.mem_of_mem_head? hb)
  | paired opening closing =>
      rw [comment, List.append_assoc, List.head?_append_of_ne_nil _ hmarker.opening_ne_nil] at hb
      exact hmarker.not_isBlank (by simp [tokens]) (List.mem_of_mem_head? hb)

theorem WellFormed.not_isBlank_of_getLast? (hmarker : (paired opening closing).WellFormed) :
    ∀ b ∈ ((paired opening closing).comment line).getLast?, ¬Bytes.isBlank b := by
  intro b hb
  rw [comment, List.append_cons, List.getLast?_append_of_ne_nil _ hmarker.closing_ne_nil] at hb
  exact hmarker.not_isBlank (by simp [tokens]) (List.mem_of_mem_getLast? hb)

theorem isCommented_comment (hmarker : marker.WellFormed) (line : Bytes) :
    marker.isCommented (marker.comment line) := by
  cases marker with
  | simple token =>
      rw [isCommented_simple_iff, Bytes.trimStart_eq_self hmarker.not_isBlank_of_head?]
      exact ⟨_, rfl⟩
  | paired opening closing =>
      rw [isCommented_paired_iff, Bytes.trim, Bytes.trimStart_eq_self hmarker.not_isBlank_of_head?,
        Bytes.trimEnd_eq_self hmarker.not_isBlank_of_getLast?]
      exact ⟨Bytes.space :: line ++ [Bytes.space], by simp [comment]⟩

theorem uncomment_comment (hmarker : marker.WellFormed) (line : Bytes) :
    marker.uncomment (marker.comment line) = line := by
  cases marker with
  | simple token =>
      have hrest : (bytes token).isPrefixOf? ((simple token).comment line).trimStart = some (Bytes.space :: line) := by
        rw [Bytes.trimStart_eq_self hmarker.not_isBlank_of_head?]
        exact List.isPrefixOf?_eq_some_iff_append_eq.mpr rfl
      simp only [uncomment, hrest, Bytes.leading_eq_nil hmarker.not_isBlank_of_head?]
      rfl
  | paired opening closing =>
      have hbody : body? (bytes opening) (bytes closing) ((paired opening closing).comment line).trim =
          some (Bytes.space :: line ++ [Bytes.space]) := by
        rw [body?_eq_some_iff, Bytes.trim, Bytes.trimStart_eq_self hmarker.not_isBlank_of_head?,
          Bytes.trimEnd_eq_self hmarker.not_isBlank_of_getLast?]
        simp [comment]
      simp only [uncomment, hbody, Bytes.leading_eq_nil hmarker.not_isBlank_of_head?,
        Bytes.trailing_eq_nil hmarker.not_isBlank_of_getLast?, List.nil_append, List.append_nil]
      exact Bytes.dropLastSpace_append_space line

theorem lineFeed_notMem_comment (hmarker : marker.WellFormed) (hline : Bytes.lineFeed ∉ line) :
    Bytes.lineFeed ∉ marker.comment line := by
  have htokens : ∀ token ∈ marker.tokens, Bytes.lineFeed ∉ bytes token := fun token htoken hmem =>
    hmarker.not_isBlank htoken hmem (by decide)
  have hspace : Bytes.lineFeed ≠ Bytes.space := by decide
  cases marker <;> simp_all [comment, tokens]

/-- Uncommenting only leaves bytes out. -/
theorem uncomment_subset (marker : Marker) (line : Bytes) : marker.uncomment line ⊆ line := by
  have hleading : line.leading ⊆ line := (List.takeWhile_prefix _).subset
  have hstart : line.trimStart ⊆ line := (List.dropWhile_suffix _).subset
  by_cases hcommented : marker.isCommented line
  swap
  · rw [uncomment_of_not_isCommented hcommented]
    exact List.Subset.refl line
  cases marker with
  | simple token =>
      obtain ⟨rest, hrest⟩ := isCommented_simple_iff.mp hcommented
      have hsome : (bytes token).isPrefixOf? line.trimStart = some rest :=
        List.isPrefixOf?_eq_some_iff_append_eq.mpr hrest
      have hbehind : rest ⊆ line := fun b hb => hstart (hrest ▸ List.mem_append_right _ hb)
      simp only [uncomment, hsome]
      exact List.append_subset.mpr ⟨hleading, List.Subset.trans (Bytes.dropSpace_subset rest) hbehind⟩
  | paired opening closing =>
      obtain ⟨body, hbody⟩ := isCommented_paired_iff.mp hcommented
      have hsome : body? (bytes opening) (bytes closing) line.trim = some body := body?_eq_some_iff.mpr hbody
      have htrim : line.trim ⊆ line := by
        intro b hb
        have hkept := (List.dropWhile_suffix _).subset (List.mem_reverse.mp hb)
        exact hstart (List.mem_reverse.mp hkept)
      have hbehind : body ⊆ line := fun b hb =>
        htrim (hbody ▸ List.mem_append_right _ (List.mem_append_left _ hb))
      have htrailing : line.trailing ⊆ line := by
        intro b hb
        exact List.mem_reverse.mp ((List.takeWhile_prefix _).subset (List.mem_reverse.mp hb))
      have hspaces : Bytes.dropLastSpace (Bytes.dropSpace body) ⊆ line :=
        List.Subset.trans (Bytes.dropLastSpace_subset _) (List.Subset.trans (Bytes.dropSpace_subset body) hbehind)
      simp only [uncomment, hsome]
      exact List.append_subset.mpr ⟨List.append_subset.mpr ⟨hleading, hspaces⟩, htrailing⟩

/-- A carriage return at the end of a comment was at the end of the line. -/
theorem comment_of_getLast? (hmarker : marker.WellFormed)
    (hlast : (marker.comment line).getLast? = some Bytes.carriageReturn) :
    ∃ front, line = front ++ [Bytes.carriageReturn] ∧
      marker.comment line = marker.comment front ++ [Bytes.carriageReturn] := by
  cases marker with
  | simple token =>
      rcases List.eq_nil_or_concat' line with rfl | ⟨front, last, rfl⟩
      · rw [comment, List.getLast?_concat] at hlast
        cases hlast
      · rw [comment, ← List.cons_append, ← List.append_assoc, List.getLast?_concat] at hlast
        cases hlast
        exact ⟨front, rfl, by simp [comment]⟩
  | paired opening closing => exact absurd (by decide) (hmarker.not_isBlank_of_getLast? _ hlast)

end Marker

/-- No action puts a line feed into a line. -/
theorem Action.lineFeed_notMem_apply {marker : Marker} (hmarker : marker.WellFormed) (action : Action) {line : Bytes}
    (hline : Bytes.lineFeed ∉ line) : Bytes.lineFeed ∉ action.apply marker line := by
  have huncomment : Bytes.lineFeed ∉ marker.uncomment line := fun hmem => hline (marker.uncomment_subset line hmem)
  cases action with
  | comment => exact Marker.lineFeed_notMem_comment hmarker hline
  | uncomment => exact huncomment
  | toggle =>
      rw [apply, Marker.toggle]
      split_ifs
      · exact huncomment
      · exact Marker.lineFeed_notMem_comment hmarker hline

end LineComment
