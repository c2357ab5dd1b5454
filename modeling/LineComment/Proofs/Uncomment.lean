import LineComment.Proofs.Comment
import Mathlib.Logic.Function.Iterate

/-! What uncommenting removes. A commented line falls apart in one way only: blanks, a token, a body and, if the
marker is a pair, the other token and blanks again. No token starts or ends with a blank, and so the tokens show
where the blanks end. Each removal takes the tokens away, which a line can bear only so often; and because it never
gives back a line as long as the one before, toggling twice restores those lines only that are no comments or have
been made comments of such a line. -/

namespace LineComment

namespace Bytes

variable {front rest back : Bytes}

/-- Blanks in front of what starts with none are all the blanks a line starts with. -/
theorem leading_append (hfront : ∀ b ∈ front, isBlank b) (hhead : ∀ b ∈ rest.head?, ¬isBlank b) :
    (front ++ rest).leading = front := by
  have hnone : rest.takeWhile isBlank = [] := leading_eq_nil hhead
  rw [leading, List.takeWhile_append_of_pos hfront, hnone, List.append_nil]

theorem trimStart_append (hfront : ∀ b ∈ front, isBlank b) (hhead : ∀ b ∈ rest.head?, ¬isBlank b) :
    (front ++ rest).trimStart = rest := by
  rw [trimStart, List.dropWhile_append_of_pos hfront]
  exact trimStart_eq_self hhead

/-- Blanks behind what ends with none are all the blanks a line ends with. -/
theorem trailing_append (hback : ∀ b ∈ back, isBlank b) (hlast : ∀ b ∈ rest.getLast?, ¬isBlank b) :
    (rest ++ back).trailing = back := by
  rw [← List.head?_reverse] at hlast
  have hreverse : (back.reverse ++ rest.reverse).takeWhile isBlank = back.reverse :=
    leading_append (fun b hb => hback b (List.mem_reverse.mp hb)) hlast
  rw [trailing, List.reverse_append, hreverse, List.reverse_reverse]

theorem trimEnd_append (hback : ∀ b ∈ back, isBlank b) (hlast : ∀ b ∈ rest.getLast?, ¬isBlank b) :
    (rest ++ back).trimEnd = rest := by
  rw [← List.head?_reverse] at hlast
  have hreverse : (back.reverse ++ rest.reverse).dropWhile isBlank = rest.reverse :=
    trimStart_append (fun b hb => hback b (List.mem_reverse.mp hb)) hlast
  rw [trimEnd, List.reverse_append, hreverse, List.reverse_reverse]

end Bytes

namespace Marker

variable {marker : Marker} {line front body back : Bytes}

/-- A body without one space on the inner side of each token. -/
def bare : Marker → Bytes → Bytes
  | simple _, body => Bytes.dropSpace body
  | paired _ _, body => Bytes.dropLastSpace (Bytes.dropSpace body)

/-- A line in parts: blanks, the token and a body, or blanks, a body between the two tokens, and blanks. -/
inductive Parts (line : Bytes) : Marker → Bytes → Bytes → Bytes → Prop
  | simple {token : String} {front body : Bytes} (blank : ∀ b ∈ front, Bytes.isBlank b)
      (eq : line = front ++ (bytes token ++ body)) : Parts line (.simple token) front body []
  | paired {opening closing : String} {front body back : Bytes} (blank : ∀ b ∈ front, Bytes.isBlank b)
      (blankEnd : ∀ b ∈ back, Bytes.isBlank b)
      (eq : line = front ++ (bytes opening ++ (body ++ bytes closing) ++ back)) :
      Parts line (.paired opening closing) front body back

theorem WellFormed.head?_simple {token : String} (hmarker : (simple token).WellFormed) (body : Bytes) :
    ∀ b ∈ (bytes token ++ body).head?, ¬Bytes.isBlank b := by
  intro b hb
  rw [List.head?_append_of_ne_nil _ hmarker.token_ne_nil] at hb
  exact hmarker.not_isBlank (by simp [tokens]) (List.mem_of_mem_head? hb)

section

variable {opening closing : String} (hmarker : (paired opening closing).WellFormed) (body back : Bytes)

include hmarker

theorem WellFormed.head?_paired :
    ∀ b ∈ (bytes opening ++ (body ++ bytes closing) ++ back).head?, ¬Bytes.isBlank b := by
  intro b hb
  rw [List.append_assoc, List.head?_append_of_ne_nil _ hmarker.opening_ne_nil] at hb
  exact hmarker.not_isBlank (by simp [tokens]) (List.mem_of_mem_head? hb)

theorem WellFormed.getLast?_paired :
    ∀ b ∈ (bytes opening ++ (body ++ bytes closing)).getLast?, ¬Bytes.isBlank b := by
  intro b hb
  rw [← List.append_assoc, List.getLast?_append_of_ne_nil _ hmarker.closing_ne_nil] at hb
  exact hmarker.not_isBlank (by simp [tokens]) (List.mem_of_mem_getLast? hb)

end

/-- The blanks and the body that the line is cut into when it is trimmed are those of any parts it has. -/
theorem Parts.cut (hmarker : marker.WellFormed) (h : Parts line marker front body back) :
    marker.isCommented line ∧ line.leading = front ∧ marker.uncomment line = front ++ marker.bare body ++ back := by
  cases h with
  | @simple token front body hfront hline =>
      have hhead := hmarker.head?_simple body
      have hleading : line.leading = front := hline ▸ Bytes.leading_append hfront hhead
      have htrim : line.trimStart = bytes token ++ body := hline ▸ Bytes.trimStart_append hfront hhead
      have hsome : (bytes token).isPrefixOf? line.trimStart = some body :=
        List.isPrefixOf?_eq_some_iff_append_eq.mpr htrim.symm
      refine ⟨isCommented_simple_iff.mpr ⟨body, htrim.symm⟩, hleading, ?_⟩
      simp only [uncomment, hsome, hleading, bare, List.append_nil]
  | @paired opening closing front body back hfront hback hline =>
      have hhead := hmarker.head?_paired body back
      have hlast := hmarker.getLast?_paired body
      have hleading : line.leading = front := hline ▸ Bytes.leading_append hfront hhead
      have htrim : line.trim = bytes opening ++ (body ++ bytes closing) := by
        rw [Bytes.trim, hline, Bytes.trimStart_append hfront hhead, Bytes.trimEnd_append hback hlast]
      have hne : line.trim ≠ [] := htrim ▸ List.append_ne_nil_of_left_ne_nil hmarker.opening_ne_nil _
      have htrailing : line.trailing = back := by
        rw [Bytes.trailing_eq_trailing_trimStart hne, hline, Bytes.trimStart_append hfront hhead,
          Bytes.trailing_append hback hlast]
      have hsome : body? (bytes opening) (bytes closing) line.trim = some body := body?_eq_some_iff.mpr htrim.symm
      refine ⟨isCommented_paired_iff.mpr ⟨body, htrim.symm⟩, hleading, ?_⟩
      simp only [uncomment, hsome, hleading, htrailing, bare]

theorem Parts.unique (hmarker : marker.WellFormed) (h : Parts line marker front body back) {front' body' back' : Bytes}
    (h' : Parts line marker front' body' back') : front' = front ∧ body' = body ∧ back' = back := by
  obtain rfl : front' = front := (h'.cut hmarker).2.1.symm.trans (h.cut hmarker).2.1
  cases h with
  | simple _ hline =>
      cases h' with
      | simple _ hline' =>
          rw [hline, List.append_cancel_left_eq, List.append_cancel_left_eq] at hline'
          exact ⟨rfl, hline'.symm, rfl⟩
  | @paired _ _ _ body back _ hback hline =>
      cases h' with
      | @paired _ _ _ body' back' _ hback' hline' =>
          rw [hline, List.append_cancel_left_eq] at hline'
          have hends : back' = back := by
            rw [← Bytes.trailing_append hback' (hmarker.getLast?_paired body'), ← hline',
              Bytes.trailing_append hback (hmarker.getLast?_paired body)]
          subst hends
          rw [List.append_cancel_right_eq, List.append_cancel_left_eq, List.append_cancel_right_eq] at hline'
          exact ⟨rfl, hline'.symm, rfl⟩

theorem toggle_of_isCommented (h : marker.isCommented line) : marker.toggle line = marker.uncomment line := if_pos h

theorem toggle_of_not_isCommented (h : ¬marker.isCommented line) : marker.toggle line = marker.comment line := if_neg h

/-- A commented line is a comment, and uncommenting it gives the line back. Toggling twice does so exactly for a
line that is no comment, and for the comment of such a line. -/
theorem toggle_toggle_iff {text : String} {marker : Marker} (hparse : parse text = .ok marker) (line : Bytes) :
    marker.isCommented (marker.comment line) ∧ marker.uncomment (marker.comment line) = line ∧
    (marker.toggle (marker.toggle line) = line ↔
      ¬marker.isCommented line ∨ ∃ inner, ¬marker.isCommented inner ∧ line = marker.comment inner) := by
  have hmarker := wellFormed_of_parse hparse
  refine ⟨isCommented_comment hmarker line, uncomment_comment hmarker line, ?_, ?_⟩
  · intro htwice
    by_cases hcommented : marker.isCommented line
    · right
      have hshorter := length_uncomment_lt hmarker hcommented
      rw [toggle_of_isCommented hcommented] at htwice
      have hinner : ¬marker.isCommented (marker.uncomment line) := by
        intro hagain
        have hshortest := length_uncomment_lt hmarker hagain
        rw [toggle_of_isCommented hagain] at htwice
        rw [htwice] at hshortest
        omega
      rw [toggle_of_not_isCommented hinner] at htwice
      exact ⟨marker.uncomment line, hinner, htwice.symm⟩
    · exact Or.inl hcommented
  · rintro (hplain | ⟨inner, hinner, rfl⟩)
    · rw [toggle_of_not_isCommented hplain, toggle_of_isCommented (isCommented_comment hmarker line),
        uncomment_comment hmarker]
    · rw [toggle_of_isCommented (isCommented_comment hmarker inner), uncomment_comment hmarker,
        toggle_of_not_isCommented hinner]

/-- The comment of a line that overlaps the marker is restored; with the space left out it is not. -/
theorem toggle_toggle_iff_dashes :
    (simple "--").toggle ((simple "--").toggle (bytes "-- - a")) = bytes "-- - a" ∧
    (simple "--").toggle ((simple "--").toggle (bytes "--- a")) ≠ bytes "--- a" := by
  have hparse : parse "--" = .ok (simple "--") := rfl
  refine ⟨(toggle_toggle_iff hparse _).2.2.mpr (Or.inr ⟨bytes "- a", by decide, by decide⟩), ?_⟩
  intro htwice
  rcases (toggle_toggle_iff hparse _).2.2.mp htwice with hplain | ⟨inner, -, hinner⟩
  · exact hplain (by decide)
  · have hthird : (bytes "--- a")[2]? = ((simple "--").comment inner)[2]? := congrArg (fun text => text[2]?) hinner
    rw [comment, show bytes "--" = [0x2d, 0x2d] by decide, show (bytes "--- a")[2]? = some 0x2d by decide] at hthird
    exact absurd (Option.some.inj hthird) (by decide)

end Marker

end LineComment
