import LineComment.Proofs.Stream
import LineComment.Proofs.Utf8.Validity

/-! A run neither breaks nor repairs the encoding of its input. What an action adds to a line or takes from it is
text in front of what is left or behind it, and the end of a line is a byte below 0x80, so each line is well-formed
after the run if and only if it was so before. -/

namespace LineComment

open Utf8

namespace Bytes

variable {b : UInt8} {line : Bytes}

theorem toNat_lt_of_isBlank (hb : isBlank b) : b.toNat < 0x80 := by
  simp only [isBlank, Bool.or_eq_true, beq_iff_eq] at hb
  rcases hb with (((rfl | rfl) | rfl) | rfl) | rfl <;> decide

theorem isValid_leading (line : Bytes) : isValid line.leading :=
  isValid_of_ascii fun _ hb => toNat_lt_of_isBlank (List.all_eq_true.mp List.all_takeWhile _ hb)

theorem isValid_trailing (line : Bytes) : isValid line.trailing :=
  isValid_of_ascii fun _ hb => toNat_lt_of_isBlank (List.all_eq_true.mp List.all_takeWhile _ (List.mem_reverse.mp hb))

theorem isValid_trimStart (line : Bytes) : isValid line.trimStart = isValid line := by
  rw [← isValid_append_left (isValid_leading line), leading_append_trimStart]

theorem isValid_trimEnd (line : Bytes) : isValid line.trimEnd = isValid line := by
  rw [← isValid_append_right _ (isValid_trailing line), trimEnd_append_trailing]

theorem isValid_dropSpace (line : Bytes) : isValid (dropSpace line) = isValid line := by
  cases line with
  | nil => rfl
  | cons b rest =>
      rw [dropSpace]
      split_ifs with hb
      · rw [hb, ← List.singleton_append, isValid_append_left (isValid_singleton (by decide))]
      · rfl

theorem isValid_dropLastSpace (line : Bytes) : isValid (dropLastSpace line) = isValid line := by
  obtain ⟨reversed, rfl⟩ := List.reverse_surjective line
  rw [dropLastSpace, List.reverse_reverse]
  cases reversed with
  | nil => rfl
  | cons b rest =>
      rw [dropSpace]
      split_ifs with hb
      · rw [hb, List.reverse_cons, isValid_append_right _ (isValid_singleton (by decide))]
      · rfl

end Bytes

namespace Marker

theorem isValid_bytes (token : String) : isValid (bytes token) := isValid_iff.mpr ⟨token.toList, rfl⟩

theorem isValid_comment (marker : Marker) (line : Bytes) : isValid (marker.comment line) = isValid line := by
  have hspace : isValid [Bytes.space] := isValid_singleton (by decide)
  cases marker with
  | simple token =>
      rw [comment, isValid_append_left (isValid_bytes token), ← List.singleton_append, isValid_append_left hspace]
  | paired opening closing =>
      have hclosing : isValid (Bytes.space :: bytes closing) := by
        rw [← List.singleton_append, isValid_append_left hspace]
        exact isValid_bytes closing
      rw [comment, isValid_append_right _ hclosing, isValid_append_left (isValid_bytes opening),
        ← List.singleton_append, isValid_append_left hspace]

theorem isValid_uncomment (marker : Marker) (line : Bytes) : isValid (marker.uncomment line) = isValid line := by
  by_cases hcommented : marker.isCommented line
  · cases marker with
    | simple token =>
        obtain ⟨rest, hrest⟩ := isCommented_simple_iff.mp hcommented
        have hremoved : (simple token).uncomment line = line.leading ++ Bytes.dropSpace rest := by
          simp only [uncomment, List.isPrefixOf?_eq_some_iff_append_eq.mpr hrest]
        calc isValid ((simple token).uncomment line)
          _ = isValid rest := by
            rw [hremoved, isValid_append_left (Bytes.isValid_leading line), Bytes.isValid_dropSpace]
          _ = isValid line.trimStart := by rw [← hrest, isValid_append_left (isValid_bytes token)]
          _ = isValid line := Bytes.isValid_trimStart line
    | paired opening closing =>
        obtain ⟨body, hbody⟩ := isCommented_paired_iff.mp hcommented
        have hremoved : (paired opening closing).uncomment line =
            line.leading ++ Bytes.dropLastSpace (Bytes.dropSpace body) ++ line.trailing := by
          simp only [uncomment, body?_eq_some_iff.mpr hbody]
        calc isValid ((paired opening closing).uncomment line)
          _ = isValid body := by
            rw [hremoved, isValid_append_right _ (Bytes.isValid_trailing line),
              isValid_append_left (Bytes.isValid_leading line), Bytes.isValid_dropLastSpace,
              Bytes.isValid_dropSpace]
          _ = isValid line.trim := by
            rw [← hbody, isValid_append_left (isValid_bytes opening), isValid_append_right _ (isValid_bytes closing)]
          _ = isValid line := by rw [Bytes.trim, Bytes.isValid_trimEnd, Bytes.isValid_trimStart]
  · rw [uncomment_of_not_isCommented hcommented]

theorem isValid_toggle (marker : Marker) (line : Bytes) : isValid (marker.toggle line) = isValid line := by
  rw [toggle]
  split_ifs
  · exact marker.isValid_uncomment line
  · exact marker.isValid_comment line

end Marker

theorem Action.isValid_apply (action : Action) (marker : Marker) (line : Bytes) :
    isValid (action.apply marker line) = isValid line := by
  cases action with
  | comment => exact marker.isValid_comment line
  | uncomment => exact marker.isValid_uncomment line
  | toggle => exact marker.isValid_toggle line

theorem Line.Proper.isValid_append {line : Line} (hline : line.Proper) (content rest : Bytes) :
    isValid (content ++ line.ending ++ rest) = (isValid content && isValid rest) := by
  have hlineFeed : isValid [Bytes.lineFeed] := isValid_singleton (by decide)
  rw [List.append_assoc]
  rcases hline.ending with hending | hending <;> rw [hending]
  · rw [List.cons_append, isValid_append_cons (by decide), isValid_append_left hlineFeed]
  · rw [List.singleton_append, isValid_append_cons (by decide)]

theorem Line.isValid_closing (input : Bytes) : isValid (closing input) := by
  rw [closing]
  split_ifs <;> rfl

/-- Lines with their ends are well-formed when the content of each is. -/
theorem Line.isValid_flatMap {lines : List Line} (hlines : ∀ line ∈ lines, line.Proper) :
    isValid (lines.flatMap fun line => line.content ++ line.ending) = lines.all fun line => isValid line.content := by
  induction lines with
  | nil => rfl
  | cons line lines ih =>
      obtain ⟨hline, hlines⟩ := List.forall_mem_cons.mp hlines
      rw [List.flatMap_cons, hline.isValid_append, ih hlines, List.all_cons]

namespace Job

variable (job : Job)

/-- What a run writes is well-formed when the content of every line was, whatever lines are chosen. -/
theorem isValid_written {lines : List Line} (hlines : ∀ line ∈ lines, line.Proper) {choices : List Bool}
    (hlength : choices.length = lines.length) :
    isValid (List.zipWith job.written lines choices).flatten = lines.all fun line => isValid line.content := by
  induction lines generalizing choices with
  | nil => rfl
  | cons line lines ih =>
      obtain ⟨chosen, choices, rfl⟩ := List.exists_cons_of_length_eq_add_one hlength
      obtain ⟨hline, hlines⟩ := List.forall_mem_cons.mp hlines
      have hcontent : isValid (if chosen then job.action.apply job.marker line.content else line.content) =
          isValid line.content := by
        split_ifs
        · exact job.action.isValid_apply job.marker line.content
        · rfl
      rw [List.zipWith_cons_cons, List.flatten_cons, written, hline.isValid_append, hcontent,
        ih hlines (Nat.succ.inj hlength), List.all_cons]

/-- A run over a stream that succeeds has written well-formed bytes if and only if it was given such, and the same
holds of every action on every line. Bytes are well-formed when they encode a text. -/
theorem isValid_stream_iff :
    (∀ bytes, isValid bytes ↔ ∃ text, encode text = bytes) ∧
    (∀ (action : Action) marker line, isValid (action.apply marker line) ↔ isValid line) ∧
    ∀ (job : Job) reader world later report, job.dryRun = false →
      (job.stream reader).run.run world = (later, .ok report) →
      ∃ output, later.output.written = world.output.written ++ output ∧
        (isValid output ↔ isValid reader.bytes) := by
  refine ⟨fun _ => isValid_iff, fun action marker line => by rw [action.isValid_apply], ?_⟩
  intro job reader world later report hwrite hrun
  obtain ⟨hwritten, hresult⟩ := job.written_of_stream hwrite hrun
  refine ⟨_, hwritten, ?_⟩
  obtain ⟨input, _ | fault⟩ := reader
  · have hlines : ∀ line ∈ (Line.cut input).map Line.ofRaw, line.Proper := fun _ => Line.proper_of_mem
    rw [(job.scan_eq_reference input).1, reference, job.isValid_written hlines (job.length_choices _),
      ← Line.isValid_flatMap hlines, flatMap_ofRaw_cut, isValid_append_right _ (Line.isValid_closing input)]
  · cases hresult

/-- Uncommenting a line in which a stray tail stands behind the marker, a letter of two bytes. What is written is as
ill-formed as the input. -/
theorem isValid_stream_iff_stray_tail :
    let job : Job := ⟨.standardInput, .lines ⟨1, 1, by decide, by decide⟩, .simple "é", .uncomment, false⟩
    let input := [0xc3, 0xa9, 0x20, 0xa9, 0x0a]
    ∃ later report, (job.stream ⟨input, none⟩).run.run {} = (later, .ok report) ∧
      later.output.written = [0xa9, 0x0a] ∧ (isValid later.output.written ↔ isValid input) ∧ ¬isValid input := by
  intro job input
  have hrun : (job.stream ⟨input, none⟩).run.run {} =
      ({ output := { pieces := [[0xa9, 0x0a]] } }, .ok ⟨.standardInput, .stream, ⟨1, 1, 1⟩⟩) := by rfl
  obtain ⟨output, hwritten, hvalid⟩ := isValid_stream_iff.2.2 job ⟨input, none⟩ {} _ _ rfl hrun
  refine ⟨_, _, hrun, by rfl, ?_, by decide⟩
  rw [hwritten]
  exact hvalid

end Job

end LineComment
