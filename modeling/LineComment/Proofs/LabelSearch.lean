import LineComment.Proofs.Stream
import LineComment.Proofs.Utf8.Reading

/-! Labels are looked for in the decoded text of a line, and yet only its bytes count: the text of a line
holds a label exactly where its bytes hold those of the label. What stands around them, well-formed or not, hides no
label and makes none, so two inputs whose lines hold the same labels are scanned alike. -/

namespace LineComment

theorem Text.occursIn_iff {α : Type} [BEq α] [LawfulBEq α] {needle list : List α} :
    occursIn needle list ↔ needle <:+: list := by
  induction list with
  | nil => simp [occursIn]
  | cons a rest ih =>
      rw [occursIn, Bool.or_eq_true, List.isPrefixOf_iff_prefix, ih, List.infix_cons_iff]

theorem holdsLabel_lossy_iff {label : String} (hlabel : '\ufffd' ∉ label.toList) {line : Bytes} :
    holdsLabel label (Utf8.lossy line) ↔ Utf8.encode label.toList <:+: line := by
  rw [holdsLabel, Text.occursIn_iff, Utf8.infix_lossy_iff hlabel]

namespace Selection

variable {pair : LabelSection} {lines others : List (Nat × List Char)}

/-- A selection by labels asks of each line only whether it holds one label and whether it holds the other. -/
theorem chooseFrom_congr (h : List.Forall₂ (fun line other =>
      holdsLabel pair.start line.2 = holdsLabel pair.start other.2 ∧
        holdsLabel pair.stop line.2 = holdsLabel pair.stop other.2) lines others) (phase : Phase) :
    (labels pair).chooseFrom phase lines = (labels pair).chooseFrom phase others := by
  induction h generalizing phase with
  | nil => rfl
  | @cons line other _ _ hline _ ih =>
      have hchoose : (labels pair).choose phase line.1 line.2 = (labels pair).choose phase other.1 other.2 := by
        cases phase <;> simp only [choose, hline.1, hline.2]
      rw [chooseFrom_cons, chooseFrom_cons, hchoose, ih]

end Selection

/-- Two lines of which each holds the bytes of a label if the other does. -/
structure LabelSection.Alike (pair : LabelSection) (line other : Line) : Prop where
  start : Utf8.encode pair.start.toList <:+: line.content ↔ Utf8.encode pair.start.toList <:+: other.content
  stop : Utf8.encode pair.stop.toList <:+: line.content ↔ Utf8.encode pair.stop.toList <:+: other.content

namespace Job

variable {job : Job} {pair : LabelSection}

theorem forall₂_numbered {R : Line → Line → Prop} {lines others : List Line} (h : List.Forall₂ R lines others)
    {S : Nat × List Char → Nat × List Char → Prop}
    (hnumber : ∀ number line other, R line other →
      S (number, Utf8.lossy line.content) (number, Utf8.lossy other.content)) :
    List.Forall₂ S (numbered lines) (numbered others) := by
  obtain ⟨hlength, hget⟩ := List.forall₂_iff_get.mp h
  refine List.forall₂_iff_get.mpr ⟨by rw [length_numbered, length_numbered, hlength], fun index hline hother => ?_⟩
  rw [length_numbered] at hline hother
  simpa [numbered] using hnumber (index + 1) _ _ (hget index hline hother)

theorem chooseAll_numbered_congr (hstart : '\ufffd' ∉ pair.start.toList) (hstop : '\ufffd' ∉ pair.stop.toList)
    {lines others : List Line} (h : List.Forall₂ pair.Alike lines others) :
    (Selection.labels pair).chooseAll (numbered lines) = (Selection.labels pair).chooseAll (numbered others) := by
  refine Selection.chooseFrom_congr (forall₂_numbered h fun _ line other halike => ⟨?_, ?_⟩) .unopened
  · rw [Bool.eq_iff_iff, holdsLabel_lossy_iff hstart, holdsLabel_lossy_iff hstart, halike.start]
  · rw [Bool.eq_iff_iff, holdsLabel_lossy_iff hstop, holdsLabel_lossy_iff hstop, halike.stop]

theorem map_isSelected_visitsFrom (number : Nat) {lines : List Line} {choices : List Bool}
    (hlength : choices.length = lines.length) :
    (job.visitsFrom number lines choices).map Visit.isSelected = choices := by
  induction lines generalizing number choices with
  | nil =>
      rw [List.eq_nil_of_length_eq_zero hlength]
      rfl
  | cons line lines ih =>
      obtain ⟨chosen, choices, rfl⟩ := List.exists_cons_of_length_eq_add_one hlength
      rw [visitsFrom, List.map_cons, ih _ (Nat.succ.inj hlength)]
      cases chosen <;> rfl

/-- Looking for a label in the decoded text of a line is looking for its bytes in the line, unless the label
holds U+FFFD itself. So a scan that selects by such labels chooses the same lines of two inputs, and ends with the
same error or with as many lines scanned and chosen, if each line of the one holds the bytes of the same labels
as the line of the other. -/
theorem label_search_by_bytes :
    (∀ (label : String) (line : Bytes), '\ufffd' ∉ label.toList →
      (holdsLabel label (Utf8.lossy line) ↔ Utf8.encode label.toList <:+: line)) ∧
    ∀ (job : Job) (pair : LabelSection), job.selection = .labels pair →
      '\ufffd' ∉ pair.start.toList → '\ufffd' ∉ pair.stop.toList → ∀ reader other : Reader,
        reader.fault = other.fault →
        List.Forall₂ pair.Alike (reader.lines.map Line.ofRaw) (other.lines.map Line.ofRaw) →
        (job.scan reader).visits.map Visit.isSelected = (job.scan other).visits.map Visit.isSelected ∧
        (job.scan reader).result.map (fun counts => (counts.scanned, counts.selected)) =
          (job.scan other).result.map (fun counts => (counts.scanned, counts.selected)) := by
  refine ⟨fun label line hlabel => holdsLabel_lossy_iff hlabel, ?_⟩
  intro job pair hselection hstart hstop reader other hfault halike
  have hchoices := chooseAll_numbered_congr hstart hstop halike
  rw [← hselection] at hchoices
  have hlength : (reader.lines.map Line.ofRaw).length = (other.lines.map Line.ofRaw).length := halike.length_eq
  have hlines := job.length_choices (reader.lines.map Line.ofRaw)
  have hothers := job.length_choices (other.lines.map Line.ofRaw)
  rw [hchoices] at hlines
  simp only [scan, hchoices, hfault]
  rw [map_isSelected_visitsFrom 1 hlines, map_isSelected_visitsFrom 1 hothers, count_visitsFrom job 1 hlines,
    count_visitsFrom job 1 hothers]
  refine ⟨rfl, ?_⟩
  cases other.fault with
  | some fault => rfl
  | none =>
      simp only [hlength, tally]
      cases job.selection.finish _ _ <;> rfl

/-- A torn letter before one label, an ill-formed byte after it and half of a sign before the other do not matter. -/
theorem label_search_by_bytes_torn :
    let pair : LabelSection := ⟨"é", "ü", by decide, by decide⟩
    let job : Job := ⟨.standardInput, .labels pair, .simple "//", .comment, false⟩
    let reader : Reader := ⟨[0xc3, 0xc3, 0xa9, 0xff, 0x0a, 0x62, 0x0a, 0xe2, 0x82, 0xc3, 0xbc], none⟩
    let other : Reader := ⟨[0xc3, 0xa9, 0x0a, 0x63, 0x0a, 0xc3, 0xbc], none⟩
    holdsLabel "é" (Utf8.lossy [0xc3, 0xc3, 0xa9, 0xff]) ∧
      (job.scan reader).visits.map Visit.isSelected = [false, true, false] ∧
      (job.scan other).visits.map Visit.isSelected = [false, true, false] := by
  intro pair job reader other
  have hstart : '\ufffd' ∉ pair.start.toList := by decide
  have hstop : '\ufffd' ∉ pair.stop.toList := by decide
  have halike : List.Forall₂ pair.Alike (reader.lines.map Line.ofRaw) (other.lines.map Line.ofRaw) := by
    rw [show reader.lines.map Line.ofRaw = [⟨[0xc3, 0xc3, 0xa9, 0xff], [0x0a]⟩, ⟨[0x62], [0x0a]⟩,
        ⟨[0xe2, 0x82, 0xc3, 0xbc], [0x0a]⟩] by rfl,
      show other.lines.map Line.ofRaw = [⟨[0xc3, 0xa9], [0x0a]⟩, ⟨[0x63], [0x0a]⟩, ⟨[0xc3, 0xbc], [0x0a]⟩] by rfl]
    refine .cons ⟨?_, ?_⟩ (.cons ⟨?_, ?_⟩ (.cons ⟨?_, ?_⟩ .nil)) <;> decide
  have hother : (job.scan other).visits.map Visit.isSelected = [false, true, false] := by decide
  refine ⟨(label_search_by_bytes.1 "é" _ hstart).mpr (by decide), ?_, hother⟩
  rw [(label_search_by_bytes.2 job pair rfl hstart hstop reader other rfl halike).1, hother]

end Job

end LineComment
