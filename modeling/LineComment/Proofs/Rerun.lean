import LineComment.Proofs.Preview
import LineComment.Proofs.Undo

/-! A second run with the labels of the first, over what the first one wrote. The lines that were not chosen are
still the same, those that hold the labels among them, so the two runs keep in step as long as no line that the first
one changed has come to hold the label at the end of a section. -/

namespace LineComment

namespace Selection

variable {pair : LabelSection} {phase : Phase} {lines others : List (Nat × List Char)}

theorem choose_inside (number : Nat) {text : List Char} (htext : ¬holdsLabel pair.stop text) :
    (labels pair).choose .inside number text = (true, .inside) := if_neg htext

/-- Only inside a section is a line chosen, and there only its end is looked for. -/
theorem chosen_iff {number : Nat} {text : List Char} :
    ((labels pair).choose phase number text).1 = true ↔ phase = .inside ∧ ¬holdsLabel pair.stop text := by
  cases phase with
  | unopened | closed => simp [choose]
  | inside =>
      by_cases hstop : holdsLabel pair.stop text
      · simp [choose, hstop]
      · simp [choose_inside number hstop, hstop]

/-- A line that is chosen does not hold the label at the end of the section. -/
theorem not_holdsLabel_of_chosen (phase : Phase) (lines : List (Nat × List Char)) :
    ∀ item ∈ lines.zip ((labels pair).chooseFrom phase lines).1, item.2 → ¬holdsLabel pair.stop item.1.2 := by
  induction lines generalizing phase with
  | nil => simp [chooseFrom]
  | cons line lines ih =>
      rw [chooseFrom_cons, List.zip_cons_cons, List.forall_mem_cons]
      exact ⟨fun hchosen => (chosen_iff.mp hchosen).2, ih _⟩

/-- Lines that differ only where they are chosen are chosen alike, if none of them holds the label at the end of the
section there. -/
theorem chooseFrom_lockstep
    (hrest : List.Forall₂ (fun item other => item.2 = false → other = item.1)
      (lines.zip ((labels pair).chooseFrom phase lines).1) others)
    (hclean : ∀ item ∈ others.zip ((labels pair).chooseFrom phase lines).1, item.2 → ¬holdsLabel pair.stop item.1.2) :
    (labels pair).chooseFrom phase others = (labels pair).chooseFrom phase lines := by
  induction lines generalizing phase others with
  | nil =>
      cases hrest
      rfl
  | cons line lines ih =>
      rw [chooseFrom_cons, List.zip_cons_cons] at hrest
      cases hrest with
      | @cons _ other _ others hline hrest =>
      rw [chooseFrom_cons, List.zip_cons_cons, List.forall_mem_cons] at hclean
      have hchoose : (labels pair).choose phase other.1 other.2 = (labels pair).choose phase line.1 line.2 := by
        cases hchosen : ((labels pair).choose phase line.1 line.2).1 with
        | false => rw [hline hchosen]
        | true =>
            obtain ⟨rfl, hplain⟩ := chosen_iff.mp hchosen
            rw [choose_inside line.1 hplain, choose_inside other.1 (hclean.1 hchosen)]
      rw [chooseFrom_cons, chooseFrom_cons, hchoose, ih hrest hclean.2]

end Selection

/-- The numbers of the lines a scan has chosen. -/
def Scan.selected (scan : Scan) : List Nat := (scan.visits.filter Visit.isSelected).map Visit.number

namespace Job

variable {job : Job} {pair : LabelSection} {input : Bytes}

/-- The lines of an input. -/
def linesOf (input : Bytes) : List Line := (Line.cut input).map Line.ofRaw

/-- What a job chooses among the lines of an input. -/
def choicesOf (job : Job) (input : Bytes) : List Bool := (job.selection.chooseAll (numbered (linesOf input))).1

theorem visitsFrom_eq_mapIdx (number : Nat) (lines : List Line) (choices : List Bool) :
    job.visitsFrom number lines choices = (lines.zip choices).mapIdx fun index item =>
      ⟨index + number, item.1, if item.2 then some (job.action.apply job.marker item.1.content) else none⟩ := by
  induction lines generalizing number choices with
  | nil => rfl
  | cons line lines ih =>
      cases choices with
      | nil => rfl
      | cons chosen choices =>
          rw [visitsFrom, ih, List.zip_cons_cons, List.mapIdx_cons, Nat.zero_add]
          simp only [Nat.add_assoc, Nat.add_comm 1]

theorem mem_visits_iff {visit : Visit} :
    visit ∈ (job.scan ⟨input, none⟩).visits ↔ ∃ index line chosen, (linesOf input)[index]? = some line ∧
      (job.choicesOf input)[index]? = some chosen ∧
      visit = ⟨index + 1, line, if chosen then some (job.action.apply job.marker line.content) else none⟩ := by
  rw [visits_scan, visitsFrom_eq_mapIdx, List.mem_iff_getElem?]
  simp only [List.getElem?_mapIdx, Option.map_eq_some_iff, List.getElem?_zip_eq_some, Prod.exists]
  constructor
  · rintro ⟨index, line, chosen, ⟨hline, hchosen⟩, rfl⟩
    exact ⟨index, line, chosen, hline, hchosen, rfl⟩
  · rintro ⟨index, line, chosen, hline, hchosen, rfl⟩
    exact ⟨index, line, chosen, ⟨hline, hchosen⟩, rfl⟩

theorem mem_selected_iff {number : Nat} :
    number ∈ (job.scan ⟨input, none⟩).selected ↔ ∃ index, (job.choicesOf input)[index]? = some true ∧
      number = index + 1 := by
  rw [Scan.selected, List.mem_map]
  constructor
  · rintro ⟨visit, hvisit, rfl⟩
    obtain ⟨hvisit, hselected⟩ := List.mem_filter.mp hvisit
    obtain ⟨index, line, chosen, -, hchosen, rfl⟩ := mem_visits_iff.mp hvisit
    cases chosen with
    | false => cases hselected
    | true => exact ⟨index, hchosen, rfl⟩
  · rintro ⟨index, hchosen, rfl⟩
    have hindex : index < (linesOf input).length := by
      rw [← job.length_choices (linesOf input)]
      exact (List.getElem?_eq_some_iff.mp hchosen).1
    refine ⟨_, List.mem_filter.mpr ⟨mem_visits_iff.mpr ⟨index, (linesOf input)[index], true,
      List.getElem?_eq_getElem hindex, hchosen, rfl⟩, rfl⟩, rfl⟩

theorem length_choicesOf : (job.choicesOf input).length = (linesOf input).length := job.length_choices (linesOf input)

/-- Two scans of as many lines choose the same numbers exactly if they make the same choices. -/
theorem forall_mem_selected_iff {second : Job} {output : Bytes}
    (hlength : (linesOf output).length = (linesOf input).length) :
    (∀ number, number ∈ (second.scan ⟨output, none⟩).selected ↔ number ∈ (job.scan ⟨input, none⟩).selected) ↔
      second.choicesOf output = job.choicesOf input := by
  simp only [mem_selected_iff]
  constructor
  · intro hsame
    refine List.ext_getElem (by rw [length_choicesOf, length_choicesOf, hlength]) fun index hsecond hfirst => ?_
    have hchosen : ∀ choices : List Bool, (hindex : index < choices.length) →
        (choices[index] = true ↔ ∃ other, choices[other]? = some true ∧ index + 1 = other + 1) := by
      intro choices hindex
      constructor
      · exact fun h => ⟨index, List.getElem?_eq_some_iff.mpr ⟨hindex, h⟩, rfl⟩
      · rintro ⟨other, hother, hsucc⟩
        obtain rfl := Nat.succ.inj hsucc
        exact (List.getElem?_eq_some_iff.mp hother).2
    rw [Bool.eq_iff_iff, hchosen _ hsecond, hchosen _ hfirst]
    exact hsame (index + 1)
  · intro hsame number
    rw [hsame]

/-- A line that had an end and was not chosen is read again as it was. -/
theorem again_unchosen {raw : Bytes} (hraw : raw.getLast? = some Bytes.lineFeed) :
    job.again (Line.ofRaw raw) false = Line.ofRaw raw := by
  have hne : raw ≠ [] := by
    rintro rfl
    cases hraw
  have hback := (Line.splits_iff.mpr (rfl : Line.ofRaw raw = _)).content_append_ending hne
  rw [Line.closing, if_pos (.inr hraw), List.append_nil] at hback
  exact congrArg Line.ofRaw hback

/-- The lines of what a run has written. -/
theorem linesOf_output (hmarker : job.marker.WellFormed) :
    linesOf ((job.scan ⟨input, none⟩).visits.map Visit.output).flatten =
      List.zipWith job.again (linesOf input) (job.choicesOf input) := by
  have hended : ∀ piece ∈ List.zipWith job.written (linesOf input) (job.choicesOf input),
      ∃ front, piece = front ++ [Bytes.lineFeed] ∧ Bytes.lineFeed ∉ front := by
    intro piece hpiece
    obtain ⟨index, hindex, rfl⟩ := List.mem_iff_getElem.mp hpiece
    rw [List.getElem_zipWith]
    exact written_ended hmarker (Line.proper_of_mem (List.getElem_mem _)) _
  rw [visits_scan, map_output_visitsFrom, linesOf]
  show (Line.cut (List.zipWith job.written (linesOf input) (job.choicesOf input)).flatten).map Line.ofRaw = _
  rw [Line.cut_flatten_of_ended hended, List.map_zipWith]
  rfl

section Again

variable {output : Bytes}

theorem length_linesOf_output (hlines : linesOf output = List.zipWith job.again (linesOf input) (job.choicesOf input)) :
    (linesOf output).length = (linesOf input).length := by
  rw [hlines, List.length_zipWith, length_choicesOf, Nat.min_self]

/-- The sections are opened and closed as before, if no line that was chosen holds the label at the end of the section
now. -/
theorem chooseAll_again (hselection : job.selection = .labels pair)
    (hinput : input = [] ∨ input.getLast? = some Bytes.lineFeed)
    (hlines : linesOf output = List.zipWith job.again (linesOf input) (job.choicesOf input))
    (hclean : ∀ (index : Nat) (line : Line), (linesOf output)[index]? = some line →
      (job.choicesOf input)[index]? = some true → ¬holdsLabel pair.stop (Utf8.lossy line.content)) :
    (Selection.labels pair).chooseAll (numbered (linesOf output)) =
      (Selection.labels pair).chooseAll (numbered (linesOf input)) := by
  have hlength := length_linesOf_output hlines
  have hchoices :
      ((Selection.labels pair).chooseFrom .unopened (numbered (linesOf input))).1 = job.choicesOf input := by
    rw [choicesOf, hselection]
    rfl
  refine Selection.chooseFrom_lockstep ?_ ?_
  · rw [hchoices]
    refine List.forall₂_iff_get.mpr ⟨?_, fun index hindex hother hunchosen => ?_⟩
    · rw [List.length_zip, length_numbered, length_numbered, length_choicesOf, hlength, Nat.min_self]
    · simp only [List.get_eq_getElem, List.getElem_zip] at hunchosen
      simp only [numbered, List.get_eq_getElem, List.getElem_zip, List.getElem_mapIdx, hlines, List.getElem_zipWith,
        hunchosen]
      rw [length_numbered, hlength] at hother
      have hsame : job.again (linesOf input)[index] false = (linesOf input)[index] := by
        simp only [linesOf, List.getElem_map]
        exact again_unchosen (Line.getLast?_of_mem_cut hinput (List.getElem_mem _))
      rw [hsame]
  · rw [hchoices]
    intro item hitem hchosen
    obtain ⟨index, hindex, rfl⟩ := List.mem_iff_getElem.mp hitem
    simp only [List.getElem_zip, numbered, List.getElem_mapIdx] at hchosen ⊢
    refine hclean index _ (List.getElem?_eq_getElem _) ?_
    exact List.getElem?_eq_some_iff.mpr ⟨_, hchosen⟩

/-- Uncommented with the choices of the first run, what a run of commenting has written is the input again. -/
theorem flatten_written_again (hmarker : job.marker.WellFormed) (haction : job.action = .comment)
    (hinput : input = [] ∨ input.getLast? = some Bytes.lineFeed)
    (hlines : linesOf output = List.zipWith job.again (linesOf input) (job.choicesOf input)) :
    (List.zipWith (written { job with action := .uncomment }) (linesOf output) (job.choicesOf input)).flatten =
      input := by
  have hback : List.zipWith (written { job with action := .uncomment }) (linesOf output) (job.choicesOf input) =
      (linesOf input).map fun line => line.content ++ line.ending := by
    refine List.ext_getElem ?_ fun index hleft hright => ?_
    · rw [List.length_zipWith, length_linesOf_output hlines, length_choicesOf, Nat.min_self, List.length_map]
    · simp only [hlines, List.getElem_zipWith, List.getElem_map]
      exact written_again hmarker haction (Line.proper_of_mem (List.getElem_mem _)) _
  calc (List.zipWith (written { job with action := .uncomment }) (linesOf output) (job.choicesOf input)).flatten
      = (linesOf input).flatMap fun line => line.content ++ line.ending := by rw [hback, List.flatMap_def]
    _ = input ++ Line.closing input := flatMap_ofRaw_cut input
    _ = input := by rw [Line.closing, if_pos hinput, List.append_nil]

end Again

theorem result_eq_ok_iff {counts : Counts} : (job.scan ⟨input, none⟩).result = .ok counts ↔
    job.selection.finish (job.selection.chooseAll (numbered (linesOf input))).2 (linesOf input).length = .ok () ∧
      job.tally (linesOf input) (job.choicesOf input) = counts := by
  rw [(job.scan_eq_reference input).2]
  show (job.selection.finish (job.selection.chooseAll (numbered (linesOf input))).2 (linesOf input).length).map
    (fun _ => job.tally (linesOf input) (job.choicesOf input)) = .ok counts ↔ _
  cases job.selection.finish (job.selection.chooseAll (numbered (linesOf input))).2 (linesOf input).length with
  | ok value => simp [Except.map]
  | error wrong => simp [Except.map]

theorem visits_eq : (job.scan ⟨input, none⟩).visits = job.visitsFrom 1 (linesOf input) (job.choicesOf input) :=
  job.visits_scan input

theorem length_visits : (job.scan ⟨input, none⟩).visits.length = (linesOf input).length := by
  have hcount := congrArg Counts.scanned (job.count_visitsFrom 1 (@length_choicesOf job input))
  rw [visits_eq]
  exact hcount

/-- On an output with room, a stream ends as its scan, in a dry run as well. -/
theorem result_stream {world : World} (hroom : world.output.room = none) (hflush : world.output.flushFault = none)
    (reader : Reader) : ((job.stream reader).run.run world).2 =
      (job.scan reader).result.map (job.report (if job.dryRun then .preview else .stream)) := by
  cases hdry : job.dryRun with
  | true =>
      rw [stream, if_pos hdry, run_preview hroom hflush]
      rfl
  | false =>
      rw [job.run_stream hdry hroom hflush]
      rfl

/-- What holds of every line that is read again and has the number of a chosen one, said by the places of the
lines. -/
theorem forall_visits_iff {second : Job} {output : Bytes} (Suits : Line → Prop) :
    (∀ visit ∈ (second.scan ⟨output, none⟩).visits,
      visit.number ∈ (job.scan ⟨input, none⟩).selected → Suits visit.line) ↔
      ∀ (index : Nat) (line : Line), (linesOf output)[index]? = some line →
        (job.choicesOf input)[index]? = some true → Suits line := by
  constructor
  · intro h index line hline hchosen
    have hindex : index < (second.choicesOf output).length := by
      rw [length_choicesOf]
      exact (List.getElem?_eq_some_iff.mp hline).1
    exact h _ (mem_visits_iff.mpr ⟨index, line, _, hline, List.getElem?_eq_getElem hindex, rfl⟩)
      (mem_selected_iff.mpr ⟨index, hchosen, rfl⟩)
  · intro h visit hvisit hselected
    obtain ⟨index, line, chosen, hline, -, rfl⟩ := mem_visits_iff.mp hvisit
    obtain ⟨other, hchosen, hother⟩ := mem_selected_iff.mp hselected
    obtain rfl : index = other := Nat.succ.inj hother
    exact h index line hline hchosen

/-- A line that a run with labels has chosen does not hold the label at the end of a section. -/
theorem not_holdsLabel_of_chosen (hselection : job.selection = .labels pair) {index : Nat} {line : Line}
    (hline : (linesOf input)[index]? = some line) (hchosen : (job.choicesOf input)[index]? = some true) :
    ¬holdsLabel pair.stop (Utf8.lossy line.content) := by
  rw [choicesOf, hselection] at hchosen
  refine Selection.not_holdsLabel_of_chosen .unopened (numbered (linesOf input))
    ((index + 1, Utf8.lossy line.content), true) (List.mem_iff_getElem?.mpr ⟨index, ?_⟩) rfl
  rw [List.getElem?_zip_eq_some]
  exact ⟨by simp [numbered, hline], hchosen⟩

/-- A run that uncomments the lines that were commented writes the input again. -/
theorem written_stream_again (hmarker : job.marker.WellFormed) (haction : job.action = .comment)
    (hinput : input = [] ∨ input.getLast? = some Bytes.lineFeed) {output : Bytes}
    (hlines : linesOf output = List.zipWith job.again (linesOf input) (job.choicesOf input)) {second : Job}
    (hsecond : second.action = .uncomment) (hsame : second.marker = job.marker) (hwrite : second.dryRun = false)
    (hchoices : second.choicesOf output = job.choicesOf input) {other : World} (hroom : other.output.room = none)
    (hflush : other.output.flushFault = none) :
    ((second.stream ⟨output, none⟩).run.run other).1.output.written = other.output.written ++ input := by
  have hwritten : second.written = written { job with action := .uncomment } := by
    funext line chosen
    rw [written, written, hsecond, hsame]
  rw [second.run_stream hwrite hroom hflush, Sink.written_takeAll, visits_eq, map_output_visitsFrom, hchoices,
    hwritten, flatten_written_again hmarker haction hinput hlines]

/-- Suppose that a run with labels succeeds on an input whose lines all have an end. A second run with the same labels,
whatever it does, reads as many lines in what the first one has written. It chooses the same numbers exactly if no line
that was chosen holds the label at the end of a section as it now stands, and then it succeeds as well. Under this
condition, uncommenting what was commented gives the input back. -/
theorem rerun_labels {text : String} (hparse : Marker.parse text = .ok job.marker)
    (hselection : job.selection = .labels pair) (hwrite : job.dryRun = false)
    (hinput : input = [] ∨ input.getLast? = some Bytes.lineFeed) {world later : World} {report : Report}
    (hrun : (job.stream ⟨input, none⟩).run.run world = (later, .ok report)) :
    ∃ output, later.output.written = world.output.written ++ output ∧
      ∀ second : Job, second.selection = .labels pair →
        (second.scan ⟨output, none⟩).visits.length = report.counts.scanned ∧
        let clean := ∀ visit ∈ (second.scan ⟨output, none⟩).visits,
          visit.number ∈ (job.scan ⟨input, none⟩).selected → ¬holdsLabel pair.stop (Utf8.lossy visit.line.content)
        ((∀ number, number ∈ (second.scan ⟨output, none⟩).selected ↔ number ∈ (job.scan ⟨input, none⟩).selected) ↔
          clean) ∧
        (clean → ∀ other : World, other.output.room = none → other.output.flushFault = none →
          ∃ last again, (second.stream ⟨output, none⟩).run.run other = (last, .ok again) ∧
            again.counts.scanned = report.counts.scanned ∧ again.counts.selected = report.counts.selected ∧
            (job.action = .comment → second.action = .uncomment → second.marker = job.marker →
              second.dryRun = false → last.output.written = other.output.written ++ input)) := by
  have hmarker := Marker.wellFormed_of_parse hparse
  obtain ⟨hwritten, hreport⟩ := job.written_of_stream hwrite hrun
  let output := ((job.scan ⟨input, none⟩).visits.map Visit.output).flatten
  have hlines : linesOf output = List.zipWith job.again (linesOf input) (job.choicesOf input) := linesOf_output hmarker
  have hlength := length_linesOf_output hlines
  cases hcounts : (job.scan ⟨input, none⟩).result with
  | error error =>
      rw [hcounts] at hreport
      cases hreport
  | ok counts =>
  rw [hcounts] at hreport
  obtain rfl : job.report .stream counts = report := Except.ok.inj hreport
  obtain ⟨hfinish, rfl⟩ := result_eq_ok_iff.mp hcounts
  refine ⟨output, hwritten, fun second hsecond => ⟨length_visits.trans hlength, ?_⟩⟩
  intro clean
  have hclean : clean ↔ _ := forall_visits_iff fun line => ¬holdsLabel pair.stop (Utf8.lossy line.content)
  have hagain : clean → second.selection.chooseAll (numbered (linesOf output)) =
      job.selection.chooseAll (numbered (linesOf input)) := by
    intro h
    rw [hsecond, hselection]
    exact chooseAll_again hselection hinput hlines (hclean.mp h)
  refine ⟨?_, fun h other hroom hflush => ?_⟩
  · rw [forall_mem_selected_iff hlength]
    refine ⟨fun hsame => hclean.mpr fun index line hline hchosen => ?_, fun h => congrArg Prod.fst (hagain h)⟩
    exact not_holdsLabel_of_chosen hsecond hline (hsame ▸ hchosen)
  · have hchoices : second.choicesOf output = job.choicesOf input := congrArg Prod.fst (hagain h)
    have hresult : (second.scan ⟨output, none⟩).result =
        .ok (second.tally (linesOf output) (second.choicesOf output)) := by
      refine result_eq_ok_iff.mpr ⟨?_, rfl⟩
      rw [hagain h, hlength, hsecond, ← hselection]
      exact hfinish
    rcases hlast : (second.stream ⟨output, none⟩).run.run other with ⟨last, result⟩
    have hended := @result_stream second other hroom hflush ⟨output, none⟩
    rw [hlast, hresult] at hended
    subst hended
    refine ⟨last, _, rfl, hlength, ?_, fun hcomment huncomment hsame hdry => ?_⟩
    · show (second.choicesOf output).count true = (job.choicesOf input).count true
      rw [hchoices]
    · have hlater := written_stream_again hmarker hcomment hinput hlines huncomment hsame hdry hchoices hroom hflush
      rwa [hlast] at hlater

/-- Commenting a section with // and uncommenting it again; had the label at its end been part of the marker, the
second run would have taken the first line of the section for the end. -/
theorem rerun_labels_section :
    let job (stop : String) (hstop : stop ≠ "") (action : Action) : Job :=
      ⟨.standardInput, .labels ⟨"<", stop, by decide, hstop⟩, .simple "//", action, false⟩
    let input : Bytes := [0x3c, 0x0a, 0x61, 0x0d, 0x0a, 0x2f, 0x3e, 0x0a]
    (∃ later last again, ((job ">" (by decide) .comment).stream ⟨input, none⟩).run.run {} =
        (later, .ok ⟨.standardInput, .stream, ⟨3, 1, 1⟩⟩) ∧
      ((job ">" (by decide) .uncomment).stream ⟨later.output.written, none⟩).run.run {} = (last, .ok again) ∧
      again.counts.scanned = 3 ∧ again.counts.selected = 1 ∧ last.output.written = input) ∧
    ∃ later, ((job "/" (by decide) .comment).stream ⟨input, none⟩).run.run {} =
        (later, .ok ⟨.standardInput, .stream, ⟨3, 1, 1⟩⟩) ∧
      ¬∀ number,
        number ∈ ((job "/" (by decide) .toggle).scan ⟨later.output.written, none⟩).selected ↔ number ∈ [2] := by
  intro job input
  have hparse : Marker.parse "//" = .ok (.simple "//") := by cbv
  constructor
  · have hresult : (((job ">" (by decide) .comment).stream ⟨input, none⟩).run.run {}).2 =
        .ok ⟨.standardInput, .stream, ⟨3, 1, 1⟩⟩ := by rfl
    rcases hrun : ((job ">" (by decide) .comment).stream ⟨input, none⟩).run.run {} with ⟨later, result⟩
    rw [hrun] at hresult
    obtain rfl : result = .ok ⟨.standardInput, .stream, ⟨3, 1, 1⟩⟩ := hresult
    obtain ⟨output, hwritten, hsecond⟩ := rerun_labels hparse rfl rfl (.inr (by decide)) hrun
    obtain rfl : later.output.written = output := hwritten
    obtain ⟨-, -, hclean⟩ := hsecond (job ">" (by decide) .uncomment) rfl
    have hlater : later.output.written = [0x3c, 0x0a, 0x2f, 0x2f, 0x20, 0x61, 0x0d, 0x0a, 0x2f, 0x3e, 0x0a] :=
      (congrArg (fun ended => ended.1.output.written) hrun).symm.trans (by rfl)
    obtain ⟨last, again, hlast, hscanned, hselected, hback⟩ := hclean (by rw [hlater]; decide) {} rfl rfl
    exact ⟨later, last, again, rfl, hlast, hscanned, hselected, hback rfl rfl rfl rfl⟩
  · have hresult : (((job "/" (by decide) .comment).stream ⟨input, none⟩).run.run {}).2 =
        .ok ⟨.standardInput, .stream, ⟨3, 1, 1⟩⟩ := by rfl
    rcases hrun : ((job "/" (by decide) .comment).stream ⟨input, none⟩).run.run {} with ⟨later, result⟩
    rw [hrun] at hresult
    obtain rfl : result = .ok ⟨.standardInput, .stream, ⟨3, 1, 1⟩⟩ := hresult
    obtain ⟨output, hwritten, hsecond⟩ := rerun_labels hparse rfl rfl (.inr (by decide)) hrun
    obtain rfl : later.output.written = output := hwritten
    obtain ⟨-, hsame, -⟩ := hsecond (job "/" (by decide) .toggle) rfl
    have hlater : later.output.written = [0x3c, 0x0a, 0x2f, 0x2f, 0x20, 0x61, 0x0d, 0x0a, 0x2f, 0x3e, 0x0a] :=
      (congrArg (fun ended => ended.1.output.written) hrun).symm.trans (by rfl)
    have hselected : ((job "/" (by decide) .comment).scan ⟨input, none⟩).selected = [2] := by decide
    refine ⟨later, rfl, ?_⟩
    rw [← hselected, hsame, hlater]
    decide

end Job

end LineComment
