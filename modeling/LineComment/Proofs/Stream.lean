import LineComment.Batch
import LineComment.Proofs.Line
import LineComment.Proofs.LineEdit
import LineComment.Proofs.Script
import LineComment.Proofs.Selection
import Mathlib.Data.List.Forall2

/-! A run over a stream, line by line. The reference says for each line what is written for it and for the
whole what is counted, from the lines and the choices alone; the run writes just that, whether or not it then
fails. -/

namespace LineComment.Job

variable (job : Job)

/-- What a run writes for a line: its content, edited if the line is chosen, and its end. -/
def written (line : Line) (chosen : Bool) : Bytes :=
  (if chosen then job.action.apply job.marker line.content else line.content) ++ line.ending

/-- Whether a line is chosen and the action makes its content different. -/
def alters (line : Line) (chosen : Bool) : Bool :=
  chosen && job.action.apply job.marker line.content != line.content

/-- The counts of a run over lines of which some are chosen. -/
def tally (lines : List Line) (choices : List Bool) : Counts :=
  ⟨lines.length, choices.count true, (lines.zip choices).countP fun item => job.alters item.1 item.2⟩

/-- All that a run over some lines writes, and how it ends. -/
def reference (lines : List Line) : Bytes × Except Error Counts :=
  let choice := job.selection.chooseAll (numbered lines)
  ((List.zipWith job.written lines choice.1).flatten,
    (job.selection.finish choice.2 lines.length).map fun _ => job.tally lines choice.1)

theorem map_output_visitsFrom (number : Nat) (lines : List Line) (choices : List Bool) :
    (job.visitsFrom number lines choices).map Visit.output = List.zipWith job.written lines choices := by
  induction lines generalizing number choices with
  | nil => rfl
  | cons line lines ih =>
      cases choices with
      | nil => rfl
      | cons chosen choices =>
          rw [visitsFrom, List.map_cons, ih, List.zipWith_cons_cons]
          cases chosen <;> rfl

theorem count_visitsFrom (number : Nat) {lines : List Line} {choices : List Bool}
    (hlength : choices.length = lines.length) :
    count (job.visitsFrom number lines choices) = job.tally lines choices := by
  induction lines generalizing number choices with
  | nil =>
      rw [List.eq_nil_of_length_eq_zero hlength]
      rfl
  | cons line lines ih =>
      obtain ⟨chosen, choices, rfl⟩ := List.exists_cons_of_length_eq_add_one hlength
      have hrest := ih (number + 1) (Nat.succ.inj hlength)
      simp only [count, tally, Counts.mk.injEq] at hrest ⊢
      obtain ⟨hscanned, hselected, hchanged⟩ := hrest
      refine ⟨?_, ?_, ?_⟩
      · rw [visitsFrom, List.length_cons, hscanned, List.length_cons]
      · rw [visitsFrom, List.countP_cons, hselected, List.count_cons]
        cases chosen <;> rfl
      · rw [visitsFrom, List.countP_cons, hchanged, List.zip_cons_cons, List.countP_cons]
        cases chosen <;> rfl

variable {job} in
/-- Of a job, the visits depend only on what its action makes of the chosen lines. -/
theorem visitsFrom_congr {other : Job} {lines : List Line} {choices : List Bool}
    (hsame : ∀ item ∈ lines.zip choices, item.2 →
      other.action.apply other.marker item.1.content = job.action.apply job.marker item.1.content) (number : Nat) :
    other.visitsFrom number lines choices = job.visitsFrom number lines choices := by
  induction lines generalizing number choices with
  | nil => rfl
  | cons line lines ih =>
      cases choices with
      | nil => rfl
      | cons chosen choices =>
          rw [List.zip_cons_cons, List.forall_mem_cons] at hsame
          rw [visitsFrom, visitsFrom, ih hsame.2]
          cases chosen with
          | false => rfl
          | true => rw [hsame.1 rfl]

variable {job} in
theorem scan_congr {other : Job} (hselection : other.selection = job.selection) {reader : Reader}
    (hsame : ∀ item ∈ (reader.lines.map Line.ofRaw).zip
        (job.selection.chooseAll (numbered (reader.lines.map Line.ofRaw))).1, item.2 →
      other.action.apply other.marker item.1.content = job.action.apply job.marker item.1.content) :
    other.scan reader = job.scan reader := by
  simp only [scan, hselection, visitsFrom_congr hsame]

variable {job} in
theorem stream_congr {other : Job} (hsource : other.source = job.source) (hdry : other.dryRun = job.dryRun)
    {reader : Reader} (hscan : other.scan reader = job.scan reader) : other.stream reader = job.stream reader := by
  simp only [stream, preview, report, hsource, hdry, hscan]

theorem length_numbered (lines : List Line) : (numbered lines).length = lines.length := by
  rw [numbered, List.length_mapIdx]

theorem length_choices (lines : List Line) :
    (job.selection.chooseAll (numbered lines)).1.length = lines.length := by
  rw [Selection.length_chooseAll, length_numbered]

theorem visits_scan (input : Bytes) :
    (job.scan ⟨input, none⟩).visits = job.visitsFrom 1 ((Line.cut input).map Line.ofRaw)
      (job.selection.chooseAll (numbered ((Line.cut input).map Line.ofRaw))).1 := by
  simp only [scan, Reader.lines, Line.raw_eq_cut]

/-- A scan of an input without a fault comes to what the reference says of its lines. -/
theorem scan_eq_reference (input : Bytes) :
    ((job.scan ⟨input, none⟩).visits.map Visit.output).flatten =
        (job.reference ((Line.cut input).map Line.ofRaw)).1 ∧
      (job.scan ⟨input, none⟩).result = (job.reference ((Line.cut input).map Line.ofRaw)).2 := by
  simp only [scan, reference, Reader.lines, Line.raw_eq_cut]
  exact ⟨by rw [map_output_visitsFrom], by rw [count_visitsFrom job 1 (job.length_choices _)]⟩

/-- A run that writes some pieces before it ends in one way or another, on an output with room for all of them. -/
theorem run_printAll_bind {world : World} (hroom : world.output.room = none) (hflush : world.output.flushFault = none)
    (pieces : List Bytes) (result : Except Error Counts) (what : String) (tell : Counts → Report) :
    (do
      printAll .writing pieces
      let counts ← (result : Attempt Counts)
      flushOutput what
      return tell counts : Attempt Report).run.run world =
      ({ world with output := world.output.takeAll pieces }, result.map tell) := by
  let later : World := { world with output := world.output.takeAll pieces }
  have hprint : (printAll .writing pieces).run.run world = (later, .ok ()) := run_printAll world hroom .writing _
  have hflushed : (flushOutput what).run.run later = (later, .ok ()) := run_flushOutput later hflush what
  rw [Attempt.run_bind_of_ok hprint]
  cases result with
  | error error => exact Attempt.run_bind_of_error (Attempt.run_liftExcept _ _) _
  | ok counts =>
      rw [Attempt.run_bind_of_ok (Attempt.run_liftExcept _ _)]
      exact Attempt.run_bind_of_ok hflushed _

theorem keepsFiles_printAll_bind (pieces : List Bytes) (result : Except Error Counts) (what : String)
    (tell : Counts → Report) :
    (do
      printAll .writing pieces
      let counts ← (result : Attempt Counts)
      flushOutput what
      return tell counts : Attempt Report).KeepsFiles :=
  (keepsFiles_printAll _ _).bind fun _ => Attempt.KeepsFiles.bind (fun _ => rfl) fun _ =>
    (keepsFiles_flushOutput _).bind fun _ _ => rfl

/-- A stream that is neither a dry run nor short of room writes the whole scan, and then ends as the scan. -/
theorem run_stream {world : World} (hwrite : job.dryRun = false) (hroom : world.output.room = none)
    (hflush : world.output.flushFault = none) (reader : Reader) :
    (job.stream reader).run.run world =
      ({ world with output := world.output.takeAll ((job.scan reader).visits.map Visit.output) },
        (job.scan reader).result.map (job.report .stream)) := by
  rw [stream, hwrite, if_neg Bool.false_ne_true]
  exact run_printAll_bind hroom hflush _ _ "output" _

/-- A stream that succeeds has written the whole scan, however much room its output had. -/
theorem written_of_stream (hwrite : job.dryRun = false) {reader : Reader} {world later : World} {report : Report}
    (hrun : (job.stream reader).run.run world = (later, .ok report)) :
    later.output.written = world.output.written ++ ((job.scan reader).visits.map Visit.output).flatten ∧
      (job.scan reader).result.map (job.report .stream) = .ok report := by
  rw [stream, hwrite, if_neg Bool.false_ne_true] at hrun
  obtain ⟨middle, _, hprint, hrun⟩ := Attempt.exists_of_run_bind hrun
  obtain ⟨_, counts, hresult, hrun⟩ := Attempt.exists_of_run_bind hrun
  obtain ⟨rfl, hcounts⟩ := Prod.mk.inj ((Attempt.run_liftExcept (job.scan reader).result _).symm.trans hresult)
  obtain ⟨_, _, hflush, hrun⟩ := Attempt.exists_of_run_bind hrun
  rw [flushOutput, Attempt.run_attempt, Script.run_call, Operation.run] at hflush
  obtain ⟨rfl, -⟩ := Prod.mk.inj hflush
  cases hrun
  exact ⟨written_of_printAll hprint, by rw [hcounts]; rfl⟩

/-- The counts need no comparison of bytes: a chosen line is altered unless it is to be uncommented and is no
comment. -/
theorem changed_tally (hmarker : job.marker.WellFormed) (lines : List Line) (choices : List Bool) :
    (job.tally lines choices).changed =
      (lines.zip choices).countP fun item => item.2 && job.action.changes job.marker item.1.content := by
  refine congrArg (List.countP · (lines.zip choices)) (funext fun item => ?_)
  rw [alters, Bool.eq_iff_iff, Bool.and_eq_true, Bool.and_eq_true, bne_iff_ne, Action.apply_ne_iff hmarker]

/-- Where nothing is chosen, the lines are written as they are. -/
theorem flatten_written_of_unchosen {lines : List Line} {choices : List Bool}
    (hlength : choices.length = lines.length) (hunchosen : ∀ chosen ∈ choices, chosen = false) :
    (List.zipWith job.written lines choices).flatten = lines.flatMap fun line => line.content ++ line.ending := by
  induction lines generalizing choices with
  | nil => rfl
  | cons line lines ih =>
      obtain ⟨chosen, choices, rfl⟩ := List.exists_cons_of_length_eq_add_one hlength
      have hchosen : chosen = false := hunchosen chosen List.mem_cons_self
      rw [List.zipWith_cons_cons, List.flatten_cons, List.flatMap_cons, hchosen,
        ih (Nat.succ.inj hlength) fun other hother => hunchosen other (List.mem_cons_of_mem _ hother)]
      rfl

/-- For a range, the numbers alone say which lines are chosen. -/
theorem choices_lines {range : LineRange} (hselection : job.selection = .lines range) (lines : List Line) :
    (job.selection.chooseAll (numbered lines)).1 = lines.mapIdx fun index _ => range.contains (index + 1) := by
  rw [hselection, Selection.chooseAll, Selection.chooseFrom_lines, numbered, List.mapIdx_eq_zipIdx_map,
    List.mapIdx_eq_zipIdx_map, List.map_map]
  rfl

/-- For a range, a run fails exactly when there are too few lines. -/
theorem reference_lines {range : LineRange} (hselection : job.selection = .lines range) (lines : List Line) :
    (job.reference lines).2 =
      if lines.length < range.last then .error (.rangeOutOfBounds range.last lines.length)
      else .ok (job.tally lines (lines.mapIdx fun index _ => range.contains (index + 1))) := by
  rw [reference, choices_lines job hselection, hselection, Selection.finish]
  split_ifs <;> rfl

theorem flatMap_ofRaw_cut (input : Bytes) :
    ((Line.cut input).map Line.ofRaw).flatMap (fun line => line.content ++ line.ending) =
      input ++ Line.closing input := by
  rw [← Line.flatMap_cut_closing, List.flatMap_map]
  refine List.flatMap_congr fun raw hraw => ?_
  exact (Line.splits_iff.mpr rfl).content_append_ending (Line.ne_nil_of_mem_cut hraw)

/-- A run over a stream comes to what the reference says of the lines of its input. All of it is written,
also when the run then fails, and nothing but the output is touched. A terminated line that is not chosen is
written byte for byte; where no line is chosen, the input itself is written, with a line feed if its last line
lacks one. For a range, the numbers alone say which lines are chosen and whether the run fails. -/
theorem stream_eq_reference {text : String} (hparse : Marker.parse text = .ok job.marker)
    (hwrite : job.dryRun = false) (world : World) (hroom : world.output.room = none)
    (hflush : world.output.flushFault = none) (input : Bytes) :
    ∃ lines later result, (job.stream ⟨input, none⟩).run.run world = (later, result) ∧
      List.Forall₂ Line.Splits (Line.cut input) lines ∧
      later.files = world.files ∧ later.input = world.input ∧
      later.output.written = world.output.written ++ (job.reference lines).1 ∧
      result = (job.reference lines).2.map (job.report .stream) ∧
      let choices := (job.selection.chooseAll (numbered lines)).1
      choices.length = lines.length ∧
      (job.tally lines choices).changed =
        ((lines.zip choices).countP fun item => item.2 && job.action.changes job.marker item.1.content) ∧
      List.Forall₂ (fun raw line => raw.getLast? = some Bytes.lineFeed → job.written line false = raw)
        (Line.cut input) lines ∧
      ((∀ chosen ∈ choices, chosen = false) → (job.reference lines).1 = input ++ Line.closing input) ∧
      ∀ range, job.selection = .lines range →
        choices = lines.mapIdx (fun index _ => range.contains (index + 1)) ∧
        ((∃ error, result = .error error) ↔ lines.length < range.last) ∧
        (lines.length < range.last → result = .error (.rangeOutOfBounds range.last lines.length)) := by
  have hmarker := Marker.wellFormed_of_parse hparse
  obtain ⟨hwritten, hresult⟩ := job.scan_eq_reference input
  refine ⟨(Line.cut input).map Line.ofRaw, _, _, job.run_stream hwrite hroom hflush _, ?_, rfl, rfl, ?_,
    by rw [hresult], job.length_choices _, job.changed_tally hmarker _ _, ?_, ?_, ?_⟩
  · exact List.forall₂_map_right_iff.mpr (List.forall₂_same.mpr fun raw _ => Line.splits_iff.mpr rfl)
  · rw [Sink.written_takeAll, hwritten]
  · refine List.forall₂_map_right_iff.mpr (List.forall₂_same.mpr fun raw hraw hended => ?_)
    have hback := (Line.splits_iff.mpr rfl).content_append_ending (Line.ne_nil_of_mem_cut hraw)
    rwa [Line.closing, if_pos (Or.inr hended), List.append_nil] at hback
  · intro hunchosen
    rw [reference, job.flatten_written_of_unchosen (job.length_choices _) hunchosen, flatMap_ofRaw_cut]
  · intro range hselection
    rw [hresult, job.reference_lines hselection]
    refine ⟨job.choices_lines hselection _, ?_, fun hshort => by rw [if_pos hshort]; rfl⟩
    split_ifs with hshort
    · exact iff_of_true ⟨_, rfl⟩ hshort
    · refine iff_of_false ?_ hshort
      rintro ⟨error, herror⟩
      cases herror

/-- Commenting the second of three lines, of which the first ends in a line feed, the second in a carriage
return and a line feed, and the third in nothing. -/
theorem stream_eq_reference_second_line :
    Marker.parse "//" = .ok (.simple "//") ∧
    let job : Job := ⟨.standardInput, .lines ⟨2, 2, by decide, by decide⟩, .simple "//", .comment, false⟩
    let input := [0x61, 0x0a, 0x62, 0x0d, 0x0a, 0x63]
    ∃ lines later result, (job.stream ⟨input, none⟩).run.run {} = (later, result) ∧
      List.Forall₂ Line.Splits (Line.cut input) lines ∧ later.output.written = (job.reference lines).1 ∧
      result = (job.reference lines).2.map (job.report .stream) ∧ ¬∃ error, result = .error error := by
  have hparse : Marker.parse "//" = .ok (.simple "//") := by cbv
  refine ⟨hparse, ?_⟩
  intro job input
  obtain ⟨lines, later, result, hrun, hlines, _, _, hwritten, hresult, _, _, _, _, hrange⟩ :=
    job.stream_eq_reference hparse rfl {} rfl rfl input
  have hlength : lines.length = 3 := hlines.length_eq.symm
  refine ⟨lines, later, result, hrun, hlines, hwritten, hresult, fun herror => ?_⟩
  have hshort := (hrange _ rfl).2.1.mp herror
  rw [hlength] at hshort
  exact absurd hshort (by decide)

end LineComment.Job
