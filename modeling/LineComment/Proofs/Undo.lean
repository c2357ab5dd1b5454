import LineComment.Proofs.Comment
import LineComment.Proofs.Stream

/-! Two runs that undo each other. The second one cuts what the first one wrote into lines of its own, and these
need not be the lines it was written from: a carriage return at the very end of an input belongs to the last
line there, and to the end of that line once a line feed has been written behind it. No token of a marker holds
a blank or a line feed, and this is why the second run finds as many lines, and each edited one a comment. -/

namespace LineComment

namespace Job

variable {job : Job} {range : LineRange} {input : Bytes}

/-- What a run writes for a line, read as a line again. -/
def again (job : Job) (line : Line) (chosen : Bool) : Line := Line.ofRaw (job.written line chosen)

/-- The lines of an input, each with whether a range contains it. -/
def lined (range : LineRange) (input : Bytes) : List (Line × Bool) :=
  ((Line.cut input).map Line.ofRaw).mapIdx fun index line => (line, range.contains (index + 1))

theorem map_fst_lined (range : LineRange) (input : Bytes) :
    (lined range input).map Prod.fst = (Line.cut input).map Line.ofRaw := by
  refine List.ext_getElem (by simp [lined]) fun index _ _ => ?_
  simp [lined]

theorem map_snd_lined (range : LineRange) (input : Bytes) :
    (lined range input).map Prod.snd =
      ((Line.cut input).map Line.ofRaw).mapIdx fun index _ => range.contains (index + 1) := by
  refine List.ext_getElem (by simp [lined]) fun index _ _ => ?_
  simp [lined]

theorem exists_of_mem_lined {item : Line × Bool} (hitem : item ∈ lined range input) :
    ∃ index raw, (Line.cut input)[index]? = some raw ∧ Line.Splits raw item.1 ∧
      item.2 = range.contains (index + 1) := by
  obtain ⟨index, hindex, rfl⟩ := List.mem_mapIdx.mp hitem
  rw [List.length_map] at hindex
  exact ⟨index, _, List.getElem?_eq_getElem hindex, Line.splits_iff.mpr (by simp), rfl⟩

theorem proper_of_mem_lined {item : Line × Bool} (hitem : item ∈ lined range input) : item.1.Proper := by
  have hline : item.1 ∈ (lined range input).map Prod.fst := List.mem_map_of_mem hitem
  rw [map_fst_lined] at hline
  exact Line.proper_of_mem hline

/-- The counts of a run over some lines, each with whether it is chosen. -/
def countsOf (job : Job) (items : List (Line × Bool)) : Counts :=
  ⟨items.length, items.countP Prod.snd, items.countP fun item => job.alters item.1 item.2⟩

theorem tally_map (items : List (Line × Bool)) :
    job.tally (items.map Prod.fst) (items.map Prod.snd) = job.countsOf items := by
  have hzip : (items.map Prod.fst).zip (items.map Prod.snd) = items := by
    rw [List.zip_map', List.map_id'' fun item => rfl]
  rw [tally, countsOf, hzip, List.length_map, List.count, List.countP_map]
  simp [Function.comp_def]

/-- A scan for a range, as a map over the lines. -/
theorem scan_lined (hselection : job.selection = .lines range) :
    (job.scan ⟨input, none⟩).visits.map Visit.output =
        (lined range input).map (fun item => job.written item.1 item.2) ∧
      (job.scan ⟨input, none⟩).result =
        if (lined range input).length < range.last then
          .error (.rangeOutOfBounds range.last (lined range input).length)
        else .ok (job.countsOf (lined range input)) := by
  have hlength : ((Line.cut input).map Line.ofRaw).length = (lined range input).length := by
    rw [← map_fst_lined range, List.length_map]
  constructor
  · simp only [scan, Reader.lines, Line.raw_eq_cut, map_output_visitsFrom, job.choices_lines hselection]
    rw [← map_snd_lined, ← map_fst_lined range, List.zipWith_map, List.zipWith_self]
  · rw [(job.scan_eq_reference input).2, job.reference_lines hselection, hlength, ← map_snd_lined,
      ← map_fst_lined range, tally_map]

/-- Two actions that do the same to all lines of a range make the same run. -/
theorem stream_congr_lined {action : Action} (hselection : job.selection = .lines range)
    (hsame : ∀ item ∈ lined range input, item.2 →
      action.apply job.marker item.1.content = job.action.apply job.marker item.1.content) :
    stream { job with action } ⟨input, none⟩ = job.stream ⟨input, none⟩ := by
  have hscan : scan { job with action } ⟨input, none⟩ = job.scan ⟨input, none⟩ := by
    refine scan_congr (by rfl) fun item hitem => hsame item ?_
    simp only [Reader.lines, Line.raw_eq_cut] at hitem
    rwa [job.choices_lines hselection, ← map_snd_lined, ← map_fst_lined range, List.zip_map',
      List.map_id'' fun item => rfl] at hitem
  exact stream_congr (by rfl) (by rfl) hscan

/-- Read again, a line that was commented is the comment of a line, and one that was not is that line; and with
the end it has now, that line is what the first one was with its end. -/
theorem again_content (hmarker : job.marker.WellFormed) (haction : job.action = .comment) {line : Line}
    (hline : line.Proper) (chosen : Bool) :
    ∃ content, (job.again line chosen).content = (if chosen then job.marker.comment content else content) ∧
      content ++ (job.again line chosen).ending = line.content ++ line.ending := by
  obtain ⟨content, ending⟩ := line
  have hwritten : job.written ⟨content, ending⟩ chosen =
      (if chosen then job.marker.comment content else content) ++ ending := by rw [written, haction]; rfl
  rw [again, hwritten]
  obtain rfl | rfl := hline.ending
  · rw [Line.ofRaw_returned]
    exact ⟨content, rfl, rfl⟩
  by_cases hlast : (if chosen then job.marker.comment content else content).getLast? = some Bytes.carriageReturn
  · -- The carriage return goes over from the content to the end.
    obtain ⟨front, rfl, hfront⟩ : ∃ front, content = front ++ [Bytes.carriageReturn] ∧
        (if chosen then job.marker.comment content else content) =
          (if chosen then job.marker.comment front else front) ++ [Bytes.carriageReturn] := by
      cases chosen with
      | true => exact Marker.comment_of_getLast? hmarker hlast
      | false => simpa using List.getLast?_eq_some_iff.mp hlast
    rw [hfront, List.append_assoc, List.singleton_append, Line.ofRaw_returned]
    exact ⟨front, rfl, by simp⟩
  · rw [Line.ofRaw_plain _ hlast]
    exact ⟨content, rfl, rfl⟩

theorem written_ended (hmarker : job.marker.WellFormed) {line : Line} (hline : line.Proper) (chosen : Bool) :
    ∃ front, job.written line chosen = front ++ [Bytes.lineFeed] ∧ Bytes.lineFeed ∉ front := by
  have hcontent : Bytes.lineFeed ∉ if chosen then job.action.apply job.marker line.content else line.content := by
    cases chosen with
    | true => exact job.action.lineFeed_notMem_apply hmarker hline.notMem
    | false => exact hline.notMem
  rw [written]
  rcases hline.ending with hending | hending
  · refine ⟨_ ++ [Bytes.carriageReturn], by rw [hending, List.append_assoc]; rfl, ?_⟩
    rw [List.mem_append, not_or]
    exact ⟨hcontent, by decide⟩
  · exact ⟨_, by rw [hending], hcontent⟩

theorem written_again (hmarker : job.marker.WellFormed) (haction : job.action = .comment) {line : Line}
    (hline : line.Proper) (chosen : Bool) :
    written { job with action := .uncomment } (job.again line chosen) chosen = line.content ++ line.ending := by
  obtain ⟨content, hcontent, hends⟩ := again_content hmarker haction hline chosen
  rw [written, hcontent]
  cases chosen with
  | true =>
      simp only [if_true, Action.apply, Marker.uncomment_comment hmarker]
      exact hends
  | false => exact hends

theorem isCommented_of_mem_again (hmarker : job.marker.WellFormed) (haction : job.action = .comment)
    {item : Line × Bool} (hitem : item ∈ (lined range input).map fun item => (job.again item.1 item.2, item.2))
    (hchosen : item.2) : job.marker.isCommented item.1.content := by
  obtain ⟨⟨line, chosen⟩, hline, rfl⟩ := List.mem_map.mp hitem
  obtain rfl : chosen = true := hchosen
  obtain ⟨content, hcontent, -⟩ := again_content hmarker haction (proper_of_mem_lined hline) true
  rw [hcontent]
  exact Marker.isCommented_comment hmarker content

theorem ended_of_mem_written (hmarker : job.marker.WellFormed) :
    ∀ piece ∈ (lined range input).map (fun item => job.written item.1 item.2),
      ∃ front, piece = front ++ [Bytes.lineFeed] ∧ Bytes.lineFeed ∉ front := by
  intro piece hpiece
  obtain ⟨⟨line, chosen⟩, hitem, rfl⟩ := List.mem_map.mp hpiece
  exact written_ended hmarker (proper_of_mem_lined hitem) chosen

/-- What a run has written falls into the lines as it wrote them. -/
theorem lined_output (hmarker : job.marker.WellFormed) (hselection : job.selection = .lines range) {output : Bytes}
    (houtput : ((job.scan ⟨input, none⟩).visits.map Visit.output).flatten = output) :
    lined range output = (lined range input).map fun item => (job.again item.1 item.2, item.2) := by
  rw [← houtput, (scan_lined hselection).1, lined, Line.cut_flatten_of_ended (ended_of_mem_written hmarker)]
  refine List.ext_getElem (by simp [lined]) fun index _ _ => ?_
  simp [lined, again]

theorem countsOf_of_ne {items : List (Line × Bool)} (hne : ∀ item ∈ items, item.2 →
      job.action.apply job.marker item.1.content ≠ item.1.content) :
    job.countsOf items = ⟨items.length, items.countP Prod.snd, items.countP Prod.snd⟩ := by
  have halters : items.countP (fun item => job.alters item.1 item.2) = items.countP Prod.snd := by
    refine List.countP_congr ?_
    rintro ⟨line, _ | _⟩ hitem
    · simp [alters]
    · simpa [alters] using hne _ hitem rfl
  rw [countsOf, halters]

/-- Uncommenting what a run has written writes the lines it was written from, and counts as many. -/
theorem flatten_written_lined (hmarker : job.marker.WellFormed) (haction : job.action = .comment) :
    (((lined range input).map fun item => (job.again item.1 item.2, item.2)).map fun item =>
      written { job with action := .uncomment } item.1 item.2).flatten = input ++ Line.closing input := by
  rw [← flatMap_ofRaw_cut, ← map_fst_lined range, List.flatMap_map, List.map_map, List.flatMap_def]
  refine congrArg List.flatten (List.map_congr_left fun item hitem => ?_)
  exact written_again hmarker haction (proper_of_mem_lined hitem) item.2

theorem countsOf_lined (hmarker : job.marker.WellFormed) (haction : job.action = .comment) :
    countsOf { job with action := .uncomment } ((lined range input).map fun item => (job.again item.1 item.2, item.2)) =
      job.countsOf (lined range input) := by
  rw [countsOf_of_ne, countsOf_of_ne, List.length_map, List.countP_map]
  · rfl
  · intro item _ _
    rw [haction]
    exact Marker.comment_ne job.marker item.1.content
  · exact fun item hitem hchosen =>
      (Marker.uncomment_ne_iff hmarker).mpr (isCommented_of_mem_again hmarker haction hitem hchosen)

theorem input_append_closing {input : Bytes} (hinput : input ≠ []) :
    input ++ Line.closing input =
      if input.getLast? = some Bytes.lineFeed then input else input ++ [Bytes.lineFeed] := by
  simp only [Line.closing, hinput, false_or]
  split_ifs
  · rw [List.append_nil]
  · rfl

/-- What a run of commenting has written, uncommented, is the input with all its lines ended. -/
theorem run_uncomment_written (hmarker : job.marker.WellFormed) (haction : job.action = .comment)
    (hselection : job.selection = .lines range) (hwrite : job.dryRun = false) {counts : Counts}
    (hcounts : (job.scan ⟨input, none⟩).result = .ok counts) {output : Bytes}
    (houtput : ((job.scan ⟨input, none⟩).visits.map Visit.output).flatten = output) {world : World}
    (hroom : world.output.room = none) (hflush : world.output.flushFault = none) :
    ∃ later, (stream { job with action := .uncomment } ⟨output, none⟩).run.run world =
          (later, .ok (job.report .stream counts)) ∧
      later.output.written = world.output.written ++
        if input.getLast? = some Bytes.lineFeed then input else input ++ [Bytes.lineFeed] := by
  have hresult : (job.scan ⟨input, none⟩).result = _ := (scan_lined hselection).2
  rw [hcounts] at hresult
  split_ifs at hresult with hshort
  obtain rfl := Except.ok.inj hresult
  have hinput : input ≠ [] := by
    rintro rfl
    exact hshort (Nat.lt_of_lt_of_le range.one_le_first range.first_le_last)
  have hundo : ({ job with action := .uncomment } : Job).selection = .lines range := hselection
  obtain ⟨hwritten, hend⟩ := scan_lined hundo
  rw [lined_output hmarker hselection houtput] at hwritten hend
  rw [List.length_map, if_neg hshort, countsOf_lined hmarker haction] at hend
  have hrun := run_stream { job with action := .uncomment } hwrite hroom hflush ⟨output, none⟩
  rw [hwritten, hend] at hrun
  refine ⟨_, hrun, ?_⟩
  rw [Sink.written_takeAll, flatten_written_lined hmarker haction, input_append_closing hinput]

/-- If commenting a range of an input succeeds, then uncommenting the range of what was written gives the input
back, with a line feed if its last line lacked one, and the two reports are the same. Toggling the range twice
does the same as the two runs if no line of the range was a comment. -/
theorem stream_undo {text : String} (hparse : Marker.parse text = .ok job.marker)
    (hselection : job.selection = .lines range) (hwrite : job.dryRun = false) {world later : World} {report : Report}
    (hrun : (stream { job with action := .comment } ⟨input, none⟩).run.run world = (later, .ok report)) :
    let restored := if input.getLast? = some Bytes.lineFeed then input else input ++ [Bytes.lineFeed]
    ∃ output, later.output.written = world.output.written ++ output ∧
      report.counts.changed = report.counts.selected ∧
      (∀ second : World, second.output.room = none → second.output.flushFault = none →
        ∃ last, (stream { job with action := .uncomment } ⟨output, none⟩).run.run second = (last, .ok report) ∧
          last.output.written = second.output.written ++ restored) ∧
      ((∀ index raw line, (Line.cut input)[index]? = some raw → Line.Splits raw line → range.contains (index + 1) →
          ¬job.marker.isCommented line.content) →
        (stream { job with action := .toggle } ⟨input, none⟩).run.run world = (later, .ok report) ∧
        ∀ second : World, second.output.room = none → second.output.flushFault = none →
          ∃ last, (stream { job with action := .toggle } ⟨output, none⟩).run.run second = (last, .ok report) ∧
            last.output.written = second.output.written ++ restored) := by
  intro restored
  let first : Job := { job with action := .comment }
  let undo : Job := { job with action := .uncomment }
  have hmarker : first.marker.WellFormed := Marker.wellFormed_of_parse hparse
  have hfirst : first.selection = .lines range := hselection
  have hundo : undo.selection = .lines range := hselection
  obtain ⟨hwritten, hreport⟩ := first.written_of_stream hwrite hrun
  let output := ((first.scan ⟨input, none⟩).visits.map Visit.output).flatten
  cases hcounts : (first.scan ⟨input, none⟩).result with
  | error error =>
      rw [hcounts] at hreport
      cases hreport
  | ok counts =>
  rw [hcounts] at hreport
  obtain rfl : first.report .stream counts = report := Except.ok.inj hreport
  have hsecond : ∀ second : World, second.output.room = none → second.output.flushFault = none →
      ∃ last, (undo.stream ⟨output, none⟩).run.run second = (last, .ok (first.report .stream counts)) ∧
        last.output.written = second.output.written ++ restored := fun second hroom hflush =>
    run_uncomment_written hmarker rfl hfirst hwrite hcounts rfl hroom hflush
  refine ⟨output, hwritten, ?_, hsecond, fun hplain => ⟨?_, fun second hroom hflush => ?_⟩⟩
  · have hchanged : ∀ item ∈ lined range input, item.2 →
        first.action.apply first.marker item.1.content ≠ item.1.content := fun item _ _ =>
      Marker.comment_ne job.marker item.1.content
    have hresult : (first.scan ⟨input, none⟩).result = _ := (scan_lined hfirst).2
    rw [hcounts, countsOf_of_ne hchanged] at hresult
    split_ifs at hresult
    cases hresult
    rfl
  · refine Eq.trans ?_ hrun
    rw [← stream_congr_lined hfirst fun item hitem hchosen => ?_]
    obtain ⟨index, raw, hraw, hsplits, hcontains⟩ := exists_of_mem_lined hitem
    exact if_neg (hplain index raw item.1 hraw hsplits (hcontains ▸ hchosen))
  · obtain ⟨last, hlast, hrestored⟩ := hsecond second hroom hflush
    refine ⟨last, ?_, hrestored⟩
    rw [← hlast, ← stream_congr_lined hundo fun item hitem hchosen => ?_]
    rw [show lined range output = _ from lined_output hmarker hfirst rfl] at hitem
    exact if_pos (isCommented_of_mem_again hmarker rfl hitem hchosen)

/-- A line that ends in a carriage return and a line feed, and one that is not well-formed and ends in a
carriage return alone. -/
theorem stream_undo_bare_return :
    let job : Job := ⟨.standardInput, .lines ⟨1, 2, by decide, by decide⟩, .simple "//", .toggle, false⟩
    let input : Bytes := [0x61, 0x0d, 0x0a, 0xff, 0x0d]
    ∃ later, (job.stream ⟨input, none⟩).run.run {} = (later, .ok ⟨.standardInput, .stream, ⟨2, 2, 2⟩⟩) ∧
      ∀ second : World, second.output.room = none → second.output.flushFault = none →
        ∃ last, (job.stream ⟨later.output.written, none⟩).run.run second =
            (last, .ok ⟨.standardInput, .stream, ⟨2, 2, 2⟩⟩) ∧
          last.output.written = second.output.written ++ [0x61, 0x0d, 0x0a, 0xff, 0x0d, 0x0a] := by
  intro job input
  have hparse : Marker.parse "//" = .ok job.marker := by cbv
  have hresult : ((stream { job with action := .comment } ⟨input, none⟩).run.run {}).2 =
      .ok ⟨.standardInput, .stream, ⟨2, 2, 2⟩⟩ := by rfl
  rcases hrun : (stream { job with action := .comment } ⟨input, none⟩).run.run {} with ⟨later, result⟩
  rw [hrun] at hresult
  obtain rfl : result = .ok ⟨.standardInput, .stream, ⟨2, 2, 2⟩⟩ := hresult
  obtain ⟨output, hwritten, -, -, htoggle⟩ := stream_undo hparse rfl rfl hrun
  obtain rfl : later.output.written = output := hwritten
  have hplain : ∀ raw ∈ Line.cut input, ¬job.marker.isCommented (Line.ofRaw raw).content := by decide
  refine ⟨later, htoggle fun index raw line hraw hsplits _ => ?_⟩
  rw [← Line.splits_iff.mp hsplits]
  exact hplain raw (List.mem_of_getElem? hraw)

end Job

end LineComment
