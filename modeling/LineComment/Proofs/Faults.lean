import LineComment.Proofs.Output
import LineComment.Proofs.Stream

/-! Runs in which reading, writing or flushing fails. The choice of a line and what is written for it depend on the
lines up to it alone, so what a run writes before a fault is what it would have written for the same lines without
one, as far as there is room for it; and of several faults the run reports the one it meets first. -/

namespace LineComment

/-- A reader of an input gives all of it and then its end, or some bytes from its front and then a fault. -/
def Reader.Reads (reader : Reader) (input : Bytes) : Prop :=
  match reader.fault with
  | none => reader.bytes = input
  | some _ => ∃ length, reader.bytes = input.take length

/-- How many lines a reader gives: one for each line feed before a fault, and all of them if there is none. -/
def Reader.lineCount (reader : Reader) : Nat :=
  match reader.fault with
  | none => (Line.cut reader.bytes).length
  | some _ => reader.bytes.count Bytes.lineFeed

theorem Reader.Reads.lines_eq {reader : Reader} {input : Bytes} (h : reader.Reads input) :
    reader.lines = (Line.cut input).take reader.lineCount := by
  obtain ⟨bytes, _ | fault⟩ := reader
  · obtain rfl : bytes = input := h
    rw [lines, lineCount, Line.raw_eq_cut, List.take_length]
  · obtain ⟨length, hbytes⟩ := h
    have hinput : bytes ++ input.drop length = input := by
      rw [show bytes = input.take length from hbytes, List.take_append_drop]
    rw [lines, lineCount, Line.terminated_eq_take bytes (input.drop length), hinput]

theorem Reader.Reads.eq_of_none {reader : Reader} {input : Bytes} (h : reader.Reads input)
    (hnone : reader.fault = none) :
    reader = ⟨input, none⟩ := by
  obtain ⟨bytes, fault⟩ := reader
  obtain rfl : fault = none := hnone
  obtain rfl : bytes = input := h
  rfl

namespace Job

variable (job : Job)

/-- What a run writes for each of some raw lines. -/
def pieces (raws : List Bytes) : List Bytes :=
  let lines := raws.map Line.ofRaw
  (job.visitsFrom 1 lines (job.selection.chooseAll (numbered lines)).1).map fun visit =>
    if job.dryRun then visit.record else visit.output

theorem visitsFrom_prefix (number : Nat) {front : List Line} (back : List Line) {chosen : List Bool} (more : List Bool)
    (hlength : chosen.length = front.length) :
    job.visitsFrom number front chosen <+: job.visitsFrom number (front ++ back) (chosen ++ more) := by
  induction front generalizing number chosen with
  | nil => exact List.nil_prefix
  | cons line front ih =>
      obtain ⟨first, chosen, rfl⟩ := List.exists_cons_of_length_eq_add_one hlength
      exact List.cons_prefix_cons.mpr ⟨rfl, ih (number + 1) (Nat.succ.inj hlength)⟩

theorem length_visitsFrom (number : Nat) {lines : List Line} {choices : List Bool}
    (hlength : choices.length = lines.length) : (job.visitsFrom number lines choices).length = lines.length :=
  congrArg Counts.scanned (job.count_visitsFrom number hlength)

theorem length_pieces (raws : List Bytes) : (job.pieces raws).length = raws.length := by
  rw [pieces, List.length_map, job.length_visitsFrom 1 (job.length_choices _), List.length_map]

theorem exists_numbered_append (front back : List Line) : ∃ more, numbered (front ++ back) = numbered front ++ more :=
  ⟨_, List.mapIdx_append⟩

theorem pieces_prefix (front back : List Bytes) : job.pieces front <+: job.pieces (front ++ back) := by
  obtain ⟨more, hmore⟩ := exists_numbered_append (front.map Line.ofRaw) (back.map Line.ofRaw)
  simp only [pieces, List.map_append, Selection.chooseAll, hmore, Selection.chooseFrom_append]
  exact (job.visitsFrom_prefix 1 _ _ (job.length_choices _)).map _

theorem pieces_take (raws : List Bytes) (count : Nat) :
    job.pieces (raws.take count) = (job.pieces raws).take count := by
  have hfront := job.pieces_prefix (raws.take count) (raws.drop count)
  rw [List.take_append_drop] at hfront
  calc job.pieces (raws.take count)
    _ = (job.pieces raws).take (job.pieces (raws.take count)).length := List.prefix_iff_eq_take.mp hfront
    _ = (job.pieces raws).take count := by
      rw [List.take_eq_take_iff, length_pieces, length_pieces, List.length_take]
      omega

theorem pieces_scan (reader : Reader) :
    ((job.scan reader).visits.map fun visit => if job.dryRun then visit.record else visit.output) =
      job.pieces reader.lines := rfl

/-- What a run says of its output. -/
def handedOn : String := if job.dryRun then "preview" else "output"

def streamMode : Mode := if job.dryRun then .preview else .stream

/-- How a run ends that writes some bytes to a sink after a scan: with the fault of a write, with what is wrong with the
scan, with the fault of the flush, or well. Each comes only after those before it did not. -/
inductive FirstFault (sink : Sink) (written : Bytes) (scanned : Except Error Counts) : Except Error Report → Prop where
  | writing (hmore : sink.overflows written) : FirstFault sink written scanned (.error (.io .writing .other))
  | scanning (hfits : ¬sink.overflows written) {error : Error} (hscanned : scanned = .error error) :
      FirstFault sink written scanned (.error error)
  | flushing (hfits : ¬sink.overflows written) {counts : Counts} (hscanned : scanned = .ok counts) {fault : Fault}
      (hflush : sink.flushFault = some fault) :
      FirstFault sink written scanned (.error (.io (.flushing job.handedOn) fault))
  | well (hfits : ¬sink.overflows written) {counts : Counts} (hscanned : scanned = .ok counts)
      (hflush : sink.flushFault = none) :
      FirstFault sink written scanned (.ok (job.report job.streamMode counts))

theorem stream_eq (reader : Reader) :
    job.stream reader = do
      printAll .writing (job.pieces reader.lines)
      let counts ← (job.scan reader).result
      flushOutput job.handedOn
      return job.report job.streamMode counts := by
  rw [← pieces_scan]
  unfold stream preview handedOn streamMode
  cases job.dryRun <;> rfl

theorem exists_run_stream (reader : Reader) (world : World) :
    ∃ sink result, (job.stream reader).run.run world = ({ world with output := sink }, result) ∧
      sink.written = world.output.written ++ world.output.kept (job.pieces reader.lines).flatten ∧
      job.FirstFault world.output (job.pieces reader.lines).flatten (job.scan reader).result result := by
  obtain ⟨sink, hwritten, hflush, hprint⟩ := exists_run_printAll world .writing (job.pieces reader.lines)
  rw [stream_eq]
  split_ifs at hprint with hmore
  · exact ⟨sink, _, Attempt.run_bind_of_error hprint _, hwritten, .writing hmore⟩
  · rw [Attempt.run_bind_of_ok hprint]
    cases hscanned : (job.scan reader).result with
    | error error =>
        exact ⟨sink, _, Attempt.run_bind_of_error (Attempt.run_liftExcept _ _) _, hwritten, .scanning hmore rfl⟩
    | ok counts =>
        rw [Attempt.run_bind_of_ok (Attempt.run_liftExcept _ _)]
        have hflushed : (flushOutput job.handedOn).run.run { world with output := sink } =
            ({ world with output := sink }, sink.flush.mapError (.io (.flushing job.handedOn))) :=
          Attempt.run_attempt _ _ _
        rw [Sink.flush, hflush] at hflushed
        cases hfault : world.output.flushFault with
        | none =>
            rw [hfault] at hflushed
            exact ⟨sink, _, Attempt.run_bind_of_ok hflushed _, hwritten, .well hmore rfl hfault⟩
        | some fault =>
            rw [hfault] at hflushed
            exact ⟨sink, _, Attempt.run_bind_of_error hflushed _, hwritten, .flushing hmore rfl hfault⟩

namespace FirstFault

variable {job} {sink : Sink} {written : Bytes} {scanned : Except Error Counts} {result : Except Error Report}
  {counts : Counts} {fault : Fault}

theorem writing_iff (h : job.FirstFault sink written scanned result)
    (hscan : ∀ fault, scanned ≠ .error (.io .writing fault)) :
    (∃ fault, result = .error (.io .writing fault)) ↔ sink.overflows written := by
  constructor
  · rintro ⟨fault, rfl⟩
    cases h with
    | writing hmore => exact hmore
    | scanning _ hscanned => exact absurd hscanned (hscan fault)
  · intro hmore
    cases h with
    | writing => exact ⟨_, rfl⟩
    | scanning hfits | flushing hfits | well hfits => exact absurd hmore hfits

theorem reading_iff (h : job.FirstFault sink written scanned result) (hfits : ¬sink.overflows written) :
    result = .error (.io .reading fault) ↔ scanned = .error (.io .reading fault) := by
  cases h with
  | writing hmore => exact absurd hmore hfits
  | scanning _ hscanned => rw [hscanned, Except.error.injEq, Except.error.injEq]
  | flushing _ hscanned | well _ hscanned => simp [hscanned]

theorem eq_error (h : job.FirstFault sink written scanned result) (hfits : ¬sink.overflows written) {error : Error}
    (hscan : scanned = .error error) : result = .error error := by
  cases h with
  | writing hmore => exact absurd hmore hfits
  | scanning _ hscanned => exact congrArg Except.error (Except.error.inj (hscanned.symm.trans hscan))
  | flushing _ hscanned | well _ hscanned => cases hscanned.symm.trans hscan

theorem flushing_iff (h : job.FirstFault sink written scanned result) (hfits : ¬sink.overflows written)
    (hscan : scanned = .ok counts) :
    result = .error (.io (.flushing job.handedOn) fault) ↔ sink.flushFault = some fault := by
  cases h with
  | writing hmore => exact absurd hmore hfits
  | scanning _ hscanned => cases hscanned.symm.trans hscan
  | flushing _ _ hflush | well _ _ hflush => simp [hflush]

theorem eq_ok (h : job.FirstFault sink written scanned result) (hfits : ¬sink.overflows written)
    (hscan : scanned = .ok counts) (hflush : sink.flushFault = none) :
    result = .ok (job.report job.streamMode counts) := by
  cases h with
  | writing hmore => exact absurd hmore hfits
  | scanning _ hscanned => cases hscanned.symm.trans hscan
  | flushing _ _ hfault => cases hfault.symm.trans hflush
  | well _ hscanned => rw [Except.ok.inj (hscanned.symm.trans hscan)]

end FirstFault

theorem exists_run_stream_clear (reader : Reader) (world : World) (hclear : world.output = {}) :
    ∃ sink, sink.written = (job.pieces reader.lines).flatten ∧ (job.stream reader).run.run world =
      ({ world with output := sink }, (job.scan reader).result.map (job.report job.streamMode)) := by
  obtain ⟨sink, result, hrun, hwritten, hfirst⟩ := job.exists_run_stream reader world
  rw [hclear] at hwritten hfirst
  have hfits : ¬Sink.overflows {} (job.pieces reader.lines).flatten := Bool.false_ne_true
  refine ⟨sink, hwritten, ?_⟩
  rw [hrun]
  cases hscanned : (job.scan reader).result with
  | error error => rw [hfirst.eq_error hfits hscanned]; rfl
  | ok counts => rw [hfirst.eq_ok hfits hscanned rfl]; rfl

variable {job} in
theorem stream_prefix_of_ended {input : Bytes} (h : input = [] ∨ input.getLast? = some Bytes.lineFeed) (more : Bytes)
    (fault : Option Fault) (world : World) :
    ((job.stream ⟨input, none⟩).run.run world).1.output.written <+:
      ((job.stream ⟨input ++ more, fault⟩).run.run world).1.output.written := by
  obtain ⟨sink, _, hrun, hwritten, _⟩ := job.exists_run_stream ⟨input, none⟩ world
  obtain ⟨other, _, hrun', hother, _⟩ := job.exists_run_stream ⟨input ++ more, fault⟩ world
  have hlines : (⟨input, none⟩ : Reader).lines <+: (⟨input ++ more, fault⟩ : Reader).lines := by
    obtain ⟨hterminated, hcut⟩ := Line.cut_prefix_of_ended h more
    simp only [Reader.lines, Line.raw_eq_cut]
    cases fault with
    | none => exact hcut
    | some fault => exact hterminated
  obtain ⟨back, hback⟩ := hlines
  obtain ⟨rest, hrest⟩ := job.pieces_prefix (⟨input, none⟩ : Reader).lines back
  rw [hrun, hrun', hwritten, hother, ← hback, ← hrest, List.flatten_append]
  exact (List.prefix_append_right_inj _).mpr (world.output.kept_prefix (List.prefix_append _ _))

/-- Of a scan, nothing but the reading has to do with files. -/
theorem scan_error_io_iff {reader : Reader} {activity : Activity} {fault : Fault} :
    (job.scan reader).result = .error (.io activity fault) ↔ activity = .reading ∧ reader.fault = some fault := by
  rw [scan]
  cases reader.fault with
  | some reason => simp [eq_comm]
  | none =>
      refine iff_of_false (fun h => ?_) (by simp)
      generalize hfinish : job.selection.finish _ _ = finished at h
      cases finished with
      | ok _ => cases h
      | error error => exact job.selection.finish_error_ne_io hfinish activity fault (Except.error.inj h)

/-- A run over a reader that may fail, to an output that may be short of room or fail to hand on what it took. What is
written is as much as there is room for of what a run without a fault writes for the lines given; the first fault met
is the one reported, and without one the report is that of such a run. What follows an input that ends with a line
feed only adds to what is written for it. -/
theorem stream_under_faults (job : Job) (input : Bytes) (reader : Reader) (hreads : reader.Reads input)
    (world : World) :
    let clear : World := { world with output := {} }
    let pieces := job.pieces (Line.cut input)
    let written := (pieces.take reader.lineCount).flatten
    let lines := (Line.cut input).map Line.ofRaw
    let finished := job.selection.finish (job.selection.chooseAll (numbered lines)).2 lines.length
    ∃ later result, (job.stream reader).run.run world = (later, result) ∧
      later.files = world.files ∧ later.input = world.input ∧
      later.output.written = world.output.written ++ world.output.kept written ∧
      reader.lines = (Line.cut input).take reader.lineCount ∧ pieces.length = (Line.cut input).length ∧
      (∀ count, ((job.stream ⟨((Line.cut input).take count).flatten, none⟩).run.run clear).1.output.written =
        (pieces.take count).flatten) ∧
      ((∃ fault, result = .error (.io .writing fault)) ↔ world.output.overflows written) ∧
      (¬world.output.overflows written →
        (∀ fault, result = .error (.io .reading fault) ↔ reader.fault = some fault) ∧
        (reader.fault = none →
          (∀ error, finished = .error error → result = .error error) ∧
          (finished = .ok () →
            (∀ fault, result = .error (.io (.flushing job.handedOn) fault) ↔ world.output.flushFault = some fault) ∧
            (world.output.flushFault = none → ∃ report, result = .ok report ∧
              ((job.stream ⟨input, none⟩).run.run clear).2 = .ok report)))) ∧
      (∀ more fault, input = [] ∨ input.getLast? = some Bytes.lineFeed →
        ((job.stream ⟨input, none⟩).run.run world).1.output.written <+:
          ((job.stream ⟨input ++ more, fault⟩).run.run world).1.output.written) ∧
      ∀ fault, (Error.io .writing fault).message = "failed to write output" ∧
        (Error.io .reading fault).message = "failed to read input" := by
  intro clear pieces written lines finished
  obtain ⟨sink, result, hrun, hwritten, hfirst⟩ := job.exists_run_stream reader world
  have hpieces : job.pieces reader.lines = pieces.take reader.lineCount := by rw [hreads.lines_eq, pieces_take]
  rw [hpieces] at hwritten hfirst
  have hclear : (job.scan ⟨input, none⟩).result = finished.map fun _ =>
      job.tally lines (job.selection.chooseAll (numbered lines)).1 := (job.scan_eq_reference input).2
  have hscan : reader.fault = none → (job.scan reader).result = finished.map fun _ =>
      job.tally lines (job.selection.chooseAll (numbered lines)).1 :=
    fun hnone => by rw [hreads.eq_of_none hnone, hclear]
  refine ⟨_, result, hrun, rfl, rfl, hwritten, hreads.lines_eq, job.length_pieces _, fun count => ?_, ?_,
    fun hfits => ⟨fun fault => ?_,
      fun hnone => ⟨fun error herror => ?_, fun hok => ⟨fun fault => ?_, fun hflush => ?_⟩⟩⟩,
    fun more fault h => stream_prefix_of_ended h more fault world, fun fault => ⟨rfl, rfl⟩⟩
  · obtain ⟨other, hother, hrun'⟩ :=
      job.exists_run_stream_clear ⟨((Line.cut input).take count).flatten, none⟩ clear rfl
    rw [hrun', hother, Reader.lines, Line.raw_eq_cut, Line.cut_flatten_take, pieces_take]
  · refine hfirst.writing_iff fun fault hwriting => ?_
    cases (job.scan_error_io_iff.mp hwriting).1
  · rw [hfirst.reading_iff hfits, scan_error_io_iff, and_iff_right rfl]
  · exact hfirst.eq_error hfits (by rw [hscan hnone, herror]; rfl)
  · exact hfirst.flushing_iff hfits (by rw [hscan hnone, hok]; rfl)
  · obtain ⟨other, _, hrun'⟩ := job.exists_run_stream_clear ⟨input, none⟩ clear rfl
    rw [hrun', hclear, hok]
    exact ⟨_, hfirst.eq_ok hfits (by rw [hscan hnone, hok]; rfl) hflush, rfl⟩

/-- A reader that fails within the second line, before an output with room for three of the four bytes of the first
line. -/
theorem stream_under_faults_short :
    let job : Job := ⟨.standardInput, .lines ⟨1, 2, by decide, by decide⟩, .simple "#", .comment, false⟩
    let reader : Reader := ⟨[0x61, 0x0a, 0x62], some .other⟩
    let world : World := { output := { room := some 3, flushFault := some .storageFull } }
    reader.Reads [0x61, 0x0a, 0x62, 0x0a] ∧
    ∃ later result, (job.stream reader).run.run world = (later, result) ∧ later.output.written = [0x23, 0x20, 0x61] ∧
      ∃ fault, result = .error (.io .writing fault) := by
  intro job reader world
  have hreads : reader.Reads [0x61, 0x0a, 0x62, 0x0a] := ⟨3, rfl⟩
  obtain ⟨later, result, hrun, _, _, hwritten, _, _, _, hwriting, _⟩ :=
    job.stream_under_faults [0x61, 0x0a, 0x62, 0x0a] reader hreads world
  exact ⟨hreads, later, result, hrun, hwritten, hwriting.mpr (by decide)⟩

end Job

end LineComment
