import LineComment.Proofs.Commit
import LineComment.Proofs.Preview
import LineComment.Proofs.Replacement.Atomic

/-! The three modes of a run agree. A commit, a preview and a stream scan the same lines, so where nothing but
the selection can fail they end alike; the file is left with the bytes that the stream writes, and these are the
lines of the old content with the changes that the preview shows. A commit asks more of the file system than a
preview, and a preview more than a stream. -/

namespace LineComment

open FileTree Replacement

/-- A path that names a regular file, with two names beside it that are free and short enough. -/
structure FileSystem.Solitary (fs : FileSystem) (path : Path) (location : Location) (mode : Nat) (data : Bytes) :
    Prop where
  place : fs.place path = .ok ⟨location, some (.file mode data)⟩
  backupFree : fs.isOccupied path.backup = false
  tempFree : fs.isOccupied path.temp = false
  path_le : path.bytes.length + 4 ≤ maxPath
  name_le : ∀ name, location.getLast? = some name → name.length + 4 ≤ maxName

/-- Such a file that can be read, in a directory that can be written to. -/
structure FileSystem.Editable (fs : FileSystem) (path : Path) (location : Location) (mode : Nat) (data : Bytes) :
    Prop extends fs.Solitary path location mode data where
  readable : (Entry.file mode data).isReadable
  changeable : fs.tree.isChangeable location

namespace FileSystem.Editable

variable {fs : FileSystem} {path : Path} {location : Location} {mode : Nat} {data : Bytes}

theorem exists_name (h : fs.Editable path location mode data) :
    ∃ directory name, location = directory ++ [name] ∧ fs.Names path directory name ∧
      fs.tree.entry? (directory ++ [name]) = some (.file mode data) := by
  obtain ⟨directory, name, hnames⟩ := exists_names h.place (by simp)
  have hplace := hnames.place
  rw [h.place, Except.ok.injEq, Spot.mk.injEq] at hplace
  exact ⟨directory, name, hplace.1, hnames, hplace.2.symm⟩

/-- An editable file can be replaced. -/
theorem site (h : fs.Editable path location mode data) : Nonempty (Site fs path) := by
  obtain ⟨directory, name, rfl, hnames, hentry⟩ := h.exists_name
  have hbackupNames : fs.Names path.backup directory (name ++ backupEnding) :=
    hnames.sibling plainEnding_backup h.path_le (h.name_le name List.getLast?_concat)
  have htempNames : fs.Names path.temp directory (name ++ tempEnding) :=
    hnames.sibling plainEnding_temp h.path_le (h.name_le name List.getLast?_concat)
  have hwritable := h.changeable
  rw [isChangeable, List.dropLast_concat] at hwritable
  exact ⟨directory, name, directory ++ [name], mode, data, hnames, hbackupNames, htempNames,
    hnames.find hentry (by simp), h.readable, hwritable, free_of_isOccupied hbackupNames h.backupFree,
    free_of_isOccupied htempNames h.tempFree⟩

theorem find_eq (h : fs.Editable path location mode data) : fs.find path = .ok (location, .file mode data) := by
  obtain ⟨directory, name, rfl, hnames, hentry⟩ := h.exists_name
  exact hnames.find hentry (by simp)

theorem read_eq (h : fs.Editable path location mode data) : fs.read path = .ok (data, none) := by
  simp only [FileSystem.read, FileSystem.readable, h.find_eq, if_pos h.readable]
  rfl

end FileSystem.Editable

namespace Job

variable {job : Job}

/-- The mode of a run has nothing to do with what it finds in the lines. -/
theorem scan_dryRun (dryRun : Bool) (reader : Reader) : scan { job with dryRun } reader = job.scan reader :=
  scan_congr (by rfl) fun _ _ _ => rfl

variable {path : Path} {world : World} {location : Location} {mode : Nat} {input : Bytes}

/-- The counts of a scan that succeeds. -/
theorem tally_of_result {counts : Counts} (h : (job.scan ⟨input, none⟩).result = .ok counts) :
    job.tally ((Line.cut input).map Line.ofRaw)
      (job.selection.chooseAll (numbered ((Line.cut input).map Line.ofRaw))).1 = counts := by
  rw [(job.scan_eq_reference input).2, reference] at h
  cases hfinish : job.selection.finish (job.selection.chooseAll (numbered ((Line.cut input).map Line.ofRaw))).2
      ((Line.cut input).map Line.ofRaw).length with
  | ok value =>
      rw [hfinish] at h
      exact Except.ok.inj h
  | error wrong =>
      rw [hfinish] at h
      cases h

/-- A scan of an input without a fault fails only because of its selection. -/
theorem error_of_result {error : Error} (h : (job.scan ⟨input, none⟩).result = .error error) :
    (∃ range, job.selection = .lines range ∧ error = .rangeOutOfBounds range.last (Line.cut input).length) ∨
      ∃ pair, job.selection = .labels pair ∧
        (error = .startLabelNotFound pair.start ∨ error = .endLabelNotFound pair.stop) := by
  rw [(job.scan_eq_reference input).2, reference, List.length_map] at h
  cases hfinish : job.selection.finish (job.selection.chooseAll (numbered ((Line.cut input).map Line.ofRaw))).2
      (Line.cut input).length with
  | ok value =>
      rw [hfinish] at h
      cases h
  | error wrong =>
      rw [hfinish] at h
      cases h
      exact job.selection.finish_error_cases hfinish

/-- A commit of an editable file ends as the scan of its lines, and puts into the file what the scan writes. -/
theorem run_commit (hsource : job.source = .file path) (hwrite : job.dryRun = false)
    (hfile : world.files.Editable path location mode input) :
    ∃ later, job.apply.run.run world = (later, (job.scan ⟨input, none⟩).result.map (job.report .commit)) ∧
      later.output = world.output ∧
      ∀ counts, (job.scan ⟨input, none⟩).result = .ok counts → ∀ other, later.files.tree.entry? other =
        if other = location then some (.file mode ((job.scan ⟨input, none⟩).visits.map Visit.output).flatten)
        else world.files.tree.entry? other := by
  obtain ⟨past, hending⟩ := (replaceFile_upholds world path
    (interfere_notMem_commands (job.scan ⟨input, none⟩))).goal_run
  have hrun := run_apply_of_read hsource hwrite hfile.read_eq
  rcases hreplace : (replaceFile path (commands (job.scan ⟨input, none⟩))).run.run world with ⟨later, result⟩
  rw [hreplace] at hending hrun
  have hresult := hending.result_eq hfile.site (fillDisk_notMem_commands _)
  have houtcome := outcome_commands (job.scan ⟨input, none⟩)
  rw [houtcome] at hresult
  refine ⟨later, ?_, hending.frame.2.1, fun counts hcounts other => ?_⟩
  · rw [hrun]
    cases hscan : (job.scan ⟨input, none⟩).result <;> rw [hscan] at hresult <;> subst hresult <;> rfl
  · rw [hcounts] at hresult houtcome
    subst hresult
    obtain ⟨place, bits, old, hplace, _, hentries, _⟩ := hending.entry?_of_ok (by simp [hfile.place])
    rw [hfile.place] at hplace
    cases hplace
    rw [hentries, ← (Command.outcome_eq_ok_iff.mp houtcome).2]

/-- A dry run on a file that can be read is a preview of its lines. -/
theorem run_apply_dry (hsource : job.source = .file path) (hdry : job.dryRun = true) {fault : Option Fault}
    (hread : world.files.read path = .ok (input, fault)) :
    job.apply.run.run world = (job.preview ⟨input, fault⟩).run.run world := by
  rw [apply, hsource]
  refine (Attempt.run_bind_of_ok (run_open_of_read hread) _).trans ?_
  rw [if_pos hdry]

/-- A dry run on a file does nothing but print. -/
theorem exists_prints_apply (hsource : job.source = .file path) (hdry : job.dryRun = true) (world : World) :
    ∃ pieces result, job.apply.Prints world pieces result := by
  cases hread : world.files.read path with
  | error fault => exact ⟨[], _, .nothing fun sink => run_apply_of_unreadable hsource hread⟩
  | ok found =>
      obtain ⟨bytes, fault⟩ := found
      refine ⟨(job.scan ⟨bytes, fault⟩).visits.map Visit.record,
        (job.scan ⟨bytes, fault⟩).result.map (job.report .preview), fun sink hroom hflush => ?_⟩
      have hopened : FileSystem.read { world with output := sink }.files path = .ok (bytes, fault) := hread
      rw [run_apply_dry hsource hdry hopened]
      exact run_preview hroom hflush _

/-- On an editable file and an output with room, a commit, a preview and a stream end alike: with the same
counts, or with the same error of the selection. What the stream writes is what the file holds after the commit,
and nothing else is changed. The preview shows one record for each chosen line, in the order of the lines, and
each with one line feed; made in the lines of the old content, the changes it shows give the new one. The commit
writes nothing to the output, and a preview leaves the files as they are in any world. -/
theorem modes_agree {text : String} (hparse : Marker.parse text = .ok job.marker) (hsource : job.source = .file path)
    (hfile : world.files.Editable path location mode input) (hroom : world.output.room = none)
    (hflush : world.output.flushFault = none) :
    ∃ (lines : List Line) (result : Except Error Counts) (changes : List LineChange)
      (committed previewed streamed : World), List.Forall₂ Line.Splits (Line.cut input) lines ∧
      (apply { job with dryRun := false }).run.run world = (committed, result.map (job.report .commit)) ∧
      (apply { job with dryRun := true }).run.run world = (previewed, result.map (job.report .preview)) ∧
      (stream { job with dryRun := false } ⟨input, none⟩).run.run world = (streamed, result.map (job.report .stream)) ∧
      (∀ error, result = .error error →
        (∃ range, job.selection = .lines range ∧ error = .rangeOutOfBounds range.last lines.length) ∨
          ∃ pair, job.selection = .labels pair ∧
            (error = .startLabelNotFound pair.start ∨ error = .endLabelNotFound pair.stop)) ∧
      (∀ counts, result = .ok counts → counts.scanned = lines.length ∧ counts.selected = changes.length ∧
        streamed.output.written = world.output.written ++ Line.merge changes lines ∧
        ∀ other, committed.files.tree.entry? other =
          if other = location then some (.file mode (Line.merge changes lines)) else world.files.tree.entry? other) ∧
      previewed.output.written = world.output.written ++ LineChange.shown changes ∧
      (LineChange.shown changes).count Bytes.lineFeed = changes.length ∧
      changes.Pairwise (·.number < ·.number) ∧
      (∀ change, change ∈ changes ↔ ∃ index line, lines[index]? = some line ∧
        (job.selection.chooseAll (numbered lines)).1[index]? = some true ∧
        change = ⟨index + 1, line.content, job.action.apply job.marker line.content⟩) ∧
      committed.output = world.output ∧
      ∀ other : World, ((apply { job with dryRun := true }).run.run other).1.files = other.files := by
  have hmarker := Marker.wellFormed_of_parse hparse
  let lines := (Line.cut input).map Line.ofRaw
  let choice := job.selection.chooseAll (numbered lines)
  let changes := job.changesFrom 1 lines choice.1
  have hlength : choice.1.length = lines.length := job.length_choices lines
  have hmerge : ((job.scan ⟨input, none⟩).visits.map Visit.output).flatten = Line.merge changes lines :=
    (job.scan_eq_reference input).1.trans (merge_changesFrom hlength).symm
  have hrecords : ((job.scan ⟨input, none⟩).visits.map Visit.record).flatten = LineChange.shown changes := by
    rw [flatten_map_record, visits_scan]
    rfl
  let commit : Job := { job with dryRun := false }
  let dry : Job := { job with dryRun := true }
  have hcommitSource : commit.source = .file path := hsource
  have hdrySource : dry.source = .file path := hsource
  obtain ⟨committed, hcommit, houtput, hentries⟩ := run_commit hcommitSource rfl hfile
  have hpreview := (run_apply_dry hdrySource rfl hfile.read_eq).trans (run_preview hroom hflush _)
  have hstream := run_stream commit rfl hroom hflush ⟨input, none⟩
  rw [scan_dryRun] at hcommit hentries hpreview hstream
  refine ⟨lines, (job.scan ⟨input, none⟩).result, changes, committed, _, _, ?_, hcommit, hpreview, hstream,
    fun error herror => ?_, fun counts hcounts => ?_, ?_, ?_, pairwise_changesFrom, fun change => ?_, houtput,
    keepsFiles_apply rfl⟩
  · exact List.forall₂_map_right_iff.mpr (List.forall₂_same.mpr fun raw _ => Line.splits_iff.mpr rfl)
  · rw [List.length_map]
    exact error_of_result herror
  · obtain rfl := tally_of_result hcounts
    have hchanged := hentries _ hcounts
    rw [hmerge] at hchanged
    refine ⟨rfl, (length_changesFrom hlength).symm, ?_, hchanged⟩
    rw [Sink.written_takeAll, hmerge]
  · rw [Sink.written_takeAll, hrecords]
  · refine LineChange.count_shown fun change hchange => ?_
    obtain ⟨index, line, hline, _, rfl⟩ := mem_changesFrom.mp hchange
    have hproper := Line.proper_of_mem (List.mem_of_getElem? hline)
    exact ⟨hproper.notMem, job.action.lineFeed_notMem_apply hmarker hproper.notMem⟩
  · exact mem_changesFrom

/-- Commenting the last one of two lines, which is not well-formed and has no end. -/
theorem modes_agree_ill_formed :
    let job : Job := ⟨.file ⟨[0x66]⟩, .lines ⟨2, 2, by decide, by decide⟩, .simple "//", .comment, false⟩
    let world : World := { files := { tree := { entries := [([[0x66]], .file 0o640 [0x61, 0x0a, 0xff])] } } }
    ∃ committed previewed, job.apply.run.run world = (committed, .ok ⟨job.source, .commit, ⟨2, 1, 1⟩⟩) ∧
      (apply { job with dryRun := true }).run.run world = (previewed, .ok ⟨job.source, .preview, ⟨2, 1, 1⟩⟩) ∧
      committed.files.tree.entry? [[0x66]] =
        some (.file 0o640 [0x61, 0x0a, 0x2f, 0x2f, 0x20, 0xff, 0x0a]) ∧
      previewed.output.written.count Bytes.lineFeed = 1 := by
  intro job world
  have hparse : Marker.parse "//" = .ok job.marker := by cbv
  have hfile : world.files.Editable ⟨[0x66]⟩ [[0x66]] 0o640 [0x61, 0x0a, 0xff] :=
    { place := by rfl
      backupFree := by rfl
      tempFree := by rfl
      path_le := by decide
      name_le := by simp [maxName]
      readable := by decide
      changeable := by decide }
  obtain ⟨lines, result, changes, committed, previewed, streamed, -, hcommit, hpreview, hstream, -, hok, hshown, hcount,
    -⟩ := modes_agree hparse rfl hfile rfl rfl
  have hended : result.map (job.report .stream) = .ok ⟨job.source, .stream, ⟨2, 1, 1⟩⟩ :=
    (congrArg Prod.snd hstream).symm.trans (by rfl)
  have hwritten : streamed.output.written = [0x61, 0x0a, 0x2f, 0x2f, 0x20, 0xff, 0x0a] :=
    (congrArg (fun ended => ended.1.output.written) hstream).symm.trans (by rfl)
  obtain rfl : result = .ok ⟨2, 1, 1⟩ := by
    cases result with
    | error error => cases hended
    | ok counts =>
        cases hended
        rfl
  obtain ⟨-, hlength, hmerge, hentries⟩ := hok _ rfl
  refine ⟨committed, previewed, hcommit, hpreview, ?_, ?_⟩
  · rw [hentries, if_pos rfl, ← hwritten, hmerge]
    rfl
  · rw [hshown]
    exact hcount.trans hlength.symm

/-- Elsewhere the modes part. In a directory that cannot be written to, a commit fails where a preview and a
stream succeed; of a file that cannot be read, only a stream succeeds, which is given the bytes; and to an
output without room only a commit succeeds, which does not write to it. -/
theorem modes_part :
    Marker.parse "//" = .ok (.simple "//") ∧
    (let job : Job := ⟨.file ⟨[0x65, 0x2f, 0x66]⟩, .lines ⟨1, 1, by decide, by decide⟩, .simple "//", .comment, false⟩
     let world : World := { files := { tree := { entries := [
       ([[0x65]], .directory 0o555), ([[0x65], [0x66]], .file 0o644 [0x61, 0x0a])] } } }
     world.files.Solitary ⟨[0x65, 0x2f, 0x66]⟩ [[0x65], [0x66]] 0o644 [0x61, 0x0a] ∧
      (job.apply.run.run world).2 = .error (.io (.backingUp (Path.backup ⟨[0x65, 0x2f, 0x66]⟩)) .permissionDenied) ∧
      ((apply { job with dryRun := true }).run.run world).2 = .ok ⟨job.source, .preview, ⟨1, 1, 1⟩⟩ ∧
      ((job.stream ⟨[0x61, 0x0a], none⟩).run.run world).2 = .ok ⟨job.source, .stream, ⟨1, 1, 1⟩⟩) ∧
    let job : Job := ⟨.file ⟨[0x66]⟩, .lines ⟨1, 1, by decide, by decide⟩, .simple "//", .comment, false⟩
    (let world : World := { files := { tree := { entries := [([[0x66]], .file 0o200 [0x61, 0x0a])] } } }
     world.files.Solitary ⟨[0x66]⟩ [[0x66]] 0o200 [0x61, 0x0a] ∧
      (job.apply.run.run world).2 = .error (.io .opening .permissionDenied) ∧
      ((apply { job with dryRun := true }).run.run world).2 = .error (.io .opening .permissionDenied) ∧
      ((job.stream ⟨[0x61, 0x0a], none⟩).run.run world).2 = .ok ⟨job.source, .stream, ⟨1, 1, 1⟩⟩) ∧
    let world : World :=
      { files := { tree := { entries := [([[0x66]], .file 0o644 [0x61, 0x0a])] } }, output := { room := some 0 } }
    world.files.Solitary ⟨[0x66]⟩ [[0x66]] 0o644 [0x61, 0x0a] ∧
      (job.apply.run.run world).2 = .ok ⟨job.source, .commit, ⟨1, 1, 1⟩⟩ ∧
      ((apply { job with dryRun := true }).run.run world).2 = .error (.io .writing .other) ∧
      ((job.stream ⟨[0x61, 0x0a], none⟩).run.run world).2 = .error (.io .writing .other) := by
  refine ⟨by cbv, ⟨⟨by rfl, by rfl, by rfl, by decide, by simp [maxName]⟩, by rfl, by rfl, by rfl⟩,
    ⟨⟨by rfl, by rfl, by rfl, by decide, by simp [maxName]⟩, by rfl, by rfl, by rfl⟩,
    ⟨by rfl, by rfl, by rfl, by decide, by simp [maxName]⟩, by rfl, by rfl, by rfl⟩

end Job

end LineComment
