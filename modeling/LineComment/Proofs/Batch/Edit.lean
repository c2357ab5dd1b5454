import LineComment.Batch
import LineComment.Proofs.Commit
import LineComment.Proofs.Files.Resemblance
import LineComment.Proofs.Replacement.Atomic

/-! One target of a batch that changes files. It succeeds exactly if there is an edit: its job can be settled, its path
names a file that can be replaced, and its selection suits the lines of that file. The file then holds what the scan
writes, and nothing else is changed; without an edit nothing is changed, or the replacement of the file is undone. -/

namespace LineComment

open FileSystem Replacement

/-- An error that does not say in which file it arose. -/
def Error.IsBare (error : Error) : Prop := ∀ path inner, error ≠ .inFile path inner

theorem Registry.isBare_of_resolve {registry : Registry} {language : Option String} {path : Option Path} {error : Error}
    (h : registry.resolve language path = .error error) : error.IsBare := by
  rintro file inner rfl
  unfold resolve byName byPath at h
  dsimp only at h
  split at h
  · split at h <;> cases h
  · split at h
    · cases h
    · split at h <;> cases h
  · cases h

namespace BatchOptions

variable {options : BatchOptions} {registry : Registry} {source : Source} {own : Option Selection} {job : Job}

/-- The comment syntax for a source. -/
def markerFor (options : BatchOptions) (registry : Registry) (source : Source) : Except Error Marker :=
  match options.marker with
  | some marker => .ok marker
  | none => registry.resolve options.language source.path?

theorem job_eq (options : BatchOptions) (registry : Registry) (source : Source) (own : Option Selection) :
    options.job registry source own =
      match own.or options.selection with
      | none => .error (.missingSelection source.label)
      | some selection => (options.markerFor registry source).map fun marker =>
          ⟨source, selection, marker, options.action, options.dryRun⟩ := by
  rw [BatchOptions.job, markerFor]
  cases own.or options.selection with
  | none => rfl
  | some selection =>
      cases options.marker with
      | some marker => rfl
      | none => cases registry.resolve options.language source.path? <;> rfl

theorem job_eq_ok_iff : options.job registry source own = .ok job ↔
    ∃ selection marker, own.or options.selection = some selection ∧ options.markerFor registry source = .ok marker ∧
      job = ⟨source, selection, marker, options.action, options.dryRun⟩ := by
  rw [job_eq]
  cases own.or options.selection with
  | none => simp
  | some selection => cases options.markerFor registry source <;> simp [Except.map, eq_comm]

theorem source_of_job (h : options.job registry source own = .ok job) :
    job.source = source ∧ job.dryRun = options.dryRun := by
  obtain ⟨selection, marker, -, -, rfl⟩ := job_eq_ok_iff.mp h
  exact ⟨rfl, rfl⟩

theorem isBare_of_job {error : Error} (h : options.job registry source own = .error error) : error.IsBare := by
  rw [job_eq] at h
  split at h
  · rintro path inner rfl
    cases h
  · rw [markerFor] at h
    cases hmarker : options.marker with
    | some marker =>
        rw [hmarker] at h
        cases h
    | none =>
        rw [hmarker] at h
        cases hresolve : registry.resolve options.language source.path? with
        | ok marker =>
            simp only [hresolve] at h
            cases h
        | error wrong =>
            simp only [hresolve] at h
            cases h
            exact Registry.isBare_of_resolve hresolve

end BatchOptions

namespace Job

variable {job : Job} {path : Path} {world later : World}

/-- Nothing that is wrong with a file or with the lines read from it says in which file. -/
theorem isBare_of_scan {reader : Reader} {error : Error} (h : (job.scan reader).result = .error error) :
    error.IsBare := by
  obtain ⟨bytes, _ | fault⟩ := reader
  · obtain ⟨phase, total, hfinish⟩ := exists_finish_error h
    rintro file inner rfl
    rcases job.selection.finish_error_cases hfinish with ⟨_, -, hrange⟩ | ⟨_, -, hstart | hstop⟩
    · cases hrange
    · cases hstart
    · cases hstop
  · rintro file inner rfl
    cases h

theorem result_of_not_fail {scan : Scan} (h : ∀ error, .fail error ∉ commands scan) :
    ∃ counts, scan.result = .ok counts := by
  cases hresult : scan.result with
  | ok counts => exact ⟨counts, rfl⟩
  | error error => exact absurd (by simp [commands, hresult]) (h error)

/-- Where a file can be replaced, a replacement by what a scan writes fails only as the scan does. -/
theorem scan_of_ending {reader : Reader} {past : List Operation} {error : Error}
    (h : Ending path (commands (job.scan reader)) world past later (.error error))
    (hsite : Nonempty (Site world.files path)) : (job.scan reader).result = .error error := by
  have hresult := h.result_eq hsite (fillDisk_notMem_commands _)
  rw [outcome_commands] at hresult
  cases hscan : (job.scan reader).result with
  | ok counts =>
      rw [hscan] at hresult
      cases hresult
  | error wrong =>
      rw [hscan] at hresult
      cases hresult
      rfl

theorem isBare_of_ending {reader : Reader} {past : List Operation} {error : Error}
    (h : Ending path (commands (job.scan reader)) world past later (.error error)) : error.IsBare := by
  by_cases hsite : Nonempty (Site world.files path)
  · exact isBare_of_scan (scan_of_ending h hsite)
  · cases h with
    | refused refusal _ _ => cases refusal <;> rintro file inner ⟨⟩
    | restored site _ _ => exact absurd ⟨site⟩ hsite

end Job

namespace BatchOptions

variable {options : BatchOptions} {registry : Registry} {target : Target} {world later : World}

/-- A target that can be worked on: its job, the file that its path names with its mode and its bytes, and what the
scan of the file counts. -/
structure Edit (options : BatchOptions) (registry : Registry) (fs : FileSystem) (target : Target) where
  job : Job
  location : Location
  mode : Nat
  old : Bytes
  counts : Counts
  settled : options.job registry (.file target.path) target.selection = .ok job
  place : fs.place target.path = .ok ⟨location, some (.file mode old)⟩
  replaceable : Replaceable fs target.path
  scanned : (job.scan ⟨old, none⟩).result = .ok counts

namespace Edit

variable {fs now : FileSystem} (edit : Edit options registry fs target)

/-- What is told of it. -/
def report : Report := edit.job.report .commit edit.counts

/-- The new bytes of the file. -/
def new : Bytes := ((edit.job.scan ⟨edit.old, none⟩).visits.map Visit.output).flatten

/-- The files afterwards: one has its new bytes, and all else is as it was. -/
structure Makes (edit : Edit options registry fs target) (now : FileSystem) : Prop where
  directory : now.directory = fs.directory
  entries : ∀ other, now.tree.entry? other =
    if other = edit.location then some (.file edit.mode edit.new) else fs.tree.entry? other

variable {edit}

/-- There is only one way to work on a target. -/
theorem eq (first second : Edit options registry fs target) : first = second := by
  obtain ⟨job, location, mode, old, counts, hjob, hplace, _, hscanned⟩ := first
  obtain ⟨other, location', mode', old', counts', hother, hplace', _, hscanned'⟩ := second
  obtain rfl : job = other := Except.ok.inj (hjob.symm.trans hother)
  cases hplace.symm.trans hplace'
  obtain rfl : counts = counts' := Except.ok.inj (hscanned.symm.trans hscanned')
  rfl

theorem Makes.resembles (h : edit.Makes now) : fs.Resembles now := by
  refine ⟨h.directory, fun location => ?_⟩
  rw [h.entries]
  split_ifs with hlocation
  · rw [hlocation, show fs.tree.entry? edit.location = _ from FileSystem.entry_of_resolve edit.place]
    exact .file _ _ _
  · exact .refl _

theorem read_eq (edit : Edit options registry fs target) :
    fs.read target.path = .ok (edit.old, none) := by
  rcases Job.read_of_find (find_of_place edit.place) with hread | ⟨fault, hread⟩
  · exact hread
  · obtain ⟨mode, data, hreadable⟩ := edit.replaceable.readable
    rw [FileSystem.read, hreadable] at hread
    cases hread

end Edit

/-- How one target of a batch ends. -/
inductive TargetEnding (options : BatchOptions) (registry : Registry) (target : Target) (world later : World) :
    Except Error Report → Prop where
  | failed {error : Error} (bare : error.IsBare) (same : later = world) :
      TargetEnding options registry target world later (.error error)
  | undone {error : Error} {job : Job} {location : Location} {mode : Nat} {old : Bytes} (bare : error.IsBare)
      (settled : options.job registry (.file target.path) target.selection = .ok job)
      (replaceable : Replaceable world.files target.path)
      (scanned : (job.scan ⟨old, none⟩).result = .error error)
      (undone : Undone world.files target.path location mode old later.files) :
      TargetEnding options registry target world later (.error error)
  | changed (edit : Edit options registry world.files target) (makes : edit.Makes later.files) :
      TargetEnding options registry target world later (.ok edit.report)

theorem TargetEnding.isBare {error : Error}
    (h : TargetEnding options registry target world later (.error error)) : error.IsBare := by
  cases h with
  | failed bare _ | undone bare => exact bare

theorem targetEnding_of_apply (hwrite : options.dryRun = false)
    (hplace : ∀ location link, world.files.place target.path ≠ .ok ⟨location, some (.link link)⟩) {job : Job}
    (hjob : options.job registry (.file target.path) target.selection = .ok job)
    {result : Except Error Report} (hrun : job.apply.run.run world = (later, result)) :
    TargetEnding options registry target world later result := by
  obtain ⟨hsource, hdry⟩ := source_of_job hjob
  rw [hwrite] at hdry
  cases hread : world.files.read target.path with
  | error fault =>
      rw [Job.run_apply_of_unreadable hsource hread] at hrun
      cases hrun
      exact .failed (by rintro file inner ⟨⟩) rfl
  | ok found =>
      obtain ⟨bytes, fault⟩ := found
      rw [Job.run_apply_of_read hsource hdry hread] at hrun
      obtain ⟨past, hending⟩ := (replaceFile_upholds world target.path (Job.interfere_notMem_commands _)).goal_run
      rcases hreplace : (replaceFile target.path (Job.commands (job.scan ⟨bytes, fault⟩))).run.run world with
        ⟨after, error | ⟨⟨⟩⟩⟩
      · rw [hreplace] at hrun hending
        cases hrun
        obtain ⟨hrefused, hundone⟩ := hending.undone_of_error hplace
        by_cases hsite : Nonempty (Site world.files target.path)
        · obtain ⟨location, mode, old, h⟩ := hundone hsite
          have hscan := Job.scan_of_ending hending hsite
          obtain ⟨rfl, rfl⟩ := Job.eq_of_read (find_of_place h.place) hread
          exact .undone (Job.isBare_of_ending hending) hjob (nonempty_site_iff.mp hsite) hscan h
        · exact .failed (Job.isBare_of_ending hending) (hrefused hsite)
      · rw [hreplace] at hrun hending
        cases hrun
        have hsite : Nonempty (Site world.files target.path) := by
          by_contra hnosite
          obtain ⟨error, herror⟩ := hending.exists_error (.inl hnosite)
          cases herror
        obtain ⟨location, mode, old, hfile, hnone, hentries, -⟩ := hending.entry?_of_ok hplace
        obtain ⟨counts, hcounts⟩ := Job.result_of_not_fail hnone
        obtain ⟨rfl, rfl⟩ := Job.eq_of_read (find_of_place hfile) hread
        have houtcome := Job.outcome_commands (job.scan ⟨bytes, none⟩)
        rw [hcounts] at houtcome ⊢
        rw [← (Command.outcome_eq_ok_iff.mp houtcome).2] at hentries
        exact .changed ⟨_, _, _, _, _, hjob, hfile, nonempty_site_iff.mp hsite, hcounts⟩ ⟨hending.frame.2.2, hentries⟩

theorem run_applyOne (options : BatchOptions) (registry : Registry) (target : Target) (world : World) :
    (options.applyOne registry false target).run.run world =
      match options.job registry (.file target.path) target.selection with
      | .ok job => job.apply.run.run world
      | .error error => (world, .error error) := by
  rw [applyOne]
  cases hjob : options.job registry (.file target.path) target.selection with
  | ok job => exact Attempt.run_bind_of_ok (Attempt.run_liftExcept _ _) _
  | error error => exact Attempt.run_bind_of_error (Attempt.run_liftExcept _ _) _

/-- A target that names no link fails and leaves everything as it is, fails and is undone, or is edited. -/
theorem targetEnding_of_run (hwrite : options.dryRun = false)
    (hplace : ∀ location link, world.files.place target.path ≠ .ok ⟨location, some (.link link)⟩)
    {result : Except Error Report} (hrun : (options.applyOne registry false target).run.run world = (later, result)) :
    TargetEnding options registry target world later result := by
  rw [run_applyOne] at hrun
  cases hjob : options.job registry (.file target.path) target.selection with
  | error error =>
      rw [hjob] at hrun
      cases hrun
      exact .failed (isBare_of_job hjob) rfl
  | ok job =>
      rw [hjob] at hrun
      exact targetEnding_of_apply hwrite hplace hjob hrun

/-- Where there is an edit, the target succeeds. -/
theorem Edit.run (edit : Edit options registry world.files target) (hwrite : options.dryRun = false) : ∃ later,
      (options.applyOne registry false target).run.run world = (later, .ok edit.report) ∧
        edit.Makes later.files := by
  have hplace : ∀ location link, world.files.place target.path ≠ .ok ⟨location, some (.link link)⟩ := by
    intro location link hlink
    cases edit.place.symm.trans hlink
  obtain ⟨hsource, hdry⟩ := source_of_job edit.settled
  rw [hwrite] at hdry
  rcases hrun : (options.applyOne registry false target).run.run world with ⟨later, result⟩
  have hending := targetEnding_of_run hwrite hplace hrun
  have hok : result = .ok edit.report := by
    rw [run_applyOne, edit.settled] at hrun
    dsimp only at hrun
    rw [Job.run_apply_of_read hsource hdry (edit.read_eq)] at hrun
    obtain ⟨past, hreplaced⟩ := (replaceFile_upholds world target.path (Job.interfere_notMem_commands _)).goal_run
    have hresult := hreplaced.result_eq (nonempty_site_iff.mpr edit.replaceable)
      (Job.fillDisk_notMem_commands (edit.job.scan ⟨edit.old, none⟩))
    rw [Job.outcome_commands, edit.scanned] at hresult
    rcases hreplace : (replaceFile target.path (Job.commands (edit.job.scan ⟨edit.old, none⟩))).run.run world
      with ⟨after, ended⟩
    rw [hreplace] at hresult hrun
    obtain rfl : ended = .ok () := hresult
    rw [edit.scanned] at hrun
    exact (Prod.mk.inj hrun).2.symm
  subst hok
  refine ⟨later, rfl, ?_⟩
  generalize hreport : Except.ok edit.report = result at hending
  cases hending with
  | failed | undone => cases hreport
  | changed other makes =>
      rw [edit.eq other]
      exact makes

end BatchOptions

end LineComment
