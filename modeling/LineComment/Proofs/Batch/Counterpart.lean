import LineComment.Proofs.Batch.Sequence
import LineComment.Proofs.Output
import LineComment.Proofs.Replacement.Counterpart

/-! A batch in a world where some files have other names, with its targets under the names that they have there. It
fails where the first batch fails, and the error in the file is the one the first batch has met, but for the path that
it may repeat. -/

namespace LineComment

open Error FileSystem Replacement

/-- A world with the same files under other names, and with an output that takes as much. If there is a bound to that,
something is known about what is written. -/
structure World.Renamed (r : Renaming) (known : Prop) (world other : World) : Prop where
  files : world.files.Renamed r other.files
  output : Sink.Alike known world.output other.output

namespace Attempt

variable {α β γ δ : Type} {r : Renaming} {known : Prop} {path path' : Path} {world other : World}

/-- Two attempts, of which the second one is made under the other names, end alike: both have results, or the second one
has the error of the first one retold. The worlds that they leave are still the same under other names. -/
def Matches (r : Renaming) (known : Prop) (path path' : Path) (first : Attempt α) (second : Attempt β)
    (world other : World) : Prop :=
  ∃ later later' result result', first.run.run world = (later, result) ∧ second.run.run other = (later', result') ∧
    Corresponds path path' result result' ∧ World.Renamed r known later later'

theorem Matches.bind {first : Attempt α} {second : Attempt β} {f : α → Attempt γ} {g : β → Attempt δ}
    (h : Matches r known path path' first second world other)
    (hrest : ∀ value value' later later', first.run.run world = (later, .ok value) →
      second.run.run other = (later', .ok value') → World.Renamed r known later later' →
      Matches r known path path' (f value) (g value') later later') :
    Matches r known path path' (first >>= f) (second >>= g) world other := by
  obtain ⟨later, later', result, result', hrun, hrun', hresults, hlater⟩ := h
  cases hresults with
  | error retold =>
      exact ⟨later, later', _, _, run_bind_of_error hrun _, run_bind_of_error hrun' _, .error retold, hlater⟩
  | ok value value' =>
      have hboth := hrest value value' later later' hrun hrun' hlater
      rwa [Matches, run_bind_of_ok hrun, run_bind_of_ok hrun']

theorem matches_liftExcept {result : Except Error α} {result' : Except Error β}
    (h : Corresponds path path' result result') (hrenamed : World.Renamed r known world other) :
    Matches r known path path' (liftM result) (liftM result') world other :=
  ⟨world, other, result, result', rfl, rfl, h, hrenamed⟩

/-- A fault in any activity but the copying of the file is told without the path. -/
theorem corresponds_mapError {activity : Activity} (hactivity : ∀ backup, activity ≠ .backingUp backup)
    (result : Except Fault α) (path path' : Path) :
    Corresponds path path' (result.mapError (.io activity)) (result.mapError (.io activity)) := by
  refine .of_same fun error herror => ?_
  cases result with
  | ok value => cases herror
  | error fault =>
      cases herror
      refine .same (by rintro file inner ⟨⟩) fun hrepeats => ?_
      cases hrepeats with
      | backingUp => exact hactivity _ rfl

theorem matches_print {activity : Activity} (hactivity : ∀ backup, activity ≠ .backingUp backup) {data more : Bytes}
    (hlength : known → more.length = data.length) (hrenamed : World.Renamed r known world other) :
    Matches r known path path' (attempt activity (Script.call (.print data)))
      (attempt activity (Script.call (.print more))) world other := by
  obtain ⟨houtput, hresult⟩ := hrenamed.output.write data more hlength
  have hrun (world : World) (data : Bytes) : (attempt activity (Script.call (.print data))).run.run world =
      ({ world with output := (world.output.write data).1 },
        (world.output.write data).2.mapError (.io activity)) := run_attempt _ _ _
  refine ⟨_, _, _, _, hrun world data, hrun other more, ?_, hrenamed.files, houtput⟩
  rw [hresult]
  exact corresponds_mapError hactivity _ _ _

theorem matches_printAll {activity : Activity} (hactivity : ∀ backup, activity ≠ .backingUp backup)
    (pieces : List Bytes) (hrenamed : World.Renamed r known world other) :
    Matches r known path path' (printAll activity pieces) (printAll activity pieces) world other := by
  induction pieces generalizing world other with
  | nil => exact ⟨world, other, _, _, rfl, rfl, .ok () (), hrenamed⟩
  | cons piece rest ih =>
      exact (matches_print hactivity (fun _ => rfl) hrenamed).bind fun _ _ _ _ _ _ hprinted => ih hprinted

theorem matches_flush (what : String) (hrenamed : World.Renamed r known world other) :
    Matches r known path path' (flushOutput what) (flushOutput what) world other := by
  have hrun (world : World) : (flushOutput what).run.run world =
      (world, world.output.flush.mapError (.io (.flushing what))) := run_attempt _ _ _
  refine ⟨_, _, _, _, hrun world, hrun other, ?_, hrenamed⟩
  rw [Sink.flush, Sink.flush, hrenamed.output.flushFault]
  exact corresponds_mapError (by simp) _ _ _

end Attempt

namespace Job

open Attempt

variable {job : Job} {r : Renaming} {known : Prop} {path path' : Path} {world other : World}

/-- The same job on another file. -/
def relocate (job : Job) (path : Path) : Job := { job with source := .file path }

theorem scan_relocate (job : Job) (path : Path) (reader : Reader) : (job.relocate path).scan reader = job.scan reader :=
  scan_congr (by rfl) fun _ _ _ => rfl

/-- What is wrong with the lines of a file has nothing to do with its path. -/
theorem retold_of_scan {reader : Reader} {error : Error} (h : (job.scan reader).result = .error error)
    (path path' : Path) : Retold path path' error error := by
  refine .same (isBare_of_scan h) fun hrepeats => ?_
  obtain ⟨bytes, _ | fault⟩ := reader
  · obtain ⟨phase, total, hfinish⟩ := exists_finish_error h
    rcases job.selection.finish_error_cases hfinish with ⟨_, -, rfl⟩ | ⟨_, -, rfl | rfl⟩ <;> cases hrepeats
  · cases h
    cases hrepeats

theorem matches_scan (job : Job) (reader : Reader) (hrenamed : World.Renamed r known world other) :
    Matches r known path path' (liftM (job.scan reader).result) (liftM (job.scan reader).result) world other :=
  matches_liftExcept (.of_same fun _ herror => retold_of_scan herror path path') hrenamed

theorem matches_preview (job : Job) (reader : Reader) (hrenamed : World.Renamed r known world other) :
    Matches r known path path' (job.preview reader) ((job.relocate path').preview reader) world other := by
  rw [preview, preview, scan_relocate]
  refine (matches_printAll (by simp) _ hrenamed).bind fun _ _ _ _ _ _ hprinted => ?_
  refine (job.matches_scan reader hprinted).bind fun _ _ _ _ _ _ hscanned => ?_
  refine (matches_flush "preview" hscanned).bind fun _ _ _ _ _ _ hflushed => ?_
  exact matches_liftExcept (.ok _ _) hflushed

theorem matches_commit (job : Job) (reader : Reader) (hrenamed : World.Renamed r known world other)
    (hmirrors : Mirrors r world.files other.files path path') {entry : Entry}
    (hreadable : world.files.readable path = .ok entry) :
    Matches r known path path' (job.commit path reader) ((job.relocate path').commit path' reader) world other := by
  rw [commit, commit, scan_relocate]
  have hsame : ∀ error, Command.outcome (commands (job.scan reader)) = .error error →
      Retold path path' error error := by
    intro error herror
    rw [outcome_commands] at herror
    cases hscan : (job.scan reader).result with
    | ok counts =>
        rw [hscan] at herror
        cases herror
    | error wrong =>
        rw [hscan] at herror
        cases herror
        exact retold_of_scan hscan path path'
  obtain ⟨later, later', result, result', hrun, hrun', hresults, hfiles, houtput, houtput'⟩ :=
    replaceFile_corresponds hrenamed.files hmirrors hreadable (interfere_notMem_commands _)
      (fillDisk_notMem_commands _) hsame
  have hreplaced : Matches r known path path' (replaceFile path (commands (job.scan reader)))
      (replaceFile path' (commands (job.scan reader))) world other := by
    refine ⟨later, later', result, result', hrun, hrun', hresults, hfiles, ?_⟩
    rw [houtput, houtput']
    exact hrenamed.output
  refine hreplaced.bind fun _ _ _ _ _ _ hlater => ?_
  refine (job.matches_scan reader hlater).bind fun _ _ _ _ _ _ hscanned => ?_
  exact matches_liftExcept (.ok _ _) hscanned

/-- A job on a file, and the same job on the file under its other name. -/
theorem matches_apply (hsource : job.source = .file path) (hrenamed : World.Renamed r known world other)
    (htarget : Meets r world.files other.files path path' .target)
    (hmirrors : job.dryRun = false → Mirrors r world.files other.files path path') :
    Matches r known path path' job.apply (job.relocate path').apply world other := by
  have hsource' : (job.relocate path').source = .file path' := rfl
  have hread' := htarget.read_eq
  cases hread : world.files.read path with
  | error fault =>
      rw [hread] at hread'
      exact ⟨world, other, _, _, run_apply_of_unreadable hsource hread, run_apply_of_unreadable hsource' hread',
        corresponds_mapError (by simp) (.error fault) path path', hrenamed⟩
  | ok found =>
      obtain ⟨bytes, fault⟩ := found
      rw [hread] at hread'
      rw [apply, apply, hsource, hsource', Matches]
      dsimp only
      rw [run_bind_of_ok (run_open_of_read hread), run_bind_of_ok (run_open_of_read hread')]
      have hsame : (job.relocate path').dryRun = job.dryRun := rfl
      rw [hsame]
      cases hdry : job.dryRun with
      | true => exact job.matches_preview ⟨bytes, fault⟩ hrenamed
      | false =>
          obtain ⟨entry, hreadable⟩ : ∃ entry, world.files.readable path = .ok entry := by
            cases hreadable : world.files.readable path with
            | ok entry => exact ⟨entry, rfl⟩
            | error wrong =>
                rw [FileSystem.read, hreadable] at hread
                cases hread
          exact job.matches_commit ⟨bytes, fault⟩ hrenamed (hmirrors hdry) hreadable

end Job

namespace Registry

variable {registry : Registry} {path path' : Path}

theorem retold_of_byName {name : String} {error : Error} (h : registry.byName name = .error error) (path path' : Path) :
    Retold path path' error error := by
  dsimp only [byName] at h
  split at h
  · cases h
  · cases h
    exact .same (by rintro file inner ⟨⟩) (by rintro ⟨⟩)

/-- An extension that no language has is told without the path, that there is none is told with it. -/
theorem byPath_corresponds (registry : Registry) (hextension : path'.extension? = path.extension?) :
    (∃ marker, registry.byPath path = .ok marker ∧ registry.byPath path' = .ok marker) ∨
      ∃ error error', registry.byPath path = .error error ∧ registry.byPath path' = .error error' ∧
        Retold path path' error error' := by
  unfold byPath
  rw [hextension]
  cases hknown : path.extension?.bind Utf8.decode? with
  | none => exact Or.inr ⟨_, _, rfl, rfl, .noExtension hknown (hextension ▸ hknown)⟩
  | some extension =>
      dsimp only
      cases registry.owner? (Text.lowercase (String.ofList extension)) with
      | some language => exact Or.inl ⟨_, rfl, rfl⟩
      | none =>
          refine Or.inr ⟨_, _, rfl, rfl, .same (by rintro file inner ⟨⟩) fun hrepeats => ?_⟩
          generalize "." ++ String.ofList extension = word at hrepeats
          cases hrepeats with
          | noExtension nameless =>
              rw [hknown] at nameless
              cases nameless

end Registry

namespace BatchOptions

open Attempt

variable {options : BatchOptions} {registry : Registry} {r : Renaming} {known : Prop} {path path' : Path}
  {world other : World} {headed : Bool}

theorem markerFor_corresponds (options : BatchOptions) (registry : Registry)
    (hextension : path'.extension? = path.extension?) :
    (∃ marker, options.markerFor registry (.file path) = .ok marker ∧
        options.markerFor registry (.file path') = .ok marker) ∨
      ∃ error error', options.markerFor registry (.file path) = .error error ∧
        options.markerFor registry (.file path') = .error error' ∧ Retold path path' error error' := by
  unfold markerFor Registry.resolve
  cases options.marker with
  | some marker => exact Or.inl ⟨marker, rfl, rfl⟩
  | none =>
      dsimp only [Source.path?]
      cases options.language.filter (fun name => !Text.isAllBlank name.toList) with
      | none => exact registry.byPath_corresponds hextension
      | some name =>
          dsimp only
          cases hmarker : registry.byName name with
          | ok marker => exact Or.inl ⟨marker, rfl, rfl⟩
          | error error => exact Or.inr ⟨error, error, rfl, rfl, Registry.retold_of_byName hmarker path path'⟩

theorem job_corresponds (options : BatchOptions) (registry : Registry) (own : Option Selection)
    (hextension : path'.extension? = path.extension?) :
    (∃ job, options.job registry (.file path) own = .ok job ∧
        options.job registry (.file path') own = .ok (job.relocate path')) ∨
      ∃ error error', options.job registry (.file path) own = .error error ∧
        options.job registry (.file path') own = .error error' ∧ Retold path path' error error' := by
  rw [job_eq, job_eq]
  cases own.or options.selection with
  | none => exact Or.inr ⟨_, _, rfl, rfl, .missingSelection⟩
  | some selection =>
      dsimp only
      rcases options.markerFor_corresponds registry hextension with
        ⟨marker, hmarker, hmarker'⟩ | ⟨error, error', hmarker, hmarker', h⟩
      · rw [hmarker, hmarker']
        exact Or.inl ⟨_, rfl, rfl⟩
      · rw [hmarker, hmarker']
        exact Or.inr ⟨error, error', rfl, rfl, h⟩

/-- One target under its old and under its other name. -/
theorem matches_applyOne (options : BatchOptions) (registry : Registry) (own : Option Selection)
    (hextension : path'.extension? = path.extension?) (hrenamed : World.Renamed r known world other)
    (htarget : Meets r world.files other.files path path' .target)
    (hmirrors : options.dryRun = false → Mirrors r world.files other.files path path')
    (hheading : headed → known → (heading path').length = (heading path).length) :
    Matches r known path path' (options.applyOne registry headed ⟨path, own⟩)
      (options.applyOne registry headed ⟨path', own⟩) world other := by
  rw [applyOne, applyOne]
  rcases options.job_corresponds registry own hextension with
    ⟨job, hjob, hjob'⟩ | ⟨error, error', hjob, hjob', hretold⟩
  · obtain ⟨hsource, hdry⟩ := source_of_job hjob
    dsimp only
    rw [hjob, hjob', Matches, run_bind_of_ok (run_liftExcept _ _), run_bind_of_ok (run_liftExcept _ _)]
    cases headed with
    | false =>
        exact Job.matches_apply hsource hrenamed htarget fun hwrite => hmirrors (hdry ▸ hwrite)
    | true =>
        refine (matches_print (by simp) (hheading rfl) hrenamed).bind fun _ _ later later' hprint hprint' hprinted => ?_
        have hkeeps (path : Path) : (attempt .heading (Script.call (.print (heading path)))).KeepsFiles :=
          keepsFiles_attempt fun _ => rfl
        have hfiles := (hkeeps path).files_eq hprint
        have hfiles' := (hkeeps path').files_eq hprint'
        rw [← hfiles] at htarget hmirrors
        rw [← hfiles'] at htarget hmirrors
        exact Job.matches_apply hsource hprinted htarget fun hwrite => hmirrors (hdry ▸ hwrite)
  · dsimp only
    rw [hjob, hjob']
    exact (matches_liftExcept (.error hretold) hrenamed).bind fun _ _ _ _ hrun => by cases hrun

end BatchOptions

end LineComment
