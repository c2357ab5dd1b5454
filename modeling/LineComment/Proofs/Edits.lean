import LineComment.CommandLine.Run
import LineComment.Proofs.Batch.Edit
import LineComment.Proofs.Files.Persistence
import LineComment.Proofs.Preview

/-! What the parts of the program can change. A script edits some paths if in the end everything has lasted and nothing
is changed but what these paths name. The rules for putting scripts together carry this from a replacement up to the
whole program, which besides replacing files only asks, reads and prints. -/

namespace LineComment

namespace Script

variable {ε δ α β : Type} {paths more : List Path}

/-- A script that from a world changes nothing but what some paths name, and leaves a file there. -/
def EditsFrom (world : World) (paths : List Path) (script : Script α) : Prop :=
  world.files.Edited paths (script.run world).1.files

/-- A script that does so from every world. -/
def Edits (paths : List Path) (script : Script α) : Prop := ∀ world : World, script.EditsFrom world paths

theorem edits_pure (value : α) : (pure value : Script α).Edits paths := fun world => .refl world.files

theorem edits_call {operation : Operation} (hkeeps : ∀ world : World, (operation.run world).1.files = world.files) :
    (call operation).Edits paths := by
  intro world
  rw [EditsFrom, run_call, hkeeps]
  exact .refl world.files

theorem Edits.mono {script : Script α} (h : script.Edits paths) (hmore : paths ⊆ more) : script.Edits more :=
  fun world => (h world).mono hmore

theorem Edits.bind {script : Script α} {f : α → Script β} (hscript : script.Edits paths)
    (hf : ∀ value, (f value).Edits paths) : (script >>= f).Edits paths := by
  intro world
  rw [EditsFrom, run_bind]
  exact (hscript world).trans (hf _ _)

theorem edits_liftExcept (result : Except ε α) : (liftM result : ExceptT ε Script α).run.Edits paths :=
  edits_pure result

theorem edits_lift {script : Script α} (h : script.Edits paths) :
    (liftM script : ExceptT ε Script α).run.Edits paths := by
  rw [ExceptT.run_liftM, map_eq_pure_bind]
  exact h.bind fun _ => edits_pure _

theorem edits_adapt {first : ExceptT ε Script α} (h : first.run.Edits paths) (f : ε → δ) :
    (first.adapt f).run.Edits paths := by
  intro world
  rw [EditsFrom, Attempt.run_adapt]
  exact h world

/-- What follows is asked for only with the values to which this world leads. -/
theorem editsFrom_bind {first : ExceptT ε Script α} {f : α → ExceptT ε Script β} {world : World}
    (hfirst : first.run.Edits paths)
    (hf : ∀ middle value, first.run.run world = (middle, .ok value) → (f value).run.Edits paths) :
    (first >>= f).run.EditsFrom world paths := by
  have hedited := hfirst world
  rcases hrun : first.run.run world with ⟨middle, error | value⟩
  · rw [EditsFrom, hrun] at hedited
    rwa [EditsFrom, Attempt.run_bind_of_error hrun]
  · rw [EditsFrom, hrun] at hedited
    rw [EditsFrom, Attempt.run_bind_of_ok hrun]
    exact hedited.trans (hf middle value hrun middle)

theorem edits_bind {first : ExceptT ε Script α} {f : α → ExceptT ε Script β} (hfirst : first.run.Edits paths)
    (hf : ∀ value, (f value).run.Edits paths) : (first >>= f).run.Edits paths := fun _ =>
  editsFrom_bind hfirst fun _ value _ => hf value

theorem edits_liftExcept_bind {result : Except ε α} {f : α → ExceptT ε Script β}
    (hf : ∀ value, result = .ok value → (f value).run.Edits paths) :
    ((liftM result : ExceptT ε Script α) >>= f).run.Edits paths := by
  cases result with
  | error error => exact edits_pure _
  | ok value => exact hf value rfl

end Script

theorem Attempt.KeepsFiles.edits {α : Type} {first : Attempt α} (h : first.KeepsFiles) (paths : List Path) :
    first.run.Edits paths := by
  intro world
  rw [Script.EditsFrom, h world]
  exact .refl world.files

open Script

variable {paths : List Path}

namespace Replacement

open FileSystem

variable {fs later : FileSystem} {path : Path}

/-- Only the path's own name has got another entry: the file has other bytes, or a link has given way to a file. -/
theorem Site.Shows.edited {site : Site fs path} {kept : Nat} {data : Bytes}
    (h : site.Shows later none none (some (.file kept data))) (hkept : ModeLasts site.mode kept) :
    fs.Edited [path] later := by
  refine ⟨h.directory, fun location => ?_, fun location hchanged => ?_⟩
  · rw [h.entry?_eq]
    split_ifs with hplace
    · subst hplace
      rcases site.original_cases with ⟨hfile, _⟩ | ⟨target, _, hlink, _⟩
      · rw [← original, hfile]
        exact .file site.data data hkept
      · rw [← original, hlink]
        exact .replaced target kept data
    · exact .same _
  · rw [h.entry?_eq] at hchanged
    have hplace : location = site.place := by
      by_contra hother
      exact hchanged (if_neg hother)
    exact ⟨path, List.mem_singleton_self path, site.directory, site.name, site.names, hplace⟩

theorem Ending.edited {commands : List Command} {world after : World} {past : List Operation}
    {result : Except Error Unit} (h : Ending path commands world past after result) :
    world.files.Edited [path] after.files := by
  cases h with
  | refused _ huntouched _ =>
      rw [huntouched.same]
      exact .refl world.files
  | restored site hrestored _ => exact hrestored.shows.edited (modeLasts_modeAfter _ _)
  | finished site new hfinished _ _ => exact hfinished.shows.edited (.inl rfl)

theorem edits_replaceFile (path : Path) {commands : List Command} (hown : ∀ change, .interfere change ∉ commands) :
    (replaceFile path commands).run.Edits [path] := by
  intro world
  obtain ⟨past, hending⟩ := (replaceFile_upholds world path hown).goal_run
  exact hending.edited

end Replacement

namespace Job

/-- The path of the file that a job is to change. -/
def writes (job : Job) : List Path := if job.dryRun then [] else job.source.path?.toList

variable {job : Job}

theorem edits_commit (path : Path) (reader : Reader) : (job.commit path reader).run.Edits [path] :=
  edits_bind (Replacement.edits_replaceFile path (interfere_notMem_commands _)) fun _ =>
    edits_bind (edits_liftExcept _) fun _ => edits_pure _

/-- A job changes nothing but the file it is to change. -/
theorem edits_apply (job : Job) : job.apply.run.Edits job.writes := by
  cases hdry : job.dryRun with
  | true => exact (keepsFiles_apply hdry).edits _
  | false =>
      rw [apply]
      cases hsource : job.source with
      | standardInput =>
          exact edits_bind (edits_lift (edits_call fun _ => rfl)) fun reader => (keepsFiles_stream reader).edits _
      | file path =>
          refine edits_bind ((keepsFiles_attempt fun _ => rfl).edits _) fun reader => ?_
          rw [hdry, if_neg Bool.false_ne_true, writes, hdry, if_neg Bool.false_ne_true, hsource]
          exact edits_commit path reader

end Job

namespace BatchOptions

/-- The paths of the files that a batch is to change. -/
def writes (options : BatchOptions) (targets : List Target) : List Path :=
  if options.dryRun then [] else targets.map Target.path

variable {options : BatchOptions} {registry : Registry} {headed : Bool}

theorem writes_cons_subset (target : Target) (rest : List Target) :
    options.writes rest ⊆ options.writes (target :: rest) := by
  rw [writes, writes]
  split_ifs
  · exact List.Subset.refl _
  · exact List.subset_cons_self _ _

theorem writes_of_job {own : Option Selection} {job : Job} {target : Target} {rest : List Target}
    (h : options.job registry (.file target.path) own = .ok job) : job.writes ⊆ options.writes (target :: rest) := by
  obtain ⟨hsource, hdry⟩ := source_of_job h
  rw [Job.writes, writes, hsource, hdry]
  split_ifs
  · exact List.Subset.refl _
  · exact List.cons_subset.mpr ⟨List.mem_cons_self, List.nil_subset _⟩

theorem edits_applyOne (target : Target) (rest : List Target) :
    (options.applyOne registry headed target).run.Edits (options.writes (target :: rest)) := by
  refine edits_liftExcept_bind fun job hjob => ?_
  have happly : job.apply.run.Edits (options.writes (target :: rest)) := job.edits_apply.mono (writes_of_job hjob)
  cases headed with
  | false => exact happly
  | true => exact edits_bind ((keepsFiles_attempt fun _ => rfl).edits _) fun _ => happly

theorem edits_applyEach (targets : List Target) :
    (options.applyEach registry headed targets).run.Edits (options.writes targets) := by
  induction targets with
  | nil => exact edits_pure _
  | cons target rest ih =>
      rw [applyEach]
      refine edits_bind (edits_adapt (edits_applyOne target rest) _) fun report => ?_
      exact edits_bind (ih.mono (writes_cons_subset target rest)) fun _ => edits_pure _

/-- A batch changes nothing but the files it is to change. -/
theorem edits_applyAll (options : BatchOptions) (registry : Registry) (targets : List Target) :
    (options.applyAll registry targets).run.Edits (options.writes targets) := edits_applyEach targets

end BatchOptions

namespace Settings

theorem edits_workspace (start : Path) (directories : List Path) : (workspace start directories).Edits paths := by
  induction directories with
  | nil => exact edits_pure _
  | cons directory above ih =>
      rw [workspace]
      refine (edits_call fun _ => rfl).bind fun found => ?_
      split_ifs
      · exact edits_pure _
      · exact ih

theorem edits_readLayer (path : Path) : (readLayer path).run.Edits paths := by
  rw [readLayer]
  refine edits_bind (edits_lift (edits_call fun _ => rfl)) fun found => ?_
  split_ifs
  · refine edits_bind (edits_lift (edits_call fun _ => rfl)) fun answer => ?_
    split
    · exact edits_pure _
    · exact edits_pure _
    · split
      · exact edits_pure _
      · split <;> exact edits_pure _
  · exact edits_pure _

theorem edits_overlayFiles (settings : Settings) (files : List Path) :
    (settings.overlayFiles files).run.Edits paths := by
  induction files generalizing settings with
  | nil => exact edits_pure _
  | cons path rest ih =>
      rw [overlayFiles]
      refine edits_bind (edits_readLayer path) fun layer => ?_
      cases layer with
      | none => exact ih settings
      | some layer => exact ih (settings.overlay layer)

/-- Settings are loaded without any change. -/
theorem edits_load (environment : Environment) : (load environment).run.Edits paths := by
  refine edits_bind (edits_lift (edits_call fun _ => rfl)) fun start => ?_
  refine edits_bind (edits_lift (edits_workspace start start.ancestors)) fun workspace => ?_
  exact edits_bind (edits_overlayFiles _ _) fun settings => edits_liftExcept _

end Settings

namespace CommandLine

/-- The paths of the files that a command line is to change under some settings. -/
def Arguments.writes (arguments : Arguments) (settings : Settings) : List Path :=
  if arguments.isDryRun settings.dryRun then []
  else match arguments.file.map Target.parseList with
    | some (.ok targets) => targets.map Target.path
    | _ => []

/-- The paths of the files that an invocation is to change. -/
def Invocation.writes (invocation : Invocation) (environment : Environment) (world : World) : List Path :=
  match invocation.command, ((Settings.load environment).run.run world).2 with
  | none, .ok settings => invocation.arguments.writes settings
  | _, _ => []

theorem edits_orFail {α : Type} {failure : Fault → Failure} {script : Script (Except Fault α)}
    (h : script.Edits paths) : (orFail failure script).run.Edits paths := by
  refine edits_bind (edits_lift h) fun result => ?_
  cases result <;> exact edits_pure _

theorem edits_listLanguages (languages : List Language) : (listLanguages languages).run.Edits paths := by
  induction languages with
  | nil => exact edits_pure _
  | cons language rest ih => exact edits_bind (edits_orFail (edits_call fun _ => rfl)) fun _ => ih

theorem edits_prepare (environment : Environment) : (prepare environment).run.Edits paths := by
  refine edits_bind (edits_adapt (Settings.edits_load environment) _) fun settings => ?_
  split <;> exact edits_pure _

theorem of_prepare {environment : Environment} {world later : World} {settings : Settings} {registry : Registry}
    (h : (prepare environment).run.run world = (later, .ok (settings, registry))) :
    (Settings.load environment).run.run world = (later, .ok settings) ∧
      Registry.builtin.extend settings.languages = .ok registry := by
  obtain ⟨middle, loaded, hload, hextend⟩ := Attempt.exists_of_run_bind h
  rw [Attempt.run_adapt] at hload
  cases hextended : Registry.builtin.extend loaded.languages with
  | error error =>
      rw [hextended] at hextend
      cases hextend
  | ok extended =>
      rw [hextended] at hextend
      cases hextend
      refine ⟨?_, hextended⟩
      rcases hresult : (Settings.load environment).run.run world with ⟨middle, error | value⟩
      · rw [hresult] at hload
        cases hload
      · rw [hresult] at hload
        cases hload
        rfl

theorem Arguments.dryRun_of_options {arguments : Arguments} {settings : Settings} {options : BatchOptions}
    (h : arguments.options settings = .ok options) : options.dryRun = arguments.isDryRun settings.dryRun := by
  unfold Arguments.options at h
  dsimp only at h
  generalize Selection.ofParts _ _ = selection at h
  generalize arguments.marker.mapM Marker.parse = marker at h
  cases selection with
  | error error => cases h
  | ok selection =>
      cases marker with
      | error error => cases h
      | ok marker =>
          cases h
          rfl

theorem Arguments.edits_execute (arguments : Arguments) (settings : Settings) (registry : Registry) :
    (arguments.execute settings registry).run.Edits (arguments.writes settings) := by
  refine edits_liftExcept_bind fun options hoptions => ?_
  have hdry := Arguments.dryRun_of_options hoptions
  rw [Arguments.writes, ← hdry]
  cases hfile : arguments.file with
  | none =>
      refine edits_bind ?_ fun _ => edits_pure _
      refine edits_liftExcept_bind fun job hjob => ?_
      have hnone : job.writes = [] := by
        rw [Job.writes, (BatchOptions.source_of_job hjob).1]
        exact ite_self []
      refine job.edits_apply.mono ?_
      rw [hnone]
      exact List.nil_subset _
  | some list =>
      refine edits_liftExcept_bind fun targets htargets => ?_
      rw [Option.map_some, htargets]
      exact options.edits_applyAll registry targets

/-- The program changes nothing but the files it is to change. -/
theorem Invocation.editsFrom_run (invocation : Invocation) (scripts : Shell → Bytes) (environment : Environment)
    {world : World} :
    (invocation.run scripts environment).run.EditsFrom world (invocation.writes environment world) := by
  rw [Invocation.run, Invocation.writes]
  cases invocation.command with
  | some subcommand =>
      cases subcommand with
      | languages =>
          refine edits_bind (edits_prepare environment) (fun prepared => ?_) world
          exact edits_bind (edits_listLanguages prepared.2.languages) fun _ => edits_pure _
      | completions shell =>
          exact edits_bind (edits_orFail (edits_call fun _ => rfl)) (fun _ => edits_pure _) world
  | none =>
      -- Whether this is a dry run is known only from the settings that this world leads to.
      refine editsFrom_bind (edits_prepare environment) fun middle prepared hprepared => ?_
      obtain ⟨settings, registry⟩ := prepared
      rw [(of_prepare hprepared).1]
      refine edits_bind (edits_adapt (invocation.arguments.edits_execute settings registry) _) fun reports => ?_
      exact edits_bind (edits_orFail (edits_call fun _ => rfl)) fun _ => edits_pure _

end CommandLine

end LineComment
