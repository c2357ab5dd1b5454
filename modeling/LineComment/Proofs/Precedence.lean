import LineComment.Proofs.Edits
import LineComment.Proofs.Language.Configured

/-! Which setting wins. The settings are loaded by laying one layer over another, and the command line is laid over
them last. What comes out is read off the layers from above: for each setting the highest layer that speaks of it
decides, and the jobs that are handed over hold what has been decided. -/

namespace LineComment

open CommandLine

/-- What a configuration file says, if there is such a file and it can be read. -/
def World.layer? (world : World) (path : Path) : Option Layer :=
  if world.files.isFile path then
    match world.files.read path with
    | .ok (bytes, none) => (Utf8.decode? bytes).bind Layer.parse
    | _ => none
  else none

/-- The working directory, or the nearest directory above it that holds a repository. -/
def World.workspace (world : World) : Path :=
  let start := Operation.pathOf world.files.directory
  (start.ancestors.find? fun directory => world.files.isPresent (directory.join (.ofString ".git"))).getD start

/-- The configuration file of the workspace. -/
def World.workspaceFile (world : World) : Path := world.workspace.join (.ofString ".tgcom/config.toml")

/-- The configuration files, the user's first. -/
def World.configurations (world : World) (environment : Environment) : List Path :=
  (Settings.userFile? environment).toList ++ [world.workspaceFile]

/-- The entry of a language in a layer, the last one should there be two. -/
def Layer.described? (layer : Layer) (name : String) : Option LanguageEntry := layer.languages.reverse.lookup name

/-- The action that the environment asks for. -/
def Environment.action? (environment : Environment) : Option Action :=
  (Settings.textOf environment.action).bind fun word => (Action.parse word).toOption

/-- The language that the environment asks for. A blank one does not count. -/
def Environment.language? (environment : Environment) : Option String :=
  (Settings.textOf environment.language).filter fun name => !Text.isAllBlank name.toList

/-- What settings are made of: the environment, and what the workspace's and the user's configuration files say. -/
structure Layers where
  environment : Environment
  workspace : Layer
  user : Layer

namespace Layers

/-- The layers there are in a world. A file that is not there says nothing. -/
def find (environment : Environment) (world : World) : Layers :=
  { environment
    workspace := (world.layer? world.workspaceFile).getD {}
    user := ((Settings.userFile? environment).bind world.layer?).getD {} }

variable (layers : Layers)

/-- The built-in settings under the user's layer and that under the workspace's. -/
def base : Settings := (({} : Settings).overlay layers.user).overlay layers.workspace

/-- What to do with the lines. -/
def action (given : Option Action) : Action :=
  (((given.or layers.environment.action?).or layers.workspace.action).or layers.user.action).getD .toggle

/-- Whether to show the changes instead of making them. -/
def dryRun (arguments : Arguments) : Bool :=
  if arguments.noDryRun then false
  else if arguments.dryRun then true
  else (layers.workspace.dryRun.or layers.user.dryRun).getD false

/-- The language of the standard input, if the command line gives none. -/
def inputLanguage : Option String :=
  (layers.environment.language?.or layers.workspace.language).or layers.user.language

/-- The entry of a language. That of the workspace counts as a whole. -/
def described? (name : String) : Option LanguageEntry :=
  (layers.workspace.described? name).or (layers.user.described? name)

/-- The language by whose name the comment syntax of a source is looked up, if there is one. -/
def language? (arguments : Arguments) (source : Source) : Option String :=
  let named := match source, arguments.language with
    | .standardInput, none => layers.inputLanguage
    | _, given => given
  named.filter fun name => !Text.isAllBlank name.toList

end Layers

/-- The settings that come of the layers, before the command line has spoken. -/
structure Layers.Yield (layers : Layers) (settings : Settings) : Prop where
  action : settings.action = layers.action none
  language : settings.language = layers.inputLanguage
  dryRun : settings.dryRun = layers.dryRun {}
  ordered : settings.languages.Pairwise (·.1 < ·.1)
  lookup : ∀ name, settings.languages.lookup name = layers.described? name

/-- What the command line selects, whatever the input. -/
def CommandLine.Arguments.Selects (arguments : Arguments) (selection : Option Selection) : Prop :=
  match arguments.line, arguments.startLabel, arguments.endLabel with
  | some text, _, _ => ∃ range, LineRange.parse text = .ok range ∧ selection = some (.lines range)
  | none, some start, some stop =>
    ∃ labels : LabelSection, labels.start = start ∧ labels.stop = stop ∧ selection = some (.labels labels)
  | none, _, _ => selection = none

/-- What has been decided for a source that may have lines of its own. -/
structure Layers.Decide (layers : Layers) (arguments : Arguments) (registry : Registry) (source : Source)
    (own : Option Selection) (job : Job) : Prop where
  input : job.source = source
  action : job.action = layers.action arguments.action
  dryRun : job.dryRun = layers.dryRun arguments
  selection : own = some job.selection ∨ own = none ∧ arguments.Selects (some job.selection)
  marker : match arguments.marker, layers.language? arguments source with
    | some text, _ => Marker.parse text = .ok job.marker
    | none, some name => registry.byName name = .ok job.marker
    | none, none => ∃ path, source = .file path ∧ registry.byPath path = .ok job.marker

/-- An error in the work on a file is attributed to it. -/
def Source.attribute : Source → Error → Error
  | file path => Error.inFile path
  | standardInput => id

/-- Hands over one job after the other, up to the first failure. -/
def handOver (headed : Bool) (jobOf : Source → Option Selection → Except Error Job) :
    List (Source × Option Selection) → Attempt (List Report)
  | [] => return []
  | (source, own) :: rest => do
    let report ← ExceptT.adapt source.attribute do
      let job ← jobOf source own
      if headed then attempt .heading (Script.call (.print (BatchOptions.heading source.label)))
      job.apply
    return report :: (← handOver headed jobOf rest)

namespace CommandLine.Arguments

/-- The inputs of a command line, each with lines of its own if it has such. -/
def inputs (arguments : Arguments) : Except Error (List (Source × Option Selection)) :=
  match arguments.file with
  | some list => (Target.parseList list).map fun targets =>
      targets.map fun target => (.file target.path, target.selection)
  | none => .ok [(.standardInput, none)]

/-- Hands over a job for each input. -/
def handOverAll (arguments : Arguments) (dryRun : Bool) (jobOf : Source → Option Selection → Except Error Job) :
    Attempt (List Report) := do
  let inputs ← arguments.inputs
  handOver (dryRun && 1 < inputs.length) jobOf inputs

end CommandLine.Arguments

theorem Attempt.run_lift {ε α : Type} (script : Script α) (world : World) :
    (liftM script : ExceptT ε Script α).run.run world = ((script.run world).1, .ok (script.run world).2) := by
  rw [ExceptT.run_liftM, Script.run_map]

namespace Settings

variable {settings base : Settings} {environment : Environment} {world later : World}

theorem lookup_place (name : String) (entry : LanguageEntry) (entries : List (String × LanguageEntry)) (key : String) :
    (place name entry entries).lookup key = if key = name then some entry else entries.lookup key := by
  induction entries with
  | nil => rw [place, lookup_cons_ite]
  | cons other rest ih =>
      rw [place]
      split_ifs with hsame hkey hless hkey hkey
      · rw [lookup_cons_ite, if_pos hkey]
      · rw [lookup_cons_ite, if_neg hkey, lookup_cons_ite, if_neg (hsame ▸ hkey)]
      · rw [lookup_cons_ite, if_pos hkey]
      · rw [lookup_cons_ite, if_neg hkey]
      · rw [lookup_cons_ite, ih, if_pos hkey, if_neg (hkey ▸ hsame)]
      · rw [lookup_cons_ite, lookup_cons_ite, ih, if_neg hkey]

/-- A layer's entry of a language stands in place of the one below it. -/
theorem lookup_overlay (settings : Settings) (layer : Layer) (name : String) :
    (settings.overlay layer).languages.lookup name = (layer.described? name).or (settings.languages.lookup name) := by
  rw [overlay, Layer.described?]
  generalize layer.languages = items
  generalize settings.languages = entries
  induction items generalizing entries with
  | nil => rfl
  | cons item rest ih =>
      rw [List.foldl_cons, ih, lookup_place, List.reverse_cons, List.lookup_append, Option.or_assoc, lookup_cons_ite]
      split_ifs <;> rfl

theorem overlay_empty (settings : Settings) : settings.overlay {} = settings := by
  simp [overlay]

theorem run_workspace (start : Path) (directories : List Path) (world : World) :
    (workspace start directories).run world =
      (world,
        (directories.find? fun directory => world.files.isPresent (directory.join (.ofString ".git"))).getD start) := by
  induction directories with
  | nil => rfl
  | cons directory above ih =>
      rw [workspace, Script.run_bind, Script.run_call, Operation.run, List.find?_cons]
      dsimp only
      cases world.files.isPresent (directory.join (.ofString ".git")) with
      | true => rfl
      | false => exact ih

/-- Reading a layer without an error finds what the file says. -/
theorem layer?_of_readLayer {path : Path} {layer : Option Layer}
    (h : (readLayer path).run.run world = (later, .ok layer)) : later = world ∧ layer = world.layer? path := by
  have hasked : (liftM (Script.call (.isFile path)) : ExceptT SettingsError Script Bool).run.run world =
      (world, .ok (world.files.isFile path)) := rfl
  have hread : (liftM (Script.call (.read path)) : ExceptT SettingsError Script (Except Fault Reader)).run.run world =
      (world, .ok ((world.files.read path).map fun contents => ⟨contents.1, contents.2⟩)) := rfl
  rw [readLayer, Attempt.run_bind_of_ok hasked] at h
  rw [World.layer?]
  split_ifs at h with hfile
  · rw [Attempt.run_bind_of_ok hread] at h
    rw [if_pos hfile]
    clear hread
    generalize world.files.read path = answer at h ⊢
    rcases answer with fault | ⟨bytes, _ | fault⟩
    · cases h
    · dsimp only [Except.map] at h ⊢
      cases hdecode : Utf8.decode? bytes with
      | none =>
          rw [hdecode] at h
          cases h
      | some text =>
          rw [hdecode] at h
          dsimp only at h
          rw [Option.bind_some]
          cases hparse : Layer.parse text with
          | none =>
              rw [hparse] at h
              cases h
          | some found =>
              rw [hparse] at h
              cases h
              exact ⟨rfl, rfl⟩
    · cases h
  · rw [if_neg hfile]
    cases h
    exact ⟨rfl, rfl⟩

/-- Laying files over settings without an error lays what they say over them. -/
theorem eq_foldl_of_overlayFiles {files : List Path}
    (h : (base.overlayFiles files).run.run world = (later, .ok settings)) :
    later = world ∧
      settings = files.foldl (fun settings path => settings.overlay ((world.layer? path).getD {})) base := by
  induction files generalizing base with
  | nil =>
      cases h
      exact ⟨rfl, rfl⟩
  | cons path rest ih =>
      rw [overlayFiles] at h
      obtain ⟨middle, layer, hlayer, hrest⟩ := Attempt.exists_of_run_bind h
      obtain ⟨rfl, rfl⟩ := layer?_of_readLayer hlayer
      rw [List.foldl_cons]
      cases hfound : middle.layer? path with
      | none =>
          rw [hfound] at hrest
          rw [Option.getD_none, overlay_empty]
          exact ih hrest
      | some layer =>
          rw [hfound] at hrest
          exact ih hrest

/-- Laying the environment over settings without an error lays over them what it asks for, and the word for an action
is one if it is set. -/
theorem eq_of_overlayEnvironment (h : base.overlayEnvironment environment = .ok settings) :
    settings = { base with
      action := environment.action?.getD base.action
      language := environment.language?.or base.language } ∧
    ∀ word, textOf environment.action = some word → ∃ action, Action.parse word = .ok action ∧
      environment.action? = some action := by
  rw [overlayEnvironment] at h
  rw [Environment.action?, Environment.language?]
  cases hword : textOf environment.action with
  | none =>
      rw [hword] at h
      cases h
      exact ⟨rfl, fun word hsome => absurd hsome (Option.some_ne_none word).symm⟩
  | some word =>
      rw [hword] at h
      cases hparse : Action.parse word with
      | error error =>
          simp only [hparse] at h
          cases h
      | ok action =>
          simp only [hparse] at h
          cases h
          refine ⟨by rw [Option.bind_some, hparse]; rfl, fun other hother => ⟨action, ?_, ?_⟩⟩
          · rw [← Option.some.inj hother, hparse]
          · rw [Option.bind_some, hparse]
            rfl

/-- Loading finds the files first and then lays them over one another. -/
theorem run_load (environment : Environment) (world : World) :
    (load environment).run.run world =
      (do
        let merged ← ({} : Settings).overlayFiles (world.configurations environment)
        merged.overlayEnvironment environment : ExceptT SettingsError Script Settings).run.run world := by
  have hstart : (liftM (Script.call .workingDirectory) : ExceptT SettingsError Script Path).run.run world =
      (world, .ok (Operation.pathOf world.files.directory)) := rfl
  have hfound : (liftM (workspace (Operation.pathOf world.files.directory)
      (Operation.pathOf world.files.directory).ancestors) : ExceptT SettingsError Script Path).run.run world =
      (world, .ok world.workspace) := by
    rw [Attempt.run_lift, run_workspace]
    rfl
  rw [load, Attempt.run_bind_of_ok hstart, Attempt.run_bind_of_ok hfound]
  rfl

theorem foldl_overlay_eq (environment : Environment) (world : World) :
    (world.configurations environment).foldl (fun settings path => settings.overlay ((world.layer? path).getD {})) {} =
      (Layers.find environment world).base := by
  rw [World.configurations, List.foldl_append, Layers.base, Layers.find]
  cases userFile? environment with
  | none =>
      rw [Option.bind_none, Option.getD_none, overlay_empty]
      rfl
  | some path => rfl

/-- The environment over two layers over the built-in settings. -/
theorem yield_of_overlayEnvironment {layers : Layers}
    (h : layers.base.overlayEnvironment layers.environment = .ok settings) : layers.Yield settings := by
  obtain ⟨rfl, -⟩ := eq_of_overlayEnvironment h
  refine ⟨?_, ?_, ?_, pairwise_overlay _ (pairwise_overlay _ List.Pairwise.nil), fun name => ?_⟩
  · simp only [Layers.base, overlay, Layers.action, Option.none_or, Option.getD_or]
  · simp only [Layers.base, overlay, Layers.inputLanguage, Option.or_none, Option.or_assoc]
  · simp only [Layers.base, overlay, Layers.dryRun, Bool.false_eq_true, if_false, Option.getD_or]
  · rw [Layers.base, lookup_overlay, lookup_overlay, Layers.described?, List.lookup_nil, Option.or_none]

/-- What is loaded are the layers there are, one over the other. -/
theorem yield_of_load (h : (load environment).run.run world = (later, .ok settings)) :
    later = world ∧ (Layers.find environment world).Yield settings ∧
    ∀ word, textOf environment.action = some word → ∃ action, Action.parse word = .ok action ∧
      environment.action? = some action := by
  rw [run_load] at h
  obtain ⟨middle, merged, hmerged, hoverlaid⟩ := Attempt.exists_of_run_bind h
  obtain ⟨rfl, hmerged⟩ := eq_foldl_of_overlayFiles hmerged
  rw [foldl_overlay_eq] at hmerged
  rw [Attempt.run_liftExcept, hmerged] at hoverlaid
  obtain ⟨rfl, hsettled⟩ := Prod.mk.inj hoverlaid
  exact ⟨rfl, yield_of_overlayEnvironment hsettled, (eq_of_overlayEnvironment hsettled).2⟩

end Settings

namespace CommandLine.Arguments

variable {arguments : Arguments} {settings : Settings} {options : BatchOptions}

theorem selects_iff {selection : Option Selection} :
    arguments.Selects selection ↔
      Selection.ofParts arguments.line
        (match arguments.startLabel, arguments.endLabel with
        | some start, some stop => some (start, stop)
        | _, _ => none) = .ok selection := by
  rw [Selects]
  cases arguments.line with
  | some text =>
      rw [Selection.ofParts]
      cases hrange : LineRange.parse text <;> simp [hrange, Except.map, eq_comm]
  | none =>
      cases arguments.startLabel with
      | none => simp [Selection.ofParts, eq_comm]
      | some start =>
          cases arguments.endLabel with
          | none => simp [Selection.ofParts, eq_comm]
          | some stop =>
              simp only [Selection.ofParts, LabelSection.ofLabels]
              split_ifs with hlabels
              · constructor
                · rintro ⟨labels, rfl, rfl, rfl⟩
                  rfl
                · intro hselection
                  exact ⟨⟨start, stop, hlabels.1, hlabels.2⟩, rfl, rfl, (Except.ok.inj hselection).symm⟩
              · refine iff_of_false ?_ (by simp [Except.map])
                rintro ⟨labels, rfl, rfl, -⟩
                exact hlabels ⟨labels.start_ne_empty, labels.stop_ne_empty⟩

/-- The options of a batch, each part from where it comes. -/
theorem options_eq_ok_iff : arguments.options settings = .ok options ↔
    arguments.Selects options.selection ∧ arguments.marker.mapM Marker.parse = .ok options.marker ∧
      options.language = arguments.language ∧ options.action = arguments.action.getD settings.action ∧
      options.dryRun = arguments.isDryRun settings.dryRun := by
  rw [selects_iff, Arguments.options]
  generalize Selection.ofParts arguments.line _ = selection
  generalize arguments.marker.mapM Marker.parse = marker
  obtain ⟨chosen, language, tokens, action, dryRun⟩ := options
  rcases selection with error | selection
  · simp [bind, Except.bind]
  · rcases marker with error | marker
    · simp [bind, Except.bind]
    · simp only [bind, Except.bind, pure, Except.pure, Except.ok.injEq, BatchOptions.mk.injEq]
      constructor
      · rintro ⟨rfl, rfl, rfl, rfl, rfl⟩
        exact ⟨rfl, rfl, rfl, rfl, rfl⟩
      · rintro ⟨rfl, rfl, rfl, rfl, rfl⟩
        exact ⟨rfl, rfl, rfl, rfl, rfl⟩

end CommandLine.Arguments

namespace BatchOptions

variable {options : BatchOptions} {registry : Registry}

theorem adapt_id {α : Type} (first : Attempt α) : ExceptT.adapt id first = first := by
  have hmap : (Except.mapError id : Except Error α → Except Error α) = id := by
    funext result
    cases result <;> rfl
  have hadapt : ExceptT.adapt id first = Except.mapError id <$> first.run := rfl
  rw [hadapt, hmap]
  exact id_map first.run

theorem applyEach_eq_handOver (options : BatchOptions) (registry : Registry) (headed : Bool) (targets : List Target) :
    options.applyEach registry headed targets =
      handOver headed (options.job registry) (targets.map fun target => (.file target.path, target.selection)) := by
  induction targets with
  | nil => rfl
  | cons target rest ih =>
      rw [applyEach, ih]
      rfl

/-- The options as they are for a source. A language from the settings is for the standard input alone. -/
def forSource (options : BatchOptions) (settings : Settings) (source : Source) : BatchOptions :=
  match source with
  | .file _ => options
  | .standardInput => { options with language := options.language.or settings.language }

theorem handOver_congr {headed : Bool} {jobOf other : Source → Option Selection → Except Error Job}
    {inputs : List (Source × Option Selection)} (h : ∀ item ∈ inputs, jobOf item.1 item.2 = other item.1 item.2) :
    handOver headed jobOf inputs = handOver headed other inputs := by
  induction inputs with
  | nil => rfl
  | cons item rest ih =>
      obtain ⟨hitem, hrest⟩ := List.forall_mem_cons.mp h
      obtain ⟨source, own⟩ := item
      rw [handOver, handOver, ih hrest, hitem]

end BatchOptions

namespace CommandLine.Arguments

variable {arguments : Arguments} {settings : Settings} {options : BatchOptions} {registry : Registry}

/-- Once the options are known, a job is handed over for each input. -/
theorem execute_eq_handOverAll (hoptions : arguments.options settings = .ok options) :
    arguments.execute settings registry = arguments.handOverAll options.dryRun fun source own =>
      (options.forSource settings source).job registry source own := by
  have hexecute : arguments.execute settings registry =
      match arguments.file with
      | some list => do options.applyAll registry (← Target.parseList list)
      | none => do return [← runInput options settings registry] := by
    rw [execute, hoptions]
    rfl
  rw [hexecute, handOverAll, inputs]
  cases arguments.file with
  | some list =>
      dsimp only
      cases Target.parseList list with
      | error error => rfl
      | ok targets =>
          change options.applyAll registry targets = handOver _ _ _
          rw [BatchOptions.applyAll, BatchOptions.applyEach_eq_handOver, List.length_map]
          refine BatchOptions.handOver_congr fun item hitem => ?_
          obtain ⟨target, -, rfl⟩ := List.mem_map.mp hitem
          rfl
  | none =>
      change (do return [← runInput options settings registry]) = handOver _ _ [(.standardInput, none)]
      rw [handOver, Source.attribute, BatchOptions.adapt_id]
      simp [handOver, runInput, BatchOptions.forSource]

end CommandLine.Arguments

namespace Layers

variable {layers : Layers} {arguments : Arguments} {settings : Settings} {options : BatchOptions} {registry : Registry}
  {source : Source} {own : Option Selection} {job : Job}

theorem action_eq (hyield : layers.Yield settings) (given : Option Action) :
    given.getD settings.action = layers.action given := by
  rw [hyield.action, action, action]
  cases given <;> rfl

theorem dryRun_eq (hyield : layers.Yield settings) (arguments : Arguments) :
    arguments.isDryRun settings.dryRun = layers.dryRun arguments := by
  rw [hyield.dryRun, dryRun, dryRun, Arguments.isDryRun]
  cases arguments.noDryRun <;> cases arguments.dryRun <;> rfl

theorem language?_eq (hyield : layers.Yield settings) (hlanguage : options.language = arguments.language) :
    (options.forSource settings source).language.filter (fun name => !Text.isAllBlank name.toList) =
      layers.language? arguments source := by
  unfold language?
  cases source with
  | file path => rw [BatchOptions.forSource, hlanguage]
  | standardInput =>
      rw [BatchOptions.forSource, hyield.language]
      dsimp only
      rw [hlanguage]
      cases arguments.language with
      | none => rw [Option.none_or]
      | some given => rfl

theorem markerFor_eq_ok_iff {marker : Marker} (hyield : layers.Yield settings)
    (hoptions : arguments.options settings = .ok options) :
    (options.forSource settings source).markerFor registry source = .ok marker ↔
      match arguments.marker, layers.language? arguments source with
      | some text, _ => Marker.parse text = .ok marker
      | none, some name => registry.byName name = .ok marker
      | none, none => ∃ path, source = .file path ∧ registry.byPath path = .ok marker := by
  obtain ⟨-, hmarker, hlanguage, -, -⟩ := Arguments.options_eq_ok_iff.mp hoptions
  have hkept : (options.forSource settings source).marker = options.marker := by cases source <;> rfl
  rw [BatchOptions.markerFor, hkept]
  cases hgiven : arguments.marker with
  | some text =>
      rw [hgiven, Option.mapM_some] at hmarker
      cases hparse : Marker.parse text with
      | error error =>
          rw [hparse] at hmarker
          cases hmarker
      | ok parsed =>
          rw [hparse] at hmarker
          rw [← Except.ok.inj hmarker]
          dsimp only
          rw [hparse]
  | none =>
      rw [hgiven] at hmarker
      rw [← Except.ok.inj hmarker]
      unfold Registry.resolve
      rw [language?_eq hyield hlanguage]
      cases layers.language? arguments source with
      | some name => rfl
      | none => cases source <;> simp [Source.path?]

/-- A job is made if and only if it is what the layers and the command line decide. -/
theorem job_eq_ok_iff_decide (hyield : layers.Yield settings) (hoptions : arguments.options settings = .ok options) :
    (options.forSource settings source).job registry source own = .ok job ↔
      layers.Decide arguments registry source own job := by
  obtain ⟨hselects, -, -, haction, hdryRun⟩ := Arguments.options_eq_ok_iff.mp hoptions
  have hshared : (options.forSource settings source).selection = options.selection ∧
      (options.forSource settings source).action = options.action ∧
      (options.forSource settings source).dryRun = options.dryRun := by
    cases source <;> exact ⟨rfl, rfl, rfl⟩
  rw [BatchOptions.job_eq_ok_iff, hshared.1, hshared.2.1, hshared.2.2, haction, hdryRun, action_eq hyield,
    dryRun_eq hyield]
  constructor
  · rintro ⟨selection, marker, hselection, hmarker, rfl⟩
    refine ⟨rfl, rfl, rfl, ?_, (markerFor_eq_ok_iff hyield hoptions).mp hmarker⟩
    cases own with
    | some given => exact .inl hselection
    | none =>
        rw [Option.none_or] at hselection
        exact .inr ⟨rfl, hselection ▸ hselects⟩
  · rintro ⟨rfl, hjobAction, hjobDry, hselection, hmarker⟩
    refine ⟨job.selection, job.marker, ?_, (markerFor_eq_ok_iff hyield hoptions).mpr hmarker, ?_⟩
    · rcases hselection with rfl | ⟨rfl, hselection⟩
      · rfl
      · rw [Arguments.selects_iff] at hselection hselects
        rw [Option.none_or]
        exact Except.ok.inj (hselects.symm.trans hselection)
    · rw [← hjobAction, ← hjobDry]

end Layers

theorem Action.parse_of_isAllBlank {word : String} (h : Text.isAllBlank word.toList) : parse word = .ok .toggle := by
  have hstart : Text.trimStart word.toList = [] := List.dropWhile_eq_nil_iff.mpr (List.all_eq_true.mp h)
  have htrim : Text.lowercase (String.ofList (Text.trim word.toList)) = "" := by
    rw [Text.trim, hstart]
    rfl
  rw [parse, htrim, if_pos rfl]

namespace CommandLine

variable {invocation : Invocation} {environment : Environment} {world later : World} {settings : Settings}
  {registry : Registry} {options : BatchOptions}

/-- What each job holds that the program works on is read off the layers of settings from above: the command line, the
environment, the workspace's file, the user's file, and what is built in. -/
theorem Invocation.settings_precedence (scripts : Shell → Bytes) (hcommand : invocation.command = none)
    (hprepare : (prepare environment).run.run world = (later, .ok (settings, registry)))
    (hoptions : invocation.arguments.options settings = .ok options) :
    (∃ entries : List (String × LanguageEntry), entries.Pairwise (·.1 < ·.1) ∧
      (∀ name, entries.lookup name = (Layers.find environment world).described? name) ∧
      Registry.builtin.extend entries = .ok registry) ∧
    (∀ word, Settings.textOf environment.action = some word →
      ∃ action, Action.parse word = .ok action ∧ environment.action? = some action ∧
        (Text.isAllBlank word.toList → action = .toggle)) ∧
    ∃ jobOf : Source → Option Selection → Except Error Job,
      (∀ source own job, jobOf source own = .ok job ↔
        (Layers.find environment world).Decide invocation.arguments registry source own job) ∧
      (invocation.run scripts environment).run.run world =
        (do
          let reports ← (invocation.arguments.handOverAll
            ((Layers.find environment world).dryRun invocation.arguments) jobOf).adapt Failure.run
          orFail .flushing (Script.call .flush)
          return reports : Run (List Report)).run.run world := by
  obtain ⟨hload, hextend⟩ := of_prepare hprepare
  obtain ⟨rfl, hyield, hwords⟩ := Settings.yield_of_load hload
  refine ⟨⟨settings.languages, hyield.ordered, hyield.lookup, hextend⟩, fun word hword => ?_,
    fun source own => (options.forSource settings source).job registry source own,
    fun _ _ _ => Layers.job_eq_ok_iff_decide hyield hoptions, ?_⟩
  · obtain ⟨action, hparse, haction⟩ := hwords word hword
    refine ⟨action, hparse, haction, fun hblank => ?_⟩
    exact (Except.ok.inj ((Action.parse_of_isAllBlank hblank).symm.trans hparse)).symm
  · obtain ⟨-, -, -, -, hdryRun⟩ := Arguments.options_eq_ok_iff.mp hoptions
    rw [Invocation.run, hcommand]
    dsimp only
    rw [Attempt.run_bind_of_ok hprepare, Arguments.execute_eq_handOverAll hoptions, hdryRun, Layers.dryRun_eq hyield]

/-- The action is that of the workspace's file and so is the marker, that the changes are made is from the command line,
and the lines are the target's own. A blank language in the environment does not count. -/
theorem Invocation.settings_precedence_two_files :
    let world : World := { files := { tree := { entries := [
      ([[0x68]], .directory 0o755), ([[0x68], [0x74, 0x67, 0x63, 0x6f, 0x6d]], .directory 0o755),
      ([[0x68], [0x74, 0x67, 0x63, 0x6f, 0x6d], Utf8.encode "config.toml".toList], .file 0o644 (Utf8.encode
        "defaults=[\"uncomment\",\"c\",true]\nlanguages.q=[\"#\"]".toList)),
      ([Utf8.encode ".tgcom".toList], .directory 0o755),
      ([Utf8.encode ".tgcom".toList, Utf8.encode "config.toml".toList], .file 0o644 (Utf8.encode
        "defaults.action=\"comment\"\nlanguages.q=[\"--\"]".toList)),
      ([[0x66]], .file 0o600 [0x61, 0x0a, 0x62, 0x0a])] } } }
    let environment : Environment := { configHome := some [0x2f, 0x68], language := some [0x20] }
    let arguments : Arguments :=
      { file := some "f:2", line := some "1", language := some "Q", noDryRun := true }
    ∃ jobOf : Source → Option Selection → Except Error Job,
      jobOf (.file ⟨[0x66]⟩) (some (.lines ⟨2, 2, by decide, by decide⟩)) =
        .ok ⟨.file ⟨[0x66]⟩, .lines ⟨2, 2, by decide, by decide⟩, .simple "--", .comment, false⟩ ∧
      (Invocation.run { arguments } (fun _ => []) environment).run.run world =
        (do
          let reports ← (arguments.handOverAll false jobOf).adapt Failure.run
          orFail .flushing (Script.call .flush)
          return reports : Run (List Report)).run.run world := by
  intro world environment arguments
  let entries : List (String × LanguageEntry) := [("q", { marker := "--" })]
  let registry : Registry := (Registry.builtin.extend entries).toOption.getD {}
  let settings : Settings := { action := .comment, language := some "c", dryRun := true, languages := entries }
  have hresult : ((prepare environment).run.run world).2 = .ok (settings, registry) := by decide +kernel
  have hoptions : arguments.options settings =
      .ok ⟨some (.lines ⟨1, 1, by decide, by decide⟩), some "Q", none, .comment, false⟩ := by decide +kernel
  have hprepare : (prepare environment).run.run world =
      (((prepare environment).run.run world).1, .ok (settings, registry)) := by rw [← hresult]
  have hdryRun : (Layers.find environment world).dryRun arguments = false := rfl
  have hlanguage : (Layers.find environment world).language? arguments (.file ⟨[0x66]⟩) = some "Q" := by
    decide +kernel
  have hmarker : registry.byName "Q" = .ok (.simple "--") := by decide +kernel
  have hdecide : (Layers.find environment world).Decide arguments registry (.file ⟨[0x66]⟩)
      (some (.lines ⟨2, 2, by decide, by decide⟩))
      ⟨.file ⟨[0x66]⟩, .lines ⟨2, 2, by decide, by decide⟩, .simple "--", .comment, false⟩ :=
    ⟨rfl, by decide +kernel, hdryRun.symm, .inl rfl, by rw [hlanguage]; exact hmarker⟩
  obtain ⟨-, -, jobOf, hjob, hrun⟩ :=
    settings_precedence (fun _ => []) (rfl : Invocation.command { arguments } = none) hprepare hoptions
  rw [hdryRun] at hrun
  exact ⟨jobOf, (hjob _ _ _).mpr hdecide, hrun⟩

end CommandLine

end LineComment
