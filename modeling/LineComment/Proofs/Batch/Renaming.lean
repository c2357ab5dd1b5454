import LineComment.Proofs.Batch.Counterpart
import LineComment.Proofs.Edits
import LineComment.Proofs.Files.Exchange

/-! A file of a batch is renamed, in the files and among the targets. The batch fails in the same target as before, and
whether the error in the file is told in the same words is decided by whether it repeats the path. -/

namespace LineComment

open Error FileSystem Replacement

namespace BatchOptions

variable {options : BatchOptions} {registry : Registry} {r : Renaming} {known : Prop} {fs later : FileSystem}
  {path path' : Path} {targets : List Target} {headed : Bool}

/-- The paths that are looked up for a target. Only where the file is replaced does it matter what is beside it. -/
def lookedUp (options : BatchOptions) (path : Path) : List Path :=
  if options.dryRun then [path] else [path, path.backup, path.temp]

theorem mem_lookedUp (options : BatchOptions) (path : Path) : path ∈ options.lookedUp path := by
  rw [lookedUp]
  split_ifs <;> exact List.mem_cons_self

/-- A target and what becomes of its path under other names: nothing, if no name that has become another is looked up
for it, or the path with the other name of its file. -/
inductive Tracks (options : BatchOptions) (r : Renaming) (fs : FileSystem) : Path → Path → Prop where
  | avoids {path : Path} (avoids : ∀ found ∈ options.lookedUp path, fs.Avoids r found) : Tracks options r fs path path
  | relabels {outer : List Bytes} {name : Bytes} {path path' : Path} (relabels : Relabels r fs outer name path path')
      (link : LinkClear r fs name) (backup : r.name (name ++ backupEnding) = r.name name ++ backupEnding)
      (temp : r.name (name ++ tempEnding) = r.name name ++ tempEnding)
      (extension : path'.extension? = path.extension?) : Tracks options r fs path path'

namespace Tracks

theorem of_edited {paths : List Path} (h : Tracks options r fs path path') (hedited : fs.Edited paths later) :
    Tracks options r later path path' := by
  cases h with
  | avoids havoids =>
      exact .avoids fun found hfound => (havoids found hfound).of_persists hedited.directory hedited.persists
  | relabels hrelabels hlink hbackup htemp hextension =>
      exact .relabels (hrelabels.of_persists hedited.directory hedited.persists) (hlink.of_persists hedited.persists)
        hbackup htemp hextension

theorem extension_eq (h : Tracks options r fs path path') : path'.extension? = path.extension? := by
  cases h with
  | avoids _ => rfl
  | relabels _ _ _ _ hextension => exact hextension

theorem meets {other : FileSystem} (h : Tracks options r fs path path') (hrenamed : fs.Renamed r other) :
    Meets r fs other path path' .target := by
  cases h with
  | avoids havoids => exact hrenamed.meets (havoids path (options.mem_lookedUp path)) _
  | relabels hrelabels hlink _ _ _ => exact hrenamed.meets_of_relabels hrelabels _ fun _ _ => hlink

theorem mirrors {other : FileSystem} (h : Tracks options r fs path path') (hrenamed : fs.Renamed r other)
    (hwrite : options.dryRun = false) : Mirrors r fs other path path' := by
  cases h with
  | avoids havoids =>
      rw [lookedUp, hwrite, if_neg Bool.false_ne_true] at havoids
      exact hrenamed.mirrors (havoids _ (by simp)) (havoids _ (by simp)) (havoids _ (by simp))
  | relabels hrelabels hlink hbackup htemp _ => exact hrenamed.mirrors_of_relabels hrelabels hlink hbackup htemp

end Tracks

/-- A batch that fails, and the batch of the same targets under the names that they have in the other world. -/
theorem applyEach_corresponds {world other later : World} {failure : Error} (rename : Path → Path)
    (hrenamed : World.Renamed r known world other)
    (htracks : ∀ target ∈ targets, Tracks options r world.files target.path (rename target.path))
    (hheading : headed → known → ∀ target ∈ targets,
      (heading (rename target.path)).length = (heading target.path).length)
    (hrun : (options.applyEach registry headed targets).run.run world = (later, .error failure)) :
    ∃ target ∈ targets, ∃ error later' error', failure = .inFile target.path error ∧
      (options.applyEach registry headed
        (targets.map fun target => ⟨rename target.path, target.selection⟩)).run.run other =
          (later', .error (.inFile (rename target.path) error')) ∧
      Retold target.path (rename target.path) error error' := by
  induction targets generalizing world other with
  | nil => cases hrun
  | cons target rest ih =>
      obtain ⟨htrack, hrest⟩ := List.forall_mem_cons.mp htracks
      obtain ⟨middle, middle', result, result', hone, hone', hresults, hmiddle⟩ :=
        options.matches_applyOne registry target.selection htrack.extension_eq hrenamed
          (htrack.meets hrenamed.files) (htrack.mirrors hrenamed.files)
          fun hhead hknown => hheading hhead hknown target List.mem_cons_self
      rw [run_applyEach_cons, hone] at hrun
      rw [List.map_cons, run_applyEach_cons, hone']
      cases hresults with
      | error hretold =>
          cases hrun
          exact ⟨target, List.mem_cons_self, _, middle', _, rfl, rfl, hretold⟩
      | ok report report' =>
          have hafter : (options.applyEach registry headed rest).run.run middle = (later, .error failure) := by
            dsimp only at hrun
            rcases hlast : (options.applyEach registry headed rest).run.run middle with ⟨last, wrong | reports⟩ <;>
              rw [hlast] at hrun <;> cases hrun
            rfl
          -- What the target has done to the files leaves the names that the targets behind it look up as they are.
          have hedited : world.files.Edited (options.writes (target :: rest))
              ((options.applyOne registry headed target).run.run world).1.files :=
            edits_applyOne target rest world
          rw [show (options.applyOne registry headed target).run.run world = _ from hone] at hedited
          obtain ⟨failing, hfailing, error, later', error', hinner, hrun', hretold⟩ :=
            ih hmiddle
              (fun next hnext => (hrest next hnext).of_edited hedited)
              (fun hhead hknown next hnext => hheading hhead hknown next (List.mem_cons_of_mem _ hnext)) hafter
          refine ⟨failing, List.mem_cons_of_mem _ hfailing, error, later', error', hinner, ?_, hretold⟩
          dsimp only
          rw [hrun']
          rfl

/-- The error in a file is not attributed to a file once more. -/
theorem isBare_of_applyEach {world later : World} {path : Path} {error : Error}
    (hrun : (options.applyEach registry headed targets).run.run world = (later, .error (.inFile path error))) :
    error.IsBare := by
  have hrenamed : World.Renamed .same True world world :=
    ⟨⟨(Renaming.place_same _).symm, fun location => by rw [Renaming.place_same]⟩, rfl, rfl, fun _ => trivial⟩
  obtain ⟨target, _, _, _, error', heq, _, hretold⟩ := applyEach_corresponds id hrenamed
    (fun target _ => .avoids fun found _ => FileTree.not_crosses_same) (fun _ _ _ _ => rfl) hrun
  obtain ⟨-, rfl⟩ := inFile.inj heq
  exact hretold.isBare

end BatchOptions

namespace Exchange

variable {change : Exchange} {options : BatchOptions} {fs : FileSystem} {directory : Location} {targets : List Target}

def target (change : Exchange) (target : Target) : Target := ⟨change.path target.path, target.selection⟩

/-- That a file changes its name concerns one path among those of the targets: this path leads into the directory, if
anywhere, and neither what stands before the name, nor a link under it, nor another target leads over one of the names
that change places. -/
structure IsClear (change : Exchange) (options : BatchOptions) (fs : FileSystem) (directory : Location)
    (targets : List Target) : Prop where
  outer : ¬fs.tree.Crosses (change.within directory) (FileTree.linkStart fs.directory change.source) change.outer
  leads : ∀ count dest, fs.tree.Leads count (FileTree.linkStart fs.directory change.source) change.outer dest →
    fs.tree.IsDirectoryAt dest → dest = directory
  link : LinkClear (change.within directory) fs change.old
  others : ∀ target ∈ targets, target.path ≠ change.source → ∀ path ∈ options.lookedUp target.path,
    fs.Avoids (change.within directory) path

theorem IsClear.tracks (h : change.IsClear options fs directory targets) {target : Target}
    (htarget : target ∈ targets) :
    BatchOptions.Tracks options (change.within directory) fs target.path (change.path target.path) := by
  rw [path]
  split_ifs with hsource
  · rw [hsource]
    have hname {ending : Bytes} (hending : ending ∈ endings) : (change.within directory).name (change.old ++ ending) =
        (change.within directory).name change.old ++ ending := by
      rw [change.within_name, change.within_name_append directory hending]
    exact .relabels (relabels h.outer h.leads) h.link (hname (by simp [endings])) (hname (by simp [endings]))
      change.extension_eq
  · exact .avoids (h.others target htarget hsource)

end Exchange

namespace BatchOptions

variable {options : BatchOptions} {registry : Registry} {targets : List Target} {world later : World} {failure : Error}

/-- A batch that fails attributes the error to one of its targets, and the error has not been attributed before.
Five errors say the path once more. If the file changes its name for one of the same length and with the same
extension, and what stands under the two names and beside them changes places, the batch fails there, with an error
in the same words if and only if it is none of the five, or the paths look alike. -/
theorem applyAll_attribution
    (hrun : (options.applyAll registry targets).run.run world = (later, .error failure)) :
    ∃ target ∈ targets, ∃ error, failure = .inFile target.path error ∧ error.IsBare ∧
      (error.Repeats target.path → ∃ front back, error.message = front ++ target.path.display ++ back) ∧
      ∀ (change : Exchange) (directory : Location), change.source = target.path →
        change.IsClear options world.files directory targets →
        (options.dryRun = true → 1 < targets.length → world.output.room ≠ none →
          (heading change.dest).length = (heading change.source).length) →
        ∃ later' error', (options.applyAll registry (targets.map change.target)).run.run
            { world with files := world.files.renamed (change.within directory) } =
              (later', .error (.inFile change.dest error')) ∧
          (∀ ending ∈ Exchange.endings,
            (world.files.renamed (change.within directory)).tree.entry? (directory ++ [change.new ++ ending]) =
                world.files.tree.entry? (directory ++ [change.old ++ ending]) ∧
              (world.files.renamed (change.within directory)).tree.entry? (directory ++ [change.old ++ ending]) =
                world.files.tree.entry? (directory ++ [change.new ++ ending])) ∧
          Retold change.source change.dest error error' ∧
          (error'.message = error.message ↔
            ¬error.Repeats change.source ∨ change.dest.display = change.source.display) := by
  obtain ⟨before, target, after, reports, middle, error, hsplit, -, -, rfl⟩ := exists_of_applyEach_error hrun
  refine ⟨target, by simp [hsplit], error, rfl, isBare_of_applyEach hrun, Repeats.exists_message, ?_⟩
  intro change directory hsource hclear hlengths
  have hrenamed : World.Renamed (change.within directory)
      (options.dryRun = true → 1 < targets.length → (heading change.dest).length = (heading change.source).length)
      world { world with files := world.files.renamed (change.within directory) } :=
    ⟨world.files.renamed_renamed _, rfl, rfl, fun hroom hdry hmany => hlengths hdry hmany hroom⟩
  obtain ⟨failing, -, error, later', error', heq, hrun', hretold⟩ := applyEach_corresponds change.path
    hrenamed (fun target htarget => hclear.tracks htarget) (fun hheaded hknown target _ => by
      rw [Bool.and_eq_true, decide_eq_true_eq] at hheaded
      rw [Exchange.path]
      split_ifs with hhere
      · rw [hhere, hknown hheaded.1 hheaded.2]
      · rfl) hrun
  obtain ⟨hpath, rfl⟩ := inFile.inj heq
  have hdest : change.path failing.path = change.dest := by rw [← hpath, ← hsource, Exchange.path, if_pos rfl]
  rw [hdest, ← hpath, ← hsource] at hretold
  rw [hdest] at hrun'
  refine ⟨later', error', ?_, fun ending => change.entry?_renamed world.files.tree directory, hretold,
    hretold.message_eq_iff⟩
  rw [applyAll, List.length_map]
  exact hrun'

/-- The first line of two files, of which the second one has a backup; and what is said if it has another name. -/
theorem applyAll_attribution_taken_backup :
    let options : BatchOptions :=
      { selection := some (.lines ⟨1, 1, by decide, by decide⟩), marker := some (.simple "//"), action := .comment }
    let first : Path := ⟨[0x62, 0x2e, 0x63]⟩
    let source : Path := ⟨[0x61, 0x2e, 0x63]⟩
    let dest : Path := ⟨[0x64, 0x2e, 0x63]⟩
    let world (path : Path) : World :=
      { files := { tree := { entries := [([first.bytes], .file 0o644 [0x78]), ([path.bytes], .file 0o644 [0x79]),
        ([path.backup.bytes], .file 0o644 [0x7a])] } } }
    ∃ later later' error error', (options.applyAll {} [⟨first, none⟩, ⟨source, none⟩]).run.run (world source) =
        (later, .error (.inFile source error)) ∧
      (options.applyAll {} [⟨first, none⟩, ⟨dest, none⟩]).run.run (world dest) =
        (later', .error (.inFile dest error')) ∧ error'.message ≠ error.message := by
  intro options first source dest world
  have hended : ((options.applyAll {} [⟨first, none⟩, ⟨source, none⟩]).run.run (world source)).2 =
      .error (.inFile source (.artifactExists source.backup)) := by
    decide +kernel
  rcases hrun : (options.applyAll {} [⟨first, none⟩, ⟨source, none⟩]).run.run (world source) with ⟨later, result⟩
  rw [hrun] at hended
  obtain rfl : result = _ := hended
  obtain ⟨target, -, error, heq, -, -, hchange⟩ := applyAll_attribution hrun
  obtain ⟨hpath, rfl⟩ := inFile.inj heq
  let change : Exchange := ⟨[], source.bytes, dest.bytes, by simp, by constructor <;> decide,
    by constructor <;> decide, by decide, by decide, by decide⟩
  have hclear : change.IsClear options (world source).files [] [⟨first, none⟩, ⟨source, none⟩] := by
    refine ⟨FileTree.not_crosses_nil, fun count dest hleads _ => ?_, fun target hlink => ?_, ?_⟩
    · cases hleads
      rfl
    · cases hlink
    · simp only [List.forall_mem_cons]
      refine ⟨fun _ path hfound => ?_, fun hother => absurd rfl hother, by simp⟩
      have hpath : path = first ∨ path = first.backup ∨ path = first.temp := by simpa [lookedUp, options] using hfound
      rcases hpath with rfl | rfl | rfl <;>
        exact FileTree.not_crosses_singleton (by decide +kernel) (by rintro target ⟨⟩)
  obtain ⟨later', error', hrun', -, -, hmessage⟩ := hchange change [] hpath hclear (by simp [options])
  refine ⟨later, later', _, error', rfl, ?_, ?_⟩
  · exact hrun'
  · rw [ne_eq, hmessage, not_or, not_not]
    exact ⟨.backupTaken, by decide +kernel⟩

end BatchOptions

end LineComment
