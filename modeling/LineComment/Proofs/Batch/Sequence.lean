import LineComment.Proofs.Batch.Edit
import LineComment.Proofs.Modes
import LineComment.Proofs.Quiet

/-! A batch is its targets one after the other, up to the first that fails. What a batch of files does is put together
from what each of its targets does in the files that the ones before it have left, and a dry run shows what the dry runs
of its targets show. -/

namespace LineComment.BatchOptions

open FileSystem

variable {options : BatchOptions} {registry : Registry} {headed : Bool} {targets : List Target} {world later : World}

theorem run_applyEach_cons (options : BatchOptions) (registry : Registry) (headed : Bool) (target : Target)
    (rest : List Target) (world : World) :
    (options.applyEach registry headed (target :: rest)).run.run world =
      match (options.applyOne registry headed target).run.run world with
      | (middle, .error error) => (middle, .error (.inFile target.path error))
      | (middle, .ok report) =>
        (((options.applyEach registry headed rest).run.run middle).1,
          ((options.applyEach registry headed rest).run.run middle).2.map (report :: ·)) := by
  rw [applyEach, Attempt.run_bind, Attempt.run_adapt]
  rcases (options.applyOne registry headed target).run.run world with ⟨middle, error | report⟩
  · rfl
  · change (options.applyEach registry headed rest >>= fun reports => pure (report :: reports)).run.run middle =
      (((options.applyEach registry headed rest).run.run middle).1,
        ((options.applyEach registry headed rest).run.run middle).2.map (report :: ·))
    rw [Attempt.run_bind]
    rcases (options.applyEach registry headed rest).run.run middle with ⟨later, error | reports⟩ <;> rfl

/-- Two lists of targets make one batch: the second list is begun where the first has ended, if that has succeeded. -/
theorem applyEach_append (options : BatchOptions) (registry : Registry) (headed : Bool) (first second : List Target) :
    options.applyEach registry headed (first ++ second) = do
      let reports ← options.applyEach registry headed first
      return reports ++ (← options.applyEach registry headed second) := by
  induction first with
  | nil => simp [applyEach]
  | cons target rest ih => simp [applyEach, ih]

/-- Whatever follows a target that fails is never begun. -/
theorem run_applyEach_failed {before : List Target} {target : Target} {middle : World} {reports : List Report}
    {cause : Error} (hbefore : (options.applyEach registry headed before).run.run world = (middle, .ok reports))
    (htarget : (options.applyOne registry headed target).run.run middle = (later, .error cause))
    (after : List Target) :
    (options.applyEach registry headed (before ++ target :: after)).run.run world =
      (later, .error (.inFile target.path cause)) := by
  rw [applyEach_append, Attempt.run_bind_of_ok hbefore]
  refine Attempt.run_bind_of_error ?_ _
  rw [run_applyEach_cons, htarget]

/-- A batch that fails does so in the first target that fails. -/
theorem exists_of_applyEach_error {error : Error}
    (hrun : (options.applyEach registry headed targets).run.run world = (later, .error error)) :
    ∃ before target after reports middle cause, targets = before ++ target :: after ∧
      (options.applyEach registry headed before).run.run world = (middle, .ok reports) ∧
      (options.applyOne registry headed target).run.run middle = (later, .error cause) ∧
      error = .inFile target.path cause := by
  induction targets generalizing world with
  | nil => cases hrun
  | cons target rest ih =>
      rw [run_applyEach_cons] at hrun
      rcases htarget : (options.applyOne registry headed target).run.run world with ⟨middle, cause | report⟩
      · rw [htarget] at hrun
        cases hrun
        exact ⟨[], target, rest, [], world, cause, rfl, rfl, htarget, rfl⟩
      · rw [htarget] at hrun
        dsimp only at hrun
        rcases hrest : (options.applyEach registry headed rest).run.run middle with ⟨last, wrong | reports⟩
        · rw [hrest] at hrun
          cases hrun
          obtain ⟨before, failing, after, reports, between, cause, rfl, hbefore, hfailing, rfl⟩ := ih hrest
          refine ⟨target :: before, failing, after, report :: reports, between, cause, rfl, ?_, hfailing, rfl⟩
          rw [run_applyEach_cons, htarget]
          dsimp only
          rw [hbefore]
          rfl
        · rw [hrest] at hrun
          cases hrun

theorem applyAll_of_write (hwrite : options.dryRun = false) (targets : List Target) :
    options.applyAll registry targets = options.applyEach registry false targets := by
  rw [applyAll, hwrite, Bool.false_and]

theorem quiet_applyOne (hwrite : options.dryRun = false) (target : Target) :
    (options.applyOne registry false target).run.Quiet := by
  intro world sink
  rw [run_applyOne, run_applyOne]
  cases hjob : options.job registry (.file target.path) target.selection with
  | error error => rfl
  | ok job =>
      obtain ⟨hsource, hdry⟩ := source_of_job hjob
      exact Job.quiet_apply hsource (hdry.trans hwrite) world sink

theorem quiet_applyEach (hwrite : options.dryRun = false) (targets : List Target) :
    (options.applyEach registry false targets).run.Quiet := by
  induction targets with
  | nil => exact Attempt.quiet_pure []
  | cons target rest ih =>
      intro world sink
      rw [run_applyEach_cons, run_applyEach_cons, quiet_applyOne hwrite]
      rcases (options.applyOne registry false target).run.run world with ⟨middle, error | report⟩
      · rfl
      · dsimp only
        rw [ih]

/-- Some targets have been edited one after the other, each in the files that the ones before it have left. -/
inductive Succession (options : BatchOptions) (registry : Registry) :
    FileSystem → List Target → List Report → FileSystem → Prop where
  | nil (fs : FileSystem) : Succession options registry fs [] [] fs
  | cons {fs middle last : FileSystem} {target : Target} {targets : List Target} {reports : List Report}
      (edit : Edit options registry fs target) (makes : edit.Makes middle)
      (rest : Succession options registry middle targets reports last) :
      Succession options registry fs (target :: targets) (edit.report :: reports) last

theorem Succession.resembles {fs last : FileSystem} {reports : List Report}
    (h : Succession options registry fs targets reports last) : fs.Resembles last := by
  induction h with
  | nil fs => exact .refl fs
  | cons edit makes _ ih => exact makes.resembles.trans ih

/-- None of some targets is a link. -/
def NoLinks (fs : FileSystem) (targets : List Target) : Prop :=
  ∀ target ∈ targets, ∀ location link, fs.place target.path ≠ .ok ⟨location, some (.link link)⟩

theorem NoLinks.of_resembles {fs other : FileSystem} (h : NoLinks fs targets) (hlike : fs.Resembles other) :
    NoLinks other targets := fun target htarget => hlike.not_link (h target htarget)

/-- A batch that changes files succeeds by editing its targets one after the other. -/
theorem succession_of_run (hwrite : options.dryRun = false)
    (hplaces : NoLinks world.files targets) {reports : List Report}
    (hrun : (options.applyEach registry false targets).run.run world = (later, .ok reports)) :
    Succession options registry world.files targets reports later.files := by
  induction targets generalizing world reports with
  | nil =>
      cases hrun
      exact .nil _
  | cons target rest ih =>
      obtain ⟨hplace, hrest⟩ := List.forall_mem_cons.mp hplaces
      rw [run_applyEach_cons] at hrun
      rcases htarget : (options.applyOne registry false target).run.run world with ⟨middle, cause | report⟩
      · rw [htarget] at hrun
        cases hrun
      rw [htarget] at hrun
      dsimp only at hrun
      rcases hlast : (options.applyEach registry false rest).run.run middle with ⟨last, wrong | more⟩
      · rw [hlast] at hrun
        cases hrun
      rw [hlast] at hrun
      cases hrun
      cases targetEnding_of_run hwrite hplace htarget with
      | changed edit makes =>
          have hplaces := NoLinks.of_resembles hrest makes.resembles
          exact .cons edit makes (ih hplaces hlast)

/-- How a batch that changes files ends. All its targets have been edited in order, or those before the first that
cannot be, which leaves the files as it found them but for a mode that a write takes something from. What follows this
one makes no difference. -/
inductive WriteEnding (options : BatchOptions) (registry : Registry) (targets : List Target) (world later : World) :
    Except Error (List Report) → Prop where
  | all {reports : List Report} (succession : Succession options registry world.files targets reports later.files) :
      WriteEnding options registry targets world later (.ok reports)
  | upTo {before after : List Target} {target : Target} {reports : List Report} {middle : World} {cause : Error}
      (split : targets = before ++ target :: after)
      (run_before : (options.applyAll registry before).run.run world = (middle, .ok reports))
      (succession : Succession options registry world.files before reports middle.files)
      (unable : IsEmpty (Edit options registry middle.files target))
      (failing : TargetEnding options registry target middle later (.error cause)) (bare : cause.IsBare)
      (regardless : ∀ others, (options.applyAll registry (before ++ target :: others)).run.run world =
        (later, .error (.inFile target.path cause))) :
      WriteEnding options registry targets world later (.error (.inFile target.path cause))

theorem writeEnding_of_run (hwrite : options.dryRun = false)
    (hplaces : NoLinks world.files targets) {result : Except Error (List Report)}
    (hrun : (options.applyAll registry targets).run.run world = (later, result)) :
    WriteEnding options registry targets world later result := by
  rw [applyAll_of_write hwrite] at hrun
  cases result with
  | ok reports => exact .all (succession_of_run hwrite hplaces hrun)
  | error error =>
      obtain ⟨before, target, after, reports, middle, cause, rfl, hbefore, htarget, rfl⟩ :=
        exists_of_applyEach_error hrun
      obtain ⟨hbeforePlaces, hrest⟩ := List.forall_mem_append.mp hplaces
      have hsuccession := succession_of_run hwrite hbeforePlaces hbefore
      have hplace := hsuccession.resembles.not_link (List.forall_mem_cons.mp hrest).1
      have hunable : IsEmpty (Edit options registry middle.files target) := by
        refine ⟨fun edit => ?_⟩
        obtain ⟨_, hrun, -⟩ := edit.run hwrite
        rw [htarget] at hrun
        cases hrun
      have hfailing := targetEnding_of_run hwrite hplace htarget
      refine .upTo rfl ?_ hsuccession hunable hfailing hfailing.isBare fun others => ?_
      · rw [applyAll_of_write hwrite, hbefore]
      · rw [applyAll_of_write hwrite, run_applyEach_failed hbefore htarget]

/-- A batch of one target, on an output that is empty and never fails. -/
def alone (options : BatchOptions) (registry : Registry) (world : World) (target : Target) :
    World × Except Error (List Report) :=
  (options.applyAll registry [target]).run.run { world with output := {} }

/-- What is printed for a target: its heading, if there is to be one, and what a batch of this target prints. -/
def block (options : BatchOptions) (registry : Registry) (world : World) (headed : Bool) (target : Target) : Bytes :=
  (if headed then heading target.path else []) ++ (options.alone registry world target).1.output.written

/-- A target, if its job can be settled. Without a job nothing is printed, not even a heading. -/
def begun (options : BatchOptions) (registry : Registry) (target : Target) : List Target :=
  match options.job registry (.file target.path) target.selection with
  | .ok _ => [target]
  | .error _ => []

/-- How a batch that shows changes ends, and what it prints: the blocks of all its targets, or of those up to the first
that fails. -/
inductive ShowEnding (options : BatchOptions) (registry : Registry) (world : World) (headed : Bool)
    (targets : List Target) : Bytes → Except Error (List Report) → Prop where
  | all {reports : List Report}
      (results : List.Forall₂ (fun target report => (options.alone registry world target).2 = .ok [report])
        targets reports) :
      ShowEnding options registry world headed targets
        (targets.flatMap (options.block registry world headed)) (.ok reports)
  | upTo {before after : List Target} {target : Target} {reports : List Report} {cause : Error}
      (split : targets = before ++ target :: after)
      (results : List.Forall₂ (fun target report => (options.alone registry world target).2 = .ok [report])
        before reports)
      (failure : (options.alone registry world target).2 = .error (.inFile target.path cause)) :
      ShowEnding options registry world headed targets
        ((before ++ options.begun registry target).flatMap (options.block registry world headed))
        (.error (.inFile target.path cause))

theorem run_alone (options : BatchOptions) (registry : Registry) (world : World) (target : Target) {pieces : List Bytes}
    {result : Except Error Report} (h : (options.applyOne registry false target).Prints world pieces result) :
    options.alone registry world target = ({ world with output := Sink.takeAll {} pieces },
      (result.map fun report => [report]).mapError (.inFile target.path)) := by
  have hheaded : (options.dryRun && decide (1 < [target].length)) = false := by simp
  rw [alone, applyAll, hheaded, run_applyEach_cons, h {} rfl rfl]
  cases result <;> rfl

theorem block_eq (options : BatchOptions) (registry : Registry) (world : World) (headed : Bool) (target : Target)
    {pieces : List Bytes} {result : Except Error Report}
    (h : (options.applyOne registry false target).Prints world pieces result) :
    options.block registry world headed target = (if headed then heading target.path else []) ++ pieces.flatten := by
  rw [block, run_alone options registry world target h, Sink.written_takeAll]
  rfl

/-- One target of a batch that shows changes. -/
theorem exists_prints_applyOne (hdry : options.dryRun = true) (registry : Registry) (headed : Bool) (world : World)
    (target : Target) : ∃ pieces more result, (options.applyOne registry headed target).Prints world pieces result ∧
      (options.applyOne registry false target).Prints world more result ∧
      pieces.flatten = (options.begun registry target).flatMap (options.block registry world headed) ∧
      ∀ report, result = .ok report → options.begun registry target = [target] := by
  cases hjob : options.job registry (.file target.path) target.selection with
  | error error =>
      have hnone (headed : Bool) : (options.applyOne registry headed target).Prints world [] (.error error) :=
        .nothing fun sink => by
          rw [applyOne, hjob]
          exact Attempt.run_bind_of_error (Attempt.run_liftExcept _ _) _
      refine ⟨[], [], .error error, hnone headed, hnone false, ?_, fun report hreport => by cases hreport⟩
      rw [begun, hjob]
      rfl
  | ok job =>
      obtain ⟨hsource, hjobDry⟩ := source_of_job hjob
      obtain ⟨pieces, result, hprints⟩ := Job.exists_prints_apply hsource (hjobDry.trans hdry) world
      have hjobPrints :
          (liftM (options.job registry (.file target.path) target.selection) : Attempt Job).Prints world []
          (.ok job) := .nothing fun sink => by
        rw [hjob]
        rfl
      have hplain : (options.applyOne registry false target).Prints world pieces result := hjobPrints.bind_ok hprints
      have hbegun : options.begun registry target = [target] := by rw [begun, hjob]
      have hheading : (attempt .heading (Script.call (.print (heading target.path)))).Prints world
          [heading target.path] (.ok ()) := fun sink hroom _ => by
        rw [Attempt.run_attempt, Script.run_call, Operation.run]
        simp only [Sink.write_of_room hroom]
        rfl
      cases headed with
      | false =>
          refine ⟨pieces, pieces, result, hplain, hplain, ?_, fun _ _ => hbegun⟩
          rw [hbegun, List.flatMap_singleton, block_eq options registry world false target hplain]
          rfl
      | true =>
          have hheaded : (options.applyOne registry true target).Prints world (heading target.path :: pieces) result :=
            hjobPrints.bind_ok (hheading.bind_ok hprints)
          refine ⟨heading target.path :: pieces, pieces, result, hheaded, hplain, ?_, fun _ _ => hbegun⟩
          rw [hbegun, List.flatMap_singleton, block_eq options registry world true target hplain]
          rfl

/-- A target that has been shown comes before what is shown of the others. -/
theorem ShowEnding.cons {target : Target} {report : Report} {shown : Bytes} {result : Except Error (List Report)}
    (htarget : (options.alone registry world target).2 = .ok [report])
    (h : ShowEnding options registry world headed targets shown result) :
    ShowEnding options registry world headed (target :: targets)
      (options.block registry world headed target ++ shown) (result.map (report :: ·)) := by
  cases h with
  | all results => exact .all (.cons htarget results)
  | @upTo before after failing reports cause split results failure =>
      rw [split, ← List.flatMap_cons, ← List.cons_append]
      exact .upTo (List.cons_append ..).symm (.cons htarget results) failure

theorem exists_prints_applyEach (hdry : options.dryRun = true) (registry : Registry) (headed : Bool) (world : World)
    (targets : List Target) : ∃ pieces result, (options.applyEach registry headed targets).Prints world pieces result ∧
      ShowEnding options registry world headed targets pieces.flatten result := by
  induction targets with
  | nil => exact ⟨[], .ok [], .nothing fun _ => rfl, .all .nil⟩
  | cons target rest ih =>
      obtain ⟨first, plain, result, hfirst, hplain, hblock, hbegun⟩ :=
        exists_prints_applyOne hdry registry headed world target
      have halone := congrArg Prod.snd (run_alone options registry world target hplain)
      cases result with
      | error cause =>
          refine ⟨first, .error (.inFile target.path cause), fun sink hroom hflush => ?_, ?_⟩
          · rw [run_applyEach_cons, hfirst sink hroom hflush]
          · rw [hblock]
            exact .upTo (List.nil_append _).symm .nil halone
      | ok report =>
          obtain ⟨more, ended, hrest, hending⟩ := ih
          refine ⟨first ++ more, ended.map (report :: ·), fun sink hroom hflush => ?_, ?_⟩
          · rw [run_applyEach_cons, hfirst sink hroom hflush]
            dsimp only
            rw [hrest (sink.takeAll first) hroom hflush]
            simp [Sink.takeAll]
          · rw [List.flatten_append, hblock, hbegun report rfl, List.flatMap_singleton]
            exact hending.cons halone

theorem keepsFiles_applyOne (hdry : options.dryRun = true) (registry : Registry) (headed : Bool) (target : Target) :
    (options.applyOne registry headed target).KeepsFiles := by
  intro world
  rw [applyOne]
  cases hjob : options.job registry (.file target.path) target.selection with
  | error error => rfl
  | ok job =>
      have happly : job.apply.KeepsFiles := Job.keepsFiles_apply ((source_of_job hjob).2.trans hdry)
      rw [Attempt.run_bind_of_ok (Attempt.run_liftExcept _ world)]
      cases headed with
      | false => exact happly world
      | true => exact (keepsFiles_attempt fun _ => rfl).bind (fun _ => happly) world

theorem keepsFiles_applyEach (hdry : options.dryRun = true) (registry : Registry) (headed : Bool)
    (targets : List Target) : (options.applyEach registry headed targets).KeepsFiles := by
  induction targets with
  | nil => exact fun _ => rfl
  | cons target rest ih =>
      rw [applyEach]
      exact ((keepsFiles_applyOne hdry registry headed target).adapt _).bind fun _ => ih.bind fun _ _ => rfl

/-- A batch is its targets one after the other, up to the first that fails. If it changes files, two lists of
targets make one batch just as two scripts make one, whatever is wrong with the output; and if its targets are no
links, it has edited those before the first that fails, each in the files that the ones before have left, while this
one has changed nothing or has been undone, which can only show in the mode of its file, and the ones behind it do
not matter. A dry run leaves the files alone. To an output that never fails it prints what batches of one target
print, up to the first that fails, with headings exactly if there are several targets. -/
theorem applyAll_sequential (options : BatchOptions) (registry : Registry) :
    (options.dryRun = false →
      (∀ first second, options.applyAll registry (first ++ second) = do
        let reports ← options.applyAll registry first
        return reports ++ (← options.applyAll registry second)) ∧
      ∀ targets, (options.applyAll registry targets).run.Quiet ∧
        ∀ world : World, NoLinks world.files targets →
          ∃ later result, (options.applyAll registry targets).run.run world = (later, result) ∧
            later.output = world.output ∧ WriteEnding options registry targets world later result) ∧
    (options.dryRun = true → ∀ targets, (options.applyAll registry targets).KeepsFiles ∧
      ∀ world : World, world.output.room = none → world.output.flushFault = none →
        ∃ later shown result, (options.applyAll registry targets).run.run world = (later, result) ∧
          later.output.written = world.output.written ++ shown ∧
          ShowEnding options registry world (decide (1 < targets.length)) targets shown result) := by
  refine ⟨fun hwrite => ⟨fun first second => ?_, fun targets => ?_⟩, fun hdry targets => ?_⟩
  · rw [applyAll_of_write hwrite, applyAll_of_write hwrite, applyAll_of_write hwrite, applyEach_append]
  · have hquiet : (options.applyAll registry targets).run.Quiet := by
      rw [applyAll_of_write hwrite]
      exact quiet_applyEach hwrite targets
    refine ⟨hquiet, fun world hplaces => ?_⟩
    exact ⟨_, _, rfl, hquiet.output_eq world, writeEnding_of_run hwrite hplaces rfl⟩
  · rw [applyAll, hdry, Bool.true_and]
    refine ⟨keepsFiles_applyEach hdry registry _ targets, fun world hroom hflush => ?_⟩
    obtain ⟨pieces, result, hprints, hending⟩ :=
      exists_prints_applyEach hdry registry (decide (1 < targets.length)) world targets
    exact ⟨_, pieces.flatten, result, hprints world.output hroom hflush, Sink.written_takeAll _ _, hending⟩

/-- The first line of a file, and the ninth of another one that has fewer and runs as its owner: it does so no
longer. -/
theorem applyAll_sequential_out_of_range :
    let options : BatchOptions :=
      { selection := some (.lines ⟨1, 1, by decide, by decide⟩), marker := some (.simple "//"), action := .comment }
    let targets : List Target := [⟨⟨[0x66]⟩, none⟩, ⟨⟨[0x67]⟩, some (.lines ⟨9, 9, by decide, by decide⟩)⟩]
    let world : World :=
      { files := { tree := { entries := [([[0x66]], .file 0o644 [0x61, 0x0a]), ([[0x67]], .file 0o4755 [0x62])] } } }
    let error : Error := .inFile ⟨[0x67]⟩ (.rangeOutOfBounds 9 1)
    (∃ later, (options.applyAll {} targets).run.run world = (later, .error error) ∧
      later.files.tree.entry? [[0x66]] = some (.file 0o644 [0x2f, 0x2f, 0x20, 0x61, 0x0a]) ∧
      later.files.tree.entry? [[0x67]] = some (.file 0o755 [0x62]) ∧
      WriteEnding options {} targets world later (.error error)) ∧
    ∃ later, (applyAll { options with dryRun := true } {} targets).run.run world = (later, .error error) ∧
      later.files = world.files ∧
      later.output.written = Utf8.encode "==> f <==\nline 1: a -> // a\n==> g <==\n".toList ∧
      ShowEnding { options with dryRun := true } {} world true targets later.output.written (.error error) := by
  intro options targets world error
  have hplaces : NoLinks world.files targets := by
    simp only [targets, NoLinks, List.forall_mem_cons]
    refine ⟨fun location link hlink => ?_, fun location link hlink => ?_, by simp⟩
    · cases hlink.symm.trans (by rfl : _ = Except.ok ⟨[[0x66]], some (.file 0o644 [0x61, 0x0a])⟩)
    · cases hlink.symm.trans (by rfl : _ = Except.ok ⟨[[0x67]], some (.file 0o4755 [0x62])⟩)
  constructor
  · have hended : ((options.applyAll {} targets).run.run world).map
        (fun later => (later.files.tree.entry? [[0x66]], later.files.tree.entry? [[0x67]])) id =
        ((some (.file 0o644 [0x2f, 0x2f, 0x20, 0x61, 0x0a]), some (.file 0o755 [0x62])), .error error) := by
      decide +kernel
    obtain ⟨-, hwrites⟩ := (applyAll_sequential options {}).1 rfl
    obtain ⟨later, result, hrun, -, hending⟩ := (hwrites targets).2 world hplaces
    rw [hrun] at hended
    obtain ⟨hentries, rfl⟩ := Prod.mk.inj hended
    obtain ⟨hedited, hundone⟩ := Prod.mk.inj hentries
    exact ⟨later, hrun, hedited, hundone, hending⟩
  · have hended : ((applyAll { options with dryRun := true } {} targets).run.run world).map
        (fun later => later.output.written) id =
        (Utf8.encode "==> f <==\nline 1: a -> // a\n==> g <==\n".toList, .error error) := by
      decide +kernel
    obtain ⟨hkeeps, hshows⟩ := (applyAll_sequential { options with dryRun := true } {}).2 rfl targets
    obtain ⟨later, shown, result, hrun, rfl, hending⟩ := hshows world rfl rfl
    have hsame := hkeeps world
    rw [hrun] at hended hsame
    obtain ⟨hwritten, rfl⟩ := Prod.mk.inj hended
    exact ⟨later, hrun, hsame, hwritten, hending⟩

end LineComment.BatchOptions
