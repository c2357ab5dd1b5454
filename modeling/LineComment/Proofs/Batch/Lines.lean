import LineComment.Proofs.Batch.Ready
import Mathlib.Logic.Function.Iterate

/-! Batches whose targets are ranges of lines. A target works on each of its lines alone, so what becomes of a line
depends only on how many targets contain its number. The order of the targets makes no difference then, and neither
does cutting a range in two. -/

namespace LineComment

open FileSystem

/-- The lines of a range up to one of them. -/
def LineRange.upTo (range : LineRange) (middle : Nat) (h : range.first ≤ middle) : LineRange :=
  ⟨range.first, middle, range.one_le_first, h⟩

/-- The lines of a range behind one of them. -/
def LineRange.behind (range : LineRange) (middle : Nat) (h : middle < range.last) : LineRange :=
  ⟨middle + 1, range.last, Nat.le_add_left 1 middle, h⟩

theorem LineRange.contains_halves (range : LineRange) {middle : Nat} (hfirst : range.first ≤ middle)
    (hlast : middle < range.last) (number : Nat) :
    (if (range.upTo middle hfirst).contains number then 1 else 0) +
      (if (range.behind middle hlast).contains number then 1 else 0) = if range.contains number then 1 else 0 := by
  show (if range.first ≤ number && number ≤ middle then 1 else 0) +
    (if middle + 1 ≤ number && number ≤ range.last then 1 else 0) =
      if range.first ≤ number && number ≤ range.last then 1 else 0
  simp only [Bool.and_eq_true, decide_eq_true_eq]
  split_ifs <;> omega

namespace BatchOptions

variable {options : BatchOptions} {registry : Registry} {fs now : FileSystem} {target other : Target}

/-- Whether a target is a range that contains a number. -/
def covers (options : BatchOptions) (target : Target) (number : Nat) : Bool :=
  match target.selection.or options.selection with
  | some (.lines range) => range.contains number
  | _ => false

/-- How many targets of a path contain a number. -/
def hits (options : BatchOptions) (targets : List Target) (path : Path) (number : Nat) : Nat :=
  targets.countP fun target => target.path = path && options.covers target number

theorem hits_cons (options : BatchOptions) (target : Target) (targets : List Target) (path : Path) (number : Nat) :
    options.hits (target :: targets) path number =
      options.hits targets path number + if target.path = path ∧ options.covers target number then 1 else 0 := by
  simp [hits, List.countP_cons]

theorem hits_append (options : BatchOptions) (first second : List Target) (path : Path) (number : Nat) :
    options.hits (first ++ second) path number = options.hits first path number + options.hits second path number :=
  List.countP_append

/-- A line is hit as often when a range is cut in two. -/
theorem hits_halves {range : LineRange} (hrange : target.selection.or options.selection = some (.lines range))
    {middle : Nat} (hfirst : range.first ≤ middle) (hlast : middle < range.last) (before after : List Target)
    (path : Path) (number : Nat) :
    options.hits (before ++ ⟨target.path, some (.lines (range.upTo middle hfirst))⟩ ::
      ⟨target.path, some (.lines (range.behind middle hlast))⟩ :: after) path number =
      options.hits (before ++ target :: after) path number := by
  have hcovers : options.covers target number = range.contains number := by rw [covers, hrange]
  rw [hits_append, hits_append, hits_cons, hits_cons, hits_cons, hcovers, Nat.add_assoc]
  by_cases hpath : target.path = path
  · have hhalves := range.contains_halves hfirst hlast number
    simp only [hpath, true_and, covers, Option.some_or]
    omega
  · simp only [hpath, false_and, if_false, Nat.add_zero]

/-- Different paths among those of some targets name different things. -/
def Distinct (fs : FileSystem) (targets : List Target) : Prop :=
  ∀ first ∈ targets, ∀ second ∈ targets, fs.place first.path = fs.place second.path → first.path = second.path

/-- What becomes of a file system by targets that are ranges of lines. -/
structure Pointwise (options : BatchOptions) (registry : Registry) (targets : List Target) (fs now : FileSystem) :
    Prop where
  directory : now.directory = fs.directory
  edited : ∀ path location mode old marker, fs.place path = .ok ⟨location, some (.file mode old)⟩ →
    options.markerFor registry (.file path) = .ok marker →
    (∀ target ∈ targets, fs.place target.path = fs.place path → target.path = path) →
    ∃ new, now.tree.entry? location = some (.file mode new) ∧ Line.cut new = (Line.cut old).mapIdx fun index raw =>
      (options.action.applyRaw marker)^[options.hits targets path (index + 1)] raw
  untouched : ∀ location, (∀ target ∈ targets, ∀ entry, fs.place target.path ≠ .ok ⟨location, entry⟩) →
    now.tree.entry? location = fs.tree.entry? location

theorem Ready.covers_eq (ready : Ready options registry fs target) (number : Nat) :
    options.covers target number = ready.range.contains number := by
  rw [covers, ready.selection]

theorem Ready.iterate_hits (ready : Ready options registry fs target) (change : Bytes → Bytes) (targets : List Target)
    (number : Nat) (raw : Bytes) :
    change^[options.hits targets target.path number] (if ready.range.contains number then change raw else raw) =
      change^[options.hits (target :: targets) target.path number] raw := by
  rw [hits_cons, ready.covers_eq, Function.iterate_add_apply]
  by_cases hcontains : ready.range.contains number
  · rw [if_pos hcontains, if_pos ⟨rfl, hcontains⟩, Function.iterate_one]
  · rw [if_neg hcontains, if_neg fun hboth => hcontains hboth.2, Function.iterate_zero_apply]

/-- What the other targets make of the lines of an edited file. -/
theorem Ready.mapIdx_cut_new (ready : Ready options registry fs target) (hmarked : options.WellMarked registry)
    (targets : List Target) :
    ((Line.cut ready.edit.new).mapIdx fun index raw =>
        (options.action.applyRaw ready.marker)^[options.hits targets target.path (index + 1)] raw) =
      (Line.cut ready.old).mapIdx fun index raw =>
        (options.action.applyRaw ready.marker)^[options.hits (target :: targets) target.path (index + 1)] raw := by
  let change := options.action.applyRaw ready.marker
  calc (Line.cut ready.edit.new).mapIdx (fun index raw => change^[options.hits targets target.path (index + 1)] raw)
      = (Line.cut ready.old).mapIdx fun index raw => change^[options.hits targets target.path (index + 1)]
          (if ready.range.contains (index + 1) then change raw else raw) := by
        rw [ready.cut_new hmarked, List.mapIdx_mapIdx]
        rfl
    _ = (Line.cut ready.old).mapIdx fun index raw =>
          change^[options.hits (target :: targets) target.path (index + 1)] raw := by
        simp only [ready.iterate_hits]

theorem Pointwise.nil (options : BatchOptions) (registry : Registry) (fs : FileSystem) :
    Pointwise options registry [] fs fs where
  directory := rfl
  edited := by
    intro path location mode old marker hplace _ _
    have hentry : fs.tree.entry? location = some (.file mode old) := FileSystem.entry_of_resolve hplace
    refine ⟨old, hentry, List.ext_getElem (by simp) fun index _ _ => ?_⟩
    simp [hits]
  untouched := fun _ _ => rfl

/-- What a target does comes before what the others do. -/
theorem Pointwise.cons {targets : List Target} {last : FileSystem} (ready : Ready options registry fs target)
    (hmarked : options.WellMarked registry) (makes : ready.edit.Makes now)
    (h : Pointwise options registry targets now last) : Pointwise options registry (target :: targets) fs last where
  directory := h.directory.trans makes.directory
  edited := by
    intro path location mode old marker hplace hmarker hnames
    obtain ⟨hfirst, hrest⟩ := List.forall_mem_cons.mp hnames
    have hlater : ∀ other ∈ targets, now.place other.path = now.place path → other.path = path := by
      intro other hother hsame
      exact hrest other hother (makes.resembles.place_inj hsame)
    obtain ⟨new, hentry, hcut⟩ := h.edited path location mode _ marker (ready.place_after makes hplace) hmarker hlater
    refine ⟨new, hentry, ?_⟩
    by_cases hlocation : location = ready.location
    · subst hlocation
      have hplaces := ready.place_eq hplace
      obtain rfl := hfirst hplaces.symm
      cases hplace.symm.trans (hplaces.trans ready.place)
      obtain rfl : marker = ready.marker := Except.ok.inj (hmarker.symm.trans ready.marked)
      rw [if_pos rfl] at hcut
      exact hcut.trans (ready.mapIdx_cut_new hmarked targets)
    · have hpath : target.path ≠ path := by
        rintro rfl
        cases hplace.symm.trans ready.place
        exact hlocation rfl
      have hhits (number : Nat) : options.hits (target :: targets) path number = options.hits targets path number := by
        rw [hits_cons, if_neg fun hboth => hpath hboth.1, Nat.add_zero]
      simp only [hhits]
      rwa [if_neg hlocation] at hcut
  untouched := by
    intro location hnone
    obtain ⟨hfirst, hrest⟩ := List.forall_mem_cons.mp hnone
    have hother : location ≠ ready.edit.location := by
      rintro rfl
      exact hfirst _ ready.place
    have hnow : now.tree.entry? location = fs.tree.entry? location := by rw [makes.entries, if_neg hother]
    rw [← hnow]
    refine h.untouched location fun other hmem entry hplace => ?_
    exact hrest other hmem _ (makes.resembles.symm.place hplace).1

/-- Targets that can all be edited are edited, and every line is changed as often as its number is hit. -/
theorem exists_run_of_ready (hwrite : options.dryRun = false) (hmarked : options.WellMarked registry)
    {targets : List Target} {world : World}
    (hready : ∀ target ∈ targets, Nonempty (Ready options registry world.files target)) :
    ∃ later reports, (options.applyAll registry targets).run.run world = (later, .ok reports) ∧
      Pointwise options registry targets world.files later.files := by
  rw [applyAll_of_write hwrite]
  induction targets generalizing world with
  | nil => exact ⟨world, [], rfl, .nil _ _ _⟩
  | cons target rest ih =>
      obtain ⟨⟨ready⟩, hrest⟩ := List.forall_mem_cons.mp hready
      obtain ⟨middle, hrun, makes⟩ := ready.edit.run hwrite
      have hafter : ∀ other ∈ rest, Nonempty (Ready options registry middle.files other) := by
        intro other hother
        obtain ⟨next⟩ := hrest other hother
        exact ready.after hmarked makes next
      obtain ⟨later, reports, hlater, hpointwise⟩ := ih hafter
      refine ⟨later, ready.edit.report :: reports, ?_, hpointwise.cons ready hmarked makes⟩
      rw [run_applyEach_cons, hrun]
      dsimp only
      rw [hlater]
      rfl

/-- Targets that have been edited one after the other could all have been the first one. -/
theorem Succession.ready (hmarked : options.WellMarked registry) {targets : List Target} {reports : List Report}
    {last : FileSystem} (h : Succession options registry fs targets reports last)
    (hselection : ∀ target ∈ targets, ∃ range, target.selection.or options.selection = some (.lines range))
    (hfiles : ∀ target ∈ targets, NamesLines fs target.path) :
    ∀ target ∈ targets, Nonempty (Ready options registry fs target) := by
  induction h with
  | nil => simp
  | cons edit makes rest ih =>
      obtain ⟨⟨range, hrange⟩, hselections⟩ := List.forall_mem_cons.mp hselection
      obtain ⟨hfile, hnames⟩ := List.forall_mem_cons.mp hfiles
      obtain ⟨ready, rfl⟩ := Ready.of_edit edit hrange hfile
      refine List.forall_mem_cons.mpr ⟨⟨ready⟩, fun other hother => ?_⟩
      have hlater := ih hselections fun next hnext => by
        obtain ⟨location, mode, data, hplace, hended⟩ := hnames next hnext
        obtain ⟨new, hafter, hlast, -⟩ := ready.lines_after hmarked makes hplace hended
        exact ⟨location, mode, new, hafter, hlast⟩
      obtain ⟨next⟩ := hlater other hother
      exact ready.before hmarked makes (hnames other hother) next

/-- Two batches that hit every line equally often end in the same files. -/
theorem Pointwise.agree {first second : List Target} {one two : FileSystem}
    (hone : Pointwise options registry first fs one) (htwo : Pointwise options registry second fs two)
    (hready : ∀ target ∈ first, Nonempty (Ready options registry fs target)) (hdistinct : Distinct fs first)
    (hpaths : ∀ path, path ∈ second.map Target.path ↔ path ∈ first.map Target.path)
    (hhits : ∀ path number, options.hits second path number = options.hits first path number) :
    one.Same two := by
  have hexists : ∀ target ∈ second, ∃ other ∈ first, other.path = target.path := fun target htarget =>
    List.mem_map.mp ((hpaths target.path).mp (List.mem_map_of_mem htarget))
  refine ⟨htwo.directory.trans hone.directory.symm, fun location => ?_⟩
  by_cases hnamed : ∃ target ∈ first, ∃ entry, fs.place target.path = .ok ⟨location, entry⟩
  · obtain ⟨target, htarget, entry, hplace⟩ := hnamed
    obtain ⟨ready⟩ := hready target htarget
    cases hplace.symm.trans ready.place
    have hfirst : ∀ other ∈ first, fs.place other.path = fs.place target.path → other.path = target.path :=
      fun other hother => hdistinct other hother target htarget
    have hsecond : ∀ other ∈ second, fs.place other.path = fs.place target.path → other.path = target.path := by
      intro other hother
      obtain ⟨same, hsame, hpath⟩ := hexists other hother
      rw [← hpath]
      exact hdistinct same hsame target htarget
    obtain ⟨new, hnew, hcut⟩ := hone.edited target.path _ _ _ _ ready.place ready.marked hfirst
    obtain ⟨again, hagain, hcutAgain⟩ := htwo.edited target.path _ _ _ _ ready.place ready.marked hsecond
    have hsame : again = new := by
      rw [← Line.cut_flatten again, hcutAgain, ← Line.cut_flatten new, hcut]
      simp only [hhits]
    rw [hnew, hagain, hsame]
  · have hnone : ∀ target ∈ first, ∀ entry, fs.place target.path ≠ .ok ⟨location, entry⟩ :=
      fun target htarget entry hplace => hnamed ⟨target, htarget, entry, hplace⟩
    rw [hone.untouched location hnone]
    refine htwo.untouched location fun target htarget entry hplace => ?_
    obtain ⟨other, hother, hpath⟩ := hexists target htarget
    exact hnone other hother entry (hpath ▸ hplace)

/-- Targets that hit every line as often as those that have been edited can be edited instead of them. -/
theorem exists_same_run (hwrite : options.dryRun = false) (hmarked : options.WellMarked registry)
    {first second : List Target} {world later : World}
    (hpointwise : Pointwise options registry first world.files later.files)
    (hfirst : ∀ target ∈ first, Nonempty (Ready options registry world.files target))
    (hsecond : ∀ target ∈ second, Nonempty (Ready options registry world.files target))
    (hdistinct : Distinct world.files first)
    (hpaths : ∀ path, path ∈ second.map Target.path ↔ path ∈ first.map Target.path)
    (hhits : ∀ path number, options.hits second path number = options.hits first path number) :
    ∃ last reports, (options.applyAll registry second).run.run world = (last, .ok reports) ∧
      later.files.Same last.files := by
  obtain ⟨last, reports, hrun, hlast⟩ := exists_run_of_ready hwrite hmarked hsecond
  exact ⟨last, reports, hrun, hpointwise.agree hlast hfirst hdistinct hpaths hhits⟩

/-- Suppose that a batch of line ranges succeeds on files whose lines all have an end. Each line of a file then
holds what the action makes of it when it is done as often as there are targets of the file that contain its number;
there are as many lines as before, and nothing but the files is changed. In any other order the targets succeed as
well and end in the same files, and so they do when one of the ranges is cut in two. -/
theorem applyAll_lines (hwrite : options.dryRun = false)
    (hmarker : ∀ marker, options.marker = some marker → ∃ text, Marker.parse text = .ok marker)
    (hregistry : registry.Parsed) {targets : List Target} {world later : World} {reports : List Report}
    (hselection : ∀ target ∈ targets, ∃ range, target.selection.or options.selection = some (.lines range))
    (hfiles : ∀ target ∈ targets, NamesLines world.files target.path) (hdistinct : Distinct world.files targets)
    (hrun : (options.applyAll registry targets).run.run world = (later, .ok reports)) :
    (∀ target ∈ targets, ∃ marker location mode old new, options.markerFor registry (.file target.path) = .ok marker ∧
      world.files.place target.path = .ok ⟨location, some (.file mode old)⟩ ∧
      later.files.tree.entry? location = some (.file mode new) ∧ (Line.cut new).length = (Line.cut old).length ∧
      ∀ index raw, (Line.cut old)[index]? = some raw → (Line.cut new)[index]? =
        some ((options.action.applyRaw marker)^[options.hits targets target.path (index + 1)] raw)) ∧
    (∀ location, (∀ target ∈ targets, ∀ entry, world.files.place target.path ≠ .ok ⟨location, entry⟩) →
      later.files.tree.entry? location = world.files.tree.entry? location) ∧
    (∀ others, targets.Perm others → ∃ last again,
      (options.applyAll registry others).run.run world = (last, .ok again) ∧
      later.files.Same last.files) ∧
    ∀ before target after range middle, targets = before ++ target :: after →
      target.selection.or options.selection = some (.lines range) →
      ∀ (hfirst : range.first ≤ middle) (hlast : middle < range.last),
        ∃ last again, (options.applyAll registry (before ++ ⟨target.path, some (.lines (range.upTo middle hfirst))⟩ ::
          ⟨target.path, some (.lines (range.behind middle hlast))⟩ :: after)).run.run world = (last, .ok again) ∧
            later.files.Same last.files := by
  have hmarked := wellMarked_of_parsed hmarker hregistry
  have hplaces : NoLinks world.files targets := by
    intro target htarget location link hlink
    obtain ⟨_, mode, data, hplace, -⟩ := hfiles target htarget
    cases hplace.symm.trans hlink
  have hready : ∀ target ∈ targets, Nonempty (Ready options registry world.files target) := by
    have heach := hrun
    rw [applyAll_of_write hwrite] at heach
    exact (succession_of_run hwrite hplaces heach).ready hmarked hselection hfiles
  obtain ⟨same, again, hsame, hpointwise⟩ := exists_run_of_ready hwrite hmarked hready
  obtain rfl : same = later := congrArg Prod.fst (hsame.symm.trans hrun)
  refine ⟨fun target htarget => ?_, hpointwise.untouched, fun others hperm => ?_, ?_⟩
  · obtain ⟨ready⟩ := hready target htarget
    obtain ⟨new, hentry, hcut⟩ := hpointwise.edited target.path _ _ _ _ ready.place ready.marked
      fun other hother => hdistinct other hother target htarget
    refine ⟨_, _, _, _, new, ready.marked, ready.place, hentry, ?_, fun index raw hraw => ?_⟩
    · rw [hcut, List.length_mapIdx]
    · rw [hcut, List.getElem?_mapIdx, hraw]
      rfl
  · refine exists_same_run hwrite hmarked hpointwise hready
      (fun target htarget => hready target (hperm.mem_iff.mpr htarget)) hdistinct
      (fun path => (hperm.map Target.path).mem_iff.symm) fun path number => ?_
    exact (hperm.countP_eq _).symm
  · rintro before target after range middle rfl hrange hfirst hlast
    obtain ⟨hbefore, hrest⟩ := List.forall_mem_append.mp hready
    obtain ⟨⟨ready⟩, hafter⟩ := List.forall_mem_cons.mp hrest
    obtain rfl := Selection.lines.inj (Option.some.inj (hrange.symm.trans ready.selection))
    have hfront := ready.narrow (ready.range.upTo middle hfirst) hlast.le
    have hback := ready.narrow (ready.range.behind middle hlast) le_rfl
    refine exists_same_run hwrite hmarked hpointwise hready ?_ hdistinct (fun path => by simp)
      (hits_halves hrange hfirst hlast before after)
    exact List.forall_mem_append.mpr
      ⟨hbefore, List.forall_mem_cons.mpr ⟨⟨hfront⟩, List.forall_mem_cons.mpr ⟨⟨hback⟩, hafter⟩⟩⟩

/-- Toggling the first two and the last two of three lines, which leaves the second as it was. -/
theorem applyAll_lines_overlap :
    let path : Path := ⟨[0x66, 0x2e, 0x67, 0x6f]⟩
    let first : Target := ⟨path, some (.lines ⟨1, 2, by decide, by decide⟩)⟩
    let second : Target := ⟨path, some (.lines ⟨2, 3, by decide, by decide⟩)⟩
    let world : World := { files := { tree := { entries := [
      ([path.bytes], .file 0o644 [0x61, 0x0a, 0x62, 0x0a, 0x63, 0x0a])] } } }
    ∃ later last reports again, (applyAll {} .builtin [first, second]).run.run world = (later, .ok reports) ∧
      later.files.tree.entry? [path.bytes] =
        some (.file 0o644 [0x2f, 0x2f, 0x20, 0x61, 0x0a, 0x62, 0x0a, 0x2f, 0x2f, 0x20, 0x63, 0x0a]) ∧
      (applyAll {} .builtin [second, first]).run.run world = (last, .ok again) ∧ later.files.Same last.files := by
  intro path first second world
  have hplace :
      world.files.place path = .ok ⟨[path.bytes], some (.file 0o644 [0x61, 0x0a, 0x62, 0x0a, 0x63, 0x0a])⟩ := by
    rfl
  have hselection : ∀ target ∈ [first, second], ∃ range, target.selection.or none = some (.lines range) := by
    simp [first, second]
  have hfiles : ∀ target ∈ [first, second], NamesLines world.files target.path := by
    simp only [List.forall_mem_cons]
    exact ⟨⟨_, _, _, hplace, rfl⟩, ⟨_, _, _, hplace, rfl⟩, by simp⟩
  have hdistinct : Distinct world.files [first, second] := by simp [Distinct, first, second]
  have hended : ((applyAll {} .builtin [first, second]).run.run world).map
      (fun later => later.files.tree.entry? [path.bytes]) id =
        (some (.file 0o644 [0x2f, 0x2f, 0x20, 0x61, 0x0a, 0x62, 0x0a, 0x2f, 0x2f, 0x20, 0x63, 0x0a]),
          .ok [⟨.file path, .commit, ⟨3, 2, 2⟩⟩, ⟨.file path, .commit, ⟨3, 2, 2⟩⟩]) := by
    decide +kernel
  rcases hrun : (applyAll {} .builtin [first, second]).run.run world with ⟨later, result⟩
  rw [hrun] at hended
  obtain ⟨hentry, rfl⟩ := Prod.mk.inj hended
  obtain ⟨-, -, hperm, -⟩ :=
    applyAll_lines rfl (by simp) Registry.parsed_builtin hselection hfiles hdistinct hrun
  obtain ⟨last, again, hlast, hsame⟩ := hperm [second, first] (.swap second first [])
  exact ⟨later, last, _, again, rfl, hentry, hlast, hsame⟩

end BatchOptions

end LineComment
