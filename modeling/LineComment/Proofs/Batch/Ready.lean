import LineComment.Proofs.Batch.Sequence
import LineComment.Proofs.Language.Parsed
import LineComment.Proofs.Undo

/-! Targets that are ranges of lines. An edit of a range leaves all lines of the file where they are, so a target that
could be edited before another one can be edited after it, and the other way round. -/

namespace LineComment

open FileSystem

/-- An action on a raw line: it works on what stands before the end, and the end is put back. -/
def Action.applyRaw (action : Action) (marker : Marker) (raw : Bytes) : Bytes :=
  action.apply marker (Line.ofRaw raw).content ++ (Line.ofRaw raw).ending

theorem Line.getLast?_flatten_of_ended {pieces : List Bytes} (hne : pieces ≠ [])
    (hpieces : ∀ piece ∈ pieces, ∃ front, piece = front ++ [Bytes.lineFeed] ∧ Bytes.lineFeed ∉ front) :
    pieces.flatten.getLast? = some Bytes.lineFeed := by
  obtain rfl | ⟨others, last, rfl⟩ := List.eq_nil_or_concat' pieces
  · exact absurd rfl hne
  · obtain ⟨front, rfl, -⟩ := hpieces last (List.mem_append_right _ List.mem_cons_self)
    rw [List.flatten_append, List.flatten_singleton, ← List.append_assoc, List.getLast?_concat]

namespace Job

variable {job : Job} {range : LineRange} {input : Bytes}

/-- What a run over a range writes has the lines of the input, with the action made on those of the range. -/
theorem cut_output_lined (hmarker : job.marker.WellFormed) (hselection : job.selection = .lines range)
    (hinput : input.getLast? = some Bytes.lineFeed) :
    Line.cut ((job.scan ⟨input, none⟩).visits.map Visit.output).flatten = (Line.cut input).mapIdx fun index raw =>
      if range.contains (index + 1) then job.action.applyRaw job.marker raw else raw := by
  rw [(scan_lined hselection).1, Line.cut_flatten_of_ended (ended_of_mem_written hmarker)]
  refine List.ext_getElem (by simp [lined]) fun index hindex _ => ?_
  rw [List.length_map, lined, List.length_mapIdx, List.length_map] at hindex
  have hraw := List.getElem_mem hindex
  have hback := (Line.splits_iff.mpr (rfl : Line.ofRaw (Line.cut input)[index] = _)).content_append_ending
    (Line.ne_nil_of_mem_cut hraw)
  rw [Line.closing, if_pos (.inr (Line.getLast?_of_mem_cut (.inr hinput) hraw)), List.append_nil] at hback
  simp only [lined, List.getElem_map, List.getElem_mapIdx]
  cases range.contains (index + 1) with
  | true => rfl
  | false => exact hback

theorem getLast?_output_lined (hmarker : job.marker.WellFormed) (hselection : job.selection = .lines range)
    (hinput : input.getLast? = some Bytes.lineFeed) :
    ((job.scan ⟨input, none⟩).visits.map Visit.output).flatten.getLast? = some Bytes.lineFeed := by
  rw [(scan_lined hselection).1]
  refine Line.getLast?_flatten_of_ended (fun hnil => ?_) (ended_of_mem_written hmarker)
  have hcut : Line.cut input = [] := by simpa [lined] using hnil
  have hflatten := Line.cut_flatten input
  rw [hcut] at hflatten
  rw [← hflatten] at hinput
  cases hinput

end Job

namespace BatchOptions

variable {options : BatchOptions} {registry : Registry} {fs now : FileSystem} {target other : Target}

/-- The markers that a batch can use are well-formed. -/
def WellMarked (options : BatchOptions) (registry : Registry) : Prop :=
  ∀ source marker, options.markerFor registry source = .ok marker → marker.WellFormed

theorem wellMarked_of_parsed (hmarker : ∀ marker, options.marker = some marker → ∃ text, Marker.parse text = .ok marker)
    (hregistry : registry.Parsed) : options.WellMarked registry := by
  intro source marker hsource
  rw [markerFor] at hsource
  have hparse : ∃ text, Marker.parse text = .ok marker := by
    cases hgiven : options.marker with
    | some given =>
        rw [hgiven] at hsource
        cases hsource
        exact hmarker marker hgiven
    | none =>
        rw [hgiven] at hsource
        exact hregistry.resolve hsource
  obtain ⟨text, htext⟩ := hparse
  exact Marker.wellFormed_of_parse htext

/-- A path names a file whose lines all have an end. -/
def NamesLines (fs : FileSystem) (path : Path) : Prop :=
  ∃ location mode data, fs.place path = .ok ⟨location, some (.file mode data)⟩ ∧ data.getLast? = some Bytes.lineFeed

/-- A target that is a range of lines and can be edited, with what is known of its file: where it stands, its mode
and its bytes. -/
structure Ready (options : BatchOptions) (registry : Registry) (fs : FileSystem) (target : Target) where
  range : LineRange
  marker : Marker
  location : Location
  mode : Nat
  old : Bytes
  selection : target.selection.or options.selection = some (.lines range)
  marked : options.markerFor registry (.file target.path) = .ok marker
  place : fs.place target.path = .ok ⟨location, some (.file mode old)⟩
  ended : old.getLast? = some Bytes.lineFeed
  replaceable : Replacement.Replaceable fs target.path
  within : range.last ≤ (Line.cut old).length

namespace Ready

/-- The job of such a target. -/
def job (ready : Ready options registry fs target) : Job :=
  ⟨.file target.path, .lines ready.range, ready.marker, options.action, options.dryRun⟩

theorem scanned (ready : Ready options registry fs target) : (ready.job.scan ⟨ready.old, none⟩).result =
    .ok (ready.job.countsOf (Job.lined ready.range ready.old)) := by
  have hlength : (Job.lined ready.range ready.old).length = (Line.cut ready.old).length := by simp [Job.lined]
  rw [(Job.scan_lined rfl).2, if_neg (Nat.not_lt.mpr (hlength ▸ ready.within))]

/-- The edit of such a target. -/
def edit (ready : Ready options registry fs target) : Edit options registry fs target where
  job := ready.job
  location := ready.location
  mode := ready.mode
  old := ready.old
  counts := ready.job.countsOf (Job.lined ready.range ready.old)
  settled := job_eq_ok_iff.mpr ⟨_, _, ready.selection, ready.marked, rfl⟩
  place := ready.place
  replaceable := ready.replaceable
  scanned := ready.scanned

/-- The same target with a range that ends no later. -/
def narrow (ready : Ready options registry fs target) (range : LineRange) (h : range.last ≤ ready.range.last) :
    Ready options registry fs ⟨target.path, some (.lines range)⟩ where
  range := range
  marker := ready.marker
  location := ready.location
  mode := ready.mode
  old := ready.old
  selection := rfl
  marked := ready.marked
  place := ready.place
  ended := ready.ended
  replaceable := ready.replaceable
  within := h.trans ready.within

theorem cut_new (ready : Ready options registry fs target) (hmarked : options.WellMarked registry) :
    Line.cut ready.edit.new = (Line.cut ready.old).mapIdx fun index raw =>
      if ready.range.contains (index + 1) then options.action.applyRaw ready.marker raw else raw :=
  Job.cut_output_lined (hmarked _ _ ready.marked) rfl ready.ended

theorem length_cut_new (ready : Ready options registry fs target) (hmarked : options.WellMarked registry) :
    (Line.cut ready.edit.new).length = (Line.cut ready.old).length := by
  rw [ready.cut_new hmarked, List.length_mapIdx]

theorem getLast?_new (ready : Ready options registry fs target) (hmarked : options.WellMarked registry) :
    ready.edit.new.getLast? = some Bytes.lineFeed :=
  Job.getLast?_output_lined (hmarked _ _ ready.marked) rfl ready.ended

/-- What stands at the location of the file is named by its path. -/
theorem place_eq (ready : Ready options registry fs target) {path : Path} {entry : Option Entry}
    (hplace : fs.place path = .ok ⟨ready.location, entry⟩) : fs.place path = fs.place target.path := by
  have hentry : fs.tree.entry? ready.location = entry := FileSystem.entry_of_resolve hplace
  have hown : fs.tree.entry? ready.location = some (.file ready.mode ready.old) :=
    FileSystem.entry_of_resolve ready.place
  rw [hplace, ready.place, ← hentry, hown]

/-- What the path of a file names once a target is edited. -/
theorem place_after (ready : Ready options registry fs target) (makes : ready.edit.Makes now) {path : Path}
    {location : Location} {mode : Nat} {data : Bytes}
    (hplace : fs.place path = .ok ⟨location, some (.file mode data)⟩) :
    now.place path =
      .ok ⟨location, some (.file mode (if location = ready.location then ready.edit.new else data))⟩ := by
  rw [(makes.resembles.place hplace).1, makes.entries]
  by_cases hlocation : location = ready.location
  · subst hlocation
    cases hplace.symm.trans ((ready.place_eq hplace).trans ready.place)
    rw [if_pos rfl, if_pos (show ready.location = ready.edit.location from rfl)]
    rfl
  · have hentry : fs.tree.entry? location = some (.file mode data) := FileSystem.entry_of_resolve hplace
    rw [if_neg (show ¬location = ready.edit.location from hlocation), if_neg hlocation, hentry]

/-- Of a file whose lines all have an end, an edit makes one with as many lines. -/
theorem lines_after (ready : Ready options registry fs target) (hmarked : options.WellMarked registry)
    (makes : ready.edit.Makes now) {path : Path} {location : Location} {mode : Nat} {data : Bytes}
    (hplace : fs.place path = .ok ⟨location, some (.file mode data)⟩) (hended : data.getLast? = some Bytes.lineFeed) :
    ∃ new, now.place path = .ok ⟨location, some (.file mode new)⟩ ∧ new.getLast? = some Bytes.lineFeed ∧
      (Line.cut new).length = (Line.cut data).length := by
  refine ⟨_, ready.place_after makes hplace, ?_⟩
  by_cases hlocation : location = ready.location
  · subst hlocation
    cases hplace.symm.trans ((ready.place_eq hplace).trans ready.place)
    rw [if_pos rfl]
    exact ⟨ready.getLast?_new hmarked, ready.length_cut_new hmarked⟩
  · rw [if_neg hlocation]
    exact ⟨hended, rfl⟩

/-- Another target that can be edited can be edited afterwards. -/
theorem after (ready : Ready options registry fs target) (hmarked : options.WellMarked registry)
    (makes : ready.edit.Makes now) (next : Ready options registry fs other) :
    Nonempty (Ready options registry now other) := by
  obtain ⟨new, hplace, hended, hlength⟩ := ready.lines_after hmarked makes next.place next.ended
  exact ⟨⟨next.range, next.marker, next.location, next.mode, new, next.selection, next.marked, hplace, hended,
    makes.resembles.replaceable next.replaceable, hlength ▸ next.within⟩⟩

/-- A target that can be edited afterwards can be edited before. -/
theorem before (ready : Ready options registry fs target) (hmarked : options.WellMarked registry)
    (makes : ready.edit.Makes now) (hfile : NamesLines fs other.path) (next : Ready options registry now other) :
    Nonempty (Ready options registry fs other) := by
  obtain ⟨location, mode, data, hplace, hended⟩ := hfile
  obtain ⟨new, hafter, -, hlength⟩ := ready.lines_after hmarked makes hplace hended
  cases hafter.symm.trans next.place
  exact ⟨⟨next.range, next.marker, next.location, next.mode, data, next.selection, next.marked, hplace, hended,
    makes.resembles.symm.replaceable next.replaceable, hlength ▸ next.within⟩⟩

/-- An edit of a range of lines. -/
theorem of_edit (edit : Edit options registry fs target) {range : LineRange}
    (hselection : target.selection.or options.selection = some (.lines range)) (hfile : NamesLines fs target.path) :
    ∃ ready : Ready options registry fs target, ready.edit = edit := by
  obtain ⟨location, mode, data, hplace, hended⟩ := hfile
  obtain ⟨selection, marker, hsettled, hmarker, hjob⟩ := job_eq_ok_iff.mp edit.settled
  obtain rfl : Selection.lines range = selection := Option.some.inj (hselection.symm.trans hsettled)
  cases hplace.symm.trans edit.place
  have hrange : edit.job.selection = .lines range := by rw [hjob]
  have hscanned := edit.scanned
  rw [(Job.scan_lined hrange).2] at hscanned
  split_ifs at hscanned with hshort
  have hwithin : range.last ≤ (Line.cut edit.old).length := by
    simpa [Job.lined] using hshort
  exact ⟨⟨range, marker, _, _, _, hselection, hmarker, edit.place, hended, edit.replaceable, hwithin⟩,
    Edit.eq _ _⟩

end Ready

end BatchOptions

end LineComment
