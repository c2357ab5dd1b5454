import LineComment.Proofs.Comment
import LineComment.Proofs.Stream
import LineComment.Proofs.Utf8.Reading
import Mathlib.Data.List.Infix

/-! What a preview shows: the changes of the chosen lines, in the order of the lines, each closed by a line feed
of its own. The changes are all there is to an edited input, for made in its lines they give what a run
writes. -/

namespace LineComment

/-- The bytes that show some changes. -/
def LineChange.shown (changes : List LineChange) : Bytes :=
  changes.flatMap fun change => Utf8.encode change.print ++ [Bytes.lineFeed]

/-- Some lines with some changes made in them. A line without a change keeps its content. -/
def Line.merge (changes : List LineChange) (lines : List Line) : Bytes :=
  (lines.mapIdx fun index line =>
    (changes.find? fun change => change.number == index + 1).elim line.content LineChange.after ++ line.ending).flatten

theorem Utf8.newline_mem_lossy_iff {bytes : Bytes} : '\n' ∈ lossy bytes ↔ Bytes.lineFeed ∈ bytes := by
  have hinfix : ['\n'] <:+: lossy bytes ↔ encode ['\n'] <:+: bytes := infix_lossy_iff (by decide)
  rwa [List.singleton_infix_iff, show encode ['\n'] = [Bytes.lineFeed] by rfl, List.singleton_infix_iff] at hinfix

theorem newline_notMem_repr (number : Nat) : '\n' ∉ number.repr.toList := by
  intro hmem
  rw [Nat.repr, String.toList_ofList] at hmem
  exact absurd (Nat.isDigit_of_mem_toDigits (by decide) (by decide) hmem) (by decide)

theorem LineChange.newline_mem_print_iff (change : LineChange) :
    '\n' ∈ change.print ↔ '\n' ∈ Utf8.lossy change.before ∨ '\n' ∈ Utf8.lossy change.after := by
  have hline : '\n' ∉ "line ".toList := by decide
  have hcolon : '\n' ∉ ": ".toList := by decide
  have harrow : '\n' ∉ " -> ".toList := by decide
  unfold LineChange.print
  simp only [List.mem_append, hline, newline_notMem_repr, hcolon, harrow, false_or, or_false]

theorem LineChange.lineFeed_notMem_print {change : LineChange} (hbefore : Bytes.lineFeed ∉ change.before)
    (hafter : Bytes.lineFeed ∉ change.after) : Bytes.lineFeed ∉ Utf8.encode change.print := by
  have hencode : Bytes.lineFeed ∈ Utf8.encode change.print ↔ '\n' ∈ change.print := Utf8.mem_encode_iff (by decide)
  rw [hencode, newline_mem_print_iff, Utf8.newline_mem_lossy_iff, Utf8.newline_mem_lossy_iff]
  exact not_or.mpr ⟨hbefore, hafter⟩

/-- Changes of lines are shown with one line feed each. -/
theorem LineChange.count_shown {changes : List LineChange}
    (hchanges : ∀ change ∈ changes, Bytes.lineFeed ∉ change.before ∧ Bytes.lineFeed ∉ change.after) :
    (shown changes).count Bytes.lineFeed = changes.length := by
  induction changes with
  | nil => rfl
  | cons change changes ih =>
      obtain ⟨⟨hbefore, hafter⟩, hrest⟩ := List.forall_mem_cons.mp hchanges
      have hcount : (Utf8.encode change.print).count Bytes.lineFeed = 0 :=
        List.count_eq_zero.mpr (lineFeed_notMem_print hbefore hafter)
      have hih := ih hrest
      rw [shown] at hih ⊢
      rw [List.flatMap_cons, List.count_append, List.count_append, hcount, hih, List.count_singleton_self,
        List.length_cons]
      omega

namespace Job

variable (job : Job)

/-- The changes of the chosen ones among some lines, from the line `number` on. -/
def changesFrom (number : Nat) (lines : List Line) (choices : List Bool) : List LineChange :=
  (job.visitsFrom number lines choices).filterMap Visit.change?

theorem changesFrom_cons (number : Nat) (line : Line) (lines : List Line) (chosen : Bool) (choices : List Bool) :
    job.changesFrom number (line :: lines) (chosen :: choices) =
      (if chosen then [⟨number, line.content, job.action.apply job.marker line.content⟩] else []) ++
        job.changesFrom (number + 1) lines choices := by
  cases chosen <;> rfl

variable {job} {number : Nat} {lines : List Line} {choices : List Bool}

/-- The changes are those of the chosen lines. -/
theorem mem_changesFrom {change : LineChange} :
    change ∈ job.changesFrom number lines choices ↔
      ∃ index line, lines[index]? = some line ∧ choices[index]? = some true ∧
        change = ⟨index + number, line.content, job.action.apply job.marker line.content⟩ := by
  induction lines generalizing number choices with
  | nil => simp [changesFrom, visitsFrom]
  | cons line lines ih =>
      cases choices with
      | nil => simp [changesFrom, visitsFrom]
      | cons chosen choices =>
          have hsplit := Nat.or_exists_add_one (p := fun index => ∃ other, (line :: lines)[index]? = some other ∧
            (chosen :: choices)[index]? = some true ∧
              change = ⟨index + number, other.content, job.action.apply job.marker other.content⟩)
          rw [changesFrom_cons, List.mem_append, ih, ← hsplit]
          refine or_congr ?_ (exists_congr fun index => ?_)
          · cases chosen <;> simp
          · simp [Nat.add_assoc, Nat.add_comm 1]

theorem pairwise_changesFrom : (job.changesFrom number lines choices).Pairwise (·.number < ·.number) := by
  induction lines generalizing number choices with
  | nil => exact .nil
  | cons line lines ih =>
      cases choices with
      | nil => exact .nil
      | cons chosen choices =>
          rw [changesFrom_cons]
          cases chosen with
          | false => exact ih
          | true =>
              refine .cons (fun change hchange => ?_) ih
              obtain ⟨index, _, _, _, rfl⟩ := mem_changesFrom.mp hchange
              show number < index + (number + 1)
              omega

theorem length_changesFrom (hlength : choices.length = lines.length) :
    (job.changesFrom number lines choices).length = (job.tally lines choices).selected := by
  rw [changesFrom, List.length_filterMap_eq_countP, ← job.count_visitsFrom number hlength, count]
  refine List.countP_congr fun visit _ => ?_
  rw [Visit.change?, Option.isSome_map, Visit.isSelected]

theorem flatten_map_record (visits : List Visit) :
    (visits.map Visit.record).flatten = LineChange.shown (visits.filterMap Visit.change?) := by
  induction visits with
  | nil => rfl
  | cons visit visits ih =>
      rw [List.map_cons, List.flatten_cons, ih, List.filterMap_cons, Visit.record]
      cases visit.change? <;> rfl

/-- The change of a line is found by its number, if the line is chosen. -/
theorem find?_changesFrom (hlength : choices.length = lines.length) {index : Nat} (hindex : index < lines.length) :
    ((job.changesFrom 1 lines choices).find? fun change => change.number == index + 1) =
      if choices[index] then
        some ⟨index + 1, lines[index].content, job.action.apply job.marker lines[index].content⟩
      else none := by
  have hline : lines[index]? = some lines[index] := List.getElem?_eq_getElem hindex
  have hchoice : choices[index]? = some choices[index] := List.getElem?_eq_getElem (hlength ▸ hindex)
  cases hfind : (job.changesFrom 1 lines choices).find? fun change => change.number == index + 1 with
  | none =>
      rw [if_neg]
      intro hchosen
      have hmem : ⟨index + 1, lines[index].content, job.action.apply job.marker lines[index].content⟩ ∈
          job.changesFrom 1 lines choices :=
        mem_changesFrom.mpr ⟨index, _, hline, by rw [hchoice, hchosen], rfl⟩
      exact List.find?_eq_none.mp hfind _ hmem (by simp)
  | some change =>
      obtain ⟨other, line, hother, hchosen, rfl⟩ := mem_changesFrom.mp (List.mem_of_find?_eq_some hfind)
      have hnumber := List.find?_some hfind
      obtain rfl : other = index := by simpa using hnumber
      obtain rfl : lines[other] = line := Option.some.inj (hline.symm.trans hother)
      rw [if_pos (Option.some.inj (hchoice.symm.trans hchosen))]

/-- With the changes made in its lines, an input is what a run writes of it. -/
theorem merge_changesFrom (hlength : choices.length = lines.length) :
    Line.merge (job.changesFrom 1 lines choices) lines = (List.zipWith job.written lines choices).flatten := by
  refine congrArg List.flatten (List.ext_getElem (by simp [hlength]) fun index hindex _ => ?_)
  rw [List.length_mapIdx] at hindex
  rw [List.getElem_mapIdx, List.getElem_zipWith, written, find?_changesFrom hlength hindex]
  split_ifs <;> rfl

/-- A preview on an output with room for it shows the records of the lines, and then ends as the scan. -/
theorem run_preview {world : World} (hroom : world.output.room = none) (hflush : world.output.flushFault = none)
    (reader : Reader) :
    (job.preview reader).run.run world =
      ({ world with output := world.output.takeAll ((job.scan reader).visits.map Visit.record) },
        (job.scan reader).result.map (job.report .preview)) :=
  run_printAll_bind hroom hflush _ _ "preview" _

theorem keepsFiles_preview (reader : Reader) : (job.preview reader).KeepsFiles :=
  keepsFiles_printAll_bind _ _ "preview" _

theorem keepsFiles_stream (reader : Reader) : (job.stream reader).KeepsFiles := by
  rw [stream]
  split_ifs
  · exact keepsFiles_preview reader
  · exact keepsFiles_printAll_bind _ _ "output" _

/-- A dry run leaves the files as they are, whatever its source and however it ends. -/
theorem keepsFiles_apply (hdry : job.dryRun = true) : job.apply.KeepsFiles := by
  rw [apply]
  split
  · exact Attempt.KeepsFiles.bind (fun _ => rfl) fun reader => keepsFiles_stream reader
  · refine (keepsFiles_attempt fun _ => rfl).bind fun reader => ?_
    rw [if_pos hdry]
    exact keepsFiles_preview reader

end Job

end LineComment
