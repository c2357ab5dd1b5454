import LineComment.Proofs.Selection

/-! The sections that labels mark. Read as `N* (S I* E N*)* (S I*)?`, with a line that holds no start label for
`N`, one that holds it for `S`, one that holds no end label for `I` and one that holds it for `E`, the lines of
an input fall into sections in exactly one way, whatever other labels they hold. A selection by labels chooses
the lines `I` and complains of a label exactly where this reading lacks a section or leaves one open. -/

namespace LineComment

/-- Where a line stands among the sections. -/
inductive Place where
  | outside
  | opener
  | inside
  | closer
  deriving DecidableEq, Repr

/-- What a line has to hold, or must not hold, to stand at a place. -/
def Place.Admits (pair : LabelSection) (place : Place) (line : Nat × List Char) : Prop :=
  match place with
  | outside => ¬holdsLabel pair.start line.2
  | opener => holdsLabel pair.start line.2
  | inside => ¬holdsLabel pair.stop line.2
  | closer => holdsLabel pair.stop line.2

/-- A section that is closed, and what follows it up to the next one. -/
structure ClosedSection (α : Type) where
  opener : α
  inside : List α
  closer : α
  behind : List α

/-- The sections of a list. -/
structure Outline (α : Type) where
  before : List α
  closed : List (ClosedSection α)
  unclosed : Option (α × List α)

/-- The members of a section and of what follows it, each with its place. -/
def ClosedSection.placed {α : Type} (part : ClosedSection α) : List (α × Place) :=
  (part.opener, .opener) :: part.inside.map (·, .inside) ++ (part.closer, .closer) :: part.behind.map (·, .outside)

namespace Outline

section

variable {α : Type}

/-- The members of an outline in order, each with its place. -/
def placed (outline : Outline α) : List (α × Place) :=
  outline.before.map (·, .outside) ++ outline.closed.flatMap ClosedSection.placed ++
    match outline.unclosed with
    | none => []
    | some (opener, inside) => (opener, .opener) :: inside.map (·, .inside)

/-- The members of an outline in order. -/
def members (outline : Outline α) : List α := outline.placed.map Prod.fst

/-- Whether each member stands within a section. -/
def choices (outline : Outline α) : List Bool := outline.placed.map fun item => item.2 == .inside

variable (before inside : List α) (opener : α)

theorem placed_outside : placed ⟨before, [], none⟩ = before.map (·, .outside) := by simp [placed]

theorem placed_unclosed :
    placed ⟨before, [], some (opener, inside)⟩ =
      before.map (·, .outside) ++ (opener, .opener) :: inside.map (·, .inside) := by simp [placed]

/-- Behind its first section, an outline goes on as one that starts there. -/
theorem placed_cons (part : ClosedSection α) (parts : List (ClosedSection α)) (unclosed : Option (α × List α)) :
    placed ⟨before, part :: parts, unclosed⟩ =
      before.map (·, .outside) ++ (part.opener, .opener) :: part.inside.map (·, .inside) ++
        (part.closer, .closer) :: placed ⟨part.behind, parts, unclosed⟩ := by
  simp [placed, ClosedSection.placed]

theorem choices_outside : choices ⟨before, [], none⟩ = before.map fun _ => false := by
  rw [choices, placed_outside, List.map_map]
  rfl

theorem choices_unclosed :
    choices ⟨before, [], some (opener, inside)⟩ = before.map (fun _ => false) ++ false :: inside.map fun _ => true := by
  rw [choices, placed_unclosed, List.map_append, List.map_cons, List.map_map, List.map_map]
  rfl

theorem choices_cons (part : ClosedSection α) (parts : List (ClosedSection α)) (unclosed : Option (α × List α)) :
    choices ⟨before, part :: parts, unclosed⟩ =
      before.map (fun _ => false) ++ false :: (part.inside.map (fun _ => true) ++
        false :: choices ⟨part.behind, parts, unclosed⟩) := by
  rw [choices, placed_cons, List.append_assoc, List.map_append, List.cons_append, List.map_cons, List.map_append,
    List.map_cons, List.map_map, List.map_map]
  rfl

end

/-- An outline reads some lines if they are its members and each may stand at its place. -/
def Reads (outline : Outline (Nat × List Char)) (pair : LabelSection) (lines : List (Nat × List Char)) : Prop :=
  outline.members = lines ∧ ∀ item ∈ outline.placed, item.2.Admits pair item.1

variable {pair : LabelSection} {lines before inside : List (Nat × List Char)} {opener : Nat × List Char}

theorem reads_outside :
    Reads ⟨before, [], none⟩ pair lines ↔ before = lines ∧ ∀ line ∈ before, ¬holdsLabel pair.start line.2 := by
  simp only [Reads, members, placed_outside, List.map_map, Function.comp_def, List.map_id', List.forall_mem_map,
    Place.Admits]

theorem reads_unclosed :
    Reads ⟨before, [], some (opener, inside)⟩ pair lines ↔
      before ++ opener :: inside = lines ∧ (∀ line ∈ before, ¬holdsLabel pair.start line.2) ∧
        holdsLabel pair.start opener.2 ∧ ∀ line ∈ inside, ¬holdsLabel pair.stop line.2 := by
  simp only [Reads, members, placed_unclosed, List.map_append, List.map_cons, List.map_map, Function.comp_def,
    List.map_id', List.forall_mem_append, List.forall_mem_cons, List.forall_mem_map, Place.Admits]

theorem reads_cons {part : ClosedSection (Nat × List Char)} {parts : List (ClosedSection (Nat × List Char))}
    {unclosed : Option ((Nat × List Char) × List (Nat × List Char))} :
    Reads ⟨before, part :: parts, unclosed⟩ pair lines ↔
      ∃ rest, before ++ part.opener :: (part.inside ++ part.closer :: rest) = lines ∧
        (∀ line ∈ before, ¬holdsLabel pair.start line.2) ∧ holdsLabel pair.start part.opener.2 ∧
        (∀ line ∈ part.inside, ¬holdsLabel pair.stop line.2) ∧ holdsLabel pair.stop part.closer.2 ∧
        Reads ⟨part.behind, parts, unclosed⟩ pair rest := by
  simp only [Reads, members, placed_cons, List.map_append, List.map_cons, List.map_map, Function.comp_def,
    List.map_id', List.forall_mem_append, List.forall_mem_cons, List.forall_mem_map, Place.Admits, List.append_assoc,
    List.cons_append]
  constructor
  · rintro ⟨hlines, hbefore, hopener, hinside, hcloser, hrest⟩
    exact ⟨_, hlines, hbefore, hopener, hinside, hcloser, rfl, hrest⟩
  · rintro ⟨rest, hlines, hbefore, hopener, hinside, hcloser, rfl, hrest⟩
    exact ⟨hlines, hbefore, hopener, hinside, hcloser, hrest⟩

/-- An outline has no section if no line holds the start label. -/
theorem Reads.no_start_iff {outline : Outline (Nat × List Char)} (hreads : outline.Reads pair lines) :
    (∀ line ∈ lines, ¬holdsLabel pair.start line.2) ↔ outline.closed = [] ∧ outline.unclosed = none := by
  obtain ⟨before, _ | ⟨part, parts⟩, _ | ⟨opener, inside⟩⟩ := outline
  · obtain ⟨rfl, hbefore⟩ := reads_outside.mp hreads
    exact iff_of_true hbefore ⟨rfl, rfl⟩
  · obtain ⟨rfl, -, hopener, -⟩ := reads_unclosed.mp hreads
    refine iff_of_false (fun hno => hno opener (by simp) hopener) (by simp)
  all_goals
    obtain ⟨rest, rfl, -, hopener, -⟩ := reads_cons.mp hreads
    exact iff_of_false (fun hno => hno part.opener (by simp) hopener) (by simp)

/-- What stands before the first member with a property is determined by the list. -/
theorem append_cons_inj {α : Type} {p : α → Bool} {front front' back back' : List α} {a a' : α}
    (hfront : ∀ b ∈ front, ¬p b) (ha : p a) (hfront' : ∀ b ∈ front', ¬p b) (ha' : p a')
    (h : front ++ a :: back = front' ++ a' :: back') : front = front' ∧ a = a' ∧ back = back' := by
  have htake := congrArg (List.takeWhile fun b => !p b) h
  rw [List.takeWhile_append_of_pos (by simpa using hfront), List.takeWhile_append_of_pos (by simpa using hfront'),
    List.takeWhile_cons_of_neg (by simpa using ha), List.takeWhile_cons_of_neg (by simpa using ha'),
    List.append_nil, List.append_nil] at htake
  subst htake
  exact ⟨rfl, List.cons.inj (List.append_cancel_left h)⟩

/-- Lines of which an outline closes a section cannot be read with none. -/
theorem not_reads_cons {part : ClosedSection (Nat × List Char)} {parts : List (ClosedSection (Nat × List Char))}
    {unclosed unclosed' : Option ((Nat × List Char) × List (Nat × List Char))} {before' : List (Nat × List Char)}
    (hreads : Reads ⟨before, [], unclosed⟩ pair lines) : ¬Reads ⟨before', part :: parts, unclosed'⟩ pair lines := by
  intro hother
  cases unclosed with
  | none => exact List.cons_ne_nil part parts (hother.no_start_iff.mp (hreads.no_start_iff.mpr ⟨rfl, rfl⟩)).1
  | some last =>
      obtain ⟨rfl, hbefore, hopener, hinside⟩ := reads_unclosed.mp hreads
      obtain ⟨rest, hlines, hbefore', hopener', -, hcloser, -⟩ := reads_cons.mp hother
      obtain ⟨-, -, htail⟩ := append_cons_inj hbefore' hopener' hbefore hopener hlines
      exact hinside part.closer (by simp [← htail]) hcloser

theorem eq_of_reads {outline other : Outline (Nat × List Char)} (hreads : outline.Reads pair lines)
    (hother : other.Reads pair lines) : outline = other := by
  obtain ⟨before, closed, unclosed⟩ := outline
  obtain ⟨before', closed', unclosed'⟩ := other
  induction closed generalizing before before' closed' lines with
  | nil =>
      cases closed' with
      | cons part' parts' => exact absurd hother (not_reads_cons hreads)
      | nil =>
          have hnone := hreads.no_start_iff.symm.trans hother.no_start_iff
          rcases unclosed with _ | ⟨opener, inside⟩ <;> rcases unclosed' with _ | ⟨opener', inside'⟩
          · rw [(reads_outside.mp hreads).1, (reads_outside.mp hother).1]
          · simp at hnone
          · simp at hnone
          · obtain ⟨rfl, hbefore, hopener, -⟩ := reads_unclosed.mp hreads
            obtain ⟨hlines, hbefore', hopener', -⟩ := reads_unclosed.mp hother
            obtain ⟨rfl, rfl, rfl⟩ := append_cons_inj hbefore' hopener' hbefore hopener hlines
            rfl
  | cons part parts ih =>
      cases closed' with
      | nil => exact absurd hreads (not_reads_cons hother)
      | cons part' parts' =>
          obtain ⟨opener, inside, closer, behind⟩ := part
          obtain ⟨opener', inside', closer', behind'⟩ := part'
          obtain ⟨rest, rfl, hbefore, hopener, hinside, hcloser, hrest⟩ := reads_cons.mp hreads
          obtain ⟨rest', hlines, hbefore', hopener', hinside', hcloser', hrest'⟩ := reads_cons.mp hother
          obtain ⟨rfl, rfl, htail⟩ := append_cons_inj hbefore' hopener' hbefore hopener hlines
          obtain ⟨rfl, rfl, rfl⟩ := append_cons_inj hinside' hcloser' hinside hcloser htail
          cases ih _ hrest _ _ hrest'
          rfl

/-- The lines before the first one with a property, that one and the rest, or no line has it. -/
theorem exists_first {α : Type} (p : α → Bool) (list : List α) :
    (∀ a ∈ list, ¬p a) ∨ ∃ front a back, front ++ a :: back = list ∧ (∀ b ∈ front, ¬p b) ∧ p a := by
  cases hfind : list.find? p with
  | none => exact .inl (List.find?_eq_none.mp hfind)
  | some a =>
      obtain ⟨ha, front, back, rfl, hfront⟩ := List.find?_eq_some_iff_append.mp hfind
      exact .inr ⟨front, a, back, rfl, by simpa using hfront, ha⟩

theorem exists_reads (pair : LabelSection) (lines : List (Nat × List Char)) : ∃ outline, Reads outline pair lines := by
  induction hlength : lines.length using Nat.strongRecOn generalizing lines with
  | ind length ih =>
  subst hlength
  rcases exists_first (fun line => holdsLabel pair.start line.2) lines with
    hbefore | ⟨before, opener, tail, rfl, hbefore, hopener⟩
  · exact ⟨⟨lines, [], none⟩, reads_outside.mpr ⟨rfl, hbefore⟩⟩
  rcases exists_first (fun line => holdsLabel pair.stop line.2) tail with
    hinside | ⟨inside, closer, rest, rfl, hinside, hcloser⟩
  · exact ⟨⟨before, [], some (opener, tail)⟩, reads_unclosed.mpr ⟨rfl, hbefore, hopener, hinside⟩⟩
  have hshorter : rest.length < (before ++ opener :: (inside ++ closer :: rest)).length := by
    simp only [List.length_append, List.length_cons]
    omega
  obtain ⟨⟨behind, closed, unclosed⟩, hrest⟩ := ih _ hshorter rest rfl
  exact ⟨⟨before, ⟨opener, inside, closer, behind⟩ :: closed, unclosed⟩,
    reads_cons.mpr ⟨rest, rfl, hbefore, hopener, hinside, hcloser, hrest⟩⟩

end Outline

namespace Selection

variable {pair : LabelSection} {lines : List (Nat × List Char)} {phase : Phase}

theorem choose_labels_outside (hphase : phase ≠ .inside) (number : Nat) (text : List Char) :
    (labels pair).choose phase number text = (false, if holdsLabel pair.start text then .inside else phase) := by
  cases phase with
  | inside => exact absurd rfl hphase
  | unopened | closed => rfl

theorem chooseFrom_outside (hphase : phase ≠ .inside) (hlines : ∀ line ∈ lines, ¬holdsLabel pair.start line.2) :
    (labels pair).chooseFrom phase lines = (lines.map fun _ => false, phase) := by
  induction lines with
  | nil => rfl
  | cons line lines ih =>
      obtain ⟨hline, hlines⟩ := List.forall_mem_cons.mp hlines
      rw [chooseFrom_cons, choose_labels_outside hphase, if_neg hline, ih hlines, List.map_cons]

theorem chooseFrom_inside (hlines : ∀ line ∈ lines, ¬holdsLabel pair.stop line.2) :
    (labels pair).chooseFrom .inside lines = (lines.map fun _ => true, .inside) := by
  induction lines with
  | nil => rfl
  | cons line lines ih =>
      obtain ⟨hline, hlines⟩ := List.forall_mem_cons.mp hlines
      have hchoose : (labels pair).choose .inside line.1 line.2 = (true, .inside) := if_neg hline
      rw [chooseFrom_cons, hchoose, ih hlines, List.map_cons]

/-- The phase after the lines of an outline that starts in another. -/
def phaseAfter (outline : Outline (Nat × List Char)) (phase : Phase) : Phase :=
  if outline.unclosed.isSome then .inside else if outline.closed.isEmpty then phase else .closed

/-- A selection by labels chooses what stands within the sections of an outline. -/
theorem chooseFrom_of_reads {outline : Outline (Nat × List Char)} (hphase : phase ≠ .inside)
    (hreads : outline.Reads pair lines) :
    (labels pair).chooseFrom phase lines = (outline.choices, phaseAfter outline phase) := by
  obtain ⟨before, closed, unclosed⟩ := outline
  induction closed generalizing before lines phase with
  | nil =>
      cases unclosed with
      | none =>
          obtain ⟨rfl, hbefore⟩ := Outline.reads_outside.mp hreads
          rw [chooseFrom_outside hphase hbefore, Outline.choices_outside]
          rfl
      | some last =>
          obtain ⟨rfl, hbefore, hopener, hinside⟩ := Outline.reads_unclosed.mp hreads
          rw [chooseFrom_append, chooseFrom_outside hphase hbefore, chooseFrom_cons, choose_labels_outside hphase,
            if_pos hopener, chooseFrom_inside hinside, Outline.choices_unclosed]
          rfl
  | cons part parts ih =>
      obtain ⟨rest, rfl, hbefore, hopener, hinside, hcloser, hrest⟩ := Outline.reads_cons.mp hreads
      have hchoose : (labels pair).choose .inside part.closer.1 part.closer.2 = (false, .closed) := if_pos hcloser
      rw [chooseFrom_append, chooseFrom_outside hphase hbefore, chooseFrom_cons, choose_labels_outside hphase,
        if_pos hopener, chooseFrom_append, chooseFrom_inside hinside, chooseFrom_cons, hchoose,
        ih (by decide) _ hrest, Outline.choices_cons]
      cases unclosed <;> cases parts <;> rfl

theorem phaseAfter_eq_unopened_iff {outline : Outline (Nat × List Char)} :
    phaseAfter outline .unopened = .unopened ↔ outline.closed = [] ∧ outline.unclosed = none := by
  obtain ⟨before, _ | ⟨part, parts⟩, _ | last⟩ := outline <;> simp [phaseAfter]

theorem phaseAfter_eq_inside_iff {outline : Outline (Nat × List Char)} :
    phaseAfter outline .unopened = .inside ↔ outline.unclosed ≠ none := by
  obtain ⟨before, _ | ⟨part, parts⟩, _ | last⟩ := outline <;> simp [phaseAfter]

theorem phaseAfter_eq_closed_iff {outline : Outline (Nat × List Char)} :
    phaseAfter outline .unopened = .closed ↔ outline.closed ≠ [] ∧ outline.unclosed = none := by
  obtain ⟨before, _ | ⟨part, parts⟩, _ | last⟩ := outline <;> simp [phaseAfter]

/-- A line that is met while no section is open counts for nothing but its start label. -/
theorem chooseAll_append_cons_congr {front : List (Nat × List Char)}
    (houtside : ((labels pair).chooseAll front).2 ≠ .inside) {line other : Nat × List Char}
    (hstart : holdsLabel pair.start line.2 = holdsLabel pair.start other.2) (back : List (Nat × List Char)) :
    (labels pair).chooseAll (front ++ line :: back) = (labels pair).chooseAll (front ++ other :: back) := by
  rw [chooseAll] at houtside
  rw [chooseAll, chooseAll, chooseFrom_append, chooseFrom_append, chooseFrom_cons, chooseFrom_cons,
    choose_labels_outside houtside, choose_labels_outside houtside, hstart]

/-- Lines are read by exactly one outline, and a selection by labels chooses what stands within its sections. It
succeeds if there is a section and each is closed, lacks the start label if no line holds it, and lacks the end
label if the last section is left open. Where no section is open, it is of no matter whether a line holds the
end label. -/
theorem chooseAll_labels_eq_outline (pair : LabelSection) (lines : List (Nat × List Char)) (total : Nat) :
    let choice := (labels pair).chooseAll lines
    let ending := (labels pair).finish choice.2 total
    (∃! outline : Outline (Nat × List Char), outline.Reads pair lines) ∧
      (∀ outline : Outline (Nat × List Char), outline.Reads pair lines → choice.1 = outline.choices) ∧
      (ending = .ok () ↔
        ∃ outline : Outline (Nat × List Char),
          outline.Reads pair lines ∧ outline.closed ≠ [] ∧ outline.unclosed = none) ∧
      (ending = .error (.startLabelNotFound pair.start) ↔ ∀ line ∈ lines, ¬holdsLabel pair.start line.2) ∧
      (ending = .error (.endLabelNotFound pair.stop) ↔
        ∃ outline : Outline (Nat × List Char), outline.Reads pair lines ∧ outline.unclosed ≠ none) ∧
      ∀ front line back, lines = front ++ line :: back →
        (∃ outline : Outline (Nat × List Char), outline.Reads pair front ∧ outline.unclosed = none) →
        ∀ other : Nat × List Char, holdsLabel pair.start other.2 = holdsLabel pair.start line.2 →
          (labels pair).chooseAll (front ++ other :: back) = choice := by
  intro choice ending
  obtain ⟨outline, hreads⟩ := Outline.exists_reads pair lines
  have hunique : ∀ other, Outline.Reads other pair lines → other = outline := fun other hother =>
    Outline.eq_of_reads hother hreads
  have hchoice : choice = (outline.choices, phaseAfter outline .unopened) := chooseFrom_of_reads (by decide) hreads
  have hthe : ∀ P : Outline (Nat × List Char) → Prop,
      (∃ outline, Outline.Reads outline pair lines ∧ P outline) ↔ P outline :=
    fun P => ⟨fun ⟨other, hother, hp⟩ => hunique other hother ▸ hp, fun hp => ⟨outline, hreads, hp⟩⟩
  have hending : ending = (labels pair).finish (phaseAfter outline .unopened) total := by
    show (labels pair).finish choice.2 total = _
    rw [hchoice]
  refine ⟨⟨outline, hreads, hunique⟩, fun other hother => ?_, ?_, ?_, ?_, ?_⟩
  · rw [hunique other hother, hchoice]
  · rw [hthe, ← phaseAfter_eq_closed_iff, hending]
    cases phaseAfter outline .unopened <;> simp [finish]
  · rw [hreads.no_start_iff, ← phaseAfter_eq_unopened_iff, hending]
    cases phaseAfter outline .unopened <;> simp [finish]
  · rw [hthe, ← phaseAfter_eq_inside_iff, hending]
    cases phaseAfter outline .unopened <;> simp [finish]
  · rintro front line back rfl ⟨before, hbefore, hclosed⟩ other hstart
    refine chooseAll_append_cons_congr ?_ hstart back
    rw [chooseAll, chooseFrom_of_reads (by decide) hbefore, Ne, phaseAfter_eq_inside_iff]
    exact not_not.mpr hclosed

/-- The end label holds the start label. So a line with the end label opens a section, a line with the start
label alone stands within it, and a line with the end label closes it; the last section is left open by the line
that opens it. -/
theorem chooseAll_labels_eq_outline_nested :
    let pair : LabelSection := ⟨"a", "ab", by decide, by decide⟩
    let lines : List (Nat × List Char) :=
      [(1, "ab".toList), (2, "a".toList), (3, "ab".toList), (4, "b".toList), (5, "a".toList)]
    ((labels pair).chooseAll lines).1 = [false, true, false, false, false] ∧
      (labels pair).finish ((labels pair).chooseAll lines).2 5 = .error (.endLabelNotFound "ab") := by
  intro pair lines
  have hreads : Outline.Reads ⟨[], [⟨(1, "ab".toList), [(2, "a".toList)], (3, "ab".toList), [(4, "b".toList)]⟩],
      some ((5, "a".toList), [])⟩ pair lines := by
    refine Outline.reads_cons.mpr
      ⟨[(4, "b".toList), (5, "a".toList)], rfl, by decide, by decide, by decide, by decide, ?_⟩
    exact Outline.reads_unclosed.mpr ⟨rfl, by decide, by decide, by decide⟩
  obtain ⟨-, hchoices, -, -, hstop, -⟩ := chooseAll_labels_eq_outline pair lines 5
  exact ⟨hchoices _ hreads, hstop.mpr ⟨_, hreads, by simp⟩⟩

end Selection

end LineComment
