import LineComment.Proofs.Files.Walk
import LineComment.Proofs.Files.Persistence

/-! Other names for what stands in one directory, with all that is below it carried along. Names that can be followed
without looking up one that has become another lead to the same things as before, and if such names lead to the
directory, so does the way over them and a name in it, under its old and under its new name. -/

namespace LineComment

open FileTree

/-- Other names in one directory. Different names stay different and keep their lengths, and the dots stay the dots. -/
structure Renaming where
  directory : Location
  name : Bytes → Bytes
  injective : Function.Injective name
  length_name : ∀ old, (name old).length = old.length
  name_dot : name [Path.dot] = [Path.dot]
  name_dots : name [Path.dot, Path.dot] = [Path.dot, Path.dot]

namespace Renaming

variable (r : Renaming)

/-- Where that stands which has stood at a location. -/
def place (location : Location) : Location :=
  match r.directory.isPrefixOf? location with
  | some (old :: below) => r.directory ++ r.name old :: below
  | _ => location

/-- The same place and what stands there, under the other names. -/
def spot (spot : Spot) : Spot := ⟨r.place spot.location, spot.entry⟩

variable {r} {location other : Location} {name : Bytes}

theorem place_below (r : Renaming) (old : Bytes) (below : Location) :
    r.place (r.directory ++ old :: below) = r.directory ++ r.name old :: below := by
  have hbelow : r.directory.isPrefixOf? (r.directory ++ old :: below) = some (old :: below) :=
    List.isPrefixOf?_eq_some_iff_append_eq.mpr rfl
  rw [place, hbelow]

theorem place_of_not_below (h : ∀ old below, location ≠ r.directory ++ old :: below) : r.place location = location := by
  rw [place]
  split
  · next old below hbelow => exact absurd (List.isPrefixOf?_eq_some_iff_append_eq.mp hbelow).symm (h old below)
  · rfl

theorem below_or_not (r : Renaming) (location : Location) :
    (∃ old below, location = r.directory ++ old :: below) ∨ ∀ old below, location ≠ r.directory ++ old :: below := by
  by_cases h : ∃ old below, location = r.directory ++ old :: below
  · exact Or.inl h
  · exact Or.inr fun old below hbelow => h ⟨old, below, hbelow⟩

@[simp] theorem place_nil (r : Renaming) : r.place [] = [] := place_of_not_below (by simp)

theorem place_directory (r : Renaming) : r.place r.directory = r.directory := by
  refine place_of_not_below fun old below hbelow => ?_
  simpa using congrArg List.length hbelow

theorem place_concat (r : Renaming) (location : Location) (name : Bytes) :
    r.place (location ++ [name]) = r.place location ++ [if location = r.directory then r.name name else name] := by
  split_ifs with hhere
  · rw [hhere, place_below, place_directory]
  · rcases r.below_or_not location with ⟨old, below, rfl⟩ | hnot
    · rw [List.append_assoc, List.cons_append, place_below, place_below, List.append_assoc, List.cons_append]
    · rw [place_of_not_below hnot]
      refine place_of_not_below fun old below hbelow => ?_
      rcases List.eq_nil_or_concat' below with rfl | ⟨front, last, rfl⟩
      · exact hhere (List.append_inj_left' hbelow rfl)
      · rw [← List.cons_append, ← List.append_assoc] at hbelow
        exact hnot old front (List.append_inj_left' hbelow rfl)

theorem dropLast_place (r : Renaming) (location : Location) :
    (r.place location).dropLast = r.place location.dropLast := by
  rcases List.eq_nil_or_concat' location with rfl | ⟨front, last, rfl⟩
  · rw [place_nil, List.dropLast_nil, place_nil]
  · rw [place_concat, List.dropLast_concat, List.dropLast_concat]

theorem place_injective (r : Renaming) : Function.Injective r.place := by
  intro first second h
  rcases r.below_or_not first with ⟨old, below, rfl⟩ | hfirst
  · rw [place_below] at h
    rcases r.below_or_not second with ⟨old', below', rfl⟩ | hsecond
    · rw [place_below] at h
      obtain ⟨hname, rfl⟩ := List.cons.inj (List.append_cancel_left h)
      rw [r.injective hname]
    · rw [place_of_not_below hsecond] at h
      exact absurd h.symm (hsecond _ _)
  · rw [place_of_not_below hfirst] at h
    rcases r.below_or_not second with ⟨old, below, rfl⟩ | hsecond
    · rw [place_below] at h
      exact absurd h (hfirst _ _)
    · rwa [place_of_not_below hsecond] at h

theorem place_linkStart (r : Renaming) (location : Location) (target : Path) :
    r.place (linkStart location target) = linkStart (r.place location) target := by
  rw [linkStart, linkStart]
  split_ifs
  · exact r.place_nil
  · rfl

/-- The same names. -/
def same : Renaming := ⟨[], id, Function.injective_id, fun _ => rfl, rfl, rfl⟩

@[simp] theorem place_same (location : Location) : same.place location = location := by
  rcases same.below_or_not location with ⟨old, below, rfl⟩ | hnot
  · exact same.place_below old below
  · exact place_of_not_below hnot

theorem name_ne_nil (hname : name ≠ []) : r.name name ≠ [] := by
  intro hnil
  have hlength := r.length_name name
  rw [hnil] at hlength
  exact hname (List.length_eq_zero_iff.mp hlength.symm)

theorem name_ne_dot (hname : name ≠ [Path.dot]) : r.name name ≠ [Path.dot] := fun hdot =>
  hname (r.injective (hdot.trans r.name_dot.symm))

theorem name_ne_dots (hname : name ≠ [Path.dot, Path.dot]) : r.name name ≠ [Path.dot, Path.dot] := fun hdots =>
  hname (r.injective (hdots.trans r.name_dots.symm))

end Renaming

namespace FileTree

variable {tree other later : FileTree} {r : Renaming} {location dest : Location} {name : Bytes} {names : List Bytes}
  {aim : Aim} {links : Nat}

/-- A tree with the same things under other names. -/
def Renamed (r : Renaming) (tree other : FileTree) : Prop :=
  ∀ location, other.entry? (r.place location) = tree.entry? location

/-- A tree under other names. -/
def renamed (tree : FileTree) (r : Renaming) : FileTree where
  entries := tree.entries.map fun item => (r.place item.1, item.2)
  stands := tree.stands.map r.place_injective r.place_nil r.dropLast_place

theorem renamed_renamed (tree : FileTree) (r : Renaming) : tree.Renamed r (tree.renamed r) :=
  tree.entries.entry?_map r.place_injective r.place_nil

theorem Renamed.isDirectoryAt (h : tree.Renamed r other) (hlocation : tree.IsDirectoryAt location) :
    other.IsDirectoryAt (r.place location) := by
  obtain ⟨mode, hmode⟩ := hlocation
  exact ⟨mode, (h location).trans hmode⟩

theorem Renamed.isChangeable (h : tree.Renamed r other) (location : Location) :
    other.isChangeable (r.place location) = tree.isChangeable location := by
  rw [FileTree.isChangeable, FileTree.isChangeable, r.dropLast_place, h]

/-- Following some names, one is looked up that has become another. -/
inductive Crosses (tree : FileTree) (r : Renaming) : Location → List Bytes → Prop where
  | here {name : Bytes} {rest : List Bytes} : tree.IsSearchableAt r.directory → r.name name ≠ name →
      tree.Crosses r r.directory (name :: rest)
  | enter {location next : Location} {name : Bytes} {rest : List Bytes} : tree.Enters location name next →
      tree.Crosses r next rest → tree.Crosses r location (name :: rest)
  | follow {location : Location} {name : Bytes} {rest : List Bytes} {target : Path} : tree.IsSearchableAt location →
      ProperName name → tree.entry? (location ++ [name]) = some (.link target) →
      tree.Crosses r (linkStart location target) (target.names ++ rest) → tree.Crosses r location (name :: rest)

theorem Crosses.isDirectoryAt (h : tree.Crosses r location names) : tree.IsDirectoryAt location := by
  cases h with
  | here hsearch _ => exact hsearch.isDirectoryAt
  | enter henter _ => exact henter.isDirectoryAt
  | follow hsearch _ _ _ => exact hsearch.isDirectoryAt

theorem not_crosses_nil : ¬tree.Crosses r location [] := by
  intro h
  cases h

theorem not_crosses_same : ¬tree.Crosses .same location names := by
  intro h
  generalize hsame : Renaming.same = r at h
  induction h with
  | here _ hname =>
      subst hsame
      exact hname rfl
  | enter _ _ ih => exact ih
  | follow _ _ _ _ ih => exact ih

/-- One name that has not become another and under which there is no link. -/
theorem not_crosses_singleton (hname : r.name name = name)
    (hlink : ∀ target, tree.entry? (location ++ [name]) ≠ some (.link target)) : ¬tree.Crosses r location [name] := by
  intro h
  cases h with
  | here _ hother => exact hother hname
  | enter _ hrest => exact not_crosses_nil hrest
  | follow _ _ hentry _ => exact hlink _ hentry

/-- Names that cross a renaming later have done so from the start. -/
theorem Persists.crosses (h : tree.Persists later) (hcross : later.Crosses r location names) :
    tree.Crosses r location names := by
  induction hcross with
  | here hsearch hname => exact .here (h.isSearchableAt hsearch) hname
  | enter henter hrest ih => exact .enter (h.enters henter hrest.isDirectoryAt) ih
  | @follow location name rest target hsearch hname hlink _ ih =>
      have hlasts := h (location ++ [name])
      rw [hlink] at hlasts
      exact .follow (h.isSearchableAt hsearch) hname hlasts.eq_link ih

/-- What one name does on a way. -/
theorem walk_cons (tree : FileTree) (aim : Aim) (links : Nat) (location : Location) (name : Bytes)
    (rest : List Bytes) :
    tree.walk aim links location (name :: rest) =
      match tree.entry? location with
      | none => .error .notFound
      | some (.file _ _) => .error .notADirectory
      | some (.link _) => .error .notADirectory
      | some (.directory mode) =>
        if name = [] then tree.walk aim links location rest
        else if ¬(Entry.directory mode).isSearchable then .error .permissionDenied
        else if name = [Path.dot] then tree.walk aim links location rest
        else if name = [Path.dot, Path.dot] then tree.walk aim links location.dropLast rest
        else if aim = .file ∧ rest = [[]] then .error .isADirectory
        else if maxName < name.length then .error .invalidFilename
        else
          match tree.entry? (location ++ [name]) with
          | some (.link target) =>
            if rest = [] ∧ aim = .place then .ok ⟨location ++ [name], some (.link target)⟩
            else match links with
              | 0 => .error .filesystemLoop
              | links + 1 => tree.walk aim links (linkStart location target) (target.names ++ rest)
          | _ => tree.walk aim links (location ++ [name]) rest := by
  rw [walk, advance]
  cases hlocation : tree.entry? location with
  | none => rfl
  | some entry =>
      cases entry with
      | file mode data => rfl
      | link target => rfl
      | directory mode =>
          dsimp only
          by_cases hempty : name = []
          · rw [if_pos hempty, if_pos hempty, walk]
          rw [if_neg hempty, if_neg hempty]
          by_cases hsearch : ¬(Entry.directory mode).isSearchable
          · rw [if_pos hsearch, if_pos hsearch]
          rw [if_neg hsearch, if_neg hsearch]
          by_cases hdot : name = [Path.dot]
          · rw [if_pos hdot, if_pos hdot, walk]
          rw [if_neg hdot, if_neg hdot]
          by_cases hdots : name = [Path.dot, Path.dot]
          · rw [if_pos hdots, if_pos hdots, walk]
          rw [if_neg hdots, if_neg hdots]
          by_cases hfile : aim = .file ∧ rest = [[]]
          · rw [if_pos hfile, if_pos hfile]
          rw [if_neg hfile, if_neg hfile]
          by_cases hlength : maxName < name.length
          · rw [if_pos hlength, if_pos hlength]
          rw [if_neg hlength, if_neg hlength]
          cases hentry : tree.entry? (location ++ [name]) with
          | none =>
              cases rest with
              | nil => simp only [if_true, walk_nil, hentry]
              | cons next rest => simp only [reduceCtorEq, if_false, walk, advance, hentry]
          | some entry =>
              cases entry with
              | file mode data => dsimp only; rw [walk]
              | directory mode => dsimp only; rw [walk]
              | link target =>
                  dsimp only
                  by_cases hend : rest = [] ∧ aim = .place
                  · rw [if_pos hend, if_pos hend]
                  · rw [if_neg hend, if_neg hend]
                    cases links <;> rfl

theorem ite_eq_map_of {α β : Type} {f : α → β} {condition : Prop} [Decidable condition] {first second : Except Fault β}
    {yes no : Except Fault α} (hyes : condition → first = yes.map f) (hno : ¬condition → second = no.map f) :
    (if condition then first else second) = (if condition then yes else no).map f := by
  split_ifs with h
  · exact hyes h
  · exact hno h

/-- A name behind which others are looked up without crossing a renaming stays as it is. -/
theorem place_append_of_not_crosses {rest : List Bytes} (hhere : tree.IsSearchableAt location)
    (hcross : ¬tree.Crosses r location (name :: rest)) : r.place location ++ [name] = r.place (location ++ [name]) := by
  rw [r.place_concat]
  split_ifs with hdirectory
  · by_cases hsame : r.name name = name
    · rw [hsame]
    · subst hdirectory
      exact absurd (.here hhere hsame) hcross
  · rfl

/-- Names in front that cross no renaming lead to the same places, with as many links followed; so the ways over them
agree if what comes behind does wherever they lead. -/
theorem Renamed.walk_append (h : tree.Renamed r other) {tail tail' : List Bytes}
    (hnil : ∀ front, front ++ tail' = [] ↔ front ++ tail = [])
    (hslash : ∀ front, front ++ tail' = [[]] ↔ front ++ tail = [[]]) {outer : List Bytes}
    (hcross : ¬tree.Crosses r location outer)
    (htail : ∀ count left dest, links = left + count → tree.Leads count location outer dest →
      other.walk aim left (r.place dest) tail' = (tree.walk aim left dest tail).map r.spot) :
    other.walk aim links (r.place location) (outer ++ tail') =
      (tree.walk aim links location (outer ++ tail)).map r.spot := by
  induction links, location, outer using walk_induction with
  | nil links location => exact htail 0 links location rfl (.arrive location)
  | cons links location name rest ihrest ihlinks =>
      have hstep {next : Location} (henter : tree.Enters location name next) :
          other.walk aim links (r.place next) (rest ++ tail') =
            (tree.walk aim links next (rest ++ tail)).map r.spot :=
        ihrest next (fun hrest => hcross (.enter henter hrest)) fun count left dest hlinks hleads =>
          htail count left dest hlinks (.enter henter hleads)
      rw [List.cons_append, List.cons_append, walk_cons, walk_cons, h location]
      simp only [hnil rest, hslash rest]
      cases hlocation : tree.entry? location with
      | none => rfl
      | some entry =>
          cases entry with
          | file mode data => rfl
          | link target => rfl
          | directory mode =>
              dsimp only
              refine ite_eq_map_of (fun hempty => ?_) fun hempty => ite_eq_map_of (fun _ => rfl) fun hsearch => ?_
              · exact hstep (hempty ▸ .stay ⟨mode, hlocation⟩)
              have hhere : tree.IsSearchableAt location := ⟨mode, hlocation, not_not.mp hsearch⟩
              refine ite_eq_map_of (fun hdot => hstep (hdot ▸ .dot hhere)) fun hdot => ?_
              refine ite_eq_map_of (fun hdots => ?_) fun hdots => ?_
              · rw [r.dropLast_place]
                exact hstep (hdots ▸ .dots hhere)
              refine ite_eq_map_of (fun _ => rfl) fun _ => ite_eq_map_of (fun _ => rfl) fun hlength => ?_
              have hname : ProperName name := ⟨hempty, hdot, hdots, Nat.not_lt.mp hlength⟩
              rw [place_append_of_not_crosses hhere hcross, h]
              cases hentry : tree.entry? (location ++ [name]) with
              | none => exact hstep (.down hhere hname (by simp [hentry]))
              | some entry =>
                  cases entry with
                  | file mode data => exact hstep (.down hhere hname (by simp [hentry]))
                  | directory mode => exact hstep (.down hhere hname (by simp [hentry]))
                  | link target =>
                      refine ite_eq_map_of (fun _ => rfl) fun _ => ?_
                      cases links with
                      | zero => rfl
                      | succ fewer =>
                          dsimp only
                          rw [← r.place_linkStart, ← List.append_assoc, ← List.append_assoc]
                          refine ihlinks fewer (Nat.lt_succ_self fewer) _ _ (fun hfollow => ?_) ?_
                          · exact hcross (.follow hhere hname hentry hfollow)
                          · intro count left dest hlinks hleads
                            exact htail (count + 1) left dest (by omega) (.follow hhere hname hentry hleads)

/-- Names that cross no renaming lead to the same things. -/
theorem Renamed.walk (h : tree.Renamed r other) (aim : Aim) (links : Nat) (hcross : ¬tree.Crosses r location names) :
    other.walk aim links (r.place location) names = (tree.walk aim links location names).map r.spot := by
  have hwalk : other.walk aim links (r.place location) (names ++ []) =
      (tree.walk aim links location (names ++ [])).map r.spot := by
    refine h.walk_append (fun _ => Iff.rfl) (fun _ => Iff.rfl) hcross fun count left dest _ _ => ?_
    rw [walk_nil, walk_nil, h]
    rfl
  rwa [List.append_nil] at hwalk

/-- Names that lead to the directory of a renaming, with a name behind them, under its old and under its new name. -/
theorem Renamed.walk_concat (h : tree.Renamed r other) {outer : List Bytes} (hcross : ¬tree.Crosses r location outer)
    (hleads : ∀ count dest, tree.Leads count location outer dest → tree.IsDirectoryAt dest → dest = r.directory)
    (hnil : name ≠ []) (hdot : name ≠ [Path.dot]) (hdots : name ≠ [Path.dot, Path.dot])
    (hlink : aim ≠ .place → ∀ count, count ≤ links → tree.Leads count location outer r.directory →
      tree.IsSearchableAt r.directory → ProperName name → ∀ target,
      tree.entry? (r.directory ++ [name]) = some (.link target) →
      ¬tree.Crosses r (linkStart r.directory target) target.names) :
    other.walk aim links (r.place location) (outer ++ [r.name name]) =
      (tree.walk aim links location (outer ++ [name])).map r.spot := by
  refine h.walk_append (by simp) (fun front => ?_) hcross fun count left dest hlinks hcount => ?_
  · simp [List.append_eq_singleton_iff, hnil, Renaming.name_ne_nil hnil]
  rw [walk_cons, walk_cons, h dest]
  cases hdest : tree.entry? dest with
  | none => rfl
  | some entry =>
      cases entry with
      | file mode data => rfl
      | link target => rfl
      | directory mode =>
          obtain rfl := hleads count dest hcount ⟨mode, hdest⟩
          dsimp only
          rw [if_neg hnil, if_neg (Renaming.name_ne_nil hnil), if_neg hdot, if_neg (Renaming.name_ne_dot hdot),
            if_neg hdots, if_neg (Renaming.name_ne_dots hdots), r.length_name]
          refine ite_eq_map_of (fun _ => rfl) fun hsearch => ite_eq_map_of (fun _ => rfl) fun _ =>
            ite_eq_map_of (fun _ => rfl) fun hlength => ?_
          have hplace : r.place r.directory ++ [r.name name] = r.place (r.directory ++ [name]) := by
            rw [r.place_concat, if_pos rfl]
          rw [hplace, h]
          cases hentry : tree.entry? (r.directory ++ [name]) with
          | none => exact h.walk aim left not_crosses_nil
          | some entry =>
              cases entry with
              | file mode data => exact h.walk aim left not_crosses_nil
              | directory mode => exact h.walk aim left not_crosses_nil
              | link target =>
                  refine ite_eq_map_of (fun _ => rfl) fun hend => ?_
                  cases left with
                  | zero => rfl
                  | succ fewer =>
                      dsimp only
                      rw [← r.place_linkStart, List.append_nil]
                      refine h.walk aim fewer (hlink (fun haim => hend ⟨rfl, haim⟩) count (by omega) hcount
                        ⟨mode, hdest, not_not.mp hsearch⟩ ⟨hnil, hdot, hdots, Nat.not_lt.mp hlength⟩ target hentry)

end FileTree

end LineComment
