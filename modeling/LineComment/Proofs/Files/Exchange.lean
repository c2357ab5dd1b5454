import LineComment.Proofs.Files.Correspondence
import Mathlib.Logic.Equiv.Basic

/-! Two names of files in one directory that change places, and with them the names of the backups and of the temporary
files beside them. Where nothing stands under the names of the one, this gives the other its name, with all that is
beside it. -/

namespace LineComment

open FileSystem FileTree

/-- What the name of a file is: a whole name between slashes, and not one of the dots. -/
structure Path.IsFileName (name : Bytes) : Prop where
  slash_notMem : slash ∉ name
  ne_nil : name ≠ []
  ne_dot : name ≠ [dot]
  ne_dots : name ≠ [dot, dot]

/-- A name behind nothing, or behind a slash, is the last name of the path. -/
theorem Path.names_append_name {front name : Bytes} (hfront : ∀ b ∈ front.getLast?, b = slash)
    (hname : IsFileName name) : Path.names ⟨front ++ name⟩ = Path.segments ⟨front⟩ ++ [name] := by
  have hslash : ¬endsInSlash ⟨front ++ name⟩ := by
    rw [endsInSlash, List.getLast?_append, List.getLast?_eq_some_getLast hname.ne_nil, Option.some_or, beq_iff_eq]
    exact fun hlast => hname.slash_notMem (Option.some.inj hlast ▸ List.getLast_mem hname.ne_nil)
  rw [names, if_neg hslash, List.append_nil, segments, segments]
  rcases List.eq_nil_or_concat' front with rfl | ⟨before, last, rfl⟩
  · rw [List.nil_append, List.splitOn_eq_singleton hname.slash_notMem, List.filter_cons_of_pos (by simp [hname.ne_nil])]
    rfl
  · obtain rfl : last = slash := hfront last (by simp)
    rw [List.append_assoc, List.singleton_append, List.splitOn_append_cons_self, List.splitOn_append_cons_self,
      List.splitOn_eq_singleton hname.slash_notMem, List.filter_append, List.filter_append,
      List.filter_cons_of_pos (by simp [hname.ne_nil])]
    simp

/-- Two names of one length for a file, behind the same front, which ends in a slash if it is not empty. The extension
is the same too. -/
structure Exchange where
  front : Bytes
  old : Bytes
  new : Bytes
  front_end : ∀ b ∈ front.getLast?, b = Path.slash
  old_name : Path.IsFileName old
  new_name : Path.IsFileName new
  length_eq : new.length = old.length
  zero_iff : 0 ∈ new ↔ 0 ∈ old
  extension_eq : Path.extension? ⟨front ++ new⟩ = Path.extension? ⟨front ++ old⟩

namespace Exchange

variable (change : Exchange)

def source : Path := ⟨change.front ++ change.old⟩

def dest : Path := ⟨change.front ++ change.new⟩

/-- The names that lead to the directory of both. -/
def outer : List Bytes := Path.segments ⟨change.front⟩

/-- A path, or the one with the new name in place of the one with the old name. -/
def path (path : Path) : Path := if path = change.source then change.dest else path

/-- The endings of the names that change places: those of the files, of the backups and of the temporary files. -/
def endings : List Bytes := [[], backupEnding, tempEnding]

/-- The old name and the new one change places, behind each of some endings. -/
def swapped (change : Exchange) : List Bytes → Equiv.Perm Bytes
  | [] => Equiv.refl Bytes
  | ending :: more => (Equiv.swap (change.old ++ ending) (change.new ++ ending)).trans (change.swapped more)

variable {change} {name ending : Bytes} {list : List Bytes}

theorem swapped_of_ne (h : ∀ ending ∈ list, name ≠ change.old ++ ending ∧ name ≠ change.new ++ ending) :
    change.swapped list name = name := by
  induction list with
  | nil => rfl
  | cons ending more ih =>
      obtain ⟨⟨hold, hnew⟩, hmore⟩ := List.forall_mem_cons.mp h
      rw [swapped, Equiv.trans_apply, Equiv.swap_apply_of_ne_of_ne hold hnew, ih hmore]

theorem ne_of_ending_notMem (change : Exchange) (h : ending ∉ list) (hname : name.length = change.old.length) :
    ∀ other ∈ list, name ++ ending ≠ change.old ++ other ∧ name ++ ending ≠ change.new ++ other := by
  refine fun other hother => ⟨fun heq => ?_, fun heq => ?_⟩
  · exact h (List.append_inj_right heq hname ▸ hother)
  · exact h (List.append_inj_right heq (hname.trans change.length_eq.symm) ▸ hother)

theorem swapped_append (change : Exchange) (hending : ending ∈ list) (hnodup : list.Nodup) :
    change.swapped list (change.old ++ ending) = change.new ++ ending ∧
      change.swapped list (change.new ++ ending) = change.old ++ ending := by
  induction list with
  | nil => cases hending
  | cons first more ih =>
      obtain ⟨hfirst, hmore⟩ := List.nodup_cons.mp hnodup
      rw [swapped, Equiv.trans_apply, Equiv.trans_apply]
      rcases List.mem_cons.mp hending with rfl | hmem
      · rw [Equiv.swap_apply_left, Equiv.swap_apply_right]
        exact ⟨swapped_of_ne (change.ne_of_ending_notMem hfirst change.length_eq),
          swapped_of_ne (change.ne_of_ending_notMem hfirst rfl)⟩
      · have hother : ending ∉ [first] := by
          rw [List.mem_singleton]
          rintro rfl
          exact hfirst hmem
        have hold := change.ne_of_ending_notMem hother rfl first List.mem_cons_self
        have hnew := change.ne_of_ending_notMem hother change.length_eq first List.mem_cons_self
        rw [Equiv.swap_apply_of_ne_of_ne hold.1 hold.2, Equiv.swap_apply_of_ne_of_ne hnew.1 hnew.2]
        exact ih hmem hmore

theorem length_swapped (change : Exchange) (list : List Bytes) (name : Bytes) :
    (change.swapped list name).length = name.length := by
  induction list generalizing name with
  | nil => rfl
  | cons ending more ih =>
      rw [swapped, Equiv.trans_apply, ih, Equiv.swap_apply_def]
      split_ifs with hold hnew
      · rw [hold, List.length_append, List.length_append, change.length_eq]
      · rw [hnew, List.length_append, List.length_append, change.length_eq]
      · rfl

/-- The dots are not the name of a file, and they are too short for a name with an ending. -/
theorem swapped_dots (change : Exchange) {dots : Bytes} (hshort : dots.length ≤ 2) (hold : dots ≠ change.old)
    (hnew : dots ≠ change.new) : change.swapped endings dots = dots := by
  have hlong (name : Bytes) {ending : Bytes} (hending : 2 < ending.length) : dots ≠ name ++ ending := by
    rintro rfl
    rw [List.length_append] at hshort
    omega
  refine swapped_of_ne fun ending hending => ?_
  simp only [endings, List.mem_cons, List.not_mem_nil, or_false] at hending
  rcases hending with rfl | rfl | rfl
  · rw [List.append_nil, List.append_nil]
    exact ⟨hold, hnew⟩
  · exact ⟨hlong _ (by decide), hlong _ (by decide)⟩
  · exact ⟨hlong _ (by decide), hlong _ (by decide)⟩

/-- The two names change places in a directory, and so do those of the backups and temporary files. -/
def within (change : Exchange) (directory : Location) : Renaming where
  directory := directory
  name := change.swapped endings
  injective := (change.swapped endings).injective
  length_name := change.length_swapped endings
  name_dot := change.swapped_dots (by decide) change.old_name.ne_dot.symm change.new_name.ne_dot.symm
  name_dots := change.swapped_dots (by decide) change.old_name.ne_dots.symm change.new_name.ne_dots.symm

theorem nodup_endings : endings.Nodup := by decide

theorem within_name_append (change : Exchange) (directory : Location) (hending : ending ∈ endings) :
    (change.within directory).name (change.old ++ ending) = change.new ++ ending :=
  (change.swapped_append hending nodup_endings).1

theorem within_name (change : Exchange) (directory : Location) :
    (change.within directory).name change.old = change.new := by
  have hname := change.within_name_append directory (show [] ∈ endings by decide)
  rwa [List.append_nil, List.append_nil] at hname

/-- What has stood under each of the names stands under the other. -/
theorem entry?_renamed (change : Exchange) (tree : FileTree) (directory : Location) (hending : ending ∈ endings) :
    FileTree.entry? (tree.renamed (change.within directory)) (directory ++ [change.new ++ ending]) =
        tree.entry? (directory ++ [change.old ++ ending]) ∧
      FileTree.entry? (tree.renamed (change.within directory)) (directory ++ [change.old ++ ending]) =
        tree.entry? (directory ++ [change.new ++ ending]) := by
  obtain ⟨hold, hnew⟩ := change.swapped_append hending nodup_endings
  have hentry (name : Bytes) : FileTree.entry? (tree.renamed (change.within directory))
      (directory ++ [change.swapped endings name]) = tree.entry? (directory ++ [name]) := by
    have hplace : (change.within directory).place (directory ++ [name]) = directory ++ [change.swapped endings name] :=
      (change.within directory).place_below name []
    rw [← hplace, tree.renamed_renamed]
  have hfirst := hentry (change.old ++ ending)
  have hsecond := hentry (change.new ++ ending)
  rw [hold] at hfirst
  rw [hnew] at hsecond
  exact ⟨hfirst, hsecond⟩

/-- The two paths correspond, if what stands before the names is not renamed and leads to the directory, if anywhere. -/
theorem relabels {fs : FileSystem} {directory : Location}
    (hclear : ¬fs.tree.Crosses (change.within directory) (linkStart fs.directory change.source) change.outer)
    (hleads : ∀ count dest, fs.tree.Leads count (linkStart fs.directory change.source) change.outer dest →
      fs.tree.IsDirectoryAt dest → dest = directory) :
    Relabels (change.within directory) fs change.outer change.old change.source change.dest := by
  have habsolute {name : Bytes} (hname : Path.IsFileName name) :
      Path.isAbsolute ⟨change.front ++ name⟩ = Path.isAbsolute ⟨change.front⟩ := by
    rw [Path.isAbsolute, Path.isAbsolute, List.head?_append]
    cases hhead : change.front.head? with
    | some b => rfl
    | none =>
        obtain ⟨b, rest, hbytes⟩ := List.exists_cons_of_ne_nil hname.ne_nil
        have hb : b ≠ Path.slash := by
          rintro rfl
          exact hname.slash_notMem (by simp [hbytes])
        simp [hbytes, hb]
  refine ⟨?_, ?_, ?_, Path.names_append_name change.front_end change.old_name, ?_, change.old_name.ne_nil,
    change.old_name.ne_dot, change.old_name.ne_dots, hclear, hleads⟩
  · simp [source, dest, change.zero_iff]
  · rw [source, dest, List.length_append, List.length_append, change.length_eq]
  · rw [source, dest, habsolute change.old_name, habsolute change.new_name]
  · rw [change.within_name]
    exact Path.names_append_name change.front_end change.new_name

end Exchange

end LineComment
