import LineComment.Files.System
import LineComment.Proofs.Files.Walk

/-! The last name of a path and the directory it stands in. A path that names something other than a
directory has both, and so has a path with an ending behind it, which names a neighbour in the same directory.
What a path names is found there, before and after every change that keeps the ways to the directory. -/

namespace LineComment

namespace Path

variable {path : Path} {ending : Bytes}

/-- What can stand behind a name without making more names of it, or one of the dots. -/
structure PlainEnding (ending : Bytes) : Prop where
  slash_notMem : slash ∉ ending
  zero_notMem : 0 ∉ ending
  two_lt : 2 < ending.length

theorem PlainEnding.ne_nil (h : PlainEnding ending) : ending ≠ [] := by
  rintro rfl
  exact absurd h.two_lt (by decide)

/-- An ending without slashes joins the last piece of a path, and that piece is empty only behind a slash. -/
theorem exists_splitOn_append (hending : slash ∉ ending) (bytes : Bytes) :
    ∃ front last, bytes.splitOn slash = front ++ [last] ∧
      (bytes ++ ending).splitOn slash = front ++ [last ++ ending] ∧
      (last = [] → bytes = [] ∨ bytes.getLast? = some slash) := by
  by_cases hslash : slash ∈ bytes
  · obtain ⟨after, before, hreverse, hafter⟩ := List.eq_append_cons_of_mem (List.mem_reverse.mpr hslash)
    have hbytes : bytes = before.reverse ++ slash :: after.reverse := by
      rw [← List.reverse_reverse bytes, hreverse]
      simp
    have hlast : slash ∉ after.reverse := by simpa using hafter
    have hjoined : slash ∉ after.reverse ++ ending := by simp [hafter, hending]
    refine ⟨before.reverse.splitOn slash, after.reverse, ?_, ?_, fun hnil => Or.inr ?_⟩
    · rw [hbytes, List.splitOn_append_cons_self, List.splitOn_eq_singleton hlast]
    · rw [hbytes, List.append_assoc, List.cons_append, List.splitOn_append_cons_self,
        List.splitOn_eq_singleton hjoined]
    · rw [hbytes, hnil, List.getLast?_concat]
  · refine ⟨[], bytes, List.splitOn_eq_singleton hslash, List.splitOn_eq_singleton ?_, Or.inl⟩
    simp [hslash, hending]

theorem names_ne_nil (hpath : path.bytes ≠ []) : path.names ≠ [] := by
  have hnone : slash ∉ ([] : Bytes) := List.not_mem_nil
  obtain ⟨front, last, hfront, _, hlast⟩ := exists_splitOn_append hnone path.bytes
  by_cases hnil : last = []
  · have hslash : path.endsInSlash := by
      rw [endsInSlash, (hlast hnil).resolve_left hpath]
      rfl
    simp [names, hslash]
  · simp [names, segments, hfront, hnil]

/-- A neighbour has the same names, but for the ending of the last one. -/
theorem names_sibling {outer : List Bytes} {name : Bytes} (hnames : path.names = outer ++ [name])
    (hname : name ≠ []) (hending : PlainEnding ending) : (path.sibling ending).names = outer ++ [name ++ ending] := by
  obtain ⟨front, last, hfront, happend, hlast⟩ := exists_splitOn_append hending.slash_notMem path.bytes
  have hslash : ¬path.endsInSlash := by
    intro hslash
    rw [names, if_pos hslash] at hnames
    exact hname (List.cons.inj (List.append_inj_right' hnames rfl)).1.symm
  have hsegments : path.segments = outer ++ [name] := by rw [← hnames, names, if_neg hslash, List.append_nil]
  have hpiece : last ≠ [] := by
    intro hnil
    rcases hlast hnil with hempty | hend
    · simp [segments, hempty] at hsegments
    · exact hslash (by simp [endsInSlash, hend])
  have hsibling : ¬(path.sibling ending).endsInSlash := by
    intro hend
    have hgetLast : (path.bytes ++ ending).getLast? = ending.getLast? := by
      rw [List.getLast?_append, List.getLast?_eq_some_getLast hending.ne_nil, Option.some_or]
    rw [endsInSlash, sibling, hgetLast, beq_iff_eq] at hend
    exact hending.slash_notMem (List.mem_of_getLast? hend)
  have hfilter : front.filter (· ≠ []) = outer ∧ last = name := by
    rw [segments, hfront, List.filter_append, List.filter_cons_of_pos (by simpa using hpiece)] at hsegments
    obtain ⟨hfilter, hlast⟩ := List.append_inj' hsegments rfl
    exact ⟨hfilter, (List.cons.inj hlast).1⟩
  rw [names, if_neg hsibling, List.append_nil, segments, sibling, happend, List.filter_append, hfilter.1, hfilter.2]
  simp [hname]

end Path

namespace FileTree

/-- A walk ends at the place of a proper last name, unless that is a link and has to be followed. -/
theorem walk_proper {tree : FileTree} {aim : Aim} {location : Location} {name : Bytes} {links : Nat}
    (hsearch : tree.IsSearchableAt location) (hname : ProperName name)
    (hlink : aim = .place ∨ ∀ target, tree.entry? (location ++ [name]) ≠ some (.link target)) :
    tree.walk aim links location [name] = .ok ⟨location ++ [name], tree.entry? (location ++ [name])⟩ := by
  rw [walk, advance_proper hsearch hname (by simp)]
  cases hentry : tree.entry? (location ++ [name]) with
  | none => simp
  | some entry =>
      cases entry with
      | file mode data => simp [advance, hentry]
      | directory mode => simp [advance, hentry]
      | link target =>
          have hplace : aim = .place := hlink.resolve_right fun h => h target hentry
          simp [hplace]

end FileTree

namespace FileSystem

open FileTree LineComment.Path

variable {fs now : FileSystem} {path : Path} {directory : Location} {name ending : Bytes} {aim : Aim} {spot : Spot}

/-- A path has `name` as its last name, and the names before it lead to `directory`. -/
structure Names (fs : FileSystem) (path : Path) (directory : Location) (name : Bytes) : Prop where
  zero : path.bytes.contains 0 = false
  length_le : path.bytes.length ≤ maxPath
  leads : ∃ outer count, path.names = outer ++ [name] ∧ count ≤ maxLinks ∧
    fs.tree.Leads count (linkStart fs.directory path) outer directory
  searchable : fs.tree.IsSearchableAt directory
  proper : ProperName name

theorem Names.bytes_ne_nil (h : fs.Names path directory name) : path.bytes ≠ [] := by
  intro hnil
  obtain ⟨outer, count, hnames, _⟩ := h.leads
  simp [names, segments, endsInSlash, hnil] at hnames

theorem Names.resolve (h : fs.Names path directory name) (aim : Aim)
    (hlink : aim = .place ∨ ∀ target, fs.tree.entry? (directory ++ [name]) ≠ some (.link target)) :
    fs.tree.resolve fs.directory path aim =
      .ok ⟨directory ++ [name], fs.tree.entry? (directory ++ [name])⟩ := by
  obtain ⟨outer, count, hnames, hcount, hleads⟩ := h.leads
  obtain ⟨mode, hmode, _⟩ := h.searchable
  have hname : [name] ≠ [[]] := fun heq => h.proper.ne_nil (List.cons.inj heq).1
  have happend := hleads.walk_append (by simp [hmode]) aim (maxLinks - count) [name] (by simp) fun _ => hname
  rw [FileTree.resolve, if_neg (by simpa using h.zero), if_neg h.bytes_ne_nil,
    if_neg (Nat.not_lt.mpr h.length_le), hnames]
  rw [Nat.sub_add_cancel hcount] at happend
  exact happend.trans (walk_proper h.searchable h.proper hlink)

theorem Names.place (h : fs.Names path directory name) :
    fs.place path = .ok ⟨directory ++ [name], fs.tree.entry? (directory ++ [name])⟩ :=
  h.resolve .place (Or.inl rfl)

/-- What stands under a name is found there, unless it is a link. -/
theorem Names.find {entry : Entry} (h : fs.Names path directory name)
    (hentry : fs.tree.entry? (directory ++ [name]) = some entry) (hlink : ∀ target, entry ≠ .link target) :
    fs.find path = .ok (directory ++ [name], entry) := by
  have hresolve := h.resolve .target (Or.inr fun target htarget => hlink target ?_)
  · rw [FileSystem.find, FileSystem.target, hresolve, hentry]
  · exact Option.some.inj (hentry.symm.trans htarget)

/-- A free name can be taken where the directory can be written to. -/
theorem Names.writable (h : fs.Names path directory name) (hfree : fs.tree.entry? (directory ++ [name]) = none) :
    fs.writable path =
      if fs.tree.isChangeable (directory ++ [name]) then .ok (directory ++ [name]) else .error .permissionDenied := by
  have hresolve := h.resolve .file (Or.inr (by simp [hfree]))
  rw [FileSystem.writable, hresolve, hfree]

theorem target_of_find {location : Location} {entry : Entry} (h : fs.find path = .ok (location, entry)) :
    fs.target path = .ok ⟨location, some entry⟩ := by
  rw [FileSystem.find] at h
  split at h
  · cases h
  · cases h
  · next hspot =>
      cases h
      exact hspot

theorem usable_of_resolve (h : fs.tree.resolve fs.directory path aim = .ok spot) :
    path.bytes.contains 0 = false ∧ path.bytes ≠ [] ∧ path.bytes.length ≤ maxPath ∧
      fs.tree.walk aim maxLinks (linkStart fs.directory path) path.names = .ok spot := by
  rw [FileTree.resolve, ← linkStart] at h
  split_ifs at h with hzero hnil hlength
  exact ⟨Bool.eq_false_iff.mpr hzero, hnil, Nat.not_lt.mp hlength, h⟩

theorem entry_of_resolve (h : fs.tree.resolve fs.directory path aim = .ok spot) :
    fs.tree.entry? spot.location = spot.entry := entry_of_walk (usable_of_resolve h).2.2.2

/-- A path that leads to something other than a directory has a proper last name: behind dots or a slash there
would be a directory. -/
theorem exists_names (h : fs.tree.resolve fs.directory path aim = .ok spot)
    (hspot : ∀ mode, spot.entry ≠ some (.directory mode)) : ∃ directory name, fs.Names path directory name := by
  obtain ⟨hzero, hbytes, hlength, hwalk⟩ := usable_of_resolve h
  obtain ⟨outer, name, hnames⟩ := (List.eq_nil_or_concat' path.names).resolve_left (names_ne_nil hbytes)
  rw [hnames] at hwalk
  obtain ⟨count, left, directory, hlinks, hleads, hlast⟩ := exists_leads_of_walk (by simp) hwalk
  have hproper : fs.tree.IsSearchableAt directory ∧ ProperName name := by
    rcases walk_cons_ok hlast with ⟨next, henter, hnext⟩ | ⟨target, hsearch, hname, _⟩
    · rw [walk_nil] at hnext
      cases hnext
      have hproper := henter.proper fun ⟨mode, hmode⟩ => hspot mode hmode
      exact ⟨hproper.1, hproper.2.1⟩
    · exact ⟨hsearch, hname⟩
  have hcount : count ≤ maxLinks := hlinks ▸ Nat.le_add_left count left
  exact ⟨directory, name, hzero, hlength, ⟨outer, count, hnames, hcount, hleads⟩, hproper.1, hproper.2⟩

/-- A path that names a file leads to it. -/
theorem find_of_place {location : Location} {mode : Nat} {data : Bytes}
    (hplace : fs.place path = .ok ⟨location, some (.file mode data)⟩) :
    fs.find path = .ok (location, .file mode data) := by
  obtain ⟨directory, name, hnames⟩ := exists_names hplace (by simp)
  obtain ⟨rfl, hentry⟩ := Spot.mk.inj (Except.ok.inj (hnames.place.symm.trans hplace))
  exact hnames.find hentry (by simp)

theorem Names.isFilePlace {entry : Option Entry} (h : fs.Names path directory name)
    (hentry : fs.tree.entry? (directory ++ [name]) = entry) (hfile : entry.any Entry.isDirectory = false) :
    fs.tree.IsFilePlace (directory ++ [name]) := by
  refine ⟨by simp, ?_, ?_⟩
  · rw [List.dropLast_concat]
    exact h.searchable.isDirectoryAt
  · rintro ⟨mode, hmode⟩
    rw [← hentry, hmode] at hfile
    cases hfile

/-- A place that a path names is one for a file unless a directory stands there. -/
theorem isFilePlace_of_place {location : Location} {old : Option Entry} (hplace : fs.place path = .ok ⟨location, old⟩)
    (hold : old.any Entry.isDirectory = false) : fs.tree.IsFilePlace location := by
  obtain ⟨directory, name, hnames⟩ := exists_names hplace (by rintro mode ⟨⟩; cases hold)
  obtain ⟨rfl, hentry⟩ := Spot.mk.inj (Except.ok.inj (hnames.place.symm.trans hplace))
  exact hnames.isFilePlace hentry hold

theorem linkStart_sibling (hpath : path.bytes ≠ []) :
    linkStart fs.directory (path.sibling ending) = linkStart fs.directory path := by
  obtain ⟨b, rest, hbytes⟩ := List.exists_cons_of_ne_nil hpath
  simp [linkStart, isAbsolute, sibling, hbytes]

theorem properName_of_length (hlower : 2 < name.length) (hupper : name.length ≤ maxName) : ProperName name := by
  refine ⟨?_, ?_, ?_, hupper⟩ <;> rintro rfl <;> exact absurd hlower (by decide)

/-- A neighbour whose name and path are short enough stands in the same directory. -/
theorem Names.sibling (h : fs.Names path directory name) (hending : PlainEnding ending)
    (hpath : path.bytes.length + ending.length ≤ maxPath) (hname : name.length + ending.length ≤ maxName) :
    fs.Names (path.sibling ending) directory (name ++ ending) := by
  obtain ⟨outer, count, hnames, hcount, hleads⟩ := h.leads
  have hlower : 2 < (name ++ ending).length := by
    rw [List.length_append]
    exact Nat.lt_of_lt_of_le hending.two_lt (Nat.le_add_left _ _)
  refine ⟨?_, ?_, ⟨outer, count, names_sibling hnames h.proper.ne_nil hending, hcount, ?_⟩, h.searchable,
    properName_of_length hlower (by rwa [List.length_append])⟩
  · have hzero := h.zero
    rw [Bool.eq_false_iff, ne_eq, List.contains_iff_mem] at hzero ⊢
    rw [Path.sibling, List.mem_append]
    exact fun hmem => hmem.elim hzero hending.zero_notMem
  · rwa [Path.sibling, List.length_append]
  · rwa [linkStart_sibling h.bytes_ne_nil]

/-- A neighbour that can be followed has a name and a path that are short enough. -/
theorem Names.lengths_of_resolve (h : fs.Names path directory name) (hending : PlainEnding ending)
    (hresolve : fs.tree.resolve fs.directory (path.sibling ending) aim = .ok spot) :
    path.bytes.length + ending.length ≤ maxPath ∧ name.length + ending.length ≤ maxName := by
  obtain ⟨_, _, hlength, hwalk⟩ := usable_of_resolve hresolve
  obtain ⟨outer, count, hnames, _⟩ := h.leads
  rw [names_sibling hnames h.proper.ne_nil hending] at hwalk
  obtain ⟨_, _, _, _, _, hlast⟩ := exists_leads_of_walk (by simp) hwalk
  rw [← List.length_append, ← List.length_append]
  refine ⟨hlength, ?_⟩
  have hlong : 2 < (name ++ ending).length := by
    rw [List.length_append]
    exact Nat.lt_of_lt_of_le hending.two_lt (Nat.le_add_left _ _)
  rcases walk_cons_ok hlast with ⟨next, henter, _⟩ | ⟨target, _, hproper, _⟩
  · exact henter.length_le hlong
  · exact hproper.length_le

/-- What a path names stays in its directory while the ways there are kept. -/
theorem Names.of_keepsWays (h : fs.Names path directory name) (hdirectory : now.directory = fs.directory)
    (hkeeps : fs.tree.KeepsWays directory now.tree) : now.Names path directory name := by
  obtain ⟨outer, count, hnames, hcount, hleads⟩ := h.leads
  obtain ⟨mode, hmode, _⟩ := h.searchable
  refine ⟨h.zero, h.length_le, ⟨outer, count, hnames, hcount, ?_⟩, hkeeps.isSearchableAt h.searchable, h.proper⟩
  rw [hdirectory]
  exact hleads.of_keepsWays (by simp [hmode]) hkeeps

/-- A path still leads to the same place while the ways there are kept. -/
theorem find_of_keepsWays {location : Location} {entry later : Entry} (h : fs.find path = .ok (location, entry))
    (hdirectory : now.directory = fs.directory) (hkeeps : fs.tree.KeepsWays location now.tree)
    (hlater : now.tree.entry? location = some later) : now.find path = .ok (location, later) := by
  obtain ⟨hzero, hbytes, hlength, hwalk⟩ := usable_of_resolve (target_of_find h)
  rw [← List.append_nil path.names] at hwalk
  obtain ⟨count, left, dest, hlinks, hleads, hlast⟩ := exists_leads_of_walk (by simp) hwalk
  obtain ⟨rfl, hentry⟩ : dest = location ∧ fs.tree.entry? dest = some entry := by
    rw [walk_nil, Except.ok.injEq, Spot.mk.injEq] at hlast
    exact hlast
  have hlatest := (hleads.of_keepsWays (by simp [hentry]) hkeeps).walk_append
    (by simp [hlater]) .target left [] (by simp) (by simp)
  rw [← hlinks, List.append_nil, walk_nil, hlater] at hlatest
  rw [FileSystem.find, FileSystem.target, FileTree.resolve, if_neg (by simpa using hzero), if_neg hbytes,
    if_neg (Nat.not_lt.mpr hlength), hdirectory, ← linkStart, hlatest]

end FileSystem

end LineComment
