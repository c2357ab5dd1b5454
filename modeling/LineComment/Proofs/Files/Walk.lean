import LineComment.Files.Walk
import LineComment.Proofs.Files.Tree

/-! Following a path, name by name. `Leads` says where some names lead with all links followed, and how many
links that takes; a walk is one such way, and what comes behind some names does not change where they lead.
A way survives every change of the tree that leaves its directories and links alone, and also the loss of a
link that could not have been on it, since it leads to a place where no directory is. -/

namespace LineComment

namespace FileTree

variable {tree : FileTree} {aim : Aim} {location next dest : Location} {name : Bytes} {rest : List Bytes}
  {count links : Nat} {target : Path}

/-- What a name must be for something to stand under it in a directory. -/
structure ProperName (name : Bytes) : Prop where
  ne_nil : name ≠ []
  ne_dot : name ≠ [Path.dot]
  ne_dots : name ≠ [Path.dot, Path.dot]
  length_le : name.length ≤ maxName

/-- Whether a directory in which names can be looked up stands at a location. -/
def IsSearchableAt (tree : FileTree) (location : Location) : Prop :=
  ∃ mode, tree.entry? location = some (.directory mode) ∧ (Entry.directory mode).isSearchable

/-- Where a name that is not that of a link leads from a directory. -/
inductive Enters (tree : FileTree) (location : Location) : Bytes → Location → Prop where
  | stay : tree.IsDirectoryAt location → tree.Enters location [] location
  | dot : tree.IsSearchableAt location → tree.Enters location [Path.dot] location
  | dots : tree.IsSearchableAt location → tree.Enters location [Path.dot, Path.dot] location.dropLast
  | down {name : Bytes} : tree.IsSearchableAt location → ProperName name →
      (∀ target, tree.entry? (location ++ [name]) ≠ some (.link target)) →
      tree.Enters location name (location ++ [name])

/-- Where the way of a link in a directory starts. -/
def linkStart (directory : Location) (target : Path) : Location := if target.isAbsolute then [] else directory

/-- Where some names lead from a location, and how many links are followed on the way. -/
inductive Leads (tree : FileTree) : Nat → Location → List Bytes → Location → Prop where
  | arrive (location : Location) : tree.Leads 0 location [] location
  | enter {count : Nat} {location next dest : Location} {name : Bytes} {rest : List Bytes} :
      tree.Enters location name next → tree.Leads count next rest dest →
      tree.Leads count location (name :: rest) dest
  | follow {count : Nat} {location dest : Location} {name : Bytes} {rest : List Bytes} {target : Path} :
      tree.IsSearchableAt location → ProperName name →
      tree.entry? (location ++ [name]) = some (.link target) →
      tree.Leads count (linkStart location target) (target.names ++ rest) dest →
      tree.Leads (count + 1) location (name :: rest) dest

theorem IsSearchableAt.isDirectoryAt (h : tree.IsSearchableAt location) : tree.IsDirectoryAt location := by
  obtain ⟨mode, hmode, _⟩ := h
  exact ⟨mode, hmode⟩

theorem Enters.isDirectoryAt (h : tree.Enters location name next) : tree.IsDirectoryAt location := by
  cases h with
  | stay hdirectory => exact hdirectory
  | dot hsearch | dots hsearch | down hsearch => exact hsearch.isDirectoryAt

/-- A name that is longer than the dots is a proper one. -/
theorem Enters.length_le (h : tree.Enters location name next) (hlong : 2 < name.length) : name.length ≤ maxName := by
  cases h with
  | stay | dot | dots => exact absurd hlong (by decide)
  | down _ hname _ => exact hname.length_le

/-- Only a proper name leads to something other than a directory. -/
theorem Enters.proper (h : tree.Enters location name next) (hnext : ¬tree.IsDirectoryAt next) :
    tree.IsSearchableAt location ∧ ProperName name ∧ next = location ++ [name] := by
  cases h with
  | stay hdirectory => exact absurd hdirectory hnext
  | dot hsearch => exact absurd hsearch.isDirectoryAt hnext
  | dots hsearch =>
      obtain ⟨mode, hmode⟩ := hsearch.isDirectoryAt
      exact absurd (isDirectoryAt_dropLast hmode) hnext
  | down hsearch hname _ => exact ⟨hsearch, hname, rfl⟩

/-- Names lead on only from a directory. -/
theorem Leads.isDirectoryAt (h : tree.Leads count location (name :: rest) dest) : tree.IsDirectoryAt location := by
  cases h with
  | enter henter _ => exact henter.isDirectoryAt
  | follow hsearch _ _ _ => exact hsearch.isDirectoryAt

theorem Leads.isDirectoryAt_or_eq {names : List Bytes} (h : tree.Leads count location names dest) :
    tree.IsDirectoryAt location ∨ dest = location := by
  cases names with
  | nil =>
      cases h
      exact Or.inr rfl
  | cons name rest => exact Or.inl h.isDirectoryAt

/-- In a directory that can be searched, what stands under a proper name decides. -/
theorem advance_proper (hsearch : tree.IsSearchableAt location) (hname : ProperName name)
    (hfile : ¬(aim = .file ∧ rest = [[]])) :
    tree.advance aim location (name :: rest) =
      match tree.entry? (location ++ [name]) with
      | none => if rest = [] then .ok (.arrived ⟨location ++ [name], none⟩) else .error .notFound
      | some (.link target) =>
        if rest = [] ∧ aim = .place then .ok (.arrived ⟨location ++ [name], some (.link target)⟩)
        else .ok (.atLink location target rest)
      | some _ => tree.advance aim (location ++ [name]) rest := by
  obtain ⟨mode, hmode, hbit⟩ := hsearch
  obtain ⟨hempty, hdot, hdots, hlength⟩ := hname
  rw [advance, hmode]
  refine (if_neg hempty).trans ?_
  refine (if_neg (not_not.mpr hbit)).trans ?_
  refine (if_neg hdot).trans ?_
  refine (if_neg hdots).trans ?_
  refine (if_neg hfile).trans ?_
  exact if_neg (Nat.not_lt.mpr hlength)

theorem advance_enter (h : tree.Enters location name next) (hnext : rest ≠ [] → tree.entry? next ≠ none)
    (hfile : aim = .file → rest ≠ [[]]) :
    tree.advance aim location (name :: rest) = tree.advance aim next rest := by
  cases h with
  | stay hdirectory =>
      obtain ⟨mode, hmode⟩ := hdirectory
      simp [advance, hmode]
  | dot hsearch =>
      obtain ⟨mode, hmode, hbit⟩ := hsearch
      simp [advance, hmode, hbit]
  | dots hsearch =>
      obtain ⟨mode, hmode, hbit⟩ := hsearch
      simp [advance, hmode, hbit]
  | down hsearch hname hlink =>
      rw [advance_proper hsearch hname fun h => hfile h.1 h.2]
      cases hentry : tree.entry? (location ++ [name]) with
      | none =>
          have hrest : rest = [] := Classical.byContradiction fun hne => hnext hne hentry
          simp [hrest, advance, hentry]
      | some entry =>
          cases entry with
          | link target => exact absurd hentry (hlink target)
          | file | directory => rfl

theorem advance_link (hsearch : tree.IsSearchableAt location) (hname : ProperName name)
    (hlink : tree.entry? (location ++ [name]) = some (.link target)) (hplace : aim = .place → rest ≠ [])
    (hfile : aim = .file → rest ≠ [[]]) :
    tree.advance aim location (name :: rest) = .ok (.atLink location target rest) := by
  have hfollow : ¬(rest = [] ∧ aim = .place) := fun h => hplace h.2 h.1
  rw [advance_proper hsearch hname fun h => hfile h.1 h.2, hlink]
  simp only [if_neg hfollow]

theorem advance_proper_ok {halt : Halt} (hsearch : tree.IsSearchableAt location) (hname : ProperName name)
    (hfile : ¬(aim = .file ∧ rest = [[]])) (h : tree.advance aim location (name :: rest) = .ok halt) :
    tree.Enters location name (location ++ [name]) ∧ tree.advance aim (location ++ [name]) rest = .ok halt ∨
      ∃ target, tree.entry? (location ++ [name]) = some (.link target) ∧
        (halt = .atLink location target rest ∨
          aim = .place ∧ rest = [] ∧ halt = .arrived ⟨location ++ [name], some (.link target)⟩) := by
  rw [advance_proper hsearch hname hfile] at h
  cases hentry : tree.entry? (location ++ [name]) with
  | none =>
      simp only [hentry] at h
      split_ifs at h with hrest
      refine Or.inl ⟨.down hsearch hname fun target => by simp [hentry], ?_⟩
      rw [hrest, advance, hentry, h]
  | some entry =>
      cases entry with
      | link target =>
          simp only [hentry] at h
          refine Or.inr ⟨target, rfl, ?_⟩
          split_ifs at h with hend
          · exact Or.inr ⟨hend.2, hend.1, (Except.ok.inj h).symm⟩
          · exact Or.inl (Except.ok.inj h).symm
      | file mode data =>
          simp only [hentry] at h
          exact Or.inl ⟨.down hsearch hname fun target => by simp [hentry], h⟩
      | directory mode =>
          simp only [hentry] at h
          exact Or.inl ⟨.down hsearch hname fun target => by simp [hentry], h⟩

/-- What a name on a way that does not fail is: it is entered, it is a link to be followed, or it is a link at
the end and the link itself is meant. -/
theorem advance_cons_ok {halt : Halt} (h : tree.advance aim location (name :: rest) = .ok halt) :
    (∃ next, tree.Enters location name next ∧ tree.advance aim next rest = .ok halt) ∨
      ∃ target, tree.IsSearchableAt location ∧ ProperName name ∧
        tree.entry? (location ++ [name]) = some (.link target) ∧
        (halt = .atLink location target rest ∨
          aim = .place ∧ rest = [] ∧ halt = .arrived ⟨location ++ [name], some (.link target)⟩) := by
  cases hlocation : tree.entry? location with
  | none => simp [advance, hlocation] at h
  | some entry =>
      cases entry with
      | file mode data => simp [advance, hlocation] at h
      | link target => simp [advance, hlocation] at h
      | directory mode =>
          by_cases hempty : name = []
          · subst hempty
            simp only [advance, hlocation, if_true] at h
            exact Or.inl ⟨location, .stay ⟨mode, hlocation⟩, h⟩
          by_cases hbit : (Entry.directory mode).isSearchable
          swap
          · simp [advance, hlocation, hempty, hbit] at h
          have hsearch : tree.IsSearchableAt location := ⟨mode, hlocation, hbit⟩
          by_cases hdot : name = [Path.dot]
          · subst hdot
            simp only [advance, hlocation, hempty, hbit, not_true_eq_false, if_false, if_true] at h
            exact Or.inl ⟨location, .dot hsearch, h⟩
          by_cases hdots : name = [Path.dot, Path.dot]
          · subst hdots
            simp only [advance, hlocation, hempty, hdot, hbit, not_true_eq_false, if_false, if_true] at h
            exact Or.inl ⟨location.dropLast, .dots hsearch, h⟩
          by_cases hfile : aim = .file ∧ rest = [[]]
          · simp [advance, hlocation, hempty, hbit, hdot, hdots, hfile] at h
          by_cases hlength : maxName < name.length
          · simp [advance, hlocation, hempty, hbit, hdot, hdots, hfile, hlength] at h
          have hname : ProperName name := ⟨hempty, hdot, hdots, Nat.not_lt.mp hlength⟩
          rcases advance_proper_ok hsearch hname hfile h with ⟨henter, hnext⟩ | ⟨target, hlink, hhalt⟩
          · exact Or.inl ⟨location ++ [name], henter, hnext⟩
          · exact Or.inr ⟨target, hsearch, hname, hlink, hhalt⟩

theorem walk_nil (tree : FileTree) (aim : Aim) (links : Nat) (location : Location) :
    tree.walk aim links location [] = .ok ⟨location, tree.entry? location⟩ := by
  rw [walk, advance]

theorem walk_enter (h : tree.Enters location name next) (hnext : rest ≠ [] → tree.entry? next ≠ none)
    (hfile : aim = .file → rest ≠ [[]]) :
    tree.walk aim links location (name :: rest) = tree.walk aim links next rest := by
  rw [walk, walk, advance_enter h hnext hfile]

theorem walk_follow (hsearch : tree.IsSearchableAt location) (hname : ProperName name)
    (hlink : tree.entry? (location ++ [name]) = some (.link target)) (hplace : aim = .place → rest ≠ [])
    (hfile : aim = .file → rest ≠ [[]]) :
    tree.walk aim (links + 1) location (name :: rest) =
      tree.walk aim links (linkStart location target) (target.names ++ rest) := by
  rw [walk, advance_link hsearch hname hlink hplace hfile, linkStart]

theorem walk_cons_ok {spot : Spot} (h : tree.walk aim links location (name :: rest) = .ok spot) :
    (∃ next, tree.Enters location name next ∧ tree.walk aim links next rest = .ok spot) ∨
      ∃ target, tree.IsSearchableAt location ∧ ProperName name ∧
        tree.entry? (location ++ [name]) = some (.link target) ∧
        ((∃ fewer, links = fewer + 1 ∧
            tree.walk aim fewer (linkStart location target) (target.names ++ rest) = .ok spot) ∨
          aim = .place ∧ rest = [] ∧ spot = ⟨location ++ [name], some (.link target)⟩) := by
  rw [walk] at h
  cases hadvance : tree.advance aim location (name :: rest) with
  | error fault => simp [hadvance] at h
  | ok halt =>
      rcases advance_cons_ok hadvance with ⟨next, henter, hnext⟩ | ⟨target, hsearch, hname, hlink, rfl | hend⟩
      · refine Or.inl ⟨next, henter, ?_⟩
        rw [walk, hnext]
        rwa [hadvance] at h
      · refine Or.inr ⟨target, hsearch, hname, hlink, Or.inl ?_⟩
        rw [hadvance] at h
        cases links with
        | zero => cases h
        | succ fewer => exact ⟨fewer, rfl, h⟩
      · obtain ⟨haim, hrest, rfl⟩ := hend
        refine Or.inr ⟨target, hsearch, hname, hlink, Or.inr ⟨haim, hrest, ?_⟩⟩
        rw [hadvance] at h
        exact (Except.ok.inj h).symm

/-- Following names, with so many links left: behind a name come the others, and a link puts other names in front and
leaves fewer links. So the links fall first, and the names only between two links. -/
theorem walk_induction {motive : Nat → Location → List Bytes → Prop}
    (nil : ∀ links location, motive links location [])
    (cons : ∀ links location name rest, (∀ next, motive links next rest) →
      (∀ fewer < links, ∀ next names, motive fewer next names) → motive links location (name :: rest))
    (links : Nat) (location : Location) (names : List Bytes) : motive links location names := by
  induction links using Nat.strongRecOn generalizing location names with
  | ind links ihlinks =>
      induction names generalizing location with
      | nil => exact nil links location
      | cons name rest ihrest => exact cons links location name rest ihrest fun fewer hfewer => ihlinks fewer hfewer

/-- Where a walk ends it tells what stands there. -/
theorem entry_of_walk {names : List Bytes} {spot : Spot} (h : tree.walk aim links location names = .ok spot) :
    tree.entry? spot.location = spot.entry := by
  induction links, location, names using walk_induction with
  | nil links location =>
      rw [walk_nil] at h
      cases h
      rfl
  | cons links location name rest ihrest ihlinks =>
      rcases walk_cons_ok h with ⟨next, _, hnext⟩ | ⟨target, _, _, hlink, ⟨fewer, rfl, hfewer⟩ | ⟨_, _, rfl⟩⟩
      · exact ihrest next hnext
      · exact ihlinks fewer (Nat.lt_succ_self fewer) _ _ hfewer
      · exact hlink

/-- What comes behind some names is followed from where these lead, with the links that are left. -/
theorem Leads.walk_append {outer : List Bytes} (h : tree.Leads count location outer dest)
    (hdest : tree.entry? dest ≠ none) (aim : Aim) (links : Nat) (tail : List Bytes)
    (htail : aim ≠ .target → tail ≠ []) (hfile : aim = .file → tail ≠ [[]]) :
    tree.walk aim (links + count) location (outer ++ tail) = tree.walk aim links dest tail := by
  have hplaces (front : List Bytes) : aim = .place → front ++ tail ≠ [] := by
    rintro rfl hnil
    exact htail (by simp) (List.append_eq_nil_iff.mp hnil).2
  have hfiles (front : List Bytes) : aim = .file → front ++ tail ≠ [[]] := by
    rintro rfl hsingle
    rcases List.append_eq_singleton_iff.mp hsingle with ⟨_, hslash⟩ | ⟨_, hnil⟩
    · exact hfile rfl hslash
    · exact htail (by simp) hnil
  induction h with
  | arrive location => rfl
  | @enter count location next dest name rest henter hleads ih =>
      rw [← ih hdest, List.cons_append]
      refine walk_enter henter (fun _ => ?_) (hfiles rest)
      rcases hleads.isDirectoryAt_or_eq with ⟨mode, hmode⟩ | rfl
      · simp [hmode]
      · exact hdest
  | @follow count location dest name rest target hsearch hname hlink hleads ih =>
      rw [← Nat.add_assoc, ← ih hdest, List.cons_append, List.append_assoc]
      exact walk_follow hsearch hname hlink (hplaces rest) (hfiles rest)

/-- A walk that does not fail goes where the names in front lead, and on from there. -/
theorem exists_leads_of_walk {outer tail : List Bytes} {spot : Spot} (htail : aim ≠ .target → tail ≠ [])
    (h : tree.walk aim links location (outer ++ tail) = .ok spot) :
    ∃ count left dest, links = left + count ∧ tree.Leads count location outer dest ∧
      tree.walk aim left dest tail = .ok spot := by
  induction links, location, outer using walk_induction with
  | nil links location => exact ⟨0, links, location, rfl, .arrive location, h⟩
  | cons links location name rest ihrest ihlinks =>
      rcases walk_cons_ok h with ⟨next, henter, hnext⟩ | ⟨target, hsearch, hname, hlink, hfollow | hend⟩
      · obtain ⟨count, left, dest, hlinks, hleads, hwalk⟩ := ihrest next hnext
        exact ⟨count, left, dest, hlinks, .enter henter hleads, hwalk⟩
      · obtain ⟨fewer, rfl, hfewer⟩ := hfollow
        rw [List.append_eq, ← List.append_assoc] at hfewer
        obtain ⟨count, left, dest, hlinks, hleads, hwalk⟩ := ihlinks fewer (Nat.lt_succ_self fewer) _ _ hfewer
        exact ⟨count + 1, left, dest, by omega, .follow hsearch hname hlink hleads, hwalk⟩
      · obtain ⟨rfl, hnil, _⟩ := hend
        exact absurd (List.append_eq_nil_iff.mp hnil).2 (htail (by simp))

theorem Enters.unique {other : Location} (h : tree.Enters location name next)
    (hother : tree.Enters location name other) : next = other := by
  cases h with
  | stay =>
      cases hother with
      | stay => rfl
      | down _ hname _ => exact absurd rfl hname.ne_nil
  | dot =>
      cases hother with
      | dot => rfl
      | down _ hname _ => exact absurd rfl hname.ne_dot
  | dots =>
      cases hother with
      | dots => rfl
      | down _ hname _ => exact absurd rfl hname.ne_dots
  | down _ hname _ =>
      cases hother with
      | stay => exact absurd rfl hname.ne_nil
      | dot => exact absurd rfl hname.ne_dot
      | dots => exact absurd rfl hname.ne_dots
      | down => rfl

/-- A name that is entered is not that of a link. -/
theorem Enters.not_link (h : tree.Enters location name next) (hname : ProperName name) :
    tree.entry? (location ++ [name]) ≠ some (.link target) := by
  cases h with
  | stay => exact absurd rfl hname.ne_nil
  | dot => exact absurd rfl hname.ne_dot
  | dots => exact absurd rfl hname.ne_dots
  | down _ _ hlink => exact hlink target

/-- Names lead to one place only. -/
theorem Leads.unique {names : List Bytes} {other : Location} {fewer : Nat}
    (h : tree.Leads count location names dest) (hother : tree.Leads fewer location names other) : dest = other := by
  induction h generalizing fewer with
  | arrive location =>
      cases hother
      rfl
  | enter henter _ ih =>
      cases hother with
      | enter henter' hleads' =>
          cases henter.unique henter'
          exact ih hleads'
      | follow _ hname hlink _ => exact absurd hlink (henter.not_link hname)
  | follow _ hname hlink _ ih =>
      cases hother with
      | enter henter' _ => exact absurd hlink (henter'.not_link hname)
      | follow _ _ hlink' hleads' =>
          cases hlink.symm.trans hlink'
          exact ih hleads'

/-- A way over some names and more goes over the place where the first lead. -/
theorem Leads.split {outer tail : List Bytes} (h : tree.Leads count location (outer ++ tail) dest) :
    ∃ first second middle, tree.Leads first location outer middle ∧ tree.Leads second middle tail dest := by
  generalize hnames : outer ++ tail = names at h
  induction h generalizing outer with
  | arrive location =>
      obtain ⟨rfl, rfl⟩ := List.append_eq_nil_iff.mp hnames
      exact ⟨0, 0, location, .arrive location, .arrive location⟩
  | @enter count location next dest name rest henter hleads ih =>
      cases outer with
      | nil =>
          obtain rfl : tail = name :: rest := hnames
          exact ⟨0, count, location, .arrive location, .enter henter hleads⟩
      | cons head outer =>
          obtain ⟨rfl, hrest⟩ := List.cons.inj hnames
          obtain ⟨first, second, middle, hfirst, hsecond⟩ := ih hrest
          exact ⟨first, second, middle, .enter henter hfirst, hsecond⟩
  | @follow count location dest name rest target hsearch hname hlink hleads ih =>
      cases outer with
      | nil =>
          obtain rfl : tail = name :: rest := hnames
          exact ⟨0, count + 1, location, .arrive location, .follow hsearch hname hlink hleads⟩
      | cons head outer =>
          obtain ⟨rfl, hrest⟩ := List.cons.inj hnames
          have hjoined : target.names ++ outer ++ tail = target.names ++ rest := by
            rw [List.append_assoc, ← hrest]
            rfl
          obtain ⟨first, second, middle, hfirst, hsecond⟩ := ih hjoined
          exact ⟨first + 1, second, middle, .follow hsearch hname hlink hfirst, hsecond⟩

/-- Whether an entry at a location cannot be on a way to `dest`: a file is only ever at its end, and a link
leads somewhere else, from where no way leads on. -/
def Misses (tree : FileTree) (dest location : Location) : Entry → Prop
  | .file _ _ => location ≠ dest
  | .directory _ => False
  | .link target => ∃ count last, tree.Leads count (linkStart location.dropLast target) target.names last ∧
      ¬tree.IsDirectoryAt last ∧ last ≠ dest

/-- Whether a later tree still has everything that can be on a way to `dest`. -/
def KeepsWays (tree : FileTree) (dest : Location) (later : FileTree) : Prop :=
  ∀ location entry, tree.entry? location = some entry →
    later.entry? location = some entry ∨ tree.Misses dest location entry

variable {later : FileTree}

theorem KeepsWays.isDirectoryAt (h : tree.KeepsWays dest later) (hlocation : tree.IsDirectoryAt location) :
    later.IsDirectoryAt location := by
  obtain ⟨mode, hmode⟩ := hlocation
  exact ⟨mode, (h location _ hmode).resolve_right id⟩

theorem KeepsWays.isSearchableAt (h : tree.KeepsWays dest later) (hlocation : tree.IsSearchableAt location) :
    later.IsSearchableAt location := by
  obtain ⟨mode, hmode, hbit⟩ := hlocation
  exact ⟨mode, (h location _ hmode).resolve_right id, hbit⟩

theorem KeepsWays.enters (h : tree.KeepsWays dest later) (hdest : tree.entry? dest ≠ none)
    (henter : tree.Enters location name next) (hleads : tree.Leads count next rest dest) :
    later.Enters location name next := by
  cases henter with
  | stay hdirectory => exact .stay (h.isDirectoryAt hdirectory)
  | dot hsearch => exact .dot (h.isSearchableAt hsearch)
  | dots hsearch => exact .dots (h.isSearchableAt hsearch)
  | down hsearch hname hlink =>
      refine .down (h.isSearchableAt hsearch) hname fun target htarget => ?_
      have hkept : ∃ entry, tree.entry? (location ++ [name]) = some entry ∧
          later.entry? (location ++ [name]) = some entry := by
        rcases hleads.isDirectoryAt_or_eq with ⟨mode, hmode⟩ | rfl
        · exact ⟨_, hmode, (h _ _ hmode).resolve_right id⟩
        · obtain ⟨entry, hentry⟩ := Option.ne_none_iff_exists'.mp hdest
          refine ⟨entry, hentry, (h _ _ hentry).resolve_right fun hmiss => ?_⟩
          cases entry with
          | file mode data => exact hmiss rfl
          | directory mode => exact hmiss
          | link target => exact hlink target hentry
      obtain ⟨entry, hentry, hsame⟩ := hkept
      exact hlink target (hentry.trans (hsame.symm.trans htarget))

/-- A way to something that stands in a tree is still there in a tree that keeps the ways to it. -/
theorem Leads.of_keepsWays {names : List Bytes} (hleads : tree.Leads count location names dest)
    (hdest : tree.entry? dest ≠ none) (h : tree.KeepsWays dest later) :
    later.Leads count location names dest := by
  induction hleads with
  | arrive location => exact .arrive location
  | enter henter hleads ih => exact .enter (h.enters hdest henter hleads) (ih hdest h)
  | @follow count location dest name rest target hsearch hname hlink hleads ih =>
      refine .follow (h.isSearchableAt hsearch) hname ((h _ _ hlink).resolve_right ?_) (ih hdest h)
      rintro ⟨more, last, hlast, hno, hother⟩
      rw [List.dropLast_concat] at hlast
      obtain ⟨first, second, middle, hfirst, hsecond⟩ := hleads.split
      cases hfirst.unique hlast
      cases rest with
      | nil =>
          cases hsecond
          exact hother rfl
      | cons name rest => exact hno hsecond.isDirectoryAt

end FileTree

end LineComment
