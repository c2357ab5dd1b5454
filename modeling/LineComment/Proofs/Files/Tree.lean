import LineComment.Files.Tree
import LineComment.Proofs.Lists
import Mathlib.Data.List.Infix

/-! What stands in a tree after a change. Putting and erasing are seen at one location only, where a file can be
put, and a directory goes, or moves, with all that is below it. Each time everything that is left stands in a
directory, so that the tree takes the change. -/

namespace LineComment

namespace Listing

variable {listing : Listing} {location place source dest : Location} {entry : Entry}

theorem entry?_root (listing : Listing) : listing.entry? [] = some (.directory rootMode) := rfl

theorem entry?_of_ne_nil (listing : Listing) (hlocation : location ≠ []) :
    listing.entry? location = listing.lookup location := if_neg hlocation

theorem lookup_replace (listing : Listing) (location place : Location) (entry : Entry) :
    (listing.map fun item => if item.1 = location then (location, entry) else item).lookup place =
      if place = location then (listing.lookup location).map fun _ => entry else listing.lookup place := by
  induction listing with
  | nil => simp
  | cons item listing ih =>
      rw [List.map_cons, lookup_cons_ite, lookup_cons_ite, lookup_cons_ite, ih]
      by_cases hitem : item.1 = location
      · by_cases hplace : place = location <;> simp [hitem, hplace]
      · by_cases hplace : place = location
        · rw [if_neg hitem, hplace, if_neg (Ne.symm hitem), if_pos rfl, if_pos rfl, if_neg (Ne.symm hitem)]
        · rw [if_neg hitem, if_neg hplace, if_neg hplace]

theorem lookup_eq_none_of_not_any (hany : ¬listing.any (·.1 == location)) : listing.lookup location = none := by
  refine List.lookup_eq_none_iff.mpr fun item hitem => ?_
  have hother : item.1 ≠ location := fun heq => hany (List.any_eq_true.mpr ⟨item, hitem, beq_iff_eq.mpr heq⟩)
  exact bne_iff_ne.mpr (Ne.symm hother)

theorem exists_lookup_of_any (hany : listing.any (·.1 == location)) :
    ∃ entry, listing.lookup location = some entry := by
  obtain ⟨item, hitem, hhere⟩ := List.any_eq_true.mp hany
  refine Option.isSome_iff_exists.mp (Option.isSome_iff_ne_none.mpr fun hnone => ?_)
  exact bne_iff_ne.mp (List.lookup_eq_none_iff.mp hnone item hitem) (beq_iff_eq.mp hhere).symm

theorem exists_entry_of_mem {item : Location × Entry} (h : item ∈ listing) :
    ∃ entry, listing.entry? item.1 = some entry := by
  by_cases hroot : item.1 = []
  · exact ⟨_, by rw [hroot, entry?_root]⟩
  · rw [entry?_of_ne_nil _ hroot]
    exact exists_lookup_of_any (List.any_eq_true.mpr ⟨item, h, beq_self_eq_true _⟩)

theorem mem_of_entry (hlocation : location ≠ []) (h : listing.entry? location = some entry) :
    (location, entry) ∈ listing := by
  rw [entry?_of_ne_nil _ hlocation, List.lookup_eq_some_iff] at h
  obtain ⟨front, rest, rfl, _⟩ := h
  simp

theorem entry?_put (listing : Listing) (hlocation : location ≠ []) (entry : Entry) (place : Location) :
    entry? (listing.put location entry) place = if place = location then some entry else listing.entry? place := by
  by_cases hroot : place = []
  · rw [hroot, entry?_root, entry?_root, if_neg (Ne.symm hlocation)]
  · rw [entry?_of_ne_nil _ hroot, entry?_of_ne_nil _ hroot, put]
    by_cases hany : listing.any (·.1 == location)
    · obtain ⟨old, hold⟩ := exists_lookup_of_any hany
      rw [if_pos hany, lookup_replace, hold]
      rfl
    · rw [if_neg hany, List.lookup_append, lookup_cons_ite]
      by_cases hplace : place = location
      · rw [if_pos hplace, if_pos hplace, hplace, lookup_eq_none_of_not_any hany, Option.none_or]
      · rw [if_neg hplace, if_neg hplace, List.lookup_nil, Option.or_none]

/-- What is left of a listing stands where it stood. -/
theorem entry?_filter (listing : Listing) (keep : Location → Bool) (hroot : keep []) (place : Location) :
    entry? (listing.filter fun item => keep item.1) place = if keep place then listing.entry? place else none := by
  by_cases hplace : place = []
  · rw [hplace, entry?_root, entry?_root, if_pos hroot]
  · rw [entry?_of_ne_nil _ hplace, entry?_of_ne_nil _ hplace, lookup_filter]

theorem entry?_erase (listing : Listing) (hlocation : location ≠ []) (place : Location) :
    entry? (listing.erase location) place = if place = location then none else listing.entry? place := by
  have hfilter := listing.entry?_filter (fun other => other ≠ location) (by simpa using hlocation.symm) place
  by_cases hplace : place = location <;> simpa [erase, hplace] using hfilter

/-- Whether a directory stands at a location. -/
def IsDirectoryAt (listing : Listing) (location : Location) : Prop :=
  ∃ mode, listing.entry? location = some (.directory mode)

theorem isDirectoryAt_iff : listing.IsDirectoryAt location ↔ (listing.entry? location).any Entry.isDirectory := by
  rw [IsDirectoryAt]
  rcases listing.entry? location with _ | _ | _ | _ <;> simp [Entry.isDirectory]

theorem isDirectoryAt_root (listing : Listing) : listing.IsDirectoryAt [] := ⟨rootMode, rfl⟩

theorem stands_iff : listing.Stands ↔ ∀ item ∈ listing, listing.IsDirectoryAt item.1.dropLast := by
  simp only [Stands, isDirectoryAt_iff]

theorem Stands.above (h : listing.Stands) (hentry : listing.entry? location = some entry) :
    listing.IsDirectoryAt location.dropLast := by
  by_cases hroot : location = []
  · rw [hroot]
    exact listing.isDirectoryAt_root
  · exact stands_iff.mp h _ (mem_of_entry hroot hentry)

/-- Where a directory stands only a directory can be put. -/
theorem IsDirectoryAt.put (h : listing.IsDirectoryAt place) (hlocation : location ≠ [])
    (hentry : listing.IsDirectoryAt location → entry.isDirectory) :
    IsDirectoryAt (listing.put location entry) place := by
  rw [isDirectoryAt_iff, entry?_put _ hlocation]
  split_ifs with hplace
  · exact hentry (hplace ▸ h)
  · exact isDirectoryAt_iff.mp h

theorem Stands.put (h : listing.Stands) (hlocation : location ≠ []) (habove : listing.IsDirectoryAt location.dropLast)
    (hentry : listing.IsDirectoryAt location → entry.isDirectory) : Stands (listing.put location entry) := by
  refine stands_iff.mpr fun item hitem => ?_
  obtain ⟨other, hother⟩ := exists_entry_of_mem hitem
  rw [entry?_put _ hlocation] at hother
  split_ifs at hother with hplace
  · rw [hplace]
    exact habove.put hlocation hentry
  · exact (h.above hother).put hlocation hentry

/-- What is kept stands in a directory, if the directories above it are kept too. -/
theorem Stands.filter (h : listing.Stands) (keep : Location → Bool) (hroot : keep [])
    (habove : ∀ place, keep place → listing.IsDirectoryAt place.dropLast → keep place.dropLast) :
    Stands (listing.filter fun item => keep item.1) := by
  refine stands_iff.mpr fun item hitem => ?_
  obtain ⟨hitem, hkeep⟩ := List.mem_filter.mp hitem
  have hdirectory := stands_iff.mp h item hitem
  rw [isDirectoryAt_iff, entry?_filter listing keep hroot, if_pos (habove _ hkeep hdirectory)]
  exact isDirectoryAt_iff.mp hdirectory

theorem Stands.erase (h : listing.Stands) (hlocation : location ≠ []) (hfile : ¬listing.IsDirectoryAt location) :
    Stands (listing.erase location) := by
  refine h.filter (fun other => other ≠ location) (by simpa using hlocation.symm) fun place _ habove => ?_
  rw [decide_eq_true_iff]
  exact fun heq => hfile (heq ▸ habove)

theorem Stands.eraseAll (h : listing.Stands) (location : Location) :
    Stands (listing.filter fun item => !location.isPrefixOf item.1) := by
  by_cases hroot : location = []
  · intro item hitem
    rw [hroot, List.mem_filter] at hitem
    cases hitem.2
  have hkept : !location.isPrefixOf [] := by cases location <;> simp at hroot ⊢
  refine h.filter (fun other => !location.isPrefixOf other) hkept fun place hkeep _ => ?_
  rw [Bool.not_eq_true', Bool.eq_false_iff, ne_eq, List.isPrefixOf_iff_prefix] at hkeep ⊢
  exact fun hunder => hkeep (hunder.trans (List.dropLast_prefix _))

theorem movedTo_below (source dest below : Location) : movedTo source dest (source ++ below) = dest ++ below := by
  rw [movedTo, List.isPrefixOf?_eq_some_iff_append_eq.mpr rfl]

theorem movedTo_of_not_below (h : ¬source <+: location) (dest : Location) :
    movedTo source dest location = location := by
  rw [movedTo]
  cases hunder : source.isPrefixOf? location with
  | none => rfl
  | some below => exact absurd ⟨below, List.isPrefixOf?_eq_some_iff_append_eq.mp hunder⟩ h

/-- What does not stand at or below the new place does not get into each other's way. -/
theorem movedTo_injective (hplace : ¬dest <+: place) (hlocation : ¬dest <+: location)
    (h : movedTo source dest place = movedTo source dest location) : place = location := by
  by_cases hp : source <+: place <;> by_cases hl : source <+: location
  · obtain ⟨below, rfl⟩ := hp
    obtain ⟨under, rfl⟩ := hl
    rw [movedTo_below, movedTo_below] at h
    rw [List.append_cancel_left h]
  · obtain ⟨below, rfl⟩ := hp
    rw [movedTo_below, movedTo_of_not_below hl] at h
    exact absurd ⟨below, h⟩ hlocation
  · obtain ⟨under, rfl⟩ := hl
    rw [movedTo_of_not_below hp, movedTo_below] at h
    exact absurd ⟨under, h.symm⟩ hplace
  · rwa [movedTo_of_not_below hp, movedTo_of_not_below hl] at h

theorem dropLast_movedTo (hlocation : location ≠ source) :
    (movedTo source dest location).dropLast = movedTo source dest location.dropLast := by
  by_cases hunder : source <+: location
  · obtain ⟨below, rfl⟩ := hunder
    have hbelow : below ≠ [] := fun hnil => hlocation (by rw [hnil, List.append_nil])
    rw [movedTo_below, List.dropLast_append_of_ne_nil hbelow, List.dropLast_append_of_ne_nil hbelow, movedTo_below]
  · have habove : ¬source <+: location.dropLast := fun h => hunder (h.trans (List.dropLast_prefix _))
    rw [movedTo_of_not_below hunder, movedTo_of_not_below habove]

theorem lookup_map_fst {f : Location → Location} (hf : ∀ item ∈ listing, f item.1 = f place → item.1 = place) :
    (listing.map fun item => (f item.1, item.2)).lookup (f place) = listing.lookup place := by
  induction listing with
  | nil => rfl
  | cons item listing ih =>
      rw [List.map_cons, lookup_cons_ite, lookup_cons_ite,
        ih fun other hother => hf other (List.mem_cons_of_mem _ hother)]
      by_cases hplace : place = item.1
      · rw [if_pos hplace, if_pos (congrArg f hplace)]
      · rw [if_neg hplace, if_neg fun heq => hplace (hf item List.mem_cons_self heq.symm).symm]

theorem IsDirectoryAt.map {f : Location → Location} (h : listing.IsDirectoryAt place) (hroot : f [] = [])
    (hf : ∀ item ∈ listing, f item.1 = f place → item.1 = place) :
    IsDirectoryAt (listing.map fun item => (f item.1, item.2)) (f place) := by
  by_cases hnil : f place = []
  · rw [hnil]
    exact isDirectoryAt_root _
  · obtain ⟨mode, hmode⟩ := h
    have hplace : place ≠ [] := fun heq => hnil (heq ▸ hroot)
    rw [entry?_of_ne_nil _ hplace] at hmode
    exact ⟨mode, by rw [entry?_of_ne_nil _ hnil, lookup_map_fst hf, hmode]⟩

/-- Other names, of which different ones stay different, change nothing but the places. -/
theorem entry?_map (listing : Listing) {f : Location → Location} (hf : Function.Injective f) (hroot : f [] = [])
    (place : Location) : entry? (listing.map fun item => (f item.1, item.2)) (f place) = listing.entry? place := by
  by_cases hplace : place = []
  · rw [hplace, hroot, entry?_root, entry?_root]
  · have hnil : f place ≠ [] := fun hnil => hplace (hf (hnil.trans hroot.symm))
    rw [entry?_of_ne_nil _ hnil, entry?_of_ne_nil _ hplace, lookup_map_fst fun _ _ heq => hf heq]

theorem Stands.map (h : listing.Stands) {f : Location → Location} (hf : Function.Injective f) (hroot : f [] = [])
    (habove : ∀ location, (f location).dropLast = f location.dropLast) :
    Stands (listing.map fun item => (f item.1, item.2)) := by
  intro moved hmoved
  obtain ⟨item, hitem, rfl⟩ := List.mem_map.mp hmoved
  rw [habove, listing.entry?_map hf hroot]
  exact h item hitem

/-- A directory can be moved to a place below another one where nothing is listed, or only a directory with nothing
in it. -/
theorem Stands.moved (h : listing.Stands) (hsource : listing.IsDirectoryAt source)
    (habove : listing.IsDirectoryAt dest.dropLast) (hbare : ∀ item ∈ listing, dest <+: item.1 → item.1 = dest)
    (hout : ¬source <+: dest) : Stands ((listing.erase dest).map fun item => (movedTo source dest item.1, item.2)) := by
  have hdest : dest ≠ [] := by
    rintro rfl
    obtain ⟨mode, hmode⟩ := hsource
    have hroot : source ≠ [] := fun heq => hout (heq ▸ List.prefix_rfl)
    exact hroot (hbare _ (mem_of_entry hroot hmode) List.nil_prefix)
  have hother : ∀ item ∈ listing.erase dest, ¬dest <+: item.1 := by
    intro item hitem hunder
    rw [Listing.erase, List.mem_filter, decide_eq_true_iff] at hitem
    exact hitem.2 (hbare item hitem.1 hunder)
  have hmoved {place : Location} (hplace : listing.IsDirectoryAt place) (hfree : ¬dest <+: place) :
      IsDirectoryAt ((listing.erase dest).map fun item => (movedTo source dest item.1, item.2))
        (movedTo source dest place) := by
    refine IsDirectoryAt.map ?_ (movedTo_of_not_below (fun hunder => hout (hunder.trans List.nil_prefix)) dest)
      fun item hitem => movedTo_injective (hother item hitem) hfree
    rw [isDirectoryAt_iff, entry?_erase _ hdest, if_neg (by rintro rfl; exact hfree List.prefix_rfl)]
    exact isDirectoryAt_iff.mp hplace
  refine stands_iff.mpr fun moved hmem => ?_
  obtain ⟨item, hitem, rfl⟩ := List.mem_map.mp hmem
  dsimp only
  by_cases hself : item.1 = source
  · have htop := movedTo_below source dest []
    rw [List.append_nil, List.append_nil] at htop
    have hkept := movedTo_of_not_below (fun hunder => hout (hunder.trans (List.dropLast_prefix dest))) dest
    rw [hself, htop, ← hkept]
    refine hmoved habove fun hunder => ?_
    have hlength := hunder.length_le
    have hpositive := List.length_pos_iff.mpr hdest
    rw [List.length_dropLast] at hlength
    omega
  · rw [dropLast_movedTo hself]
    exact hmoved (stands_iff.mp h item (List.mem_filter.mp hitem).1) fun hunder =>
      hother item hitem (hunder.trans (List.dropLast_prefix _))

end Listing

namespace FileTree

variable {tree : FileTree} {location place source dest : Location} {entry : Entry}

/-- Whether a directory stands at a location. -/
def IsDirectoryAt (tree : FileTree) (location : Location) : Prop :=
  ∃ mode, tree.entry? location = some (.directory mode)

theorem entry?_root (tree : FileTree) : tree.entry? [] = some (.directory Listing.rootMode) := rfl

theorem isDirectoryAt_root (tree : FileTree) : tree.IsDirectoryAt [] := tree.entries.isDirectoryAt_root

/-- Everything in a tree stands in a directory. -/
theorem isDirectoryAt_dropLast (h : tree.entry? location = some entry) : tree.IsDirectoryAt location.dropLast :=
  tree.stands.above h

theorem isDirectoryAt_of_entry?_append {name : Bytes} (h : tree.entry? (location ++ [name]) = some entry) :
    tree.IsDirectoryAt location := by
  have hdirectory := isDirectoryAt_dropLast h
  rwa [List.dropLast_concat] at hdirectory

/-- A place below a directory at which no directory stands, so that a file can be put there or taken away. -/
structure IsFilePlace (tree : FileTree) (location : Location) : Prop where
  ne_nil : location ≠ []
  above : tree.IsDirectoryAt location.dropLast
  not_directory : ¬tree.IsDirectoryAt location

theorem entries_withEntries {listing : Listing} (h : listing.Stands) :
    (tree.withEntries listing).entries = listing := by
  rw [withEntries, dif_pos h]

theorem IsFilePlace.entry?_put (h : tree.IsFilePlace location) (entry : Entry) (place : Location) :
    entry? (tree.put location entry) place = if place = location then some entry else tree.entry? place := by
  have hstands : Listing.Stands (tree.entries.put location entry) :=
    tree.stands.put h.ne_nil h.above fun hdirectory => absurd hdirectory h.not_directory
  rw [FileTree.entry?, put, entries_withEntries hstands]
  exact tree.entries.entry?_put h.ne_nil entry place

theorem IsFilePlace.entry?_erase (h : tree.IsFilePlace location) (place : Location) :
    entry? (tree.erase location) place = if place = location then none else tree.entry? place := by
  rw [FileTree.entry?, erase, entries_withEntries (tree.stands.erase h.ne_nil h.not_directory)]
  exact tree.entries.entry?_erase h.ne_nil place

theorem entries_eraseAll (tree : FileTree) (location : Location) :
    (tree.eraseAll location).entries = tree.entries.filter fun item => !location.isPrefixOf item.1 :=
  entries_withEntries (tree.stands.eraseAll location)

/-- Nothing but the location itself stands at or below it. -/
theorem isBare_iff : tree.isBare location ↔ ∀ item ∈ tree.entries, location <+: item.1 → item.1 = location := by
  rw [isBare, List.all_eq_true]
  refine forall₂_congr fun item _ => ?_
  rw [Bool.or_eq_true, decide_eq_true_iff, Bool.not_eq_true', Bool.eq_false_iff, ne_eq, List.isPrefixOf_iff_prefix,
    or_iff_not_imp_right, not_not]

/-- Nothing stands below a place that is free. -/
theorem isBare_of_free (hfree : tree.entry? location = none) : tree.isBare location := by
  refine isBare_iff.mpr fun item hitem hunder => ?_
  obtain ⟨below, hbelow⟩ := hunder
  obtain ⟨entry, hentry⟩ := Listing.exists_entry_of_mem hitem
  rw [← hbelow] at hentry ⊢
  clear hbelow
  induction below using List.reverseRecOn generalizing entry with
  | nil => exact List.append_nil _
  | append_singleton below name ih =>
      rw [← List.append_assoc] at hentry
      obtain ⟨mode, hmode⟩ := isDirectoryAt_of_entry?_append hentry
      rw [ih _ hmode] at hmode
      cases hfree.symm.trans hmode

/-- A directory can be moved to a place below another one where nothing stands, or only a directory with nothing in
it. -/
theorem entries_moveDirectory (hsource : tree.IsDirectoryAt source) (habove : tree.IsDirectoryAt dest.dropLast)
    (hbare : tree.isBare dest) (hout : ¬source <+: dest) : (tree.moveDirectory source dest).entries =
      (tree.entries.erase dest).map fun item => (Listing.movedTo source dest item.1, item.2) := by
  exact entries_withEntries (tree.stands.moved hsource habove (isBare_iff.mp hbare) hout)

end FileTree

end LineComment
