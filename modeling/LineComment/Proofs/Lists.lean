import Mathlib.Data.List.Basic
import LineComment.Text
import Mathlib.Data.List.TakeWhile

/-! Lists of pairs in which a key is looked up, as the files of a tree and the indexes of a registry are, and lists that
are cut into pieces at separators. -/

namespace LineComment

variable {α β : Type} [BEq α] [LawfulBEq α] [DecidableEq α]

theorem lookup_cons_ite (item : α × β) (items : List (α × β)) (key : α) :
    (item :: items).lookup key = if key = item.1 then some item.2 else items.lookup key := by
  rw [List.lookup_cons]
  split_ifs with hkey
  · rw [beq_iff_eq.mpr hkey]
  · rw [beq_false_of_ne hkey]

/-- A filter that asks for the key alone keeps an entry whole or drops it. -/
theorem lookup_filter (items : List (α × β)) (keep : α → Bool) (key : α) :
    (items.filter fun item => keep item.1).lookup key = if keep key then items.lookup key else none := by
  induction items with
  | nil => simp
  | cons item items ih =>
      rw [List.filter_cons]
      by_cases hitem : keep item.1
      · rw [if_pos hitem, lookup_cons_ite, lookup_cons_ite, ih]
        by_cases hkey : key = item.1
        · rw [if_pos hkey, if_pos hkey, hkey, if_pos hitem]
        · rw [if_neg hkey, if_neg hkey]
      · rw [if_neg hitem, lookup_cons_ite, ih]
        by_cases hkey : key = item.1
        · rw [hkey, if_neg hitem, if_neg hitem]
        · rw [if_neg hkey]

end LineComment

namespace LineComment.Text

section

variable {α : Type} {separator : α} {list : List α}

/-- No piece between separators holds one. -/
theorem eq_false_of_mem_splitOnP {isSeparator : α → Bool} {piece : List α} (hpiece : piece ∈ list.splitOnP isSeparator)
    {a : α} (ha : a ∈ piece) : isSeparator a = false := by
  induction list generalizing piece with
  | nil =>
      rw [List.splitOnP_nil, List.mem_singleton] at hpiece
      rw [hpiece] at ha
      cases ha
  | cons first rest ih =>
      rw [List.splitOnP_cons_eq_if_modifyHead] at hpiece
      split_ifs at hpiece with hfirst
      · rcases List.mem_cons.mp hpiece with rfl | hpiece
        · cases ha
        · exact ih hpiece ha
      · obtain ⟨next, others, hrest⟩ := List.exists_cons_of_ne_nil (List.splitOnP_ne_nil isSeparator rest)
        rw [hrest, List.modifyHead_cons] at hpiece
        rcases List.mem_cons.mp hpiece with rfl | hpiece
        · rcases List.mem_cons.mp ha with rfl | ha
          · exact Bool.eq_false_iff.mpr hfirst
          · exact ih (hrest ▸ List.mem_cons_self) ha
        · exact ih (hrest ▸ List.mem_cons_of_mem next hpiece) ha

variable [BEq α] [LawfulBEq α]

theorem notMem_of_mem_splitOn {piece : List α} (hpiece : piece ∈ list.splitOn separator) : separator ∉ piece := by
  intro hmem
  rw [List.splitOn_eq_splitOnP] at hpiece
  exact absurd (beq_self_eq_true separator) (Bool.eq_false_iff.mp (eq_false_of_mem_splitOnP hpiece hmem))

theorem splitOn_eq_singleton_iff {piece : List α} :
    list.splitOn separator = [piece] ↔ list = piece ∧ separator ∉ list := by
  constructor
  · intro h
    have hjoined : [separator].intercalate (list.splitOn separator) = list := List.intercalate_splitOn separator
    have hlist : list = piece := by
      rw [← hjoined, h]
      simp
    exact ⟨hlist, hlist ▸ notMem_of_mem_splitOn (h ▸ List.mem_singleton_self piece)⟩
  · rintro ⟨rfl, hnone⟩
    exact List.splitOn_eq_singleton hnone

theorem splitOn_eq_pair_iff {left right : List α} :
    list.splitOn separator = [left, right] ↔
      list = left ++ separator :: right ∧ separator ∉ left ∧ separator ∉ right := by
  constructor
  · intro h
    have hjoined : [separator].intercalate (list.splitOn separator) = list := List.intercalate_splitOn separator
    have hpieces : ∀ piece ∈ [left, right], separator ∉ piece :=
      fun piece hpiece => notMem_of_mem_splitOn (h.symm ▸ hpiece)
    refine ⟨?_, hpieces left (by simp), hpieces right (by simp)⟩
    rw [← hjoined, h]
    simp [List.intercalate]
  · rintro ⟨rfl, hleft, hright⟩
    rw [List.splitOn_append_cons_self_of_not_mem hleft, List.splitOn_eq_singleton hright]

end

/-- A text that neither starts nor ends with a blank. -/
structure Tight (text : List Char) : Prop where
  head : ∀ c ∈ text.head?, isBlank c = false
  last : ∀ c ∈ text.getLast?, isBlank c = false

/-- A text that `written` describes, with blanks around it. -/
def Padded (written : List Char → Prop) (text : List Char) : Prop :=
  ∃ front core back, (∀ c ∈ front, isBlank c) ∧ (∀ c ∈ back, isBlank c) ∧ text = front ++ (core ++ back) ∧ written core

variable {text core front back : List Char} {written : List Char → Prop}

/-- No letter, digit or sign of ASCII is a blank. -/
theorem isBlank_of_visible {c : Char} (hfirst : 0x21 ≤ c.toNat) (hlast : c.toNat ≤ 0x7e) : isBlank c = false := by
  rw [isBlank, List.any_eq_false]
  intro interval hinterval
  rw [Bool.and_eq_true, decide_eq_true_iff, decide_eq_true_iff]
  simp only [blankIntervals, List.mem_cons, List.not_mem_nil, or_false] at hinterval
  rcases hinterval with rfl | rfl | rfl | rfl | rfl | rfl | rfl | rfl | rfl | rfl <;> omega

theorem head?_dropWhile_isBlank (text : List Char) : ∀ c ∈ (text.dropWhile isBlank).head?, isBlank c = false := by
  intro c hc
  have hhead := List.head?_dropWhile_not isBlank text
  rw [Option.mem_def.mp hc] at hhead
  exact hhead

/-- Blanks around a text are cut off with those it has itself. -/
theorem trim_between (hfront : ∀ c ∈ front, isBlank c) (hback : ∀ c ∈ back, isBlank c) (text : List Char) :
    trim (front ++ (text ++ back)) = trim text := by
  have hend : ∀ rest : List Char, trimEnd (rest ++ back) = trimEnd rest := by
    intro rest
    rw [trimEnd, List.reverse_append, List.dropWhile_append_of_pos fun c hc => hback c (List.mem_reverse.mp hc)]
    rfl
  rw [trim, trimStart, List.dropWhile_append_of_pos hfront, List.dropWhile_append]
  split_ifs with hall
  · -- Nothing but blanks stands before those at the end.
    have hnil : trimStart text = [] := List.isEmpty_iff.mp hall
    have hblank : back.dropWhile isBlank = [] := List.dropWhile_eq_nil_iff.mpr hback
    rw [trim, hnil, hblank]
  · exact hend _

theorem exists_trimEnd (text : List Char) : ∃ back, (∀ c ∈ back, isBlank c) ∧ text = trimEnd text ++ back := by
  refine ⟨(text.reverse.takeWhile isBlank).reverse,
    fun c hc => List.all_eq_true.mp List.all_takeWhile c (List.mem_reverse.mp hc), ?_⟩
  rw [trimEnd, ← List.reverse_append, List.takeWhile_append_dropWhile, List.reverse_reverse]

theorem trimEnd_subset (text : List Char) : trimEnd text ⊆ text := by
  intro c hc
  obtain ⟨back, -, hend⟩ := exists_trimEnd text
  rw [hend]
  exact List.mem_append_left back hc

/-- A text consists of what trimming leaves and of blanks. -/
theorem exists_trim (text : List Char) :
    ∃ front back, (∀ c ∈ front, isBlank c) ∧ (∀ c ∈ back, isBlank c) ∧ text = front ++ (trim text ++ back) := by
  obtain ⟨back, hback, hend⟩ := exists_trimEnd (trimStart text)
  refine ⟨text.takeWhile isBlank, back, fun c hc => List.all_eq_true.mp List.all_takeWhile c hc, hback, ?_⟩
  rw [trim, ← hend, trimStart, List.takeWhile_append_dropWhile]

theorem tight_trim (text : List Char) : Tight (trim text) := by
  constructor
  · intro c hc
    obtain ⟨back, -, hend⟩ := exists_trimEnd (trimStart text)
    have hhead : (trimEnd (trimStart text) ++ back).head? = some c := by
      rw [List.head?_append, ← trim, Option.mem_def.mp hc, Option.some_or]
    rw [← hend] at hhead
    exact head?_dropWhile_isBlank text c hhead
  · intro c hc
    rw [trim, trimEnd, List.getLast?_reverse] at hc
    exact head?_dropWhile_isBlank _ c hc

theorem dropWhile_isBlank_eq_self (hhead : ∀ c ∈ core.head?, isBlank c = false) : core.dropWhile isBlank = core := by
  cases core with
  | nil => rfl
  | cons c core => exact List.dropWhile_cons_of_neg (Bool.eq_false_iff.mp (hhead c rfl))

theorem Tight.trim_eq (h : Tight core) : trim core = core := by
  have hlast : core.reverse.dropWhile isBlank = core.reverse :=
    dropWhile_isBlank_eq_self (by simpa only [List.head?_reverse] using h.last)
  rw [trim, trimStart, dropWhile_isBlank_eq_self h.head, trimEnd, hlast, List.reverse_reverse]

/-- Trimming finds what has blanks around it. -/
theorem padded_iff (htight : ∀ core, written core → Tight core) : Padded written text ↔ written (trim text) := by
  constructor
  · rintro ⟨front, core, back, hfront, hback, rfl, hcore⟩
    rwa [trim_between hfront hback, (htight core hcore).trim_eq]
  · intro h
    obtain ⟨front, back, hfront, hback, htext⟩ := exists_trim text
    exact ⟨front, trim text, back, hfront, hback, htext, h⟩

/-- A character that is no blank parts what is trimmed before it from what is trimmed behind it. -/
theorem trim_append_cons {c : Char} (hc : isBlank c = false) (left right : List Char) :
    trim (left ++ c :: right) = trimStart left ++ c :: trimEnd right := by
  have hstart : ∀ rest, (c :: rest).dropWhile isBlank = c :: rest :=
    fun rest => List.dropWhile_cons_of_neg (Bool.eq_false_iff.mp hc)
  have happend : ∀ front rest, (front ++ c :: rest).dropWhile isBlank = front.dropWhile isBlank ++ c :: rest := by
    intro front rest
    rw [List.dropWhile_append, hstart]
    split_ifs with hall
    · rw [List.isEmpty_iff.mp hall, List.nil_append]
    · rfl
  have hreverse : (trimStart left ++ c :: right).reverse = right.reverse ++ c :: (trimStart left).reverse := by simp
  rw [trim, trimStart, happend, ← trimStart, trimEnd, hreverse, happend]
  simp [trimEnd]

theorem trim_trimStart (text : List Char) : trim (trimStart text) = trim text := by
  have hagain : trimStart (trimStart text) = trimStart text :=
    dropWhile_isBlank_eq_self (head?_dropWhile_isBlank text)
  rw [trim, hagain, trim]

theorem trim_trim (text : List Char) : trim (trim text) = trim text := (tight_trim text).trim_eq

theorem trim_trimEnd (text : List Char) : trim (trimEnd text) = trim text := by
  obtain ⟨back, hback, hend⟩ := exists_trimEnd text
  have hbetween := trim_between (fun _ h => absurd h List.not_mem_nil) hback (trimEnd text)
  rw [List.nil_append, ← hend] at hbetween
  exact hbetween.symm

end LineComment.Text
