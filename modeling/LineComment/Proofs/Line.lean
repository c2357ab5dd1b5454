import LineComment.Bytes
import Mathlib.Data.List.Basic

/-! Cutting an input into lines, said once more byte by byte and end by end. `cut` closes a raw line at each
line feed it meets; `Splits` lists the three ways in which a raw line can end. The lines of an input are
exactly what these two say, so a reader of a statement about lines needs no other definition. -/

namespace LineComment.Line

open Bytes

/-- The raw lines of an input: each line feed closes one, and what stands after the last is one too. -/
def cut : Bytes → List Bytes
  | [] => []
  | b :: rest =>
    if b = lineFeed then [b] :: cut rest
    else match cut rest with
      | [] => [[b]]
      | raw :: raws => (b :: raw) :: raws

/-- How a raw line is taken apart: at a carriage return and a line feed, at a line feed alone, or nowhere,
and then its end is a line feed all the same. -/
inductive Splits : Bytes → Line → Prop where
  | returned (content : Bytes) :
      Splits (content ++ [carriageReturn, lineFeed]) ⟨content, [carriageReturn, lineFeed]⟩
  | plain (content : Bytes) (bare : content.getLast? ≠ some carriageReturn) :
      Splits (content ++ [lineFeed]) ⟨content, [lineFeed]⟩
  | unended (raw : Bytes) (bare : raw.getLast? ≠ some lineFeed) : Splits raw ⟨raw, [lineFeed]⟩

theorem splitOn_cons_lineFeed (rest : Bytes) :
    (lineFeed :: rest).splitOn lineFeed = [] :: rest.splitOn lineFeed := by
  rw [List.splitOn_cons_eq_if_modifyHead]
  rfl

theorem splitOn_cons_of_ne {b : UInt8} (hb : b ≠ lineFeed) (rest : Bytes) :
    (b :: rest).splitOn lineFeed = (rest.splitOn lineFeed).modifyHead (b :: ·) := by
  rw [List.splitOn_cons_eq_if_modifyHead, if_neg (by simpa using hb)]

/-- A line feed ends a raw line of its own. -/
theorem raw_cons_lineFeed (rest : Bytes) : raw (lineFeed :: rest) = [lineFeed] :: raw rest := by
  obtain ⟨piece, pieces, hpieces⟩ := List.exists_cons_of_ne_nil (List.splitOn_ne_nil lineFeed rest)
  simp only [raw, terminated, unterminated, splitOn_cons_lineFeed, hpieces]
  rfl

/-- Any other byte joins the raw line that follows it. -/
theorem raw_cons_of_ne {b : UInt8} (hb : b ≠ lineFeed) (rest : Bytes) :
    raw (b :: rest) = match raw rest with
      | [] => [[b]]
      | first :: others => (b :: first) :: others := by
  obtain ⟨piece, pieces, hpieces⟩ := List.exists_cons_of_ne_nil (List.splitOn_ne_nil lineFeed rest)
  simp only [raw, terminated, unterminated, splitOn_cons_of_ne hb, hpieces, List.modifyHead_cons]
  cases pieces with
  | nil => by_cases hpiece : piece = [] <;> simp [hpiece]
  | cons next pieces => simp

theorem raw_eq_cut (input : Bytes) : raw input = cut input := by
  induction input with
  | nil => rfl
  | cons b rest ih =>
      rw [cut]
      split_ifs with hb
      · rw [hb, raw_cons_lineFeed, ih]
      · rw [raw_cons_of_ne hb, ih]

/-- Nothing of an input is lost or moved by cutting it. -/
theorem cut_flatten (input : Bytes) : (cut input).flatten = input := by
  induction input with
  | nil => rfl
  | cons b rest ih =>
      rw [cut]
      split_ifs with hb
      · rw [List.flatten_cons, ih, List.singleton_append]
      · cases hrest : cut rest with
        | nil =>
            rw [hrest] at ih
            rw [← ih]
            rfl
        | cons first others =>
            rw [hrest] at ih
            rw [← ih]
            rfl

/-- No raw line is empty. -/
theorem ne_nil_of_mem_cut {input piece : Bytes} (hpiece : piece ∈ cut input) : piece ≠ [] := by
  induction input generalizing piece with
  | nil => cases hpiece
  | cons b rest ih =>
      rw [cut] at hpiece
      split_ifs at hpiece
      · rcases List.mem_cons.mp hpiece with rfl | hpiece
        · exact List.cons_ne_nil b []
        · exact ih hpiece
      · cases hrest : cut rest with
        | nil =>
            rw [hrest] at hpiece
            rw [List.mem_singleton.mp hpiece]
            exact List.cons_ne_nil b []
        | cons first others =>
            rw [hrest] at hpiece
            rcases List.mem_cons.mp hpiece with rfl | hpiece
            · exact List.cons_ne_nil b first
            · exact ih (hrest ▸ List.mem_cons_of_mem first hpiece)

/-- A line feed can only be the last byte of a raw line. -/
theorem lineFeed_notMem_dropLast {input piece : Bytes} (hpiece : piece ∈ cut input) : lineFeed ∉ piece.dropLast := by
  induction input generalizing piece with
  | nil => cases hpiece
  | cons b rest ih =>
      rw [cut] at hpiece
      split_ifs at hpiece with hb
      · rcases List.mem_cons.mp hpiece with rfl | hpiece
        · exact List.not_mem_nil
        · exact ih hpiece
      · cases hrest : cut rest with
        | nil =>
            rw [hrest] at hpiece
            rw [List.mem_singleton.mp hpiece]
            exact List.not_mem_nil
        | cons first others =>
            rw [hrest] at hpiece
            rcases List.mem_cons.mp hpiece with rfl | hpiece
            · have hfirst : first ≠ [] := ne_nil_of_mem_cut (hrest ▸ List.mem_cons_self)
              rw [List.dropLast_cons_of_ne_nil hfirst, List.mem_cons, not_or]
              exact ⟨Ne.symm hb, ih (hrest ▸ List.mem_cons_self)⟩
            · exact ih (hrest ▸ List.mem_cons_of_mem first hpiece)

theorem ended_tail {b : UInt8} {rest : Bytes} (h : b :: rest = [] ∨ (b :: rest).getLast? = some lineFeed) :
    rest = [] ∨ rest.getLast? = some lineFeed := by
  obtain hnil | hlast := h
  · cases hnil
  cases rest with
  | nil => exact Or.inl rfl
  | cons c rest => exact Or.inr (by rwa [List.getLast?_cons_cons] at hlast)

/-- Only the last raw line can lack an end. -/
theorem getLast?_of_mem_cut {input piece : Bytes} (hinput : input = [] ∨ input.getLast? = some lineFeed)
    (hpiece : piece ∈ cut input) : piece.getLast? = some lineFeed := by
  induction input generalizing piece with
  | nil => cases hpiece
  | cons b rest ih =>
      have hended := ended_tail hinput
      obtain hnil | hlast := hinput
      · cases hnil
      rw [cut] at hpiece
      split_ifs at hpiece with hb
      · rcases List.mem_cons.mp hpiece with rfl | hpiece
        · rw [hb]
          rfl
        · exact ih hended hpiece
      · cases hcut : cut rest with
        | nil =>
            have hnil : rest = [] := by rw [← cut_flatten rest, hcut, List.flatten_nil]
            rw [hnil] at hlast
            exact absurd (Option.some.inj hlast) hb
        | cons first others =>
            rw [hcut] at hpiece ih
            rcases List.mem_cons.mp hpiece with rfl | hpiece
            · have hfirst : first ≠ [] := ne_nil_of_mem_cut (hcut ▸ List.mem_cons_self)
              obtain ⟨c, first, rfl⟩ := List.exists_cons_of_ne_nil hfirst
              rw [List.getLast?_cons_cons]
              exact ih hended List.mem_cons_self
            · exact ih hended (List.mem_cons_of_mem first hpiece)

theorem cut_append_lineFeed {front : Bytes} (hfront : lineFeed ∉ front) (rest : Bytes) :
    cut (front ++ lineFeed :: rest) = (front ++ [lineFeed]) :: cut rest := by
  induction front with
  | nil => rw [List.nil_append, cut, if_pos rfl, List.nil_append]
  | cons b front ih =>
      rw [List.mem_cons, not_or] at hfront
      obtain ⟨hb, hfront⟩ := hfront
      rw [List.cons_append, cut, if_neg (Ne.symm hb), ih hfront, List.cons_append]

/-- Pieces that each end in their only line feed are the raw lines of what they make up. -/
theorem cut_flatten_of_ended {pieces : List Bytes}
    (hpieces : ∀ piece ∈ pieces, ∃ front, piece = front ++ [lineFeed] ∧ lineFeed ∉ front) :
    cut pieces.flatten = pieces := by
  induction pieces with
  | nil => rfl
  | cons piece pieces ih =>
      obtain ⟨⟨front, rfl, hfront⟩, hrest⟩ := List.forall_mem_cons.mp hpieces
      rw [List.flatten_cons, List.append_assoc, List.singleton_append, cut_append_lineFeed hfront, ih hrest]

theorem cut_cons_lineFeed (rest : Bytes) : cut (lineFeed :: rest) = [lineFeed] :: cut rest := by rw [cut, if_pos rfl]

theorem cut_cons_of_ne {b : UInt8} (hb : b ≠ lineFeed) (rest : Bytes) :
    cut (b :: rest) = match cut rest with
      | [] => [[b]]
      | raw :: raws => (b :: raw) :: raws := by
  rw [cut, if_neg hb]

/-- Some raw lines from the front of an input are the raw lines of what they make up. -/
theorem cut_flatten_take (input : Bytes) (count : Nat) :
    cut ((cut input).take count).flatten = (cut input).take count := by
  induction input generalizing count with
  | nil =>
      rw [cut, List.take_nil]
      rfl
  | cons b rest ih =>
      cases count with
      | zero => rfl
      | succ count =>
          by_cases hb : b = lineFeed
          · rw [hb, cut_cons_lineFeed, List.take_succ_cons, List.flatten_cons, List.singleton_append,
              cut_cons_lineFeed, ih count]
          · have hrest := ih (count + 1)
            rw [cut_cons_of_ne hb]
            cases hcut : cut rest with
            | nil => rw [List.take_of_length_le (by simp), List.flatten_singleton, cut_cons_of_ne hb, cut]
            | cons raw raws =>
                rw [hcut, List.take_succ_cons, List.flatten_cons] at hrest
                rw [List.take_succ_cons, List.flatten_cons, List.cons_append, cut_cons_of_ne hb, hrest]

theorem terminated_cons_lineFeed (rest : Bytes) : terminated (lineFeed :: rest) = [lineFeed] :: terminated rest := by
  rw [terminated, splitOn_cons_lineFeed, List.dropLast_cons_of_ne_nil (List.splitOn_ne_nil lineFeed rest)]
  rfl

theorem terminated_cons_of_ne {b : UInt8} (hb : b ≠ lineFeed) (rest : Bytes) :
    terminated (b :: rest) = (terminated rest).modifyHead (b :: ·) := by
  obtain ⟨piece, pieces, hpieces⟩ := List.exists_cons_of_ne_nil (List.splitOn_ne_nil lineFeed rest)
  rw [terminated, terminated, splitOn_cons_of_ne hb, hpieces, List.modifyHead_cons]
  cases pieces <;> rfl

/-- Each line feed in front of an input ends one of its raw lines. -/
theorem terminated_eq_take (front back : Bytes) :
    terminated front = (cut (front ++ back)).take (front.count lineFeed) := by
  induction front with
  | nil => rfl
  | cons b front ih =>
      rw [List.cons_append]
      by_cases hb : b = lineFeed
      · rw [hb, terminated_cons_lineFeed, cut_cons_lineFeed, List.count_cons_self, List.take_succ_cons, ih]
      · rw [terminated_cons_of_ne hb, cut_cons_of_ne hb, List.count_cons_of_ne hb, ih]
        cases hcut : cut (front ++ back) with
        | nil =>
            have hnil := cut_flatten (front ++ back)
            rw [hcut, List.flatten_nil] at hnil
            rw [(List.append_eq_nil_iff.mp hnil.symm).1]
            rfl
        | cons raw raws => cases front.count lineFeed <;> rfl

/-- Of an input that ends with a line feed, or is empty, every raw line is terminated. -/
theorem terminated_of_ended {input : Bytes} (h : input = [] ∨ input.getLast? = some lineFeed) :
    terminated input = cut input := by
  induction input with
  | nil => rfl
  | cons b rest ih =>
      have hrest := ih (ended_tail h)
      by_cases hb : b = lineFeed
      · rw [hb, terminated_cons_lineFeed, cut_cons_lineFeed, hrest]
      · rw [terminated_cons_of_ne hb, cut_cons_of_ne hb, hrest]
        cases hcut : cut rest with
        | nil =>
            have hnil : rest = [] := by rw [← cut_flatten rest, hcut, List.flatten_nil]
            rw [hnil] at h
            simp [hb] at h
        | cons raw raws => rfl

/-- What follows an input that ends with a line feed, or is empty, leaves its raw lines as they are. -/
theorem cut_prefix_of_ended {input : Bytes} (h : input = [] ∨ input.getLast? = some lineFeed) (more : Bytes) :
    cut input <+: terminated (input ++ more) ∧ cut input <+: cut (input ++ more) := by
  have hterminated := terminated_eq_take (input ++ more) []
  rw [List.append_nil] at hterminated
  rw [← terminated_of_ended h, terminated_eq_take input more, hterminated, List.count_append]
  exact ⟨List.take_prefix_take_left (Nat.le_add_right _ _), List.take_prefix _ _⟩

theorem ofRaw_returned (content : Bytes) :
    ofRaw (content ++ [carriageReturn, lineFeed]) = ⟨content, [carriageReturn, lineFeed]⟩ := by
  have hsuffix : [carriageReturn, lineFeed].isSuffixOf? (content ++ [carriageReturn, lineFeed]) = some content :=
    List.isSuffixOf?_eq_some_iff_append_eq.mpr rfl
  rw [ofRaw, hsuffix]

theorem ofRaw_plain (content : Bytes) (bare : content.getLast? ≠ some carriageReturn) :
    ofRaw (content ++ [lineFeed]) = ⟨content, [lineFeed]⟩ := by
  have hreturned : [carriageReturn, lineFeed].isSuffixOf? (content ++ [lineFeed]) = none := by
    refine Option.eq_none_iff_forall_not_mem.mpr fun front hfront => bare ?_
    have happend := List.isSuffixOf?_eq_some_iff_append_eq.mp hfront
    rw [show [carriageReturn, lineFeed] = [carriageReturn] ++ [lineFeed] from rfl, ← List.append_assoc] at happend
    rw [← List.append_cancel_right happend, List.getLast?_concat]
  have hplain : [lineFeed].isSuffixOf? (content ++ [lineFeed]) = some content :=
    List.isSuffixOf?_eq_some_iff_append_eq.mpr rfl
  rw [ofRaw, hreturned, hplain]

theorem ofRaw_unended (raw : Bytes) (bare : raw.getLast? ≠ some lineFeed) : ofRaw raw = ⟨raw, [lineFeed]⟩ := by
  have hreturned : [carriageReturn, lineFeed].isSuffixOf? raw = none := by
    refine Option.eq_none_iff_forall_not_mem.mpr fun front hfront => bare ?_
    rw [← List.isSuffixOf?_eq_some_iff_append_eq.mp hfront]
    simp
  have hplain : [lineFeed].isSuffixOf? raw = none := by
    refine Option.eq_none_iff_forall_not_mem.mpr fun front hfront => bare ?_
    rw [← List.isSuffixOf?_eq_some_iff_append_eq.mp hfront, List.getLast?_concat]
  rw [ofRaw, hreturned, hplain]

/-- `Splits` is the graph of `ofRaw`, so each raw line is taken apart in exactly one way. -/
theorem splits_iff {raw : Bytes} {line : Line} : Splits raw line ↔ ofRaw raw = line := by
  constructor
  · intro h
    cases h with
    | returned content => exact ofRaw_returned content
    | plain content bare => exact ofRaw_plain content bare
    | unended _ bare => exact ofRaw_unended raw bare
  · rintro rfl
    by_cases hended : raw.getLast? = some lineFeed
    · obtain ⟨content, rfl⟩ := List.getLast?_eq_some_iff.mp hended
      by_cases hreturned : content.getLast? = some carriageReturn
      · obtain ⟨content, rfl⟩ := List.getLast?_eq_some_iff.mp hreturned
        rw [List.append_assoc, List.singleton_append, ofRaw_returned]
        exact .returned content
      · rw [ofRaw_plain content hreturned]
        exact .plain content hreturned
    · rw [ofRaw_unended raw hended]
      exact .unended raw hended

theorem Splits.lineFeed_notMem {raw : Bytes} {line : Line} (h : Splits raw line) (hraw : lineFeed ∉ raw.dropLast) :
    lineFeed ∉ line.content := by
  cases h with
  | returned content =>
      rw [List.dropLast_append_of_ne_nil (by simp)] at hraw
      exact fun hmem => hraw (List.mem_append_left _ hmem)
  | plain content bare => rwa [List.dropLast_concat] at hraw
  | unended _ bare =>
      rcases List.eq_nil_or_concat' raw with rfl | ⟨front, last, rfl⟩
      · exact List.not_mem_nil
      · rw [List.getLast?_concat] at bare
        rw [List.dropLast_concat] at hraw
        simp only [List.mem_append, List.mem_singleton, not_or]
        exact ⟨hraw, fun hlast => bare (hlast ▸ rfl)⟩

theorem Splits.ending_eq {raw : Bytes} {line : Line} (h : Splits raw line) :
    line.ending = [carriageReturn, lineFeed] ∨ line.ending = [lineFeed] := by
  cases h with
  | returned => exact .inl rfl
  | plain | unended => exact .inr rfl

/-- What every line of an input is: a content without a line feed, and one of the two ends. -/
structure Proper (line : Line) : Prop where
  notMem : lineFeed ∉ line.content
  ending : line.ending = [carriageReturn, lineFeed] ∨ line.ending = [lineFeed]

theorem proper_of_mem {input : Bytes} {line : Line} (hline : line ∈ (cut input).map ofRaw) : line.Proper := by
  obtain ⟨raw, hraw, rfl⟩ := List.mem_map.mp hline
  have hsplits : Splits raw (ofRaw raw) := splits_iff.mpr rfl
  exact ⟨hsplits.lineFeed_notMem (lineFeed_notMem_dropLast hraw), hsplits.ending_eq⟩

/-- The line feed that an input lacks when its last line has no end. -/
def closing (input : Bytes) : Bytes :=
  if input = [] ∨ input.getLast? = some lineFeed then [] else [lineFeed]

theorem closing_cons (b : UInt8) {rest : Bytes} (hrest : rest ≠ []) : closing (b :: rest) = closing rest := by
  obtain ⟨c, rest, rfl⟩ := List.exists_cons_of_ne_nil hrest
  simp [closing]

/-- Written back with its end, a raw line is what it was, but for a line feed where it had none. -/
theorem Splits.content_append_ending {raw : Bytes} {line : Line} (h : Splits raw line) (hraw : raw ≠ []) :
    line.content ++ line.ending = raw ++ closing raw := by
  cases h with
  | returned content => simp [closing]
  | plain content bare => simp [closing]
  | unended _ bare => simp [closing, bare, hraw]

/-- Only the last raw line of an input can lack an end, and it does so when the input lacks one. -/
theorem flatMap_cut_closing (input : Bytes) :
    (cut input).flatMap (fun raw => raw ++ closing raw) = input ++ closing input := by
  induction input with
  | nil => rfl
  | cons b rest ih =>
      rw [cut]
      split_ifs with hb
      · have hend : closing (b :: rest) = closing rest := by
          by_cases hrest : rest = []
          · simp [closing, hrest, hb]
          · exact closing_cons b hrest
        rw [List.flatMap_cons, ih, hend]
        simp [closing, hb]
      · cases hrest : cut rest with
        | nil =>
            have hnil : rest = [] := by rw [← cut_flatten rest, hrest, List.flatten_nil]
            simp [hnil]
        | cons first others =>
            have hfirst : first ≠ [] := ne_nil_of_mem_cut (hrest ▸ List.mem_cons_self)
            have hnil : rest ≠ [] := by
              rintro rfl
              cases hrest
            rw [hrest, List.flatMap_cons] at ih
            rw [List.flatMap_cons, closing_cons b hfirst, closing_cons b hnil]
            simpa using ih

end LineComment.Line
