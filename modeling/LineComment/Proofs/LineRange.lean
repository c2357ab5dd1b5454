import LineComment.Proofs.Lists
import LineComment.Selection
import Mathlib.Algebra.Group.Nat.Defs
import Mathlib.Data.Option.Basic

/-! Which texts are line ranges. The grammar is said without the reader: a numeral is decimal digits after a plus sign
or none, a range is a numeral, or two with the only dash of the text between them, and blanks are allowed around each.
The reader accepts these texts and no others, and so it reads back every range that is printed. -/

namespace LineComment

namespace Text

/-- A numeral and its value: decimal digits, after a plus sign or none, of a line number that fits into 64 bits. -/
structure Numeral (text : List Char) (value : Nat) : Prop where
  spelled : ∃ digits, (text = digits ∨ text = '+' :: digits) ∧ digits ≠ [] ∧ (∀ c ∈ digits, c.isDigit) ∧
    Nat.ofDigitChars 10 digits 0 = value
  pos : 0 < value
  bounded : value < 2 ^ 64

variable {text digits : List Char} {value n : Nat}

theorem digitsValue_eq_some_iff :
    digitsValue value digits = some n ↔ (∀ c ∈ digits, c.isDigit) ∧ Nat.ofDigitChars 10 digits value = n := by
  induction digits generalizing value with
  | nil => simp [digitsValue]
  | cons c digits ih =>
      rw [List.forall_mem_cons, Nat.ofDigitChars_cons, Nat.mul_comm 10 value]
      by_cases hc : c.isDigit
      · have hdigit : digit? c = some (c.toNat - '0'.toNat) := if_pos hc
        rw [digitsValue, hdigit, Option.bind_eq_bind, Option.bind_some, ih]
        simp [hc]
      · have hdigit : digit? c = none := if_neg hc
        rw [digitsValue, hdigit]
        simp [hc]

/-- No digit is a plus sign, so a text shows whether its numeral has one. -/
theorem numeral?_eq_some_iff : numeral? text = some n ↔
    (∃ digits, (text = digits ∨ text = '+' :: digits) ∧ digits ≠ [] ∧ (∀ c ∈ digits, c.isDigit) ∧
      Nat.ofDigitChars 10 digits 0 = n) ∧ n ≤ maxLine := by
  have hread : ∀ digits, (do
      guard !digits.isEmpty
      let value ← digitsValue 0 digits
      guard (value ≤ maxLine)
      return value) = some n ↔
      (digits ≠ [] ∧ (∀ c ∈ digits, c.isDigit) ∧ Nat.ofDigitChars 10 digits 0 = n) ∧ n ≤ maxLine := by
    intro digits
    cases digits with
    | nil => exact iff_of_false (fun h => by cases h) (by simp)
    | cons c rest => simp [Option.bind_eq_some_iff, digitsValue_eq_some_iff]
  unfold numeral?
  split
  · next rest =>
      refine (hread rest).trans (and_congr_left fun _ => ⟨fun h => ⟨rest, .inr rfl, h⟩, ?_⟩)
      rintro ⟨digits, rfl | hrest, hne, hdigits, hvalue⟩
      · exact absurd (hdigits '+' List.mem_cons_self) (by decide)
      · cases hrest
        exact ⟨hne, hdigits, hvalue⟩
  · next hplus =>
      refine (hread text).trans (and_congr_left fun _ => ⟨fun h => ⟨text, .inl rfl, h⟩, ?_⟩)
      rintro ⟨digits, rfl | htext, h⟩
      · exact h
      · exact absurd htext (hplus digits)

theorem isBlank_of_isDigit {c : Char} (hc : c.isDigit) : isBlank c = false := by
  obtain ⟨hzero, hnine⟩ : 0x30 ≤ c.toNat ∧ c.toNat ≤ 0x39 := Char.isDigit_iff_toNat.mp hc
  exact isBlank_of_visible (by omega) (by omega)

namespace Numeral

variable (h : Numeral text n)

include h

theorem ne_nil : text ≠ [] := by
  obtain ⟨digits, rfl | rfl, hne, -⟩ := h.spelled
  · exact hne
  · exact List.cons_ne_nil _ _

theorem isDigit_or_plus {c : Char} (hc : c ∈ text) : c.isDigit ∨ c = '+' := by
  obtain ⟨digits, rfl | rfl, -, hdigits, -⟩ := h.spelled
  · exact .inl (hdigits c hc)
  · rcases List.mem_cons.mp hc with rfl | hc
    · exact .inr rfl
    · exact .inl (hdigits c hc)

theorem isBlank_eq_false {c : Char} (hc : c ∈ text) : isBlank c = false := by
  rcases h.isDigit_or_plus hc with hdigit | rfl
  · exact isBlank_of_isDigit hdigit
  · decide

theorem tight : Tight text where
  head := fun _ hc => h.isBlank_eq_false (List.mem_of_mem_head? hc)
  last := fun _ hc => h.isBlank_eq_false (List.mem_of_mem_getLast? hc)

theorem dash_notMem : '-' ∉ text := by
  intro hdash
  rcases h.isDigit_or_plus hdash with hdigit | hplus
  · exact absurd hdigit (by decide)
  · exact absurd hplus (by decide)

end Numeral

theorem lineNumber?_eq_some_iff : lineNumber? text = some n ↔ Padded (Numeral · n) text := by
  rw [padded_iff fun core hcore => hcore.tight, lineNumber?, Option.filter_eq_some_iff, numeral?_eq_some_iff,
    decide_eq_true_iff]
  constructor
  · rintro ⟨⟨hspelled, hmax⟩, hpos⟩
    exact ⟨hspelled, hpos, Nat.lt_succ_of_le hmax⟩
  · intro h
    exact ⟨⟨h.spelled, Nat.le_of_lt_succ h.bounded⟩, h.pos⟩

/-- Blanks around a number do not matter to its reader. -/
theorem lineNumber?_congr {other : List Char} (h : trim text = trim other) : lineNumber? text = lineNumber? other := by
  rw [lineNumber?, h, lineNumber?]

/-- Whoever writes a number in decimal digits has written a numeral. -/
theorem numeral_repr (hpos : 0 < n) (hbounded : n < 2 ^ 64) : Numeral n.repr.toList n where
  spelled := ⟨Nat.toDigits 10 n, .inl Nat.toList_repr, Nat.toDigits_ne_nil, fun _ hc =>
    Nat.isDigit_of_mem_toDigits (by decide) (by decide) hc, Nat.ofDigitChars_toDigits (by decide) (by decide)⟩
  pos := hpos
  bounded := hbounded

end Text

namespace LineRange

open Text

/-- How a range of lines is written: as one numeral, or as two with the only dash between them. -/
inductive Spelled (text : List Char) : Nat → Nat → Prop
  | single {line : Nat} (h : Padded (Numeral · line) text) : Spelled text line line
  | pair {left right : List Char} {first last : Nat} (eq : text = left ++ '-' :: right) (hleft : '-' ∉ left)
      (hright : '-' ∉ right) (hfirst : Padded (Numeral · first) left) (hlast : Padded (Numeral · last) right)
      (le : first ≤ last) : Spelled text first last

variable {text : String} {left right : List Char} {range : LineRange}

theorem ofBounds?_eq_some_iff {first last : Nat} :
    ofBounds? first last = some range ↔ range.first = first ∧ range.last = last := by
  rw [ofBounds?]
  constructor
  · intro h
    split_ifs at h
    cases h
    exact ⟨rfl, rfl⟩
  · rintro ⟨rfl, rfl⟩
    exact dif_pos ⟨range.one_le_first, range.first_le_last⟩

/-- A text is read by the pieces between its dashes, of which there are one or two. -/
theorem parse_eq_ok_iff_pieces : parse text = .ok range ↔
    (∃ line, (trim text.toList).splitOn '-' = [line] ∧ lineNumber? line = some range.first ∧
      range.last = range.first) ∨
    ∃ first last, (trim text.toList).splitOn '-' = [first, last] ∧ lineNumber? first = some range.first ∧
      lineNumber? last = some range.last := by
  unfold parse
  generalize (trim text.toList).splitOn '-' = pieces
  rcases pieces with _ | ⟨first, _ | ⟨last, _ | ⟨other, others⟩⟩⟩
  · simp [bind, Except.bind]
  · cases hline : lineNumber? first with
    | none => simp [bind, Except.bind, hline]
    | some number =>
        have hbounds : number = range.first ∧ range.last = range.first ↔ ofBounds? number number = some range := by
          rw [ofBounds?_eq_some_iff]
          omega
        have hright : (∃ line, [first] = [line] ∧ lineNumber? line = some range.first ∧ range.last = range.first) ↔
            ofBounds? number number = some range := by
          simp [hline, ← hbounds]
        rw [hright]
        cases hfound : ofBounds? number number <;> simp [bind, Except.bind, hline, hfound]
  · cases hfirst : lineNumber? first with
    | none => simp [bind, Except.bind, hfirst]
    | some least =>
        cases hlast : lineNumber? last with
        | none => simp [bind, Except.bind, hfirst, hlast]
        | some greatest =>
            have hbounds : least = range.first ∧ greatest = range.last ↔ ofBounds? least greatest = some range := by
              rw [ofBounds?_eq_some_iff]
              omega
            have hright : (∃ start stop, [first, last] = [start, stop] ∧ lineNumber? start = some range.first ∧
                lineNumber? stop = some range.last) ↔ ofBounds? least greatest = some range := by
              simp [and_assoc, hfirst, hlast, ← hbounds]
            rw [hright]
            cases hfound : ofBounds? least greatest <;> simp [bind, Except.bind, hfirst, hlast, hfound]
  · simp [bind, Except.bind]

theorem eq_of_parse_error {error : Error} (h : parse text = .error error) :
    ∃ flaw, error = .invalidRange text flaw := by
  unfold parse at h
  simp only [bind, Except.bind] at h
  split at h
  · split at h
    · split at h
      · cases h
      · exact ⟨_, (Except.error.inj h).symm⟩
    · exact ⟨_, (Except.error.inj h).symm⟩
  · split at h
    · split at h
      · cases h
      · exact ⟨_, (Except.error.inj h).symm⟩
    · exact ⟨_, (Except.error.inj h).symm⟩
    · exact ⟨_, (Except.error.inj h).symm⟩
  · exact ⟨_, (Except.error.inj h).symm⟩

/-- The reader accepts the texts of the grammar and no others. -/
theorem parse_eq_ok_iff : parse text = .ok range ↔ Spelled text.toList range.first range.last := by
  rw [parse_eq_ok_iff_pieces]
  constructor
  · rintro (⟨line, hpieces, hline, hlast⟩ | ⟨first, last, hpieces, hfirst, hlast⟩)
    · obtain ⟨rfl, -⟩ := splitOn_eq_singleton_iff.mp hpieces
      rw [lineNumber?_congr (trim_trim _), lineNumber?_eq_some_iff] at hline
      rw [hlast]
      exact .single hline
    · obtain ⟨hcore, hleft, hright⟩ := splitOn_eq_pair_iff.mp hpieces
      obtain ⟨front, back, hfront, hback, htext⟩ := exists_trim text.toList
      have hnoDash : ∀ blanks : List Char, (∀ c ∈ blanks, isBlank c) → '-' ∉ blanks :=
        fun blanks hblanks hdash => absurd (hblanks '-' hdash) (by decide)
      have hnone : ∀ c ∈ ([] : List Char), isBlank c := by simp
      have htrimLeft : trim (front ++ first) = trim first := by simpa using trim_between hfront hnone first
      have htrimRight : trim (last ++ back) = trim last := by simpa using trim_between hnone hback last
      rw [← lineNumber?_congr htrimLeft, lineNumber?_eq_some_iff] at hfirst
      rw [← lineNumber?_congr htrimRight, lineNumber?_eq_some_iff] at hlast
      refine .pair ?_ ?_ ?_ hfirst hlast range.first_le_last
      · rw [htext, hcore]
        simp
      · simp [hleft, hnoDash front hfront]
      · simp [hright, hnoDash back hback]
  · generalize hstart : range.first = start
    generalize hstop : range.last = stop
    rintro (⟨hline⟩ | ⟨htext, hleft, hright, hfirst, hlast, -⟩)
    · refine .inl ⟨trim text.toList, ?_, ?_, rfl⟩
      · rw [padded_iff fun core hcore => hcore.tight] at hline
        exact splitOn_eq_singleton_iff.mpr ⟨rfl, hline.dash_notMem⟩
      · rw [lineNumber?_congr (trim_trim _)]
        exact lineNumber?_eq_some_iff.mpr hline
    · next left right =>
        refine .inr ⟨trimStart left, trimEnd right, ?_, ?_, ?_⟩
        · rw [htext, trim_append_cons (by decide)]
          refine splitOn_eq_pair_iff.mpr ⟨rfl, fun h => hleft ?_, fun h => hright ?_⟩
          · exact (List.dropWhile_sublist _).subset h
          · exact trimEnd_subset right h
        · rw [lineNumber?_congr (trim_trimStart _)]
          exact lineNumber?_eq_some_iff.mpr hfirst
        · rw [lineNumber?_congr (trim_trimEnd _)]
          exact lineNumber?_eq_some_iff.mpr hlast

theorem mem_print {c : Char} (hc : c ∈ range.print.toList) : c.isDigit ∨ c = '-' := by
  have hrepr : ∀ n : Nat, c ∈ n.repr.toList → c.isDigit := by
    intro n hn
    rw [Nat.toList_repr] at hn
    exact Nat.isDigit_of_mem_toDigits (by decide) (by decide) hn
  rw [print] at hc
  split_ifs at hc
  · exact .inl (hrepr _ hc)
  · simp only [String.toList_append, List.mem_append, or_assoc] at hc
    rcases hc with hc | hc | hc
    · exact .inl (hrepr _ hc)
    · exact .inr (by simpa using hc)
    · exact .inl (hrepr _ hc)

theorem spelled_print (range : LineRange) (hbounded : range.last < 2 ^ 64) :
    Spelled range.print.toList range.first range.last := by
  have hnumeral : ∀ n, 0 < n → n < 2 ^ 64 → Padded (Numeral · n) n.repr.toList := fun n hpos hbounded =>
    ⟨[], n.repr.toList, [], by simp, by simp, by simp, numeral_repr hpos hbounded⟩
  have hpos := range.one_le_first
  have hle := range.first_le_last
  rw [print]
  split_ifs with hone
  · rw [← hone]
    exact .single (hnumeral range.first (by omega) (by omega))
  · have hfirst := numeral_repr (n := range.first) (by omega) (by omega)
    have hlast := numeral_repr (n := range.last) (by omega) (by omega)
    refine .pair ?_ hfirst.dash_notMem hlast.dash_notMem (hnumeral range.first (by omega) (by omega))
      (hnumeral range.last (by omega) hbounded) hle
    simp

namespace Spelled

variable {text : List Char} {first last : Nat} (h : Spelled text first last)

include h

theorem bounds : 1 ≤ first ∧ first ≤ last ∧ last < 2 ^ 64 := by
  cases h with
  | single hline =>
      obtain ⟨_, core, _, _, _, _, hcore⟩ := hline
      exact ⟨hcore.pos, le_rfl, hcore.bounded⟩
  | pair _ _ _ hfirst hlast hle =>
      obtain ⟨_, core, _, _, _, _, hcore⟩ := hfirst
      obtain ⟨_, other, _, _, _, _, hother⟩ := hlast
      exact ⟨hcore.pos, hle, hother.bounded⟩

end Spelled

/-- Exactly the texts of the grammar are read, each with the bounds it spells. Any other text is refused and named in
the refusal. A range whose lines can be numbered in 64 bits is read back from what is printed of it. -/
theorem parse_exact :
    (∀ (text : String) (first last : Nat),
      (∃ range, parse text = .ok range ∧ range.first = first ∧ range.last = last) ↔ Spelled text.toList first last) ∧
    (∀ text : String, (∀ first last, ¬Spelled text.toList first last) →
      ∃ flaw, parse text = .error (.invalidRange text flaw)) ∧
    ∀ range : LineRange, range.last < 2 ^ 64 → parse range.print = .ok range := by
  refine ⟨fun text first last => ⟨?_, fun h => ?_⟩, fun text hnone => ?_, fun range hbounded => ?_⟩
  · rintro ⟨range, hparse, rfl, rfl⟩
    exact parse_eq_ok_iff.mp hparse
  · exact ⟨⟨first, last, h.bounds.1, h.bounds.2.1⟩, parse_eq_ok_iff.mpr h, rfl, rfl⟩
  · cases hparse : parse text with
    | ok range => exact absurd (parse_eq_ok_iff.mp hparse) (hnone _ _)
    | error error =>
        obtain ⟨flaw, rfl⟩ := eq_of_parse_error hparse
        exact ⟨flaw, rfl⟩
  · exact parse_eq_ok_iff.mpr (spelled_print range hbounded)

/-- A plus sign, leading zeros and wide blanks around the greatest line number; a number that is greater by one; and
the longest range there is. -/
theorem parse_exact_greatest :
    (∃ range, parse "\u3000+007\u00a0-\t18446744073709551615" = .ok range ∧ range.first = 7 ∧
      range.last = 2 ^ 64 - 1) ∧
    (∃ flaw, parse "1-18446744073709551616" = .error (.invalidRange "1-18446744073709551616" flaw)) ∧
    parse (print ⟨1, 2 ^ 64 - 1, by decide, by decide⟩) = .ok ⟨1, 2 ^ 64 - 1, by decide, by decide⟩ := by
  obtain ⟨hspelled, hrefused, hprinted⟩ := parse_exact
  refine ⟨(hspelled _ _ _).mpr ?_, hrefused _ fun first last h => ?_, hprinted _ (by decide)⟩
  · have hcut : "\u3000+007\u00a0-\t18446744073709551615".toList =
        ['\u3000', '+', '0', '0', '7', '\u00a0'] ++ '-' :: '\t' :: "18446744073709551615".toList := by
      decide +kernel
    refine .pair hcut (by decide) (by decide +kernel) ?_ ?_ (by decide)
    · have hnumeral : Numeral ['+', '0', '0', '7'] 7 :=
        ⟨⟨['0', '0', '7'], .inr rfl, by decide, List.all_eq_true.mp (by decide), by decide⟩, by decide, by decide⟩
      exact ⟨['\u3000'], _, ['\u00a0'], List.all_eq_true.mp (by decide), List.all_eq_true.mp (by decide), rfl, hnumeral⟩
    · have hnumeral : Numeral "18446744073709551615".toList (2 ^ 64 - 1) :=
        ⟨⟨_, .inl rfl, by decide +kernel, List.all_eq_true.mp (by decide +kernel), by decide +kernel⟩, by decide,
          by decide⟩
      exact ⟨['\t'], _, [], List.all_eq_true.mp (by decide), List.all_eq_true.mp (by decide), rfl, hnumeral⟩
  · obtain ⟨range, hparse, -⟩ := (hspelled _ first last).mpr h
    have hover : parse "1-18446744073709551616" = .error (.invalidRange "1-18446744073709551616" .stop) := by
      decide +kernel
    rw [hover] at hparse
    cases hparse

end LineRange

end LineComment
