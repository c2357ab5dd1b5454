import LineComment.Proofs.LineRange
import LineComment.Batch
import Mathlib.Data.List.Forall2

/-! Lists of targets as they are written down. An entry is a file name, with a range behind a colon or without one;
which names can stand without a range, and which in front of one, is said here without the reader. The reader finds in
each piece between commas the one entry that the piece spells, so a list is read back from what is printed of it. -/

namespace LineComment.Target

open Text

/-- A target as it is written down: the name of a file, and the lines given for it. -/
structure Entry where
  name : List Char
  range : Option LineRange := none

namespace Entry

/-- Writes an entry. -/
def print : Entry → List Char
  | ⟨name, none⟩ => name
  | ⟨name, some range⟩ => name ++ ':' :: range.print.toList

/-- The target of an entry. -/
def target (entry : Entry) : Target := ⟨.ofText entry.name, entry.range.map .lines⟩

/-- A name whose end is not taken for a range: there is no colon in it, or something behind the last one is neither a
digit nor a dash nor a blank. -/
inductive Unranged : List Char → Prop
  | noColon {name : List Char} (h : ':' ∉ name) : Unranged name
  | colon {front back : List Char} (last : ':' ∉ back)
      (other : ∃ c ∈ back, ¬c.isDigit ∧ c ≠ '-' ∧ isBlank c = false) : Unranged (front ++ ':' :: back)

/-- An entry whose parts show where it starts and ends, and where its name ends. -/
inductive Legible : Entry → Prop
  | ranged {name : List Char} {range : LineRange} (ne_nil : name ≠ []) (head : ∀ c ∈ name.head?, isBlank c = false)
      (bounded : range.last < 2 ^ 64) : Legible ⟨name, some range⟩
  | bare {name : List Char} (ne_nil : name ≠ []) (tight : Tight name) (unranged : Unranged name) : Legible ⟨name, none⟩

/-- An entry that can stand among others. -/
structure Printable (entry : Entry) : Prop where
  legible : entry.Legible
  comma_notMem : ',' ∉ entry.name

/-- The texts of an entry. A range is read behind the colon only if it has no plus sign. -/
inductive Spelled : Entry → List Char → Prop
  | bare {name : List Char} : Spelled ⟨name, none⟩ name
  | ranged {name lines : List Char} {range : LineRange} (h : LineRange.Spelled lines range.first range.last)
      (plain : '+' ∉ lines) : Spelled ⟨name, some range⟩ (name ++ ':' :: lines)

end Entry

/-- Entries as pieces of a text: each has blanks around it, and blank pieces stand anywhere among them. -/
inductive Laid : List Entry → List (List Char) → Prop
  | nil : Laid [] []
  | blank {entries : List Entry} {piece : List Char} {pieces : List (List Char)} (h : ∀ c ∈ piece, isBlank c)
      (rest : Laid entries pieces) : Laid entries (piece :: pieces)
  | entry {entries : List Entry} {pieces : List (List Char)} {front back : List Char} (entry : Entry)
      (hfront : ∀ c ∈ front, isBlank c) (hback : ∀ c ∈ back, isBlank c) (rest : Laid entries pieces) :
      Laid (entry :: entries) ((front ++ (entry.print ++ back)) :: pieces)

variable {piece name lines : List Char} {range : LineRange} {target : Target} {entry : Entry}

namespace Entry

theorem Legible.spelled_print (h : entry.Legible) : entry.Spelled entry.print := by
  cases h with
  | ranged _ _ hbounded =>
      refine .ranged (LineRange.spelled_print _ hbounded) fun hplus => ?_
      exact absurd (LineRange.mem_print hplus) (by decide)
  | bare => exact .bare

theorem Printable.comma_notMem_print (h : entry.Printable) : ',' ∉ entry.print := by
  obtain ⟨name, none | range⟩ := entry
  · exact h.comma_notMem
  · intro hcomma
    rcases List.mem_append.mp hcomma with hname | hrange
    · exact h.comma_notMem hname
    · rcases List.mem_cons.mp hrange with hcolon | hrange
      · exact absurd hcolon (by decide)
      · exact absurd (LineRange.mem_print hrange) (by decide)

end Entry

variable {entries : List Entry} {pieces : List (List Char)}

/-- No comma stands inside a piece. -/
theorem Laid.comma_notMem (h : Laid entries pieces) (hentries : ∀ entry ∈ entries, entry.Printable) :
    ∀ piece ∈ pieces, ',' ∉ piece := by
  have hblanks : ∀ {blanks : List Char}, (∀ c ∈ blanks, isBlank c) → ',' ∉ blanks :=
    fun hblanks hcomma => absurd (hblanks ',' hcomma) (by decide)
  induction h with
  | nil => simp
  | blank hpiece _ ih => exact List.forall_mem_cons.mpr ⟨hblanks hpiece, ih hentries⟩
  | entry entry hfront hback _ ih =>
      obtain ⟨hentry, hrest⟩ := List.forall_mem_cons.mp hentries
      refine List.forall_mem_cons.mpr ⟨?_, ih hrest⟩
      simp [hblanks hfront, hblanks hback, hentry.comma_notMem_print]

end LineComment.Target
