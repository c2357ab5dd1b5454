import LineComment.CommandLine.Parser
import Mathlib.Data.List.Basic
import Mathlib.Tactic.Common

/-! What the words of a command line say, without reading them one after the other. A grammar tells which options stand
in a word, whether the last of them still needs its value, and so which words are options, which are values and
which are neither. No command line can be read in two ways. -/

namespace LineComment.CommandLine

namespace Flag

variable {flag other : Flag} {letter : UInt8} {word : Bytes}

/-- The bytes behind two dashes that name an option. -/
def name (flag : Flag) : Bytes := Utf8.encode flag.long.toList

/-- The byte behind one dash that stands for an option. -/
def HasLetter (flag : Flag) (letter : UInt8) : Prop := flag.short?.map Utf8.encodeOne = some [letter]

instance : Decidable (flag.HasLetter letter) := inferInstanceAs (Decidable (_ = _))

theorem name_of_ofLong? (h : ofLong? word = some flag) : flag.name = word :=
  beq_iff_eq.mp (List.find?_some (p := fun flag : Flag => Utf8.encode flag.long.toList == word) h)

theorem hasLetter_of_ofShort? (h : ofShort? letter = some flag) : flag.HasLetter letter :=
  beq_iff_eq.mp (List.find?_some (p := fun flag : Flag => flag.short?.map Utf8.encodeOne == some [letter]) h)

theorem ofLong?_name : ofLong? flag.name = some flag := by cases flag <;> decide

theorem HasLetter.ofShort?_eq (h : flag.HasLetter letter) : ofShort? letter = some flag := by
  have hfound : (flag.short?.map Utf8.encodeOne).all fun letters => letters.all (ofShort? · = some flag) := by
    cases flag <;> decide
  rw [show flag.short?.map Utf8.encodeOne = some [letter] from h] at hfound
  simpa using hfound

theorem eq_of_name_eq (h : flag.name = other.name) : flag = other :=
  Option.some.inj (ofLong?_name.symm.trans (h ▸ ofLong?_name))

theorem HasLetter.unique (h : flag.HasLetter letter) (hother : other.HasLetter letter) : flag = other :=
  Option.some.inj (h.ofShort?_eq.symm.trans hother.ofShort?_eq)

theorem HasLetter.ne_dash (h : flag.HasLetter letter) : letter ≠ dash := by
  rintro rfl
  have hnone : ofShort? dash = none := by decide
  rw [h.ofShort?_eq] at hnone
  cases hnone

theorem equals_notMem_name : equals ∉ flag.name := by cases flag <;> decide

theorem name_ne_nil : flag.name ≠ [] := by cases flag <;> decide

theorem name_ne_append {value : Bytes} : flag.name ≠ other.name ++ equals :: value := by
  intro h
  have hmem : equals ∈ flag.name := h ▸ List.mem_append_right _ List.mem_cons_self
  exact equals_notMem_name hmem

/-- The first equals sign ends the name. -/
theorem takeWhile_name_append {value : Bytes} : (flag.name ++ equals :: value).takeWhile (· != equals) = flag.name := by
  rw [List.takeWhile_append_of_pos, List.takeWhile_cons_of_neg (by simp), List.append_nil]
  intro byte hbyte
  simpa using ne_of_mem_of_not_mem hbyte equals_notMem_name

end Flag

variable {flag : Flag} {word letters : Bytes} {words : List Bytes} {flags others : List Flag} {waits other : Bool}

/-- What the letters behind one dash say: the options they stand for, and whether the last one still needs its value.
Everything behind the letter of an option that takes a value is the value. -/
inductive Letters : Bytes → List Flag → Bool → Prop
  | last {flag : Flag} {letter : UInt8} (hletter : flag.HasLetter letter) : Letters [letter] [flag] flag.takesValue
  | switch {flag : Flag} {letter : UInt8} {letters : Bytes} {flags : List Flag} {waits : Bool}
      (hletter : flag.HasLetter letter) (hswitch : flag.takesValue = false) (hrest : Letters letters flags waits) :
      Letters (letter :: letters) (flag :: flags) waits
  | value {flag : Flag} {letter : UInt8} {value : Bytes} (hletter : flag.HasLetter letter)
      (hvalue : flag.takesValue = true) (hne : value ≠ []) : Letters (letter :: value) [flag] false

/-- What a word with options says: the options, and whether the last one still needs its value. -/
inductive Opens : Bytes → List Flag → Bool → Prop
  | letters {letters : Bytes} {flags : List Flag} {waits : Bool} (h : Letters letters flags waits) :
      Opens (dash :: letters) flags waits
  | name (flag : Flag) : Opens (dash :: dash :: flag.name) [flag] flag.takesValue
  | value {flag : Flag} (hvalue : flag.takesValue = true) (value : Bytes) :
      Opens (dash :: dash :: (flag.name ++ equals :: value)) [flag] false

/-- A word without options: it has no dash in front, or is nothing but one. -/
def IsPlain (word : Bytes) : Prop := word = [dash] ∨ word.head? ≠ some dash

instance : Decidable (IsPlain word) := inferInstanceAs (Decidable (_ ∨ _))

/-- The options on a command line, in their order. An option in need of a value takes the next word for it, which must
be plain; two dashes alone end the options. -/
inductive Says : List Bytes → List Flag → Prop
  | nil : Says [] []
  | plain {word : Bytes} {words : List Bytes} {flags : List Flag} (hplain : IsPlain word) (h : Says words flags) :
      Says (word :: words) flags
  | options {word : Bytes} {words : List Bytes} {flags others : List Flag} (hword : Opens word flags false)
      (h : Says words others) : Says (word :: words) (flags ++ others)
  | valued {word value : Bytes} {words : List Bytes} {flags others : List Flag} (hword : Opens word flags true)
      (hvalue : IsPlain value) (h : Says words others) : Says (word :: value :: words) (flags ++ others)
  | escape (words : List Bytes) : Says ([dash, dash] :: words) []

/-- How a word of this form is spelled. -/
def Word.Spells : Word → Bytes → Prop
  | escape, word => word = [dash, dash]
  | long name value, word => word = dash :: dash :: (name ++ value.elim [] (equals :: ·))
  | short letters, word => word = dash :: letters ∧ letters ≠ []
  | plain, word => IsPlain word

theorem Word.spells_ofBytes (word : Bytes) : (ofBytes word).Spells word := by
  match word with
  | [] => exact .inr (by simp)
  | [byte] =>
      by_cases hbyte : byte = dash
      · exact .inl (by rw [hbyte])
      · exact .inr (by simpa using hbyte)
  | first :: second :: rest =>
      simp only [ofBytes]
      split_ifs with hfirst hsecond hrest
      · exact .inr (by simpa using hfirst)
      · exact ⟨by rw [not_not.mp hfirst], by simp⟩
      · rw [not_not.mp hfirst, not_not.mp hsecond, hrest]
        rfl
      · rw [not_not.mp hfirst, not_not.mp hsecond]
        have hrest := List.takeWhile_append_dropWhile (p := (· != equals)) (l := rest)
        cases hdrop : rest.dropWhile (· != equals) with
        | nil => simpa [Spells, hdrop] using hrest.symm
        | cons byte value =>
            have hbyte : byte = equals := by
              have hhead := List.head?_dropWhile_not (· != equals) rest
              simpa [hdrop] using hhead
            rw [hdrop, hbyte] at hrest
            simpa [Spells] using hrest.symm

/-- No second dash is among the letters, so they are not a name. -/
theorem Letters.ne_dash_cons (h : Letters letters flags waits) : letters ≠ dash :: word := by
  intro hletters
  cases h with
  | last hletter => exact hletter.ne_dash (List.cons.inj hletters).1
  | switch hletter _ _ => exact hletter.ne_dash (List.cons.inj hletters).1
  | value hletter _ _ => exact hletter.ne_dash (List.cons.inj hletters).1

theorem Letters.ne_nil (h : Letters letters flags waits) : letters ≠ [] := by cases h <;> simp

theorem Letters.unique (h : Letters letters flags waits) (hother : Letters letters others other) :
    flags = others ∧ waits = other := by
  induction h generalizing others other with
  | last hletter =>
      cases hother with
      | last hsame =>
          obtain rfl := hletter.unique hsame
          exact ⟨rfl, rfl⟩
      | switch hsame hswitch hrest => exact absurd rfl hrest.ne_nil
      | value hsame hvalue hne => exact absurd rfl hne
  | switch hletter hswitch hrest ih =>
      cases hother with
      | last hsame => exact absurd rfl hrest.ne_nil
      | switch hsame _ hrest =>
          obtain rfl := hletter.unique hsame
          obtain ⟨rfl, rfl⟩ := ih hrest
          exact ⟨rfl, rfl⟩
      | value hsame hvalue hne =>
          obtain rfl := hletter.unique hsame
          exact absurd hvalue (by simp [hswitch])
  | value hletter hvalue hne =>
      cases hother with
      | last hsame => exact absurd rfl hne
      | switch hsame hswitch hrest =>
          obtain rfl := hletter.unique hsame
          exact absurd hvalue (by simp [hswitch])
      | value hsame _ _ =>
          obtain rfl := hletter.unique hsame
          exact ⟨rfl, rfl⟩

theorem Opens.not_isPlain (h : Opens word flags waits) : ¬IsPlain word := by
  rintro (rfl | hhead)
  · cases h with
    | letters h => exact h.ne_nil rfl
  · cases h <;> exact hhead rfl

theorem Opens.ne_escape (h : Opens word flags waits) : word ≠ [dash, dash] := by
  intro hword
  cases h with
  | letters h => exact h.ne_dash_cons (List.cons.inj hword).2
  | name flag => exact Flag.name_ne_nil (List.cons.inj (List.cons.inj hword).2).2
  | value hvalue value => simp at hword

theorem not_isPlain_escape : ¬IsPlain [dash, dash] := by decide

theorem Opens.unique (h : Opens word flags waits) (hother : Opens word others other) :
    flags = others ∧ waits = other := by
  obtain ⟨read, hread⟩ : ∃ read, read = word := ⟨_, rfl⟩
  rw [← hread] at hother
  cases h with
  | letters h =>
      cases hother with
      | letters hsame =>
          obtain rfl := (List.cons.inj hread).2
          exact h.unique hsame
      | name flag => exact absurd (List.cons.inj hread).2.symm h.ne_dash_cons
      | value hvalue value => exact absurd (List.cons.inj hread).2.symm h.ne_dash_cons
  | name flag =>
      cases hother with
      | letters hsame => exact absurd (List.cons.inj hread).2 hsame.ne_dash_cons
      | name flag =>
          obtain rfl := Flag.eq_of_name_eq (List.cons.inj (List.cons.inj hread).2).2
          exact ⟨rfl, rfl⟩
      | value hvalue value =>
          exact absurd (List.cons.inj (List.cons.inj hread).2).2.symm Flag.name_ne_append
  | value hvalue value =>
      cases hother with
      | letters hsame => exact absurd (List.cons.inj hread).2 hsame.ne_dash_cons
      | name flag => exact absurd (List.cons.inj (List.cons.inj hread).2).2 Flag.name_ne_append
      | value hvalue value =>
          have hname := congrArg (List.takeWhile (· != equals)) (List.cons.inj (List.cons.inj hread).2).2
          rw [Flag.takeWhile_name_append, Flag.takeWhile_name_append] at hname
          obtain rfl := Flag.eq_of_name_eq hname
          exact ⟨rfl, rfl⟩

/-- The words of a command line say one thing only. -/
theorem Says.unique (h : Says words flags) (hother : Says words others) : flags = others := by
  induction h generalizing others with
  | nil =>
      cases hother
      rfl
  | plain hplain h ih =>
      cases hother with
      | plain _ hrest => exact ih hrest
      | options hword _ => exact absurd hplain hword.not_isPlain
      | valued hword _ _ => exact absurd hplain hword.not_isPlain
      | escape => exact absurd hplain not_isPlain_escape
  | options hword h ih =>
      cases hother with
      | plain hplain _ => exact absurd hplain hword.not_isPlain
      | options hsame hrest => rw [(hword.unique hsame).1, ih hrest]
      | valued hsame _ _ => exact absurd (hword.unique hsame).2 (by decide)
      | escape => exact absurd rfl hword.ne_escape
  | valued hword hvalue h ih =>
      cases hother with
      | plain hplain _ => exact absurd hplain hword.not_isPlain
      | options hsame _ => exact absurd (hword.unique hsame).2 (by decide)
      | valued hsame _ hrest => rw [(hword.unique hsame).1, ih hrest]
      | escape => exact absurd rfl hword.ne_escape
  | escape words =>
      cases hother with
      | plain hplain _ => exact absurd hplain not_isPlain_escape
      | options hword _ => exact absurd rfl hword.ne_escape
      | valued hword _ _ => exact absurd rfl hword.ne_escape
      | escape => rfl

end LineComment.CommandLine
