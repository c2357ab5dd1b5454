import LineComment.Text.Utf8
import Mathlib.Data.List.Basic
import Mathlib.Data.String.Basic

/-! Which bytes make which character. A reading takes one byte after the other; `Spells` follows it to its end. The
table of well-formed byte sequences, one line for each length, is read off the reader, and the encoding of a character
turns out to be the one way to spell it. The greater of two characters has the greater byte where their encodings
differ first, so the order of texts is that of their bytes. -/

namespace LineComment.Utf8

open UInt8

variable {b : UInt8} {u v : Unfinished} {c d : Char} {bytes tail : Bytes}

theorem toNat_ofNat_of_valid {n : Nat} (h : n.isValidChar) : (Char.ofNat n).toNat = n := by
  rw [Char.ofNat, dif_pos h]
  rfl

theorem lead_one (h : b.toNat < 0x80) : lead b = .complete (Char.ofNat b.toNat) := by
  rw [lead, if_pos (by simpa [lt_iff_toNat_lt] using h)]

theorem lead_two (hlow : 0xc2 ≤ b.toNat) (hhigh : b.toNat < 0xe0) :
    lead b = .more ⟨0, 0x80, 0xbf, b.toNat - 0xc0⟩ := by
  simp only [lead, lt_iff_toNat_lt, toNat_ofNat]
  rw [if_neg (by omega), if_neg (by omega), if_pos hhigh]

theorem lead_three (hlow : 0xe0 ≤ b.toNat) (hhigh : b.toNat < 0xf0) :
    lead b = .more ⟨1, if b = 0xe0 then 0xa0 else 0x80, if b = 0xed then 0x9f else 0xbf, b.toNat - 0xe0⟩ := by
  simp only [lead, lt_iff_toNat_lt, toNat_ofNat]
  rw [if_neg (by omega), if_neg (by omega), if_neg (by omega)]
  by_cases hfirst : b = 0xe0
  · subst hfirst; rfl
  by_cases hsurrogate : b = 0xed
  · subst hsurrogate; rfl
  rw [if_neg hfirst, if_neg hsurrogate, if_pos hhigh, if_neg hfirst, if_neg hsurrogate]

theorem lead_four (hlow : 0xf0 ≤ b.toNat) (hhigh : b.toNat < 0xf5) :
    lead b = .more ⟨2, if b = 0xf0 then 0x90 else 0x80, if b = 0xf4 then 0x8f else 0xbf, b.toNat - 0xf0⟩ := by
  have hfirst : b ≠ 0xe0 ∧ b ≠ 0xed := by
    constructor <;> rintro rfl <;> exact absurd hlow (by decide)
  simp only [lead, lt_iff_toNat_lt, toNat_ofNat]
  rw [if_neg (by omega), if_neg (by omega), if_neg (by omega), if_neg hfirst.1, if_neg hfirst.2, if_neg (by omega)]
  by_cases hlong : b = 0xf0
  · subst hlong; rfl
  by_cases hlast : b = 0xf4
  · subst hlast; rfl
  have hne : b.toNat ≠ 0xf4 := fun h => hlast (UInt8.toNat_inj.mp h)
  rw [if_neg hlong, if_pos (by omega), if_neg hlong, if_neg hlast]

theorem lead_refused (h : 0x80 ≤ b.toNat ∧ b.toNat < 0xc2 ∨ 0xf5 ≤ b.toNat) : lead b = .refused := by
  have hne : b ≠ 0xe0 ∧ b ≠ 0xed ∧ b ≠ 0xf0 ∧ b ≠ 0xf4 := by
    refine ⟨?_, ?_, ?_, ?_⟩ <;> rintro rfl <;> exact absurd h (by decide)
  simp only [lead, lt_iff_toNat_lt, toNat_ofNat, if_neg hne.1, if_neg hne.2.1, if_neg hne.2.2.1, if_neg hne.2.2.2]
  rw [if_neg (by omega)]
  rcases h with h | h
  · rw [if_pos (by omega)]
  · rw [if_neg (by omega), if_neg (by omega), if_neg (by omega), if_neg (by omega)]

/-- A byte is among those that may come next. -/
def Unfinished.Admits (u : Unfinished) (b : UInt8) : Prop := u.low.toNat ≤ b.toNat ∧ b.toNat ≤ u.high.toNat

theorem next_of_admits (h : u.Admits b) :
    u.next b = match u.later with
      | 0 => .complete (Char.ofNat (u.bits * 64 + (b.toNat - 0x80)))
      | later + 1 => .more ⟨later, 0x80, 0xbf, u.bits * 64 + (b.toNat - 0x80)⟩ := by
  have hnext : u.low ≤ b ∧ b ≤ u.high := by simpa only [le_iff_toNat_le] using! h
  unfold Unfinished.next
  exact if_pos hnext

theorem next_of_not_admits (h : ¬u.Admits b) : u.next b = .refused := by
  rw [Unfinished.next, if_neg (by simpa only [le_iff_toNat_le] using! h)]

/-- Some more bytes make of a reading the character `c`. -/
def Reading.Completes (c : Char) : Bytes → Reading → Prop
  | [], reading => reading = .complete c
  | b :: rest, reading => ∃ u, reading = .more u ∧ Completes c rest (u.next b)

/-- Some bytes, read from the first to the last, make the character `c`. -/
def Spells (c : Char) : Bytes → Prop
  | [] => False
  | b :: rest => (lead b).Completes c rest

theorem completes_complete : (Reading.complete d).Completes c tail ↔ tail = [] ∧ d = c := by
  cases tail with
  | nil => simp [Reading.Completes]
  | cons b rest => simp [Reading.Completes]

theorem not_completes_refused : ¬Reading.refused.Completes c tail := by
  cases tail <;> simp [Reading.Completes]

/-- The bytes that complete a character under way: the first of them is admitted, and the others complete what
it leaves under way. -/
theorem completes_more :
    (Reading.more u).Completes c tail ↔ ∃ b rest, tail = b :: rest ∧ u.Admits b ∧ (u.next b).Completes c rest := by
  constructor
  · intro h
    cases tail with
    | nil => cases h
    | cons b rest =>
        obtain ⟨_, hu, hrest⟩ := h
        cases hu
        refine ⟨b, rest, rfl, by_contra fun hb => ?_, hrest⟩
        rw [next_of_not_admits hb] at hrest
        exact not_completes_refused hrest
  · rintro ⟨b, rest, rfl, _, hrest⟩
    exact ⟨u, rfl, hrest⟩

theorem completes_last (hlater : u.later = 0) :
    (Reading.more u).Completes c tail ↔
      ∃ b, tail = [b] ∧ u.Admits b ∧ Char.ofNat (u.bits * 64 + (b.toNat - 0x80)) = c := by
  rw [completes_more]
  constructor
  · rintro ⟨b, rest, rfl, hb, hrest⟩
    rw [next_of_admits hb, hlater, completes_complete] at hrest
    exact ⟨b, by rw [hrest.1], hb, hrest.2⟩
  · rintro ⟨b, rfl, hb, hc⟩
    refine ⟨b, [], rfl, hb, ?_⟩
    rw [next_of_admits hb, hlater]
    exact congrArg Reading.complete hc

theorem completes_later {later : Nat} (hlater : u.later = later + 1) :
    (Reading.more u).Completes c tail ↔
      ∃ b rest, tail = b :: rest ∧ u.Admits b ∧
        (Reading.more ⟨later, 0x80, 0xbf, u.bits * 64 + (b.toNat - 0x80)⟩).Completes c rest := by
  rw [completes_more]
  constructor
  · rintro ⟨b, rest, rfl, hb, hrest⟩
    rw [next_of_admits hb, hlater] at hrest
    exact ⟨b, rest, rfl, hb, hrest⟩
  · rintro ⟨b, rest, rfl, hb, hrest⟩
    refine ⟨b, rest, rfl, hb, ?_⟩
    rw [next_of_admits hb, hlater]
    exact hrest

/-- A byte that can stand behind the first byte of a character. -/
def IsTail (b : UInt8) : Prop := 0x80 ≤ b.toNat ∧ b.toNat ≤ 0xbf

theorem spells_one_iff (h : b.toNat < 0x80) : Spells c (b :: tail) ↔ tail = [] ∧ Char.ofNat b.toNat = c := by
  rw [Spells, lead_one h, completes_complete]

theorem spells_two_iff (hlow : 0xc2 ≤ b.toNat) (hhigh : b.toNat < 0xe0) :
    Spells c (b :: tail) ↔
      ∃ b₁, tail = [b₁] ∧ IsTail b₁ ∧ Char.ofNat ((b.toNat - 0xc0) * 64 + (b₁.toNat - 0x80)) = c := by
  rw [Spells, lead_two hlow hhigh, completes_last rfl]
  rfl

theorem spells_three_iff (hlow : 0xe0 ≤ b.toNat) (hhigh : b.toNat < 0xf0) :
    Spells c (b :: tail) ↔
      ∃ b₁ b₂, tail = [b₁, b₂] ∧ IsTail b₁ ∧ IsTail b₂ ∧
        (b.toNat = 0xe0 → 0xa0 ≤ b₁.toNat) ∧ (b.toNat = 0xed → b₁.toNat ≤ 0x9f) ∧
        Char.ofNat (((b.toNat - 0xe0) * 64 + (b₁.toNat - 0x80)) * 64 + (b₂.toNat - 0x80)) = c := by
  have hadmits (b₁ : UInt8) : Unfinished.Admits
      ⟨1, if b = 0xe0 then 0xa0 else 0x80, if b = 0xed then 0x9f else 0xbf, b.toNat - 0xe0⟩ b₁ ↔
        IsTail b₁ ∧ (b.toNat = 0xe0 → 0xa0 ≤ b₁.toNat) ∧ (b.toNat = 0xed → b₁.toNat ≤ 0x9f) := by
    simp only [Unfinished.Admits, IsTail, apply_ite UInt8.toNat, ← UInt8.toNat_inj, toNat_ofNat]
    split_ifs <;> omega
  rw [Spells, lead_three hlow hhigh, completes_later rfl]
  simp only [completes_last, hadmits]
  constructor
  · rintro ⟨b₁, _, rfl, ⟨htail, hlong, hvalid⟩, b₂, rfl, htail₂, hc⟩
    exact ⟨b₁, b₂, rfl, htail, htail₂, hlong, hvalid, hc⟩
  · rintro ⟨b₁, b₂, rfl, htail, htail₂, hlong, hvalid, hc⟩
    exact ⟨b₁, _, rfl, ⟨htail, hlong, hvalid⟩, b₂, rfl, htail₂, hc⟩

theorem spells_four_iff (hlow : 0xf0 ≤ b.toNat) (hhigh : b.toNat < 0xf5) :
    Spells c (b :: tail) ↔
      ∃ b₁ b₂ b₃, tail = [b₁, b₂, b₃] ∧ IsTail b₁ ∧ IsTail b₂ ∧ IsTail b₃ ∧
        (b.toNat = 0xf0 → 0x90 ≤ b₁.toNat) ∧ (b.toNat = 0xf4 → b₁.toNat ≤ 0x8f) ∧
        Char.ofNat ((((b.toNat - 0xf0) * 64 + (b₁.toNat - 0x80)) * 64 + (b₂.toNat - 0x80)) * 64 +
          (b₃.toNat - 0x80)) = c := by
  have hadmits (b₁ : UInt8) : Unfinished.Admits
      ⟨2, if b = 0xf0 then 0x90 else 0x80, if b = 0xf4 then 0x8f else 0xbf, b.toNat - 0xf0⟩ b₁ ↔
        IsTail b₁ ∧ (b.toNat = 0xf0 → 0x90 ≤ b₁.toNat) ∧ (b.toNat = 0xf4 → b₁.toNat ≤ 0x8f) := by
    simp only [Unfinished.Admits, IsTail, apply_ite UInt8.toNat, ← UInt8.toNat_inj, toNat_ofNat]
    split_ifs <;> omega
  rw [Spells, lead_four hlow hhigh, completes_later rfl]
  simp only [hadmits]
  constructor
  · rintro ⟨b₁, _, rfl, ⟨htail, hlong, hvalid⟩, h⟩
    obtain ⟨b₂, _, rfl, htail₂, h⟩ := (completes_later rfl).mp h
    obtain ⟨b₃, rfl, htail₃, hc⟩ := (completes_last rfl).mp h
    exact ⟨b₁, b₂, b₃, rfl, htail, htail₂, htail₃, hlong, hvalid, hc⟩
  · rintro ⟨b₁, b₂, b₃, rfl, htail, htail₂, htail₃, hlong, hvalid, hc⟩
    refine ⟨b₁, _, rfl, ⟨htail, hlong, hvalid⟩, (completes_later rfl).mpr ⟨b₂, _, rfl, htail₂, ?_⟩⟩
    exact (completes_last rfl).mpr ⟨b₃, rfl, htail₃, hc⟩

theorem not_spells (h : 0x80 ≤ b.toNat ∧ b.toNat < 0xc2 ∨ 0xf5 ≤ b.toNat) : ¬Spells c (b :: tail) := by
  rw [Spells, lead_refused h]
  exact not_completes_refused

theorem encode_cons (c : Char) (text : List Char) : encode (c :: text) = encodeOne c ++ encode text :=
  List.flatMap_cons

theorem encodeOne_eq (c : Char) : encodeOne c =
    if c.toNat ≤ 0x7f then [ofNat c.toNat]
    else if c.toNat ≤ 0x7ff then [ofNat (c.toNat / 64 % 0x20 + 0xc0), ofNat (c.toNat % 0x40 + 0x80)]
    else if c.toNat ≤ 0xffff then
      [ofNat (c.toNat / 4096 % 0x10 + 0xe0), ofNat (c.toNat / 64 % 0x40 + 0x80), ofNat (c.toNat % 0x40 + 0x80)]
    else
      [ofNat (c.toNat / 262144 % 0x08 + 0xf0), ofNat (c.toNat / 4096 % 0x40 + 0x80),
        ofNat (c.toNat / 64 % 0x40 + 0x80), ofNat (c.toNat % 0x40 + 0x80)] := rfl

theorem encodeOne_ascii (h : c.toNat < 0x80) : encodeOne c = [ofNat c.toNat] := by
  rw [encodeOne_eq, if_pos (by omega)]

/-- Only a character below 0x80 has a byte below 0x80. -/
theorem toNat_eq_of_mem_encodeOne (hmem : b ∈ encodeOne c) (hb : b.toNat < 0x80) : c.toNat = b.toNat := by
  rw [encodeOne_eq] at hmem
  split_ifs at hmem
  all_goals simp only [List.mem_cons, List.not_mem_nil, or_false] at hmem
  · rw [hmem, toNat_ofNat']
    omega
  · rcases hmem with rfl | rfl <;> rw [toNat_ofNat'] at hb <;> omega
  · rcases hmem with rfl | rfl | rfl <;> rw [toNat_ofNat'] at hb <;> omega
  · rcases hmem with rfl | rfl | rfl | rfl <;> rw [toNat_ofNat'] at hb <;> omega

/-- A byte below 0x80 stands for itself. -/
theorem mem_encode_iff {text : List Char} (hb : b.toNat < 0x80) : b ∈ encode text ↔ Char.ofNat b.toNat ∈ text := by
  rw [encode, List.mem_flatMap]
  constructor
  · rintro ⟨c, hc, hmem⟩
    rwa [← toNat_eq_of_mem_encodeOne hmem hb, Char.ofNat_toNat]
  · intro hmem
    have hn : (Char.ofNat b.toNat).toNat = b.toNat := toNat_ofNat_of_valid (Or.inl (by omega))
    refine ⟨_, hmem, ?_⟩
    rw [encodeOne_ascii (by omega), hn, UInt8.ofNat_toNat]
    exact List.mem_cons_self

theorem charOfNat_eq {n : Nat} (h : n = c.toNat) : Char.ofNat n = c := h ▸ Char.ofNat_toNat c

theorem byteOfNat_eq {n : Nat} (h : n = b.toNat) : UInt8.ofNat n = b := h ▸ UInt8.ofNat_toNat

/-- The encoding of a character is one way to spell it. -/
theorem spells_encodeOne (c : Char) : Spells c (encodeOne c) := by
  have hvalid : c.toNat < 0xd800 ∨ 0xdfff < c.toNat ∧ c.toNat < 0x110000 := c.valid
  rw [encodeOne_eq]
  split_ifs with hone htwo hthree
  · refine (spells_one_iff ?_).mpr ⟨rfl, charOfNat_eq ?_⟩
    all_goals simp only [toNat_ofNat']
    all_goals omega
  · refine (spells_two_iff ?_ ?_).mpr ⟨_, rfl, ?_, charOfNat_eq ?_⟩
    all_goals simp only [IsTail, toNat_ofNat']
    all_goals omega
  · refine (spells_three_iff ?_ ?_).mpr ⟨_, _, rfl, ?_, ?_, ?_, ?_, charOfNat_eq ?_⟩
    all_goals simp only [IsTail, toNat_ofNat']
    all_goals omega
  · refine (spells_four_iff ?_ ?_).mpr ⟨_, _, _, rfl, ?_, ?_, ?_, ?_, ?_, charOfNat_eq ?_⟩
    all_goals simp only [IsTail, toNat_ofNat']
    all_goals omega

/-- And it is the only one. -/
theorem encodeOne_eq_of_spells (h : Spells c bytes) : encodeOne c = bytes := by
  cases bytes with
  | nil => cases h
  | cons b rest =>
      have hb := b.toNat_lt
      by_cases hone : b.toNat < 0x80
      · obtain ⟨rfl, rfl⟩ := (spells_one_iff hone).mp h
        rw [encodeOne_eq, toNat_ofNat_of_valid (Or.inl (by omega)), if_pos (by omega), UInt8.ofNat_toNat]
      by_cases hstray : b.toNat < 0xc2
      · exact absurd h (not_spells (by omega))
      by_cases htwo : b.toNat < 0xe0
      · obtain ⟨b₁, rfl, htail, rfl⟩ := (spells_two_iff (by omega) htwo).mp h
        rw [IsTail] at htail
        rw [encodeOne_eq, toNat_ofNat_of_valid (Or.inl (by omega)), if_neg (by omega), if_pos (by omega),
          byteOfNat_eq (b := b) (by omega), byteOfNat_eq (b := b₁) (by omega)]
      by_cases hthree : b.toNat < 0xf0
      · obtain ⟨b₁, b₂, rfl, htail, htail₂, hlong, hvalid, rfl⟩ := (spells_three_iff (by omega) hthree).mp h
        rw [IsTail] at htail htail₂
        rw [encodeOne_eq, toNat_ofNat_of_valid (by rw [Nat.isValidChar]; omega), if_neg (by omega), if_neg (by omega),
          if_pos (by omega), byteOfNat_eq (b := b) (by omega), byteOfNat_eq (b := b₁) (by omega),
          byteOfNat_eq (b := b₂) (by omega)]
      by_cases hfour : b.toNat < 0xf5
      · obtain ⟨b₁, b₂, b₃, rfl, htail, htail₂, htail₃, hlong, hvalid, rfl⟩ :=
          (spells_four_iff (by omega) hfour).mp h
        rw [IsTail] at htail htail₂ htail₃
        rw [encodeOne_eq, toNat_ofNat_of_valid (by rw [Nat.isValidChar]; omega), if_neg (by omega), if_neg (by omega),
          if_neg (by omega), byteOfNat_eq (b := b) (by omega), byteOfNat_eq (b := b₁) (by omega),
          byteOfNat_eq (b := b₂) (by omega), byteOfNat_eq (b := b₃) (by omega)]
      · exact absurd h (not_spells (by omega))

theorem spells_iff : Spells c bytes ↔ encodeOne c = bytes :=
  ⟨encodeOne_eq_of_spells, fun h => h ▸ spells_encodeOne c⟩

/-- No character starts with a tail. -/
theorem exists_cons_encodeOne (c : Char) :
    ∃ b tail, encodeOne c = b :: tail ∧ ¬IsTail b ∧ (lead b).Completes c tail := by
  have hspells := spells_encodeOne c
  cases hbytes : encodeOne c with
  | nil => rw [hbytes] at hspells; cases hspells
  | cons b tail =>
      rw [hbytes] at hspells
      refine ⟨b, tail, rfl, fun htail => ?_, hspells⟩
      rw [IsTail] at htail
      exact not_spells (by omega) hspells

theorem encodeOne_append_lt (h : c.toNat < d.toNat) (front back : Bytes) :
    encodeOne c ++ front < encodeOne d ++ back := by
  have hvalid : d.toNat < 0x110000 := by
    rcases d.valid with hlow | hhigh
    · exact hlow.trans (by decide)
    · exact hhigh.2
  rw [encodeOne_eq, encodeOne_eq]
  split_ifs
  all_goals simp only [List.cons_append, List.nil_append, List.cons_lt_cons_iff, UInt8.lt_iff_toNat_lt,
    ← UInt8.toNat_inj, UInt8.toNat_ofNat']
  all_goals try omega
  by_cases hfirst : c.toNat / 262144 < d.toNat / 262144
  · exact .inl (by omega)
  refine .inr ⟨by omega, ?_⟩
  by_cases hsecond : c.toNat / 4096 < d.toNat / 4096
  · exact .inl (by omega)
  exact .inr ⟨by omega, by omega⟩

/-- Encoding keeps the order of texts. -/
theorem encode_lt_encode {first second : List Char} (h : first < second) : encode first < encode second := by
  induction first generalizing second with
  | nil =>
      cases second with
      | nil => exact absurd h (List.not_lt_nil [])
      | cons d second =>
          obtain ⟨b, tail, hbytes, _, _⟩ := exists_cons_encodeOne d
          rw [encode_cons, hbytes, List.cons_append]
          exact List.nil_lt_cons b _
  | cons c first ih =>
      cases second with
      | nil => exact absurd h (List.not_lt_nil _)
      | cons d second =>
          rw [encode_cons, encode_cons]
          rcases List.cons_lt_cons_iff.mp h with hless | ⟨rfl, hless⟩
          · exact encodeOne_append_lt hless _ _
          · exact List.append_left_lt (ih hless)

theorem encode_lt_encode_iff {first second : String} :
    encode first.toList < encode second.toList ↔ first < second := by
  constructor
  · intro h
    by_contra hnot
    rcases (not_lt.mp hnot).lt_or_eq with hless | rfl
    · exact absurd (encode_lt_encode hless) (List.lt_asymm h)
    · exact absurd h (List.lt_irrefl _)
  · exact encode_lt_encode

end LineComment.Utf8
