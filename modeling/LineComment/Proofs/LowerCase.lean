import LineComment.Proofs.Lists
import Mathlib.Data.String.Basic

/-! Lower case and blanks. Only the letters A to Z have a lower case here, and neither these letters nor the small
ones are blanks, so a text may be trimmed before or after its letters are lowered. -/

namespace LineComment.Text

theorem isUpper_iff_val (c : Char) : c.isUpper ↔ 'A'.val ≤ c.val ∧ c.val ≤ 'Z'.val := decide_eq_true_iff

theorem isUpper_iff (c : Char) : c.isUpper ↔ 0x41 ≤ c.toNat ∧ c.toNat ≤ 0x5a := by
  rw [isUpper_iff_val, UInt32.le_iff_toNat_le, UInt32.le_iff_toNat_le]
  rfl

theorem toLower_of_not_isUpper {c : Char} (h : ¬c.isUpper) : c.toLower = c :=
  dif_neg fun hrange => h ((isUpper_iff_val c).mpr hrange)

theorem toNat_toLower (c : Char) : c.toLower.toNat = if c.isUpper then c.toNat + 0x20 else c.toNat := by
  split_ifs with hupper
  · have hletter := (isUpper_iff c).mp hupper
    have hlower : c.toLower.val = c.val + ('a'.val - 'A'.val) :=
      congrArg Char.val (dif_pos ((isUpper_iff_val c).mp hupper))
    have hnumber : c.toLower.toNat = (c.toNat + 0x20) % 2 ^ 32 := congrArg UInt32.toNat hlower
    omega
  · rw [toLower_of_not_isUpper hupper]

theorem not_isUpper_toLower (c : Char) : ¬c.toLower.isUpper := by
  intro hlower
  rw [isUpper_iff, toNat_toLower] at hlower
  split_ifs at hlower with hupper
  · rw [isUpper_iff] at hupper
    omega
  · exact hupper ((isUpper_iff c).mpr hlower)

theorem toLower_toLower (c : Char) : c.toLower.toLower = c.toLower :=
  toLower_of_not_isUpper (not_isUpper_toLower c)

/-- Nothing but a character below the letters is lowered to it. -/
theorem toLower_eq_iff {c low : Char} (hlow : low.toNat < 0x41) : c.toLower = low ↔ c = low := by
  by_cases hupper : c.isUpper
  · have hletter := (isUpper_iff c).mp hupper
    rw [← Char.toNat_inj, ← Char.toNat_inj, toNat_toLower, if_pos hupper]
    omega
  · rw [toLower_of_not_isUpper hupper]

theorem isBlank_toLower (c : Char) : isBlank c.toLower = isBlank c := by
  by_cases hupper : c.isUpper
  · have hletter := (isUpper_iff c).mp hupper
    have hlower : c.toLower.toNat = c.toNat + 0x20 := by rw [toNat_toLower, if_pos hupper]
    rw [isBlank_of_visible (by omega) (by omega), isBlank_of_visible (by omega) (by omega)]
  · rw [toLower_of_not_isUpper hupper]

theorem toList_lowercase (text : String) : (lowercase text).toList = text.toList.map Char.toLower :=
  String.toList_ofList

theorem lowercase_lowercase (text : String) : lowercase (lowercase text) = lowercase text := by
  rw [lowercase, toList_lowercase, List.map_map]
  exact congrArg String.ofList (List.map_congr_left fun c _ => toLower_toLower c)

theorem not_isUpper_of_mem_lowercase {text : String} {c : Char} (hc : c ∈ (lowercase text).toList) : ¬c.isUpper := by
  rw [toList_lowercase] at hc
  obtain ⟨d, -, rfl⟩ := List.mem_map.mp hc
  exact not_isUpper_toLower d

/-- A text without a letter A to Z is in lower case. -/
theorem lowercase_eq_self_iff {text : String} : lowercase text = text ↔ ∀ c ∈ text.toList, ¬c.isUpper := by
  constructor
  · intro h c hc
    rw [← h] at hc
    exact not_isUpper_of_mem_lowercase hc
  · intro h
    rw [lowercase, List.map_congr_left fun c hc => toLower_of_not_isUpper (h c hc), List.map_id', String.ofList_toList]

theorem trim_map_toLower (text : List Char) : trim (text.map Char.toLower) = (trim text).map Char.toLower := by
  have hblank : isBlank ∘ Char.toLower = isBlank := funext isBlank_toLower
  simp only [trim, trimEnd, trimStart, List.dropWhile_map, ← List.map_reverse, hblank]

end LineComment.Text
