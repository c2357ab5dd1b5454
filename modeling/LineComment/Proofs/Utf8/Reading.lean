import LineComment.Proofs.Utf8.Spelling
import Mathlib.Data.List.Forall2

/-! Reading UTF-8 undoes writing it, wherever the bytes of a text stand. A byte that is no tail puts the reader
back into step, so what was read before a text never reaches into it; and each character that was read can be traced
back to the bytes it came from. Together: looking for a text in what was decoded is looking for its bytes. -/

namespace LineComment.Utf8

variable {b : UInt8} {u v : Unfinished} {c d : Char} {bytes tail : Bytes}

theorem Unfinished.next_completes (h : (Reading.more u).Completes c (b :: tail)) : (u.next b).Completes c tail := by
  obtain ⟨_, hu, hrest⟩ := h
  cases hu
  exact hrest

/-- What is under way is completed first. -/
theorem unitsFrom_of_completes (h : (Reading.more u).Completes c tail) (rest : Bytes) :
    unitsFrom (some u) (tail ++ rest) = some c :: units rest := by
  induction tail generalizing u with
  | nil => cases h
  | cons b tail ih =>
      have hnext := Unfinished.next_completes h
      rw [List.cons_append, unitsFrom, feed]
      cases hread : u.next b with
      | complete d =>
          rw [hread, completes_complete] at hnext
          obtain ⟨rfl, rfl⟩ := hnext
          rfl
      | more v =>
          rw [hread] at hnext
          exact ih hnext
      | refused =>
          rw [hread] at hnext
          exact absurd hnext not_completes_refused

theorem units_encodeOne_append (c : Char) (rest : Bytes) : units (encodeOne c ++ rest) = some c :: units rest := by
  obtain ⟨b, tail, hbytes, _, hcompletes⟩ := exists_cons_encodeOne c
  rw [hbytes, List.cons_append, units, unitsFrom, feed, start]
  cases hlead : lead b with
  | complete d =>
      rw [hlead, completes_complete] at hcompletes
      obtain ⟨rfl, rfl⟩ := hcompletes
      rfl
  | more u =>
      rw [hlead] at hcompletes
      exact unitsFrom_of_completes hcompletes rest
  | refused =>
      rw [hlead] at hcompletes
      exact absurd hcompletes not_completes_refused

theorem units_encode_append (text : List Char) (rest : Bytes) :
    units (encode text ++ rest) = text.map some ++ units rest := by
  induction text with
  | nil => rfl
  | cons c text ih =>
      rw [encode_cons, List.append_assoc, units_encodeOne_append, ih]
      rfl

/-- Whatever is under way, only tails are admitted. -/
def Bounded (pending : Option Unfinished) : Prop := ∀ u ∈ pending, ∀ b, u.Admits b → IsTail b

theorem bounded_none : Bounded none := by simp [Bounded]

theorem isTail_of_lead {a : UInt8} (h : lead a = .more u) (hb : u.Admits b) : IsTail b := by
  rw [lead] at h
  split_ifs at h
  all_goals cases h
  all_goals simp only [Unfinished.Admits, UInt8.toNat_ofNat] at hb
  all_goals rw [IsTail]
  all_goals omega

theorem isTail_of_next {a : UInt8} (h : u.next a = .more v) (hb : v.Admits b) : IsTail b := by
  rw [Unfinished.next] at h
  split_ifs at h
  cases hlater : u.later with
  | zero => simp [hlater] at h
  | succ later =>
      simp only [hlater, Reading.more.injEq] at h
      subst h
      exact hb

theorem bounded_start (b : UInt8) : Bounded (start b).2 := by
  intro u hu
  rw [start] at hu
  cases hlead : lead b with
  | complete c => simp [hlead] at hu
  | more v =>
      simp only [hlead, Option.mem_some_iff] at hu
      subst hu
      exact fun _ => isTail_of_lead hlead
  | refused => simp [hlead] at hu

theorem bounded_feed (pending : Option Unfinished) (b : UInt8) : Bounded (feed pending b).2 := by
  cases pending with
  | none => exact bounded_start b
  | some u =>
      intro v hv
      rw [feed] at hv
      cases hread : u.next b with
      | complete c => simp [hread] at hv
      | more w =>
          simp only [hread, Option.mem_some_iff] at hv
          subst hv
          exact fun _ => isTail_of_next hread
      | refused =>
          simp only [hread] at hv
          exact bounded_start b v hv

/-- A byte that is no tail ends what is under way, and is then read as if nothing had been. -/
theorem unitsFrom_of_not_isTail {pending : Option Unfinished} (hpending : Bounded pending) (hb : ¬IsTail b)
    (rest : Bytes) : unitsFrom pending (b :: rest) = unitsFrom pending [] ++ units (b :: rest) := by
  cases pending with
  | none => rfl
  | some u =>
      have hrefused : u.next b = .refused := next_of_not_admits fun hadmits => hb (hpending u rfl b hadmits)
      have hfeed : feed (some u) b = (none :: (start b).1, (start b).2) := by rw [feed, hrefused]
      change (feed (some u) b).1 ++ unitsFrom (feed (some u) b).2 rest = [none] ++ units (b :: rest)
      rw [hfeed]
      rfl

/-- Whatever stands in front of a byte that is no tail, from that byte on everything is read as if it were the
first. -/
theorem unitsFrom_append {pending : Option Unfinished} (hpending : Bounded pending) (hb : ¬IsTail b)
    (front rest : Bytes) : unitsFrom pending (front ++ b :: rest) = unitsFrom pending front ++ units (b :: rest) := by
  induction front generalizing pending with
  | nil => exact unitsFrom_of_not_isTail hpending hb rest
  | cons a front ih => rw [List.cons_append, unitsFrom, unitsFrom, ih (bounded_feed pending a), List.append_assoc]

/-- A text that is encoded anywhere in a run of bytes is read from it, and what stands in front is
read as if nothing followed. -/
theorem units_append_encode {text : List Char} (htext : text ≠ []) (front back : Bytes) :
    units (front ++ (encode text ++ back)) = units front ++ (text.map some ++ units back) := by
  obtain ⟨c, text, rfl⟩ := List.exists_cons_of_ne_nil htext
  obtain ⟨b, tail, hbytes, hb, _⟩ := exists_cons_encodeOne c
  have hencode : encode (c :: text) = b :: (tail ++ encode text) := by rw [encode_cons, hbytes, List.cons_append]
  rw [← units_encode_append, hencode]
  exact unitsFrom_append bounded_none hb front (tail ++ encode text ++ back)

/-- A piece from which a character, if it is one, was read. -/
def Yields (unit : Option Char) (piece : Bytes) : Prop := ∀ c, unit = some c → encodeOne c = piece

/-- The bytes that have led to what is under way. -/
def Holds (pending : Option Unfinished) (held : Bytes) : Prop :=
  match pending with
  | none => held = []
  | some u => ∀ c tail, (Reading.more u).Completes c tail → Spells c (held ++ tail)

/-- A run of bytes falls into pieces, one for each character or ill-formed run read. -/
theorem exists_pieces {pending : Option Unfinished} {held : Bytes} (hheld : Holds pending held) (bytes : Bytes) :
    ∃ pieces, List.Forall₂ Yields (unitsFrom pending bytes) pieces ∧ pieces.flatten = held ++ bytes := by
  induction bytes generalizing pending held with
  | nil =>
      cases pending with
      | none => exact ⟨[], .nil, by rw [hheld]; rfl⟩
      | some u => exact ⟨[held], .cons (by simp [Yields]) .nil, by simp⟩
  | cons b rest ih =>
      have hstart : ∃ pieces, List.Forall₂ Yields (units (b :: rest)) pieces ∧ pieces.flatten = b :: rest := by
        rw [units, unitsFrom, feed, start]
        cases hlead : lead b with
        | complete c =>
            obtain ⟨pieces, hpieces, hflatten⟩ := @ih none [] rfl
            refine ⟨[b] :: pieces, .cons ?_ hpieces, by rw [List.flatten_cons, hflatten]; rfl⟩
            rintro _ ⟨⟩
            refine spells_iff.mp ?_
            rw [Spells, hlead, completes_complete]
            exact ⟨rfl, rfl⟩
        | more u =>
            refine @ih (some u) [b] fun c tail hcompletes => ?_
            rw [List.singleton_append, Spells, hlead]
            exact hcompletes
        | refused =>
            obtain ⟨pieces, hpieces, hflatten⟩ := @ih none [] rfl
            exact ⟨[b] :: pieces, .cons (by simp [Yields]) hpieces, by rw [List.flatten_cons, hflatten]; rfl⟩
      cases pending with
      | none =>
          rw [hheld]
          exact hstart
      | some u =>
          have hnext (c : Char) (tail : Bytes) (h : (u.next b).Completes c tail) : Spells c (held ++ [b] ++ tail) := by
            rw [List.append_assoc]
            exact hheld c _ ⟨u, rfl, h⟩
          rw [unitsFrom, feed]
          cases hread : u.next b with
          | complete c =>
              obtain ⟨pieces, hpieces, hflatten⟩ := @ih none [] rfl
              refine ⟨(held ++ [b]) :: pieces, .cons ?_ hpieces, by simp [hflatten]⟩
              rintro _ ⟨⟩
              have hspells := hnext c [] (by rw [hread, completes_complete]; exact ⟨rfl, rfl⟩)
              rw [List.append_nil] at hspells
              exact spells_iff.mp hspells
          | more v =>
              obtain ⟨pieces, hpieces, hflatten⟩ := @ih (some v) (held ++ [b])
                fun c tail hcompletes => hnext c tail (by rwa [hread])
              exact ⟨pieces, hpieces, by simp [hflatten]⟩
          | refused =>
              obtain ⟨pieces, hpieces, hflatten⟩ := hstart
              exact ⟨held :: pieces, .cons (by simp [Yields]) hpieces, by rw [List.flatten_cons, hflatten]⟩

/-- The pieces from which a text was read are its encoding. -/
theorem flatten_of_yields {text : List Char} {pieces : List Bytes}
    (h : List.Forall₂ Yields (text.map some) pieces) : pieces.flatten = encode text := by
  induction text generalizing pieces with
  | nil => cases h; rfl
  | cons c text ih =>
      cases h with
      | cons hpiece hpieces =>
          rw [List.flatten_cons, ih hpieces, ← hpiece c rfl]
          rfl

theorem exists_pieces_append {first second : List (Option Char)} {pieces : List Bytes}
    (h : List.Forall₂ Yields (first ++ second) pieces) :
    ∃ front back, pieces = front ++ back ∧ List.Forall₂ Yields first front ∧ List.Forall₂ Yields second back :=
  ⟨pieces.take first.length, pieces.drop first.length, (List.take_append_drop _ _).symm,
    (List.forall₂_take_append _ _ _ h.flip).flip, (List.forall₂_drop_append _ _ _ h.flip).flip⟩

/-- Characters that were read one after the other stand one after the other in the bytes. -/
theorem infix_units_iff {text : List Char} {bytes : Bytes} :
    text.map some <:+: units bytes ↔ encode text <:+: bytes := by
  constructor
  · rintro ⟨before, after, hunits⟩
    obtain ⟨pieces, hpieces, hflatten⟩ := @exists_pieces none [] rfl bytes
    rw [← units, ← hunits] at hpieces
    obtain ⟨first, back, rfl, hfirst, _⟩ := exists_pieces_append hpieces
    obtain ⟨front, read, rfl, _, hread⟩ := exists_pieces_append hfirst
    refine ⟨front.flatten, back.flatten, ?_⟩
    rw [← flatten_of_yields hread, ← List.flatten_append, ← List.flatten_append, hflatten, List.nil_append]
  · rintro ⟨front, back, rfl⟩
    by_cases htext : text = []
    · rw [htext]
      exact List.nil_infix
    · rw [List.append_assoc, units_append_encode htext, ← List.append_assoc]
      exact List.infix_append _ _ _

theorem mapM_id_eq_some_iff {units : List (Option Char)} {text : List Char} :
    units.mapM id = some text ↔ units = text.map some := by
  induction units generalizing text with
  | nil => cases text <;> simp
  | cons unit units ih =>
      cases unit with
      | none => cases text <;> simp
      | some c => cases text <;> simp [Option.bind_eq_some_iff, ih, and_comm]

theorem units_encode (text : List Char) : units (encode text) = text.map some := by
  have hunits := units_encode_append text []
  rw [List.append_nil] at hunits
  exact hunits.trans (List.append_nil _)

/-- Only the encoding of a text is read as that text. -/
theorem decode?_eq_some_iff {text : List Char} {bytes : Bytes} : decode? bytes = some text ↔ encode text = bytes := by
  rw [decode?, mapM_id_eq_some_iff]
  constructor
  · intro hunits
    obtain ⟨pieces, hpieces, hflatten⟩ := @exists_pieces none [] rfl bytes
    rw [← units, hunits] at hpieces
    exact (flatten_of_yields hpieces).symm.trans hflatten
  · rintro rfl
    exact units_encode text

/-- Where every unit is a character, nothing is lost by putting U+FFFD for the others. -/
theorem map_some_getD {units : List (Option Char)} (hunits : none ∉ units) :
    (units.map fun unit => unit.getD '\ufffd').map some = units := by
  rw [List.map_map]
  refine (List.map_congr_left fun unit hunit => ?_).trans (List.map_id' units)
  cases unit with
  | none => exact absurd hunit hunits
  | some c => rfl

/-- A text without U+FFFD stands in the decoded text of some bytes exactly where its own bytes stand among
them. -/
theorem infix_lossy_iff {text : List Char} (htext : '\ufffd' ∉ text) {bytes : Bytes} :
    text <:+: lossy bytes ↔ encode text <:+: bytes := by
  rw [← infix_units_iff]
  constructor
  · rintro ⟨before, after, hlossy⟩
    rw [lossy, eq_comm, List.map_eq_append_iff] at hlossy
    obtain ⟨first, back, hunits, hfirst, -⟩ := hlossy
    obtain ⟨front, read, rfl, -, rfl⟩ := List.map_eq_append_iff.mp hfirst
    have hread : none ∉ read := fun hnone => htext (List.mem_map_of_mem hnone)
    rw [hunits, map_some_getD hread]
    exact ⟨front, back, rfl⟩
  · intro h
    have hmap := h.map fun unit => unit.getD '\ufffd'
    rwa [List.map_map, show (fun unit : Option Char => unit.getD '\ufffd') ∘ some = id from rfl, List.map_id] at hmap

end LineComment.Utf8
