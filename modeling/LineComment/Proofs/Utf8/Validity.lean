import LineComment.Proofs.Utf8.Reading

/-! Well-formed runs of bytes, put together and taken apart. A character starts with a byte that is no tail and goes
on with tails, so a run can be cut in front of any byte that is no tail; and a text in front of a run or behind it
neither breaks nor repairs it. -/

namespace LineComment.Utf8

variable {b : UInt8} {c : Char} {text : List Char} {bytes front back : Bytes}

/-- A run of bytes is well-formed when it is the encoding of a text. -/
theorem isValid_iff : isValid bytes ↔ ∃ text, encode text = bytes := by
  constructor
  · intro hvalid
    have hunits : none ∉ units bytes := fun hnone =>
      absurd (List.all_eq_true.mp hvalid none hnone) Bool.false_ne_true
    exact ⟨lossy bytes, decode?_eq_some_iff.mp (mapM_id_eq_some_iff.mpr (map_some_getD hunits).symm)⟩
  · rintro ⟨text, rfl⟩
    rw [isValid, units_encode]
    simp

/-- A text in front of some bytes neither breaks nor repairs them. -/
theorem isValid_append_left (hfront : isValid front) (rest : Bytes) : isValid (front ++ rest) = isValid rest := by
  obtain ⟨text, rfl⟩ := isValid_iff.mp hfront
  rw [isValid, units_encode_append, List.all_append]
  simp [isValid]

theorem isTail_of_mem_tail {tail : Bytes} (h : encodeOne c = b :: tail) {a : UInt8} (ha : a ∈ tail) : IsTail a := by
  rw [encodeOne_eq] at h
  split_ifs at h
  all_goals cases h
  all_goals simp only [List.mem_cons, List.not_mem_nil, or_false] at ha
  · obtain rfl := ha
    rw [IsTail, UInt8.toNat_ofNat']
    omega
  · rcases ha with rfl | rfl <;> rw [IsTail, UInt8.toNat_ofNat'] <;> omega
  · rcases ha with rfl | rfl | rfl <;> rw [IsTail, UInt8.toNat_ofNat'] <;> omega

/-- In front of a byte that is no tail, a text falls into two. -/
theorem exists_encode_of_append (hb : ¬IsTail b) {rest : Bytes} (h : encode text = front ++ b :: rest) :
    ∃ first second, encode first = front ∧ encode second = b :: rest := by
  induction text generalizing front with
  | nil => exact absurd h.symm (List.append_ne_nil_of_right_ne_nil front (List.cons_ne_nil b rest))
  | cons c text ih =>
      cases front with
      | nil => exact ⟨[], c :: text, rfl, h⟩
      | cons a front =>
          obtain ⟨a', tail, hbytes, _, _⟩ := exists_cons_encodeOne c
          have hrest : tail ++ encode text = front ++ b :: rest := by
            rw [encode_cons, hbytes] at h
            exact (List.cons.inj h).2
          have hhead : encodeOne c = a :: tail := by
            rw [encode_cons, hbytes] at h
            rw [hbytes, (List.cons.inj h).1]
          rcases List.append_eq_append_iff.mp hrest with ⟨more, rfl, hmore⟩ | ⟨more, htail, hmore⟩
          · obtain ⟨first, second, rfl, hsecond⟩ := ih hmore
            exact ⟨c :: first, second, by rw [encode_cons, hhead, List.cons_append], hsecond⟩
          · cases more with
            | nil =>
                rw [List.append_nil] at htail
                refine ⟨[c], text, ?_, hmore.symm⟩
                rw [encode, List.flatMap_singleton, hhead, htail]
            | cons b' more =>
                obtain rfl : b = b' := (List.cons.inj hmore).1
                exact absurd (isTail_of_mem_tail hhead (by rw [htail]; simp)) hb

theorem isValid_append_cons_iff (hb : ¬IsTail b) (front rest : Bytes) :
    isValid (front ++ b :: rest) ↔ isValid front ∧ isValid (b :: rest) := by
  constructor
  · intro hvalid
    obtain ⟨text, htext⟩ := isValid_iff.mp hvalid
    obtain ⟨first, second, hfirst, hsecond⟩ := exists_encode_of_append hb htext
    exact ⟨isValid_iff.mpr ⟨first, hfirst⟩, isValid_iff.mpr ⟨second, hsecond⟩⟩
  · rintro ⟨hfront, hrest⟩
    rwa [isValid_append_left hfront]

/-- A text behind some bytes neither breaks nor repairs them. -/
theorem isValid_append_right (front : Bytes) (hback : isValid back) : isValid (front ++ back) = isValid front := by
  obtain ⟨text, htext⟩ := isValid_iff.mp hback
  cases text with
  | nil =>
      obtain rfl : [] = back := htext
      rw [List.append_nil]
  | cons c text =>
      obtain ⟨b, tail, hbytes, hb, _⟩ := exists_cons_encodeOne c
      obtain rfl : b :: (tail ++ encode text) = back := by rw [← htext, encode_cons, hbytes, List.cons_append]
      rw [Bool.eq_iff_iff, isValid_append_cons_iff hb, and_iff_left hback]

theorem isValid_singleton (hb : b.toNat < 0x80) : isValid [b] := by
  rw [isValid, units, unitsFrom, feed, start, lead_one hb]
  rfl

theorem isValid_of_ascii (hbytes : ∀ b ∈ bytes, b.toNat < 0x80) : isValid bytes := by
  induction bytes with
  | nil => rfl
  | cons b bytes ih =>
      obtain ⟨hb, hbytes⟩ := List.forall_mem_cons.mp hbytes
      rw [← List.singleton_append, isValid_append_left (isValid_singleton hb)]
      exact ih hbytes

/-- What stands before a byte below 0x80 and what stands behind it have nothing to do with each other. -/
theorem isValid_append_cons (hb : b.toNat < 0x80) (front rest : Bytes) :
    isValid (front ++ b :: rest) = (isValid front && isValid rest) := by
  have htail : ¬IsTail b := fun htail => absurd htail.1 (by omega)
  rw [Bool.eq_iff_iff, isValid_append_cons_iff htail, Bool.and_eq_true, ← List.singleton_append,
    isValid_append_left (isValid_singleton hb)]

end LineComment.Utf8
