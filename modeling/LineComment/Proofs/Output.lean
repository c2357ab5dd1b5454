import LineComment.Proofs.Script
import Mathlib.Data.List.Basic

/-! An output with little room. It keeps the bytes in front, as many as there is room for, and how those bytes are cut
into pieces makes no difference: printing fails when all the pieces together do not fit, and not before. -/

namespace LineComment

namespace Sink

variable (sink : Sink) (data more : Bytes)

/-- Whether some bytes are more than there is room for. -/
def overflows : Bool := sink.room.any (· < data.length)

/-- The part of some bytes that there is room for. -/
def kept : Bytes := sink.room.elim data fun room => data.take room

theorem written_write : (sink.write data).1.written = sink.written ++ sink.kept data := by
  rw [write, kept]
  split
  · next hroom => simp [written, hroom]
  · next room hroom =>
      split_ifs with hfits
      · simp [written, hroom, List.take_of_length_le hfits]
      · simp [written, hroom]

theorem write_result : (sink.write data).2 = if sink.overflows data then .error .other else .ok () := by
  rw [write, overflows]
  split
  · next hroom => simp [hroom]
  · next room hroom =>
      rw [hroom, Option.any_some]
      split_ifs with hfits hmore hmore
      · exact absurd (of_decide_eq_true hmore) (Nat.not_lt.mpr hfits)
      · rfl
      · rfl
      · exact absurd (decide_eq_true (Nat.lt_of_not_le hfits)) hmore

/-- The room left is what the bytes leave of it, and none if they are too many. -/
theorem room_write : (sink.write data).1.room = sink.room.map (· - data.length) := by
  rw [write]
  split
  · next hroom => simp [hroom]
  · next room hroom =>
      split_ifs with hfits
      · simp [hroom]
      · simp [hroom, Nat.sub_eq_zero_of_le (Nat.le_of_not_le hfits)]

theorem flushFault_write : (sink.write data).1.flushFault = sink.flushFault := by
  rw [write]
  split
  · rfl
  · split_ifs <;> rfl

theorem kept_nil : sink.kept [] = [] := by
  rw [kept]
  cases sink.room <;> simp

theorem overflows_nil : sink.overflows [] = false := by
  rw [overflows]
  cases sink.room <;> simp

theorem kept_append : sink.kept (data ++ more) = sink.kept data ++ (sink.write data).1.kept more := by
  rw [kept, kept, kept, room_write]
  cases sink.room with
  | none => rfl
  | some room => exact List.take_append

theorem overflows_append :
    sink.overflows (data ++ more) = (sink.overflows data || (sink.write data).1.overflows more) := by
  rw [overflows, overflows, overflows, room_write]
  cases sink.room with
  | none => rfl
  | some room =>
      simp only [Option.any_some, Option.map_some, List.length_append, ← Bool.decide_or]
      exact decide_eq_decide.mpr (by omega)

/-- Once some bytes did not fit, nothing is kept any more. -/
theorem kept_write_of_overflows {sink : Sink} {data : Bytes} (h : sink.overflows data) :
    (sink.write data).1.kept more = [] := by
  rw [overflows] at h
  rw [kept, room_write]
  cases hroom : sink.room with
  | none => simp [hroom] at h
  | some room =>
      rw [hroom, Option.any_some, decide_eq_true_eq] at h
      rw [Option.map_some, Option.elim_some, Nat.sub_eq_zero_of_le (Nat.le_of_lt h), List.take_zero]

theorem kept_prefix {short long : Bytes} (hshort : short <+: long) : sink.kept short <+: sink.kept long := by
  obtain ⟨back, rfl⟩ := hshort
  rw [kept_append]
  exact List.prefix_append _ _

end Sink

/-- Printing some pieces keeps of all of them together what there is room for, and fails when that is not all. -/
theorem exists_run_printAll (world : World) (activity : Activity) (pieces : List Bytes) :
    ∃ sink : Sink, sink.written = world.output.written ++ world.output.kept pieces.flatten ∧
      sink.flushFault = world.output.flushFault ∧
      (printAll activity pieces).run.run world =
        ({ world with output := sink },
          if world.output.overflows pieces.flatten then .error (.io activity .other) else .ok ()) := by
  induction pieces generalizing world with
  | nil =>
      refine ⟨world.output, ?_, rfl, ?_⟩
      · rw [List.flatten_nil, Sink.kept_nil, List.append_nil]
      · rw [List.flatten_nil, Sink.overflows_nil]
        rfl
  | cons piece rest ih =>
      let middle : World := { world with output := (world.output.write piece).1 }
      have hpiece : (attempt activity (Script.call (.print piece))).run.run world =
          (middle, (world.output.write piece).2.mapError (.io activity)) := Attempt.run_attempt _ _ _
      rw [Sink.write_result] at hpiece
      rw [List.flatten_cons, Sink.kept_append, Sink.overflows_append, ← List.append_assoc, ← Sink.written_write]
      cases hmore : world.output.overflows piece with
      | true =>
          rw [hmore, if_pos rfl] at hpiece
          refine ⟨middle.output, ?_, world.output.flushFault_write piece, Attempt.run_bind_of_error hpiece _⟩
          rw [Sink.kept_write_of_overflows _ hmore, List.append_nil]
      | false =>
          rw [hmore, if_neg Bool.false_ne_true] at hpiece
          obtain ⟨sink, hwritten, hflush, hrest⟩ := ih middle
          exact ⟨sink, hwritten, hflush.trans (world.output.flushFault_write piece),
            (Attempt.run_bind_of_ok hpiece _).trans hrest⟩

/-- Two outputs that take the same number of bytes more and end alike when they are flushed. If that number has a
bound, so that the lengths of what is written matter, something is known about them. -/
structure Sink.Alike (known : Prop) (sink other : Sink) : Prop where
  room : other.room = sink.room
  flushFault : other.flushFault = sink.flushFault
  bounded : sink.room ≠ none → known

/-- They stay so when as much is written to both, and both writes end in the same way. -/
theorem Sink.Alike.write {known : Prop} {sink other : Sink} (h : Alike known sink other) (data more : Bytes)
    (hlength : known → more.length = data.length) :
    Alike known (sink.write data).1 (other.write more).1 ∧ (other.write more).2 = (sink.write data).2 := by
  refine ⟨⟨?_, ?_, fun hroom => h.bounded fun hnone => hroom ?_⟩, ?_⟩
  · rw [room_write, room_write, h.room]
    cases hroom : sink.room with
    | none => rfl
    | some room => rw [Option.map_some, Option.map_some, hlength (h.bounded (by simp [hroom]))]
  · rw [flushFault_write, flushFault_write, h.flushFault]
  · rw [room_write, hnone, Option.map_none]
  · rw [write_result, write_result, overflows, overflows, h.room]
    cases hroom : sink.room with
    | none => rfl
    | some room => rw [hlength (h.bounded (by simp [hroom]))]

end LineComment
