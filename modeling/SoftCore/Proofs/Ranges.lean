import SoftCore.Proofs.Pushes

/-! The arithmetic of pushes, which is on numbers of 32 bits. A writer never
holds more than a word. The sum that the check of the room relies on may have no
number of 32 bits, and there the push stops the program; that is all that can
stop it. The places of a mask are counted only behind that check, for fields of
some bits that fit into a word. -/

namespace SoftCore

namespace Filling

/-- The places are counted as a push counts them for the widths from 1 to 32, and in any way for
others. -/
def CountsPlaces (places : UInt32 → Filling UInt32) : Prop :=
  ∀ width, 1 ≤ width.toNat → width.toNat ≤ 32 → places width = difference 64 width

variable {places : UInt32 → Filling UInt32} {f : Field} {w : WordWriter}

theorem bringIn_of_countsPlaces (counts : CountsPlaces places) (narrow : f.width.toNat ≤ 32) :
    bringIn places f = bringIn (difference 64) f := by
  unfold bringIn
  split
  · rename_i bits
    rw [counts f.width (UInt32.lt_iff_toNat_lt.mp bits) narrow]
  · rfl

/-- A push gets to the mask only with a width from 1 to 32. -/
theorem pushWith_of_countsPlaces (counts : CountsPlaces places) (f : Field) (w : WordWriter) :
    pushWith places f w = push f w := by
  cases fit : f.fits with
  | false =>
    rw [push_of_not_fits fit]
    exact bind_of_error (checkValue_of_not_fits fit)
  | true =>
    rw [push, pushWith, pushWith, bind_of_ok (checkValue_of_fits fit),
      bind_of_ok (checkValue_of_fits fit)]
    rcases Nat.lt_or_ge (w.used.toNat + f.width.toNat) (2 ^ 32) with small | wraps
    · rcases Nat.lt_or_ge 32 (w.used.toNat + f.width.toNat) with full | room
      · have refused := (checkRoom_of_lt small).trans (if_pos full)
        rw [bind_of_error refused, bind_of_error refused]
      · rw [bringIn_of_countsPlaces counts (Nat.le_trans (Nat.le_add_left _ _) room)]
    · rw [bind_of_stop (checkRoom_of_stop wraps), bind_of_stop (checkRoom_of_stop wraps)]

/-- A field so wide that the sum leaves 32 bits holds every value of 64 bits. -/
theorem fits_of_sum (used : w.used.toNat ≤ 32) (wraps : 2 ^ 32 ≤ w.used.toNat + f.width.toNat) :
    f.fits := by
  have long : 64 ≤ f.width := UInt32.le_iff_toNat_le.mpr (by show 64 ≤ _; omega)
  simp [Field.fits, long]

theorem push_eq_none_iff (used : w.used.toNat ≤ 32) :
    push f w = none ↔ 2 ^ 32 ≤ w.used.toNat + f.width.toNat :=
  ⟨sum_of_stop, fun wraps => push_of_stop (fits_of_sum used wraps) wraps⟩

theorem reply_eq_ok_iff : f.reply w = some (.ok ()) ↔
    f.value.toNat < 2 ^ f.width.toNat ∧ w.used.toNat + f.width.toNat ≤ 32 := by
  rw [← Field.fits_iff_lt_pow]
  rcases push_cases f w with ⟨wide, pushed⟩ | ⟨-, wraps, pushed⟩ | ⟨-, full, pushed⟩ |
    ⟨fit, room, pushed⟩
  · simp [Field.reply, pushed, wide]
  · simp only [Field.reply, pushed, Option.map_none, reduceCtorEq, false_iff]
    omega
  · simp [Field.reply, pushed, full]
  · simp [Field.reply, pushed, fit, room]

end Filling

namespace WordWriter

open Filling

/-- No push gets a writer above a word, whatever the widths. -/
theorem used_after {w v : WordWriter} {past : List Field} (used : w.used.toNat ≤ 32)
    (reached : w.after past = some v) : v.used.toNat ≤ 32 := by
  induction past generalizing w with
  | nil =>
    cases reached
    exact used
  | cons f rest ih =>
    cases pushed : push f w with
    | none =>
      rw [after_cons, Field.left, pushed] at reached
      cases reached
    | some ended =>
      rcases ended with ⟨answer, next⟩
      rw [after_cons_of_push pushed] at reached
      exact ih (used_of_push used pushed) reached

/-- A run is stopped by one of its pushes, which the fields before it have reached. -/
theorem after_eq_none_iff {w : WordWriter} {past : List Field} : w.after past = none ↔
    ∃ front f back v, past = front ++ f :: back ∧ w.after front = some v ∧ push f v = none := by
  induction past generalizing w with
  | nil => simp [after_nil]
  | cons g rest ih =>
    constructor
    · intro stopped
      cases pushed : push g w with
      | none => exact ⟨[], g, rest, w, rfl, rfl, pushed⟩
      | some ended =>
        rcases ended with ⟨answer, next⟩
        rw [after_cons_of_push pushed] at stopped
        obtain ⟨front, f, back, v, rfl, reached, last⟩ := ih.mp stopped
        exact ⟨g :: front, f, back, v, rfl, (after_cons_of_push pushed front).trans reached, last⟩
    · rintro ⟨_ | ⟨_, front⟩, f, back, v, split, reached, last⟩
      · cases split
        cases reached
        rw [after_cons, Field.left, last]
        rfl
      · cases split
        cases pushed : push g w with
        | none =>
          rw [after_cons, Field.left, pushed] at reached
          cases reached
        | some ended =>
          rcases ended with ⟨answer, next⟩
          rw [after_cons_of_push pushed] at reached ⊢
          exact ih.mpr ⟨front, f, back, v, rfl, reached, last⟩

/-- After any pushes, of any widths, a writer holds no more than a word. The next push stops the
program exactly where the sum of the room taken and the width leaves 32 bits, and it takes a field
only where its value fits its width and its width the room left. The places of a mask are never
counted but for widths from 1 to 32. A run is stopped exactly by a push whose sum leaves 32 bits, so
not at all where each width leaves a sum with a whole word in them. -/
theorem ranges_of_run (past : List Field) :
    (∀ w, empty.after past = some w → w.used.toNat ≤ 32 ∧ ∀ f : Field,
      (push f w = none ↔ 2 ^ 32 ≤ w.used.toNat + f.width.toNat) ∧
        (f.reply w = some (.ok ()) ↔
          f.value.toNat < 2 ^ f.width.toNat ∧ w.used.toNat + f.width.toNat ≤ 32) ∧
        ∀ places, CountsPlaces places → pushWith places f w = push f w) ∧
      (empty.after past = none ↔ ∃ front f back w, past = front ++ f :: back ∧
        empty.after front = some w ∧ 2 ^ 32 ≤ w.used.toNat + f.width.toNat) ∧
      ((∀ f ∈ past, f.width.toNat ≤ 2 ^ 32 - 33) → ∃ w, empty.after past = some w) := by
  refine ⟨fun w reached => ?_, ?_, fun narrow => ?_⟩
  · have used := used_after (by decide) reached
    exact ⟨used, fun f => ⟨push_eq_none_iff used, reply_eq_ok_iff,
      fun places counts => pushWith_of_countsPlaces counts f w⟩⟩
  · rw [after_eq_none_iff]
    refine exists_congr fun front => exists_congr fun f => exists_congr fun back =>
      exists_congr fun w => and_congr_right fun _ => and_congr_right fun reached => ?_
    exact push_eq_none_iff (used_after (by decide) reached)
  · obtain ⟨w, reached, -⟩ := holds_empty.after narrow
    exact ⟨w, reached⟩

/-- Counting that stops the program for a width other than those from 1 to 32. -/
def placesInWord (width : UInt32) : Filling UInt32 :=
  if 1 ≤ width.toNat ∧ width.toNat ≤ 32 then difference 64 width else stop

theorem countsPlaces_placesInWord : CountsPlaces placesInWord :=
  fun _ low high => if_pos ⟨low, high⟩

/-- Where refused fields are among the others the run still gets to its end, and a field that is as
wide as can be stops it there; a width of 70 or of nothing never has its places counted. -/
theorem ranges_of_run_mixed :
    (∀ f ∈ mixed, f.width.toNat ≤ 2 ^ 32 - 33) ∧ CountsPlaces placesInWord ∧
      ∃ w, empty.after mixed = some w ∧ w.used.toNat ≤ 32 ∧
        push ⟨"all".toList, 0xFFFFFFFF, 7⟩ w = none ∧
        pushWith placesInWord ⟨"wide".toList, 70, 9⟩ w = push ⟨"wide".toList, 70, 9⟩ w ∧
        pushWith placesInWord ⟨"none".toList, 0, 0⟩ w = push ⟨"none".toList, 0, 0⟩ w := by
  have narrow : ∀ f ∈ mixed, f.width.toNat ≤ 2 ^ 32 - 33 := by decide
  have full : empty.after mixed = some ⟨0xCABC1234, 32⟩ := by decide
  obtain ⟨reachable, -, runs⟩ := ranges_of_run mixed
  obtain ⟨w, reached⟩ := runs narrow
  obtain ⟨used, pushes⟩ := reachable w reached
  refine ⟨narrow, countsPlaces_placesInWord, w, reached, used, (pushes _).1.mpr ?_,
    (pushes _).2.2 _ countsPlaces_placesInWord, (pushes _).2.2 _ countsPlaces_placesInWord⟩
  rw [full] at reached
  cases reached
  decide

/-- A bit, and a field that is as wide as can be. -/
def around : List Field := [⟨"a".toList, 1, 1⟩, ⟨"b".toList, 0xFFFFFFFF, 5⟩]

/-- With one bit taken, the sum for the second field has no number of 32 bits, and there is neither a
fault nor a writer. -/
theorem stopped_by_sum :
    empty.after [⟨"a".toList, 1, 1⟩] = some ⟨1, 1⟩ ∧
      ¬(WordWriter.mk 1 1).used.toNat + (0xFFFFFFFF : UInt32).toNat ≤ 2 ^ 32 - 1 ∧
      Field.reply ⟨"b".toList, 0xFFFFFFFF, 5⟩ ⟨1, 1⟩ = none ∧
      empty.after around = none ∧ pack around = none := by
  decide

end WordWriter
end SoftCore
