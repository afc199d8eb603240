import Mathlib.Data.Nat.Digits.Lemmas
import SoftCore.Machine.Filling

/-! What fields pushed into a word leave behind, those that were refused among
them. Where the widths are not so large that a sum with a whole word leaves 32
bits, no push stops the program: a field is taken exactly when its value fits its
width and its width the room left. The word is then the number whose binary
digits are those of the values taken, each in its width, in the order of the
pushes. -/

namespace SoftCore

namespace Field

theorem fits_iff_lt_pow {f : Field} : f.fits ↔ f.value.toNat < 2 ^ f.width.toNat := by
  rw [fits_iff, Nat.one_shiftLeft]

/-- The binary digits of the value in as many places as the field is wide, the highest first. -/
def digits (f : Field) : List Nat :=
  ((List.range f.width.toNat).map fun i => f.value.toNat / 2 ^ i % 2).reverse

theorem length_digits (f : Field) : f.digits.length = f.width.toNat := by simp [digits]

/-- Why a field is refused: for its value, or else for want of room. -/
def complaint (f : Field) : Fault :=
  if 2 ^ f.width.toNat ≤ f.value.toNat then .tooWide f.name f.width f.value
  else .tooWide "word".toList 32 f.value

variable {w next : WordWriter} {f : Field} {r : Except Fault Unit}

theorem reply_of_push (h : Filling.push f w = some (r, next)) : f.reply w = some r := by
  rw [reply, h, Option.map_some]

theorem exists_push_of_reply (h : f.reply w = some r) :
    ∃ next, Filling.push f w = some (r, next) := by
  obtain ⟨⟨_, next⟩, pushed, rfl⟩ := Option.map_eq_some_iff.mp h
  exact ⟨next, pushed⟩

theorem left_of_push (h : Filling.push f w = some (r, next)) : f.left w = some next := by
  rw [left, h, Option.map_some]

end Field

namespace WordWriter

/-- The number of binary digits, the highest first. -/
def numberOf (digits : List Nat) : Nat := Nat.ofDigits 2 digits.reverse

theorem numberOf_append (high low : List Nat) :
    numberOf (high ++ low) = numberOf high * 2 ^ low.length + numberOf low := by
  rw [numberOf, List.reverse_append, Nat.ofDigits_append, List.length_reverse, numberOf, numberOf]
  ring

theorem numberOf_digits {f : Field} (h : f.value.toNat < 2 ^ f.width.toNat) :
    numberOf f.digits = f.value.toNat := by
  have low : ∀ v n : Nat,
      Nat.ofDigits 2 ((List.range n).map fun i => v / 2 ^ i % 2) = v % 2 ^ n := by
    intro v n
    induction n with
    | zero => simp [Nat.mod_one]
    | succ n ih =>
      rw [List.range_succ, List.map_append, Nat.ofDigits_append, ih, List.length_map,
        List.length_range, List.map_singleton, Nat.ofDigits_singleton, Nat.mod_pow_succ]
  rw [numberOf, Field.digits, List.reverse_reverse, low, Nat.mod_eq_of_lt h]

/-- The fields that are taken, in their order, as long as none stops the program. -/
def accepted (w : WordWriter) : List Field → List Field
  | [] => []
  | f :: rest =>
    match Filling.push f w with
    | some (.ok _, next) => f :: next.accepted rest
    | some (.error _, next) => next.accepted rest
    | none => []

/-- The writer holds these fields and nothing else. -/
structure Holds (w : WordWriter) (fields : List Field) : Prop where
  used : w.used.toNat = totalWidth fields
  room : totalWidth fields ≤ 32
  word : w.word.toNat = numberOf (fields.flatMap Field.digits)
  bound : w.word.toNat < 2 ^ totalWidth fields

theorem totalWidth_concat (fields : List Field) (f : Field) :
    totalWidth (fields ++ [f]) = totalWidth fields + f.width.toNat := by
  induction fields with
  | nil => simp [totalWidth]
  | cons g fields ih =>
    rw [List.cons_append, totalWidth, ih, totalWidth]
    omega

theorem holds_empty : empty.Holds [] := ⟨rfl, by decide, rfl, by decide⟩

variable {w : WordWriter} {fields : List Field} {f : Field}

/-- A field that is taken comes to those that are held. -/
theorem Holds.concat (h : w.Holds fields) (fit : f.value.toNat < 2 ^ f.width.toNat)
    (room : totalWidth fields + f.width.toNat ≤ 32) :
    Holds ⟨Filling.filled w.word f.width f.value, w.used + f.width⟩ (fields ++ [f]) := by
  have bound := h.bound
  have small := fit
  rw [← Nat.one_shiftLeft] at bound small
  have word := Filling.toNat_filled room bound small
  have below := shifted_lt bound small
  rw [← word, Nat.one_shiftLeft] at below
  refine ⟨?_, ?_, ?_, ?_⟩
  · rw [totalWidth_concat, UInt32.toNat_add, h.used, Nat.mod_eq_of_lt (by omega)]
  · rwa [totalWidth_concat]
  · rw [List.flatMap_append, List.flatMap_singleton, numberOf_append, numberOf_digits fit,
      Field.length_digits, ← h.word, word, Nat.shiftLeft_eq]
  · rwa [totalWidth_concat]

/-- What one push does to a writer and answers. -/
theorem Holds.push_cases (h : w.Holds fields) (narrow : f.width.toNat ≤ 2 ^ 32 - 33) :
    (f.value.toNat < 2 ^ f.width.toNat ∧ totalWidth fields + f.width.toNat ≤ 32 ∧
        ∃ next, Filling.push f w = some (.ok (), next) ∧ next.Holds (fields ++ [f])) ∨
      ¬(f.value.toNat < 2 ^ f.width.toNat ∧ totalWidth fields + f.width.toNat ≤ 32) ∧
        Filling.push f w = some (.error f.complaint, w) := by
  have held := h.room
  rcases Filling.push_cases f w with ⟨wide, pushed⟩ | ⟨-, wraps, -⟩ | ⟨fit, full, pushed⟩ |
    ⟨fit, room, pushed⟩
  · have large : ¬f.value.toNat < 2 ^ f.width.toNat := by
      rw [← Field.fits_iff_lt_pow, wide]
      exact Bool.false_ne_true
    refine .inr ⟨fun both => large both.1, ?_⟩
    rw [pushed, Field.complaint, if_pos (Nat.le_of_not_lt large)]
  · rw [h.used] at wraps
    omega
  · have small := Field.fits_iff_lt_pow.mp fit
    rw [h.used] at full
    refine .inr ⟨fun both => Nat.not_le.mpr full both.2, ?_⟩
    rw [pushed, Field.complaint, if_neg (Nat.not_le.mpr small)]
  · have small := Field.fits_iff_lt_pow.mp fit
    rw [h.used] at room
    exact .inl ⟨small, room, _, pushed, h.concat small room⟩

theorem after_nil (w : WordWriter) : w.after [] = some w := rfl

theorem after_cons (w : WordWriter) (f : Field) (rest : List Field) :
    w.after (f :: rest) = (f.left w).bind (·.after rest) := rfl

theorem after_cons_of_push {next : WordWriter} {r : Except Fault Unit}
    (h : Filling.push f w = some (r, next)) (rest : List Field) :
    w.after (f :: rest) = next.after rest := by
  rw [after_cons, Field.left_of_push h, Option.bind_some]

theorem after_concat {v : WordWriter} {past : List Field} (h : w.after past = some v) (f : Field) :
    w.after (past ++ [f]) = f.left v := by
  have split : w.after (past ++ [f]) = (w.after past).bind (·.after [f]) := List.foldlM_append
  rw [split, h, Option.bind_some, after_cons]
  exact Option.bind_fun_some _

/-- After any pushes a writer holds what it held and what it has taken. -/
theorem Holds.after (h : w.Holds fields) {past : List Field}
    (narrow : ∀ f ∈ past, f.width.toNat ≤ 2 ^ 32 - 33) :
    ∃ v, w.after past = some v ∧ v.Holds (fields ++ w.accepted past) := by
  -- The fields held grow with each push taken, so the induction is for any that are held.
  induction past generalizing w fields with
  | nil =>
    rw [accepted, List.append_nil]
    exact ⟨w, rfl, h⟩
  | cons f rest ih =>
    obtain ⟨here, later⟩ := List.forall_mem_cons.mp narrow
    rcases h.push_cases here with ⟨-, -, next, pushed, held⟩ | ⟨-, pushed⟩
    · rw [after_cons_of_push pushed, accepted, pushed]
      simpa using ih held later
    · rw [after_cons_of_push pushed, accepted, pushed]
      exact ih h later

theorem accepted_sublist (w : WordWriter) (fields : List Field) :
    (w.accepted fields).Sublist fields := by
  induction fields generalizing w with
  | nil => exact List.Sublist.refl []
  | cons f rest ih =>
    rw [accepted]
    split
    · exact (ih _).cons_cons f
    · exact (ih _).cons f
    · exact List.nil_sublist _

theorem accepted_cons_eq_iff {rest : List Field} :
    w.accepted (f :: rest) = f :: rest ↔
      ∃ next, Filling.push f w = some (.ok (), next) ∧ next.accepted rest = rest := by
  rw [accepted]
  split
  · rename_i next pushed
    simp [pushed]
  · rename_i next pushed
    rw [pushed]
    refine iff_of_false (fun whole => ?_) (by simp)
    -- With the first field refused, at most the others remain.
    have shorter := (accepted_sublist next rest).length_le
    have longer := congrArg List.length whole
    simp only [List.length_cons] at longer
    omega
  · rename_i stopped
    simp [stopped]

/-- Pushing all fields gets to the end exactly when none of them is refused. -/
theorem pushAll_eq_ok_iff {v : WordWriter} :
    Filling.pushAll fields w = some (.ok (), v) ↔
      w.accepted fields = fields ∧ w.after fields = some v := by
  induction fields generalizing w with
  | nil => simp [Filling.pushAll_nil, accepted, after_nil]
  | cons f rest ih =>
    rw [accepted_cons_eq_iff, Filling.pushAll_cons, Filling.bind_eq_ok_iff]
    constructor
    · rintro ⟨_, next, pushed, later⟩
      obtain ⟨taken, reached⟩ := ih.mp later
      exact ⟨⟨next, pushed, taken⟩, (after_cons_of_push pushed rest).trans reached⟩
    · rintro ⟨⟨next, pushed, taken⟩, reached⟩
      rw [after_cons_of_push pushed] at reached
      exact ⟨(), next, pushed, ih.mpr ⟨taken, reached⟩⟩

/-- Otherwise it ends at the first one refused, with the reason for that one. -/
theorem pushAll_eq_error_iff {fault : Fault} {v : WordWriter} :
    Filling.pushAll fields w = some (.error fault, v) ↔ ∃ front f back, fields = front ++ f :: back ∧
      w.accepted front = front ∧ ∃ u, w.after front = some u ∧
        Filling.push f u = some (.error fault, v) := by
  induction fields generalizing w with
  | nil => simp [Filling.pushAll_nil]
  | cons g rest ih =>
    rw [Filling.pushAll_cons, Filling.bind_eq_error_iff]
    constructor
    · rintro (refused | ⟨_, next, pushed, failed⟩)
      · exact ⟨[], g, rest, rfl, rfl, w, rfl, refused⟩
      · obtain ⟨front, f, back, rfl, taken, u, reached, refused⟩ := ih.mp failed
        exact ⟨g :: front, f, back, rfl, accepted_cons_eq_iff.mpr ⟨next, pushed, taken⟩, u,
          (after_cons_of_push pushed front).trans reached, refused⟩
    · rintro ⟨_ | ⟨_, front⟩, f, back, split, taken, u, reached, refused⟩
      · cases split
        cases reached
        exact .inl refused
      · cases split
        obtain ⟨next, pushed, later⟩ := accepted_cons_eq_iff.mp taken
        rw [after_cons_of_push pushed] at reached
        exact .inr ⟨(), next, pushed, ih.mpr ⟨front, f, back, rfl, later, u, reached, refused⟩⟩

theorem pack_eq_ok_iff_accepted {word : UInt32} : pack fields = some (.ok word) ↔
    empty.accepted fields = fields ∧ ∃ v, empty.after fields = some v ∧ v.word = word := by
  rw [pack_eq_ok_iff]
  simp only [pushAll_eq_ok_iff, and_assoc, exists_and_left]

theorem pack_eq_error_iff_first {fault : Fault} :
    pack fields = some (.error fault) ↔ ∃ front f back, fields = front ++ f :: back ∧
      empty.accepted front = front ∧ ∃ u, empty.after front = some u ∧
        f.reply u = some (.error fault) := by
  rw [pack_eq_error_iff]
  constructor
  · rintro ⟨v, failed⟩
    obtain ⟨front, f, back, split, taken, u, reached, refused⟩ := pushAll_eq_error_iff.mp failed
    exact ⟨front, f, back, split, taken, u, reached, Field.reply_of_push refused⟩
  · rintro ⟨front, f, back, split, taken, u, reached, refused⟩
    obtain ⟨v, pushed⟩ := Field.exists_push_of_reply refused
    exact ⟨v, pushAll_eq_error_iff.mpr ⟨front, f, back, split, taken, u, reached, pushed⟩⟩

/-- Any field after any others, of widths whose sum with the room of a word stays in 32 bits. No push
stops the program. The field is taken exactly when its value fits its width and its width the room
that those taken before have left, and a refusal changes nothing and gives its reason. The word is
the number of the digits of the fields taken. Fields packed at once give that number, or the first
refusal. -/
theorem after_pushes (past : List Field) (f : Field)
    (narrow : ∀ g ∈ f :: past, g.width.toNat ≤ 2 ^ 32 - 33) :
    ∃ w, empty.after past = some w ∧ (f.reply w).isSome ∧ (pack past).isSome ∧
      (f.reply w = some (.ok ()) ↔ f.value.toNat < 2 ^ f.width.toNat ∧
        totalWidth (empty.accepted past) + f.width.toNat ≤ 32) ∧
      (∀ fault, f.reply w = some (.error fault) →
        empty.after (past ++ [f]) = some w ∧ fault = f.complaint) ∧
      w.word.toNat = numberOf ((empty.accepted past).flatMap Field.digits) ∧
      w.word.toNat < 2 ^ totalWidth (empty.accepted past) ∧
      (∀ word, pack past = some (.ok word) ↔
        empty.accepted past = past ∧ word.toNat = numberOf (past.flatMap Field.digits)) ∧
      ∀ fault, pack past = some (.error fault) ↔ ∃ front g back, past = front ++ g :: back ∧
        empty.accepted front = front ∧ ∃ v, empty.after front = some v ∧
          g.reply v = some (.error fault) := by
  obtain ⟨here, before⟩ := List.forall_mem_cons.mp narrow
  obtain ⟨w, reached, held⟩ := holds_empty.after before
  rw [List.nil_append] at held
  have packable : (pack past).isSome := isSome_pack fun g mem => by
    have small := before g mem
    omega
  have packs (word : UInt32) : pack past = some (.ok word) ↔
      empty.accepted past = past ∧ word.toNat = numberOf (past.flatMap Field.digits) := by
    rw [pack_eq_ok_iff_accepted, reached]
    simp only [Option.some.injEq, exists_eq_left']
    rw [← UInt32.toNat_inj, held.word, eq_comm (b := word.toNat)]
    exact and_congr_right fun whole => by rw [whole]
  refine ⟨w, reached, ?_⟩
  rcases held.push_cases here with ⟨fit, room, next, pushed, -⟩ | ⟨neither, pushed⟩
  · have taken := Field.reply_of_push pushed
    refine ⟨by rw [taken]; rfl, packable, iff_of_true taken ⟨fit, room⟩, ?_, held.word,
      held.bound, packs, fun fault => pack_eq_error_iff_first⟩
    intro fault refused
    rw [taken] at refused
    cases refused
  · have refused := Field.reply_of_push pushed
    refine ⟨by rw [refused]; rfl, packable, iff_of_false ?_ neither, ?_, held.word,
      held.bound, packs, fun fault => pack_eq_error_iff_first⟩
    · rw [refused]
      rintro ⟨⟩
    · intro fault found
      rw [refused] at found
      cases found
      exact ⟨(after_concat reached f).trans (Field.left_of_push pushed), rfl⟩

/-- Two of the fields in the middle are refused, one for its value and one for its width. -/
def mixed : List Field :=
  [⟨"tag".toList, 4, 12⟩, ⟨"rd".toList, 5, 32⟩, ⟨"wide".toList, 70, 9⟩, ⟨"none".toList, 0, 0⟩,
    ⟨"rest".toList, 28, 0xABC1234⟩]

theorem after_pushes_mixed :
    (∀ g ∈ ⟨"more".toList, 1, 1⟩ :: mixed, g.width.toNat ≤ 2 ^ 32 - 33) ∧
      (∃ w, empty.after mixed = some w ∧ w.word.toNat = 0xCABC1234 ∧
        Field.reply ⟨"more".toList, 1, 1⟩ w ≠ some (.ok ())) ∧
      pack mixed = some (.error (.tooWide "rd".toList 5 32)) := by
  have narrow : ∀ g ∈ ⟨"more".toList, 1, 1⟩ :: mixed, g.width.toNat ≤ 2 ^ 32 - 33 := by decide
  have taken : empty.accepted mixed =
      [⟨"tag".toList, 4, 12⟩, ⟨"none".toList, 0, 0⟩, ⟨"rest".toList, 28, 0xABC1234⟩] := by decide
  obtain ⟨w, reached, -, -, accepts, -, word, -, -, packs⟩ := after_pushes mixed _ narrow
  refine ⟨narrow, ⟨w, reached, ?_, mt accepts.mp ?_⟩, (packs _).mpr ?_⟩
  · rw [word, taken]
    decide
  · rw [taken]
    decide
  · exact ⟨[⟨"tag".toList, 4, 12⟩], ⟨"rd".toList, 5, 32⟩, _, rfl, by decide, ⟨12, 4⟩, rfl, rfl⟩

end WordWriter
end SoftCore
