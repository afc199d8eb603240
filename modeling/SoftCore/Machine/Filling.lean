import SoftCore.Machine.Field

/-! Fields pushed into a word in place, one after the other. A field is refused
when its value needs more bits than it is wide, or else when the word has no room
left for it; a refusal ends the push with a fault and undoes nothing. Sums,
differences and shifts are those of 32 and 64 bits, and one that has no result
there stops the program: it leaves neither a fault nor a writer. A value comes in
under a mask with as many ones as its field is wide, so it never reaches the bits
above. -/

namespace SoftCore

/-- Work on a writer in place that may be refused, or may stop the program. -/
abbrev Filling := ExceptT Fault (StateT WordWriter Option)

namespace Filling

def stop {α : Type} : Filling α := ExceptT.mk fun _ => none

def sum (a b : UInt32) : Filling UInt32 :=
  if a.toNat + b.toNat < 0x100000000 then pure (a + b) else stop

def difference (a b : UInt32) : Filling UInt32 := if b ≤ a then pure (a - b) else stop

def shiftRight (value : UInt64) (count : UInt32) : Filling UInt64 :=
  if count < 64 then pure (value >>> count.toUInt64) else stop

/-- A word moved up by all of its bits, or by more, is gone. -/
def movedUp (word width : UInt32) : UInt32 := if width < 32 then word <<< width else 0

def checkValue (f : Field) : Filling Unit := do
  if f.width < 64 then
    if (← shiftRight f.value f.width) != 0 then
      throw (.tooWide f.name f.width f.value)

def checkRoom (f : Field) : Filling Unit := do
  if 32 < (← sum (← get).used f.width) then
    throw (.tooWide "word".toList 32 f.value)

/-- `places` counts how far the 64 ones of the mask are shifted out for a width. -/
def bringIn (places : UInt32 → Filling UInt32) (f : Field) : Filling Unit := do
  if 0 < f.width then
    let mask ← shiftRight 0xFFFFFFFFFFFFFFFF (← places f.width)
    modify fun w =>
      { w with word := movedUp w.word f.width ||| (f.value.toUInt32 &&& mask.toUInt32) }

def takeRoom (f : Field) : Filling Unit := do
  let used ← sum (← get).used f.width
  modify fun w => { w with used := used }

def pushWith (places : UInt32 → Filling UInt32) (f : Field) : Filling Unit := do
  checkValue f
  checkRoom f
  bringIn places f
  takeRoom f

def push : Field → Filling Unit := pushWith (difference 64)

/-- Push fields in order up to the first one refused. -/
def pushAll (fields : List Field) : Filling Unit := fields.forM push

def packed (fields : List Field) : Filling UInt32 := do
  pushAll fields
  return (← get).word

/-! A step and what follows it. -/

section

variable {α β : Type} {x : Filling α} {next : α → Filling β} {w v : WordWriter}

theorem bind_of_ok {a : α} (h : x w = some (.ok a, v)) : (x >>= next) w = next a v := by
  show (x w).bind _ = _
  rw [h]
  rfl

theorem bind_of_error {fault : Fault} (h : x w = some (.error fault, v)) :
    (x >>= next) w = some (.error fault, v) := by
  show (x w).bind _ = _
  rw [h]
  rfl

theorem bind_of_stop (h : x w = none) : (x >>= next) w = none := by
  show (x w).bind _ = _
  rw [h]
  rfl

theorem bind_eq_ok_iff {b : β} : (x >>= next) w = some (.ok b, v) ↔
    ∃ a u, x w = some (.ok a, u) ∧ next a u = some (.ok b, v) := by
  cases first : x w with
  | none => simp [bind_of_stop first]
  | some ended =>
    rcases ended with ⟨fault | a, u⟩
    · simp [bind_of_error first]
    · simp [bind_of_ok first, and_assoc]

theorem bind_eq_error_iff {fault : Fault} : (x >>= next) w = some (.error fault, v) ↔
    x w = some (.error fault, v) ∨
      ∃ a u, x w = some (.ok a, u) ∧ next a u = some (.error fault, v) := by
  cases first : x w with
  | none => simp [bind_of_stop first]
  | some ended =>
    rcases ended with ⟨found | a, u⟩
    · simp [bind_of_error first]
    · simp [bind_of_ok first, and_assoc]

theorem bind_eq_none_iff : (x >>= next) w = none ↔
    x w = none ∨ ∃ a u, x w = some (.ok a, u) ∧ next a u = none := by
  cases first : x w with
  | none => simp [bind_of_stop first]
  | some ended =>
    rcases ended with ⟨fault | a, u⟩
    · simp [bind_of_error first]
    · simp [bind_of_ok first, and_assoc]

theorem get_bind (next : WordWriter → Filling β) : (get >>= next) w = next w w := rfl

end

variable {w : WordWriter} {f : Field} {fields : List Field}

theorem shiftRight_of_lt {value : UInt64} {count : UInt32} (short : count < 64) :
    shiftRight value count w = some (.ok (value >>> count.toUInt64), w) := by
  rw [shiftRight, if_pos short]
  rfl

theorem toNat_add_of_lt {a b : UInt32} (h : a.toNat + b.toNat < 0x100000000) :
    (a + b).toNat = a.toNat + b.toNat := by rw [UInt32.toNat_add, Nat.mod_eq_of_lt h]

theorem sum_of_lt {a b : UInt32} (h : a.toNat + b.toNat < 0x100000000) :
    sum a b w = some (.ok (a + b), w) := by
  rw [sum, if_pos h]
  rfl

theorem difference_of_le {a b : UInt32} (h : b ≤ a) :
    difference a b w = some (.ok (a - b), w) := by
  rw [difference, if_pos h]
  rfl

/-! The value. -/

/-- A value fits if nothing remains of it when its width is shifted out. -/
theorem shifted_eq_zero_iff (narrow : f.width < 64) :
    f.value >>> f.width.toUInt64 = 0 ↔ f.fits := by
  have amount : f.width.toUInt64.toNat % 64 = f.width.toNat := by
    rw [UInt32.toNat_toUInt64]
    exact Nat.mod_eq_of_lt (UInt32.lt_iff_toNat_lt.mp narrow)
  rw [Field.fits_iff, Nat.one_shiftLeft, ← UInt64.toNat_inj, UInt64.toNat_shiftRight, amount,
    Nat.shiftRight_eq_div_pow]
  exact Nat.div_eq_zero_iff_lt (Nat.two_pow_pos _)

theorem checkValue_of_fits (fit : f.fits) : checkValue f w = some (.ok (), w) := by
  unfold checkValue
  split
  · rename_i narrow
    rw [bind_of_ok (shiftRight_of_lt narrow), (shifted_eq_zero_iff narrow).mpr fit]
    rfl
  · rfl

theorem checkValue_of_not_fits (wide : f.fits = false) :
    checkValue f w = some (.error (.tooWide f.name f.width f.value), w) := by
  have narrow : f.width < 64 := by
    simp only [Field.fits, Bool.or_eq_false_iff, decide_eq_false_iff_not] at wide
    exact UInt32.not_le.mp wide.1
  have rest : (f.value >>> f.width.toUInt64 != 0) = true := by
    rw [bne_iff_ne, ne_eq, shifted_eq_zero_iff narrow, wide]
    exact Bool.false_ne_true
  unfold checkValue
  rw [if_pos narrow, bind_of_ok (shiftRight_of_lt narrow), rest]
  rfl

/-! The room. -/

theorem checkRoom_of_stop (wraps : 0x100000000 ≤ w.used.toNat + f.width.toNat) :
    checkRoom f w = none := by
  have stopped : sum w.used f.width w = none := by
    rw [sum, if_neg (Nat.not_lt.mpr wraps)]
    rfl
  rw [checkRoom, get_bind, bind_of_stop stopped]

theorem checkRoom_of_lt (h : w.used.toNat + f.width.toNat < 0x100000000) :
    checkRoom f w = if 32 < w.used.toNat + f.width.toNat
      then some (.error (.tooWide "word".toList 32 f.value), w) else some (.ok (), w) := by
  have full : 32 < w.used + f.width ↔ 32 < w.used.toNat + f.width.toNat := by
    rw [UInt32.lt_iff_toNat_lt, toNat_add_of_lt h]
    rfl
  rw [checkRoom, get_bind, bind_of_ok (sum_of_lt h)]
  simp only [full]
  split <;> rfl

/-! The word. -/

/-- What remains of 64 ones when all but the low `width` are shifted out. -/
def mask (width : UInt32) : UInt32 :=
  ((0xFFFFFFFFFFFFFFFF : UInt64) >>> (64 - width).toUInt64).toUInt32

/-- The word with the value brought in, if there is anything to bring in. -/
def filled (word width : UInt32) (value : UInt64) : UInt32 :=
  if 0 < width then movedUp word width ||| (value.toUInt32 &&& mask width) else word

theorem bringIn_of_narrow (narrow : f.width.toNat ≤ 32) : bringIn (difference 64) f w =
    some (.ok (), { w with word := filled w.word f.width f.value }) := by
  unfold bringIn filled
  split
  · rename_i bits
    have below : f.width ≤ 64 :=
      UInt32.le_iff_toNat_le.mpr (Nat.le_trans narrow (by decide))
    have short : 64 - f.width < 64 := by
      rw [UInt32.lt_iff_toNat_lt, UInt32.toNat_sub_of_le _ _ below]
      exact Nat.sub_lt (by decide) (UInt32.lt_iff_toNat_lt.mp bits)
    rw [bind_of_ok (difference_of_le below), bind_of_ok (shiftRight_of_lt short)]
    rfl
  · rfl

/-! The whole push. -/

theorem push_of_not_fits (wide : f.fits = false) :
    push f w = some (.error (.tooWide f.name f.width f.value), w) :=
  bind_of_error (checkValue_of_not_fits wide)

theorem push_of_stop (fit : f.fits) (wraps : 0x100000000 ≤ w.used.toNat + f.width.toNat) :
    push f w = none :=
  (bind_of_ok (checkValue_of_fits fit)).trans (bind_of_stop (checkRoom_of_stop wraps))

theorem push_of_no_room (fit : f.fits) (full : 32 < w.used.toNat + f.width.toNat)
    (h : w.used.toNat + f.width.toNat < 0x100000000) :
    push f w = some (.error (.tooWide "word".toList 32 f.value), w) := by
  have refused := (checkRoom_of_lt h).trans (if_pos full)
  exact (bind_of_ok (checkValue_of_fits fit)).trans (bind_of_error refused)

theorem push_of_room (fit : f.fits) (room : w.used.toNat + f.width.toNat ≤ 32) :
    push f w = some (.ok (), ⟨filled w.word f.width f.value, w.used + f.width⟩) := by
  have small : w.used.toNat + f.width.toNat < 0x100000000 := Nat.lt_of_le_of_lt room (by decide)
  have roomy := (checkRoom_of_lt small).trans (if_neg (Nat.not_lt.mpr room))
  have brought := bringIn_of_narrow (w := w) (Nat.le_trans (Nat.le_add_left _ _) room)
  rw [push, pushWith, bind_of_ok (checkValue_of_fits fit), bind_of_ok roomy, bind_of_ok brought,
    takeRoom, get_bind, bind_of_ok (sum_of_lt small)]
  rfl

/-- All that a push can do. -/
theorem push_cases (f : Field) (w : WordWriter) :
    (f.fits = false ∧ push f w = some (.error (.tooWide f.name f.width f.value), w)) ∨
      (f.fits ∧ 0x100000000 ≤ w.used.toNat + f.width.toNat ∧ push f w = none) ∨
      (f.fits ∧ 32 < w.used.toNat + f.width.toNat ∧
        push f w = some (.error (.tooWide "word".toList 32 f.value), w)) ∨
      (f.fits ∧ w.used.toNat + f.width.toNat ≤ 32 ∧
        push f w = some (.ok (), ⟨filled w.word f.width f.value, w.used + f.width⟩)) := by
  cases fit : f.fits with
  | false => exact .inl ⟨rfl, push_of_not_fits fit⟩
  | true =>
    rcases Nat.lt_or_ge (w.used.toNat + f.width.toNat) 0x100000000 with small | wraps
    · rcases Nat.lt_or_ge 32 (w.used.toNat + f.width.toNat) with full | room
      · exact .inr (.inr (.inl ⟨rfl, full, push_of_no_room fit full small⟩))
      · exact .inr (.inr (.inr ⟨rfl, room, push_of_room fit room⟩))
    · exact .inr (.inl ⟨rfl, wraps, push_of_stop fit wraps⟩)

/-- Nothing but the sum stops a push. -/
theorem sum_of_stop (h : push f w = none) : 0x100000000 ≤ w.used.toNat + f.width.toNat := by
  rcases push_cases f w with ⟨-, pushed⟩ | ⟨-, wraps, -⟩ | ⟨-, -, pushed⟩ | ⟨-, -, pushed⟩
  · rw [h] at pushed
    cases pushed
  · exact wraps
  · rw [h] at pushed
    cases pushed
  · rw [h] at pushed
    cases pushed

theorem used_of_push {r : Except Fault Unit} {v : WordWriter} (used : w.used.toNat ≤ 32)
    (h : push f w = some (r, v)) : v.used.toNat ≤ 32 := by
  rcases push_cases f w with ⟨-, pushed⟩ | ⟨-, -, pushed⟩ | ⟨-, -, pushed⟩ | ⟨-, room, pushed⟩ <;>
    rw [pushed] at h <;> cases h
  · exact used
  · exact used
  · rw [UInt32.toNat_add]
    exact Nat.le_trans (Nat.mod_le _ _) room

/-! The number of a word. -/

/-- The mask leaves a value alone that has no more bits than it has ones. -/
theorem and_mask {width value : UInt32} (bits : 0 < width.toNat) (narrow : width.toNat ≤ 32)
    (small : value.toNat < 1 <<< width.toNat) : value &&& mask width = value := by
  rw [Nat.one_shiftLeft] at small
  have all : (0xFFFFFFFFFFFFFFFF : UInt64).toNat = 2 ^ 64 - 1 := rfl
  have count : (64 - width).toUInt64.toNat % 64 = 64 - width.toNat := by
    have short : width ≤ 64 := UInt32.le_iff_toNat_le.mpr (Nat.le_trans narrow (by decide))
    rw [UInt32.toNat_toUInt64, UInt32.toNat_sub_of_le _ _ short]
    show (64 - width.toNat) % 64 = _
    omega
  rw [← UInt32.toNat_inj, UInt32.toNat_and, mask, UInt64.toNat_toUInt32, UInt64.toNat_shiftRight,
    count, all]
  refine Nat.eq_of_testBit_eq fun i => ?_
  rw [Nat.testBit_and, Nat.testBit_mod_two_pow, Nat.testBit_shiftRight,
    Nat.testBit_two_pow_sub_one]
  -- A bit that is set lies among the low ones, where the mask is set too.
  cases set : value.toNat.testBit i with
  | false => rfl
  | true =>
    have inside : i < width.toNat := Nat.lt_of_not_le fun high => by
      have below := Nat.lt_of_lt_of_le small (Nat.pow_le_pow_right (by decide) high)
      rw [Nat.testBit_lt_two_pow below] at set
      cases set
    have word : i < 32 := Nat.lt_of_lt_of_le inside narrow
    simp [word]
    omega

/-- Below `used` bits there is room for the value, so no bit is lost. -/
theorem toNat_filled {word width : UInt32} {value : UInt64} {used : Nat}
    (room : used + width.toNat ≤ 32) (bound : word.toNat < 1 <<< used)
    (fit : value.toNat < 1 <<< width.toNat) :
    (filled word width value).toNat = (word.toNat <<< width.toNat) + value.toNat := by
  have narrow : width.toNat ≤ 32 := Nat.le_trans (Nat.le_add_left _ _) room
  have below := Nat.lt_of_lt_of_le (WordWriter.shifted_lt bound fit)
    (WordWriter.one_shiftLeft_le room)
  have small := Nat.lt_of_lt_of_le fit (WordWriter.one_shiftLeft_le narrow)
  have whole : value.toUInt32.toNat = value.toNat := by
    rw [UInt64.toNat_toUInt32, Nat.mod_eq_of_lt small]
  unfold filled
  split
  · rename_i bits
    rw [and_mask (UInt32.lt_iff_toNat_lt.mp bits) narrow (whole ▸ fit), movedUp]
    split
    · rename_i short
      have amount : width.toNat % 32 = width.toNat :=
        Nat.mod_eq_of_lt (UInt32.lt_iff_toNat_lt.mp short)
      rw [UInt32.toNat_or, UInt32.toNat_shiftLeft, whole, amount, Nat.mod_eq_of_lt (by omega),
        Nat.shiftLeft_add_eq_or_of_lt (Nat.one_shiftLeft _ ▸ fit)]
    · rename_i long
      have full : width.toNat = 32 :=
        Nat.le_antisymm narrow (UInt32.le_iff_toNat_le.mp (UInt32.not_lt.mp long))
      obtain rfl : used = 0 := by omega
      have clear : word.toNat = 0 := by simpa using bound
      rw [UInt32.zero_or, whole, clear, Nat.zero_shiftLeft, Nat.zero_add]
  · rename_i bits
    obtain rfl : width = 0 := by simpa using bits
    have zero : value.toNat = 0 := by simpa using fit
    simp [zero]

/-! Several fields. -/

theorem pushAll_nil (w : WordWriter) : pushAll [] w = some (.ok (), w) := rfl

theorem pushAll_cons (f : Field) (rest : List Field) :
    pushAll (f :: rest) = push f >>= fun _ => pushAll rest := rfl

theorem pushAll_of_fits (fit : ∀ f ∈ fields, f.fits)
    (room : w.used.toNat + WordWriter.totalWidth fields ≤ 32)
    (bound : w.word.toNat < 1 <<< w.used.toNat) : ∃ v, pushAll fields w = some (.ok (), v) ∧
      v.word.toNat = WordWriter.numberFrom w.word.toNat fields := by
  induction fields generalizing w with
  | nil => exact ⟨w, rfl, rfl⟩
  | cons f rest ih =>
    rw [WordWriter.totalWidth] at room
    obtain ⟨here, later⟩ := List.forall_mem_cons.mp fit
    have small := Field.fits_iff.mp here
    have used := toNat_add_of_lt (a := w.used) (b := f.width) (by omega)
    have word := toNat_filled (by omega) bound small
    obtain ⟨v, pushed, number⟩ := ih
      (w := ⟨filled w.word f.width f.value, w.used + f.width⟩) later
      (by simp only [used]; omega)
      (by simp only [used, word]; exact WordWriter.shifted_lt bound small)
    refine ⟨v, ?_, ?_⟩
    · rw [pushAll_cons, bind_of_ok (push_of_room here (by omega)), pushed]
    · rw [number, WordWriter.numberFrom]
      simp only [word]

theorem fits_of_push {v : WordWriter} (h : push f w = some (.ok (), v)) : f.fits := by
  rcases push_cases f w with ⟨-, pushed⟩ | ⟨fit, -⟩ | ⟨fit, -⟩ | ⟨fit, -⟩
  · rw [pushed] at h
    cases h
  · exact fit
  · exact fit
  · exact fit

theorem fits_of_pushAll {v : WordWriter} (h : pushAll fields w = some (.ok (), v)) :
    ∀ f ∈ fields, f.fits := by
  induction fields generalizing w with
  | nil => simp
  | cons f rest ih =>
    obtain ⟨done, u, pushed, later⟩ := bind_eq_ok_iff.mp h
    exact List.forall_mem_cons.mpr ⟨fits_of_push pushed, ih later⟩

/-- Widths that leave a sum with a whole word in 32 bits stop no push. -/
theorem pushAll_ne_none (narrow : ∀ f ∈ fields, f.width.toNat + 32 < 0x100000000)
    (used : w.used.toNat ≤ 32) : pushAll fields w ≠ none := by
  induction fields generalizing w with
  | nil => exact Option.some_ne_none _
  | cons f rest ih =>
    obtain ⟨here, later⟩ := List.forall_mem_cons.mp narrow
    rw [pushAll_cons, ne_eq, bind_eq_none_iff]
    rintro (stopped | ⟨done, u, pushed, stopped⟩)
    · have wraps := sum_of_stop stopped
      omega
    · exact ih later (used_of_push used pushed) stopped

end Filling

namespace WordWriter

open Filling

/-- The word of all fields, or else the fault of the first one refused. -/
def pack (fields : List Field) : Option (Except Fault UInt32) :=
  (packed fields empty).map Prod.fst

variable {fields : List Field}

theorem pack_eq (fields : List Field) :
    pack fields = (pushAll fields empty).map fun ended => ended.1.map fun _ => ended.2.word := by
  cases pushed : pushAll fields empty with
  | none => rw [pack, packed, bind_of_stop pushed, Option.map_none, Option.map_none]
  | some ended =>
    rcases ended with ⟨fault | done, v⟩
    · rw [pack, packed, bind_of_error pushed]
      rfl
    · rw [pack, packed, bind_of_ok pushed]
      rfl

theorem pack_eq_ok_iff {word : UInt32} :
    pack fields = some (.ok word) ↔ ∃ v, pushAll fields empty = some (.ok (), v) ∧ v.word = word := by
  rw [pack_eq, Option.map_eq_some_iff]
  constructor
  · rintro ⟨⟨fault | done, v⟩, pushed, same⟩
    · cases same
    · exact ⟨v, pushed, Except.ok.inj same⟩
  · rintro ⟨v, pushed, rfl⟩
    exact ⟨_, pushed, rfl⟩

theorem pack_eq_error_iff {fault : Fault} :
    pack fields = some (.error fault) ↔ ∃ v, pushAll fields empty = some (.error fault, v) := by
  rw [pack_eq, Option.map_eq_some_iff]
  constructor
  · rintro ⟨⟨found | done, v⟩, pushed, same⟩
    · cases same
      exact ⟨v, pushed⟩
    · cases same
  · rintro ⟨v, pushed⟩
    exact ⟨_, pushed, rfl⟩

theorem exists_pack_of_fits (fit : ∀ f ∈ fields, f.fits) (room : totalWidth fields ≤ 32) :
    ∃ word, pack fields = some (.ok word) ∧ word.toNat = numberFrom 0 fields := by
  obtain ⟨v, pushed, number⟩ := pushAll_of_fits (w := empty) fit (by simpa [empty] using room)
    (by decide)
  exact ⟨v.word, pack_eq_ok_iff.mpr ⟨v, pushed, rfl⟩, number⟩

theorem isSome_pack (narrow : ∀ f ∈ fields, f.width.toNat + 32 < 0x100000000) :
    (pack fields).isSome := by
  rw [pack_eq, Option.isSome_map, Option.isSome_iff_ne_none]
  exact pushAll_ne_none narrow (by decide)

theorem fits_of_pack {word : UInt32} (h : pack fields = some (.ok word)) :
    ∀ f ∈ fields, f.fits := by
  obtain ⟨v, pushed, -⟩ := pack_eq_ok_iff.mp h
  exact fits_of_pushAll pushed

end WordWriter

namespace Field

open Filling

/-- What a push answers, if the program goes on after it. -/
def reply (f : Field) (w : WordWriter) : Option (Except Fault Unit) := (push f w).map Prod.fst

/-- The writer after a push, whether the field was taken or refused. -/
def left (f : Field) (w : WordWriter) : Option WordWriter := (push f w).map Prod.snd

end Field

/-- The writer after fields in their order, those that were refused among them. -/
def WordWriter.after (w : WordWriter) (fields : List Field) : Option WordWriter :=
  fields.foldlM (fun w f => f.left w) w

end SoftCore
