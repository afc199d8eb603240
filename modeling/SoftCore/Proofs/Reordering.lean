import Mathlib.Data.Fin.VecNotation
import Mathlib.Logic.Equiv.Defs
import SoftCore.Proofs.Assembled

/-! Assembling the same entries in another order. Whether an assembly succeeds
does not depend on the order at all. The image depends on it only through
entries whose words overlap: a byte is that of the last entry over it, all
entries over one byte overlap, and where those keep their order the last of them
stays the last. -/

namespace SoftCore

/-- The elements of `ys` are those of `xs` moved to other places, and any two that are related by
`R` stand in the same order in both lists. Elements that occur several times are told apart by
their places. -/
def KeepsOrder {α : Type} (R : α → α → Prop) (xs ys : List α) : Prop :=
  ∃ σ : Fin xs.length ≃ Fin ys.length, (∀ i, ys[σ i] = xs[i]) ∧
    ∀ i j, i < j → R xs[i] xs[j] → σ i < σ j

theorem KeepsOrder.mem {α : Type} {R : α → α → Prop} {xs ys : List α} (h : KeepsOrder R xs ys)
    {y : α} (mem : y ∈ ys) : y ∈ xs := by
  obtain ⟨σ, same, -⟩ := h
  obtain ⟨b, rfl⟩ := List.mem_iff_get.mp mem
  obtain ⟨a, rfl⟩ := σ.surjective b
  show ys[σ a] ∈ xs
  rw [same a]
  exact List.getElem_mem _

namespace Entry

/-- The words of the two entries have a byte in common. -/
def Overlaps (e f : Entry) : Prop := ∃ i, Word.Covers e.address i ∧ Word.Covers f.address i

theorem overlaps_iff {e f : Entry} : e.Overlaps f ↔
    e.address.toNat ≤ f.address.toNat + 3 ∧ f.address.toNat ≤ e.address.toNat + 3 := by
  unfold Overlaps Word.Covers
  constructor
  · rintro ⟨i, he, hf⟩
    omega
  · rintro ⟨left, right⟩
    exact ⟨max e.address.toNat f.address.toNat, by omega, by omega⟩

instance (e f : Entry) : Decidable (e.Overlaps f) := decidable_of_iff _ overlaps_iff.symm

end Entry

namespace Word

/-- The last entry over a byte by its place in the list. -/
theorem lastOver_iff_place {entries : List Entry} {i : Nat} {e : Entry} :
    LastOver Entry.address entries i e ↔ ∃ a : Fin entries.length, entries[a] = e ∧ Word.Covers e.address i ∧
      ∀ b, a < b → ¬Word.Covers (entries[b]).address i := by
  constructor
  · rintro ⟨front, back, rfl, covers, last⟩
    refine ⟨⟨front.length, by simp⟩, by simp, covers, ?_⟩
    rintro ⟨b, inside⟩ (after : front.length < b)
    refine last _ ?_
    obtain ⟨k, rfl⟩ := Nat.exists_eq_add_of_lt after
    simp [List.getElem_append_right, Nat.add_assoc]
  · rintro ⟨⟨a, inside⟩, rfl, covers, last⟩
    refine ⟨entries.take a, entries.drop (a + 1), ?_, covers, fun x mem => ?_⟩
    · simp
    · obtain ⟨k, bound, rfl⟩ := List.mem_iff_getElem.mp mem
      rw [List.getElem_drop]
      rw [List.length_drop] at bound
      exact last ⟨a + 1 + k, by omega⟩ (Fin.mk_lt_mk.mpr (by omega))

/-- All entries over one byte overlap, so the last of them stays behind the others. -/
theorem LastOver.of_keepsOrder {xs ys : List Entry} (h : KeepsOrder Entry.Overlaps xs ys) {i : Nat}
    {e : Entry} (last : LastOver Entry.address xs i e) : LastOver Entry.address ys i e := by
  obtain ⟨σ, same, order⟩ := h
  obtain ⟨a, rfl, covers, last⟩ := lastOver_iff_place.mp last
  refine lastOver_iff_place.mpr ⟨σ a, same a, covers, fun b after => ?_⟩
  obtain ⟨j, rfl⟩ := σ.surjective b
  rw [same j]
  intro other
  rcases lt_trichotomy j a with before | rfl | behind
  · exact absurd (order j a before ⟨i, other, covers⟩) (not_lt_of_gt after)
  · exact lt_irrefl _ after
  · exact last j behind other

end Word

namespace Assembly

theorem image_eq_of_keepsOrder {xs ys : List Entry} (h : KeepsOrder Entry.Overlaps xs ys)
    {size : Nat} {a b : Image} (first : assemble xs size = .ok a)
    (second : assemble ys size = .ok b) : a = b := by
  have bytes : a.bytes = b.bytes := by
    refine Array.ext_getElem? fun i => ?_
    rcases Word.lastOver_or_uncovered Entry.address xs i with ⟨e, last⟩ | uncovered
    · obtain ⟨word, encoded, here⟩ := getElem?_of_lastOver first last
      obtain ⟨other, again, there⟩ := getElem?_of_lastOver second (last.of_keepsOrder h)
      rw [encoded, Except.ok.injEq] at again
      rw [here, there, again]
    · rw [getElem?_of_uncovered first uncovered,
        getElem?_of_uncovered second fun e he => uncovered e (h.mem he)]
  cases a
  cases b
  cases bytes
  rfl

/-- Entries in another order assemble if and only if they do in the first. The image is the same
when overlapping entries keep their order. -/
theorem assemble_of_perm {xs ys : List Entry} (perm : xs.Perm ys) (size : Nat) :
    ((∃ image, assemble xs size = .ok image) ↔ ∃ image, assemble ys size = .ok image) ∧
      (KeepsOrder Entry.Overlaps xs ys →
        ∀ image, assemble xs size = .ok image ↔ assemble ys size = .ok image) := by
  have both : (∃ image, assemble xs size = .ok image) ↔ ∃ image, assemble ys size = .ok image := by
    simp only [exists_assemble_iff, perm.mem_iff]
  refine ⟨both, fun order image => ⟨fun first => ?_, fun second => ?_⟩⟩
  · obtain ⟨other, second⟩ := both.mp ⟨image, first⟩
    rw [second, image_eq_of_keepsOrder order first second]
  · obtain ⟨other, first⟩ := both.mpr ⟨image, second⟩
    rw [first, image_eq_of_keepsOrder order first second]

/-- A line that stands alone before two that overlap. -/
def apartFirst : List Entry :=
  [⟨8, "ld [%r9++], %r1".toList⟩, ⟨0, "or %r0, 1, %r2".toList⟩, ⟨2, "sha %r1, -4, %r3".toList⟩]

def apartLast : List Entry :=
  [⟨0, "or %r0, 1, %r2".toList⟩, ⟨2, "sha %r1, -4, %r3".toList⟩, ⟨8, "ld [%r9++], %r1".toList⟩]

/-- The first of three places becomes the last. -/
def firstToLast : Fin 3 ≃ Fin 3 where
  toFun := ![2, 0, 1]
  invFun := ![1, 2, 0]
  left_inv := by
    unfold Function.LeftInverse
    decide
  right_inv := by
    unfold Function.RightInverse Function.LeftInverse
    decide

theorem keepsOrder_apart : KeepsOrder Entry.Overlaps apartFirst apartLast :=
  ⟨firstToLast, by decide, by decide⟩

theorem assemble_of_perm_apart : apartFirst.Perm apartLast ∧
    KeepsOrder Entry.Overlaps apartFirst apartLast ∧
    ∃ image, assemble apartFirst 12 = .ok image ∧ assemble apartLast 12 = .ok image := by
  have perm : apartFirst.Perm apartLast := by decide
  have assembled : assemble apartFirst 12 =
      .ok ⟨#[81, 0, 113, 133, 255, 252, 0, 0, 128, 165, 0, 4]⟩ := by
    decide +kernel
  have whole := assemble_of_perm perm 12
  exact ⟨perm, keepsOrder_apart, _, assembled, (whole.2 keepsOrder_apart _).mp assembled⟩

end Assembly
end SoftCore
