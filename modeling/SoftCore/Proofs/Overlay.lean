import SoftCore.Machine.Image

/-! The bytes that words leave in memory. A word covers the four bytes from its
address on. Writing it sets these and no others, so after any number of writes a
byte is that of the last word that covers it, or else what stood there before.
Reading a word gives the four bytes that it covers. -/

namespace SoftCore

/-- Byte `i` is one of the four of a word at the address. -/
def Word.Covers (address : UInt32) (i : Nat) : Prop := address.toNat ≤ i ∧ i ≤ address.toNat + 3

instance (address : UInt32) (i : Nat) : Decidable (Word.Covers address i) :=
  inferInstanceAs (Decidable (_ ∧ _))

theorem all_or_first {α : Type} (P : α → Prop) (xs : List α) :
    (∀ x ∈ xs, P x) ∨ ∃ front x back, xs = front ++ x :: back ∧ (∀ y ∈ front, P y) ∧ ¬P x := by
  induction xs with
  | nil => simp
  | cons x xs ih =>
    by_cases hx : P x
    · rcases ih with all | ⟨front, y, back, rfl, before, hy⟩
      · exact .inl (by simpa [hx] using all)
      · exact .inr ⟨x :: front, y, back, rfl, by simpa [hx] using before, hy⟩
    · exact .inr ⟨[], x, xs, rfl, by simp, hx⟩

theorem none_or_last {α : Type} (P : α → Prop) (xs : List α) :
    (∀ x ∈ xs, ¬P x) ∨ ∃ front x back, xs = front ++ x :: back ∧ P x ∧ ∀ y ∈ back, ¬P y := by
  rcases all_or_first (fun x => ¬P x) xs.reverse with none | ⟨back, x, front, split, later, here⟩
  · exact .inl fun x mem => none x (List.mem_reverse.mpr mem)
  · refine .inr ⟨front.reverse, x, back.reverse, ?_, Classical.not_not.mp here, fun y mem => ?_⟩
    · simpa using List.reverse_eq_iff.mp split
    · exact later y (List.mem_reverse.mp mem)

namespace Word

variable {α β : Type} {address : α → UInt32} {xs : List α} {i : Nat} {x : α}

/-- The last element whose word covers byte `i`, in the order of the list. -/
def LastOver (address : α → UInt32) (xs : List α) (i : Nat) (x : α) : Prop :=
  ∃ front back, xs = front ++ x :: back ∧ Covers (address x) i ∧
    ∀ y ∈ back, ¬Covers (address y) i

theorem lastOver_or_uncovered (address : α → UInt32) (xs : List α) (i : Nat) :
    (∃ x, LastOver address xs i x) ∨ ∀ x ∈ xs, ¬Covers (address x) i := by
  rcases none_or_last (fun x => Covers (address x) i) xs with
    uncovered | ⟨front, x, back, split, covers, later⟩
  · exact .inr uncovered
  · exact .inl ⟨x, front, back, split, covers, later⟩

/-- Which element is the last depends on the addresses alone. -/
theorem LastOver.map {other : β → UInt32} {f : α → β} (same : ∀ x, other (f x) = address x)
    (h : LastOver address xs i x) : LastOver other (xs.map f) i (f x) := by
  obtain ⟨front, back, rfl, covers, later⟩ := h
  refine ⟨front.map f, back.map f, by simp, by rwa [same], ?_⟩
  simp only [List.forall_mem_map, same]
  exact later

end Word

namespace Image

theorem size_bytes_storeAll (image : Image) (placements : List Placement) :
    (image.storeAll placements).bytes.size = image.bytes.size :=
  capacity_storeAll image placements

theorem storeAll_append (image : Image) (front back : List Placement) :
    image.storeAll (front ++ back) = (image.storeAll front).storeAll back := by
  rw [storeAll, List.foldl_append, storeAll, storeAll]

theorem getElem?_store_of_covers {image : Image} {p : Placement} {i : Nat}
    (h : Word.Covers p.address i) (inside : i < image.bytes.size) :
    (image.store p).bytes[i]? = some (Word.byte p.word (i - p.address.toNat)) := by
  obtain ⟨k, rfl⟩ := Nat.exists_eq_add_of_le h.1
  have small : k = 0 ∨ k = 1 ∨ k = 2 ∨ k = 3 := by
    have last := h.2
    omega
  rcases small with rfl | rfl | rfl | rfl
  · simpa [store, Array.getElem?_setIfInBounds] using inside
  all_goals simp [store, inside]

theorem getElem?_store_of_not_covers {image : Image} {p : Placement} {i : Nat}
    (h : ¬Word.Covers p.address i) : (image.store p).bytes[i]? = image.bytes[i]? := by
  unfold Word.Covers at h
  rw [store, Array.getElem?_setIfInBounds_ne (by omega), Array.getElem?_setIfInBounds_ne (by omega),
    Array.getElem?_setIfInBounds_ne (by omega), Array.getElem?_setIfInBounds_ne (by omega)]

/-- Words that leave a byte uncovered leave it as it was. -/
theorem getElem?_storeAll_of_not_covers {image : Image} {placements : List Placement} {i : Nat}
    (h : ∀ p ∈ placements, ¬Word.Covers p.address i) :
    (image.storeAll placements).bytes[i]? = image.bytes[i]? := by
  induction placements generalizing image with
  | nil => rfl
  | cons p rest ih =>
    rw [storeAll_cons, ih fun q hq => h q (List.mem_cons_of_mem p hq)]
    exact getElem?_store_of_not_covers (h p List.mem_cons_self)

/-- The last word that covers a byte decides it, whatever was written before. -/
theorem getElem?_storeAll_of_lastOver {image : Image} {placements : List Placement} {p : Placement}
    {i : Nat} (last : Word.LastOver Placement.address placements i p)
    (inside : i < image.bytes.size) :
    (image.storeAll placements).bytes[i]? = some (Word.byte p.word (i - p.address.toNat)) := by
  obtain ⟨front, back, rfl, covers, later⟩ := last
  rw [storeAll_append, storeAll_cons, getElem?_storeAll_of_not_covers later]
  exact getElem?_store_of_covers covers (by rwa [size_bytes_storeAll])

theorem getElem?_zeroed {size i : Nat} (h : i < size) : (zeroed size).bytes[i]? = some 0 := by
  simp [zeroed, h]

theorem exists_read_of_fits {image : Image} {address : UInt32} (h : image.fits address) :
    ∃ word, image.read address = .ok word := by
  unfold read
  cases found : image.read? address with
  | some word => exact ⟨word, rfl⟩
  | none =>
    rw [read?_eq_none_iff, h] at found
    cases found

theorem getElem?_of_read {image : Image} {address word : UInt32} (h : image.read address = .ok word)
    {k : Nat} (small : k ≤ 3) : image.bytes[address.toNat + k]? = some (Word.byte word k) := by
  unfold read at h
  split at h
  · rename_i found
    cases h
    obtain ⟨a, first, found⟩ := Option.bind_eq_some_iff.mp found
    obtain ⟨b, second, found⟩ := Option.bind_eq_some_iff.mp found
    obtain ⟨c, third, found⟩ := Option.bind_eq_some_iff.mp found
    obtain ⟨d, fourth, found⟩ := Option.bind_eq_some_iff.mp found
    cases found
    have bytes := Word.bytes_ofBytes a b c d
    simp only [Word.bytes, List.cons.injEq, and_true] at bytes
    obtain ⟨ha, hb, hc, hd⟩ := bytes
    have position : k = 0 ∨ k = 1 ∨ k = 2 ∨ k = 3 := by omega
    rcases position with rfl | rfl | rfl | rfl
    · rw [ha]
      exact first
    · rw [hb]
      exact second
    · rw [hc]
      exact third
    · rw [hd]
      exact fourth
  · cases h

end Image
end SoftCore
