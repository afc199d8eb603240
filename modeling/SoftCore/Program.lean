import SoftCore.Text.Blank

/-! A program: one line of text at each of finitely many addresses, kept in
ascending order of address. It is determined by what stands at each address,
and inserting a line changes that address alone. -/

namespace SoftCore

structure Entry where
  address : UInt32
  text : Text
  deriving DecidableEq

structure Program where
  entries : List Entry
  ascending : entries.Pairwise (·.address < ·.address)
  deriving DecidableEq

namespace Program

/-- The entry in its place, in the stead of one at the same address. -/
def place (e : Entry) : List Entry → List Entry
  | [] => [e]
  | x :: xs =>
    if e.address < x.address then e :: x :: xs
    else if e.address = x.address then e :: xs
    else x :: place e xs

theorem mem_of_mem_place {e y : Entry} {xs : List Entry} (h : y ∈ place e xs) : y = e ∨ y ∈ xs := by
  induction xs with
  | nil => simpa [place] using h
  | cons x xs ih =>
    rw [place] at h
    split at h
    · simpa using h
    · split at h
      · rcases List.mem_cons.mp h with h | h
        · exact .inl h
        · exact .inr (List.mem_cons_of_mem x h)
      · rcases List.mem_cons.mp h with h | h
        · exact .inr (h ▸ List.mem_cons_self)
        · exact (ih h).imp_right (List.mem_cons_of_mem x)

theorem ascending_place (e : Entry) {xs : List Entry} (h : xs.Pairwise (·.address < ·.address)) :
    (place e xs).Pairwise (·.address < ·.address) := by
  induction xs with
  | nil => simp [place]
  | cons x xs ih =>
    obtain ⟨hx, hxs⟩ := List.pairwise_cons.mp h
    rw [place]
    split
    · rename_i below
      refine List.pairwise_cons.mpr ⟨fun y hy => ?_, h⟩
      rcases List.mem_cons.mp hy with rfl | hy
      · exact below
      · exact UInt32.lt_trans below (hx y hy)
    · rename_i notBelow
      split
      · rename_i same
        exact List.pairwise_cons.mpr ⟨fun y hy => same ▸ hx y hy, hxs⟩
      · rename_i different
        refine List.pairwise_cons.mpr ⟨fun y hy => ?_, ih hxs⟩
        rcases mem_of_mem_place hy with rfl | hy
        · rw [UInt32.lt_iff_toNat_lt] at notBelow ⊢
          rw [← UInt32.toNat_inj] at different
          omega
        · exact hx y hy

def empty : Program := ⟨[], List.Pairwise.nil⟩

def insert (p : Program) (e : Entry) : Program := ⟨place e p.entries, ascending_place e p.ascending⟩

def lookup (p : Program) (address : UInt32) : Option Text :=
  (p.entries.find? (·.address = address)).map (·.text)

def size (p : Program) : Nat := p.entries.length

/-- Later entries take the place of earlier ones at the same address. -/
def ofEntries (entries : List Entry) : Program := entries.foldl insert empty

theorem find?_place (e : Entry) (address : UInt32) {xs : List Entry}
    (h : xs.Pairwise (·.address < ·.address)) :
    (place e xs).find? (·.address = address) =
      if e.address = address then some e else xs.find? (·.address = address) := by
  induction xs with
  | nil => by_cases he : e.address = address <;> simp [place, he]
  | cons x xs ih =>
    have hxs := ih (List.pairwise_cons.mp h).2
    rw [place]
    split
    · simp only [List.find?_cons]
      by_cases he : e.address = address <;> simp [he]
    · split
      · rename_i same
        simp only [List.find?_cons, same]
        by_cases hx : x.address = address <;> simp [hx]
      · rename_i different
        simp only [List.find?_cons, hxs]
        by_cases hx : x.address = address
        · simp [hx, show e.address ≠ address from fun he => different (he.trans hx.symm)]
        · simp [hx]

@[simp] theorem lookup_empty (address : UInt32) : empty.lookup address = none := rfl

theorem lookup_insert (p : Program) (e : Entry) (address : UInt32) :
    (p.insert e).lookup address = if e.address = address then some e.text else p.lookup address := by
  unfold lookup insert
  rw [find?_place e address p.ascending]
  split <;> rfl

theorem lookup_eq_some_iff {p : Program} {address : UInt32} {text : Text} :
    p.lookup address = some text ↔ ⟨address, text⟩ ∈ p.entries := by
  constructor
  · intro h
    obtain ⟨e, found, rfl⟩ := Option.map_eq_some_iff.mp h
    have here := List.find?_some found
    rw [decide_eq_true_eq] at here
    subst here
    exact List.mem_of_find?_eq_some found
  · intro h
    have sorted := p.ascending
    unfold lookup
    generalize p.entries = xs at h sorted
    induction xs with
    | nil => cases h
    | cons x xs ih =>
      obtain ⟨hx, hxs⟩ := List.pairwise_cons.mp sorted
      rw [List.find?_cons]
      rcases List.mem_cons.mp h with rfl | h
      · simp
      · have : x.address ≠ address := fun e => UInt32.lt_irrefl _ (e ▸ hx _ h)
        simpa [this] using ih h hxs

theorem ext_lookup {p q : Program} (h : ∀ address, p.lookup address = q.lookup address) : p = q := by
  have nodup : ∀ r : Program, r.entries.Nodup := by
    intro r
    refine r.ascending.imp ?_
    rintro a _ below rfl
    exact UInt32.lt_irrefl _ below
  have perm : p.entries.Perm q.entries := by
    rw [List.perm_ext_iff_of_nodup (nodup p) (nodup q)]
    rintro ⟨address, text⟩
    rw [← lookup_eq_some_iff, h, lookup_eq_some_iff]
  have same : p.entries = q.entries := perm.eq_of_pairwise
    (fun a b _ _ ab ba => absurd (UInt32.lt_trans ab ba) (UInt32.lt_irrefl _)) p.ascending q.ascending
  cases p
  cases q
  cases same
  rfl

end Program
end SoftCore
