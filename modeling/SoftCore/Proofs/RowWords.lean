import Mathlib.Data.List.Basic
import SoftCore.Proofs.Assembled
import SoftCore.Report

/-! What the rows of a report say about a program. A row is read back from the
finished image, where other words may have been written over its own. In a
program the higher address is written later, so each byte of a row is that of
the nearest entry at or below the byte. Lower entries never show through, and a
row holds the word of its own line unless another entry starts inside it. -/

namespace SoftCore

def Row.entry (row : Row) : Entry := ⟨row.address, row.text⟩

namespace Report

theorem exists_rows {image : Image} {entries : List Entry}
    (fit : ∀ e ∈ entries, image.fits e.address) : ∃ rs, rows image entries = .ok rs := by
  induction entries with
  | nil => exact ⟨[], rfl⟩
  | cons e rest ih =>
    obtain ⟨word, read⟩ := Image.exists_read_of_fits (fit e List.mem_cons_self)
    obtain ⟨others, below⟩ := ih fun x hx => fit x (List.mem_cons_of_mem e hx)
    exact ⟨_, by rw [rows, read, below]; rfl⟩

theorem read_of_mem_rows {image : Image} {entries : List Entry} {rs : List Row}
    (h : rows image entries = .ok rs) : ∀ row ∈ rs, image.read row.address = .ok row.word := by
  induction entries generalizing rs with
  | nil =>
    cases h
    simp
  | cons e rest ih =>
    obtain ⟨word, read, h⟩ := Fault.bind_eq_ok_iff.mp h
    obtain ⟨others, below, h⟩ := Fault.bind_eq_ok_iff.mp h
    cases h
    exact List.forall_mem_cons.mpr ⟨read, ih below⟩

theorem entry_mem_of_mem_rows {image : Image} {entries : List Entry} {rs : List Row}
    (h : rows image entries = .ok rs) {row : Row} (mem : row ∈ rs) : row.entry ∈ entries := by
  rw [← entries_of_rows h]
  exact List.mem_map_of_mem mem

theorem ascending_rows {image : Image} {p : Program} {rs : List Row}
    (h : rows image p.entries = .ok rs) : rs.Pairwise (·.address < ·.address) := by
  have entries : rs.map Row.entry = p.entries := entries_of_rows h
  have ascending := p.ascending
  rwa [← entries, List.pairwise_map] at ascending

end Report

namespace Program

/-- The entry with the highest address that is not above `i`. -/
def Nearest (p : Program) (i : Nat) (e : Entry) : Prop :=
  e ∈ p.entries ∧ e.address.toNat ≤ i ∧
    ∀ x ∈ p.entries, x.address.toNat ≤ i → x.address ≤ e.address

/-- The last of the entries that are not above `i` is the nearest, since the addresses ascend. -/
theorem exists_nearest {p : Program} {i : Nat} {e : Entry} (mem : e ∈ p.entries)
    (below : e.address.toNat ≤ i) : ∃ n, p.Nearest i n := by
  rcases none_or_last (·.address.toNat ≤ i) p.entries with
    none | ⟨front, n, back, order, here, above⟩
  · exact absurd below (none e mem)
  · have ascending := p.ascending
    rw [order, List.pairwise_append] at ascending
    refine ⟨n, by simp [order], here, fun x hx small => ?_⟩
    rw [order, List.mem_append, List.mem_cons] at hx
    rcases hx with front | rfl | back
    · exact UInt32.le_of_lt (ascending.2.2 x front n List.mem_cons_self)
    · exact UInt32.le_refl _
    · exact absurd small (above x back)

/-- Up to three bytes above its address the nearest entry is the last to be written. -/
theorem Nearest.lastOver {p : Program} {i : Nat} {e : Entry} (h : p.Nearest i e)
    (close : i ≤ e.address.toNat + 3) : Word.LastOver Entry.address p.entries i e := by
  obtain ⟨mem, below, highest⟩ := h
  obtain ⟨front, back, order⟩ := List.append_of_mem mem
  refine ⟨front, back, order, ⟨below, close⟩, fun x hx covers => ?_⟩
  have ascending := p.ascending
  rw [order, List.pairwise_append, List.pairwise_cons] at ascending
  have higher := ascending.2.1.1 x hx
  have lower := highest x (by simp [order, hx]) covers.1
  exact UInt32.lt_irrefl _ (UInt32.lt_of_lt_of_le higher lower)

theorem text_eq_of_address_eq {p : Program} {e x : Entry} (he : e ∈ p.entries) (hx : x ∈ p.entries)
    (same : e.address = x.address) : e.text = x.text := by
  have first := lookup_eq_some_iff.mpr he
  rw [same, lookup_eq_some_iff.mpr hx] at first
  exact (Option.some.inj first).symm

end Program

namespace Assembly

theorem fits_of_assemble {entries : List Entry} {size : Nat} {image : Image}
    (h : assemble entries size = .ok image) : ∀ e ∈ entries, image.fits e.address := by
  obtain ⟨⟨-, fit⟩, rfl⟩ := assemble_eq_ok_iff.mp h
  intro e he
  rw [Image.fits, Image.capacity_storeAll]
  exact fits_zeroed_iff.mpr (fit e he)

section

variable {p : Program} {size : Nat} {image : Image} {rows : List Row} {row : Row}

/-- Byte `k` of a row is that of the nearest entry, which lies at the row or inside it. -/
theorem byte_of_row (assembled : assemble p.entries size = .ok image)
    (read : Report.rows image p.entries = .ok rows) (mem : row ∈ rows) {k : Nat} (small : k ≤ 3)
    {e : Entry} (nearest : p.Nearest (row.address.toNat + k) e) :
    row.address ≤ e.address ∧ ∃ word, lineWord e.text = .ok word ∧
      Word.byte row.word k = Word.byte word (row.address.toNat + k - e.address.toNat) := by
  have own := Report.entry_mem_of_mem_rows read mem
  have notBelow : row.address ≤ e.address := nearest.2.2 row.entry own (Nat.le_add_right _ _)
  have close : row.address.toNat + k ≤ e.address.toNat + 3 := by
    have := UInt32.le_iff_toNat_le.mp notBelow
    omega
  obtain ⟨word, encoded, here⟩ := getElem?_of_lastOver assembled (nearest.lastOver close)
  refine ⟨notBelow, word, encoded, ?_⟩
  rw [Image.getElem?_of_read (Report.read_of_mem_rows read row mem) small] at here
  exact Option.some.inj here

/-- Where no entry starts inside a row, the nearest entry of each of its bytes is its own. -/
theorem lineWord_of_row (assembled : assemble p.entries size = .ok image)
    (read : Report.rows image p.entries = .ok rows) (mem : row ∈ rows)
    (alone : ∀ e ∈ p.entries, e.address ≤ row.address ∨ row.address.toNat + 3 < e.address.toNat) :
    lineWord row.text = .ok row.word := by
  have own := Report.entry_mem_of_mem_rows read mem
  have bytes : ∀ k ≤ 3, ∃ word, lineWord row.text = .ok word ∧
      Word.byte row.word k = Word.byte word k := by
    intro k small
    obtain ⟨e, nearest⟩ := Program.exists_nearest own (Nat.le_add_right _ k)
    obtain ⟨notBelow, word, encoded, here⟩ := byte_of_row assembled read mem small nearest
    have same : e.address = row.address := by
      rcases alone e nearest.1 with below | beyond
      · exact UInt32.le_antisymm below notBelow
      · have reach := nearest.2.1
        change e.address.toNat ≤ row.address.toNat + k at reach
        omega
    have text : e.text = row.text := Program.text_eq_of_address_eq nearest.1 own same
    rw [same, Nat.add_sub_cancel_left] at here
    exact ⟨word, text ▸ encoded, here⟩
  obtain ⟨word, encoded, -⟩ := bytes 0 (by omega)
  have whole : row.word = word := by
    refine Word.eq_of_byte_eq fun k small => ?_
    obtain ⟨other, again, here⟩ := bytes k small
    rw [encoded, Except.ok.injEq] at again
    rw [here, again]
  rw [encoded, whole]

/-- Every assembly can be reported row by row. The rows are the entries in their order, each with
the word whose bytes are those of the nearest entries. -/
theorem rows_of_assemble (assembled : assemble p.entries size = .ok image) :
    ∃ rows, Report.rows image p.entries = .ok rows ∧ rows.map Row.entry = p.entries ∧
      rows.Pairwise (·.address < ·.address) ∧
      ∀ row ∈ rows,
        (∀ k ≤ 3, ∃ e word, p.Nearest (row.address.toNat + k) e ∧ lineWord e.text = .ok word ∧
          Word.byte row.word k = Word.byte word (row.address.toNat + k - e.address.toNat)) ∧
        ((∀ e ∈ p.entries, e.address ≤ row.address ∨ row.address.toNat + 3 < e.address.toNat) →
          lineWord row.text = .ok row.word) := by
  obtain ⟨rows, read⟩ := Report.exists_rows (fits_of_assemble assembled)
  refine ⟨rows, read, Report.entries_of_rows read, Report.ascending_rows read, fun row mem =>
    ⟨fun k small => ?_, lineWord_of_row assembled read mem⟩⟩
  have own := Report.entry_mem_of_mem_rows read mem
  obtain ⟨e, nearest⟩ := Program.exists_nearest own (Nat.le_add_right _ k)
  obtain ⟨-, word, encoded, here⟩ := byte_of_row assembled read mem small nearest
  exact ⟨e, word, nearest, encoded, here⟩

end

/-- Three lines of which the second covers the end of the first. -/
def overlapping : Program :=
  .ofEntries [⟨7, "st %r1, [%r2]".toList⟩, ⟨0, "add %r1, 1, %r1".toList⟩,
    ⟨2, "sub %r4, %r5, %r6".toList⟩]

theorem rows_of_assemble_overlapping :
    ∃ image, assemble overlapping.entries 11 = .ok image ∧
      ∃ rows, Report.rows image overlapping.entries = .ok rows ∧
        rows.map Row.entry = overlapping.entries ∧ rows.Pairwise (·.address < ·.address) ∧
        ∀ row ∈ rows,
          (∀ k ≤ 3, ∃ e word, overlapping.Nearest (row.address.toNat + k) e ∧
            lineWord e.text = .ok word ∧
            Word.byte row.word k = Word.byte word (row.address.toNat + k - e.address.toNat)) ∧
          ((∀ e ∈ overlapping.entries,
              e.address ≤ row.address ∨ row.address.toNat + 3 < e.address.toNat) →
            lineWord row.text = .ok row.word) := by
  have assembled : assemble overlapping.entries 11 =
      .ok ⟨#[0, 132, 195, 16, 42, 0, 0, 144, 136, 0, 0]⟩ := by
    decide +kernel
  exact ⟨_, assembled, rows_of_assemble assembled⟩

end Assembly
end SoftCore
