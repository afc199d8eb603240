import Mathlib.Data.List.Dedup
import SoftCore.ProgramFile

/-! What becomes of the pairs of an address and a line that a program file is
written with. Each address has the line of the last pair written for it. A
listing writes no address twice, so none of its pairs is lost; in a JSON object
a key may stand several times, and then all its pairs but the last are. -/

namespace SoftCore

theorem mapM_map_of_leftInverse {α β : Type} {f : α → β} {g : β → Option α}
    (h : ∀ x, g (f x) = some x) (xs : List α) : (xs.map f).mapM g = some xs := by
  induction xs with
  | nil => rfl
  | cons x xs ih =>
    rw [List.map_cons, List.mapM_cons, h, ih]
    rfl

namespace Program

/-- The entry is the last of the pairs with its address. -/
def LastOf (pairs : List Entry) (e : Entry) : Prop :=
  ∃ front back, pairs = front ++ e :: back ∧ ∀ later ∈ back, later.address ≠ e.address

theorem lastOf_iff_find? {pairs : List Entry} {e : Entry} :
    LastOf pairs e ↔ pairs.reverse.find? (·.address = e.address) = some e := by
  rw [List.find?_eq_some_iff_append]
  constructor
  · rintro ⟨front, back, rfl, last⟩
    refine ⟨by simp, back.reverse, front.reverse, by simp, fun later mem => ?_⟩
    simpa using last later (List.mem_reverse.mp mem)
  · rintro ⟨-, back, front, order, last⟩
    refine ⟨front.reverse, back.reverse, ?_, fun later mem => ?_⟩
    · simpa using List.reverse_eq_iff.mp order
    · simpa using last later (List.mem_reverse.mp mem)

theorem lookup_foldl_insert (p : Program) (pairs : List Entry) (address : UInt32) :
    (pairs.foldl insert p).lookup address =
      ((pairs.reverse.find? (·.address = address)).map Entry.text).or (p.lookup address) := by
  induction pairs generalizing p with
  | nil => rfl
  | cons e rest ih =>
    rw [List.foldl_cons, ih, lookup_insert, List.reverse_cons, List.find?_append]
    by_cases here : e.address = address
    · cases rest.reverse.find? (·.address = address) <;> simp [here]
    · cases rest.reverse.find? (·.address = address) <;> simp [here]

theorem mem_ofEntries_iff {pairs : List Entry} {e : Entry} :
    e ∈ (ofEntries pairs).entries ↔ LastOf pairs e := by
  obtain ⟨address, text⟩ := e
  rw [lastOf_iff_find?, ← lookup_eq_some_iff, ofEntries, lookup_foldl_insert, lookup_empty,
    Option.or_none, Option.map_eq_some_iff]
  constructor
  · rintro ⟨found, last, rfl⟩
    obtain rfl : found.address = address := by simpa using List.find?_some last
    exact last
  · exact fun last => ⟨_, last, rfl⟩

theorem LastOf.mem {pairs : List Entry} {e : Entry} (h : LastOf pairs e) : e ∈ pairs := by
  obtain ⟨front, back, rfl, -⟩ := h
  exact List.mem_append_right front List.mem_cons_self

theorem exists_lastOf {pairs : List Entry} {e : Entry} (h : e ∈ pairs) :
    ∃ last, LastOf pairs last ∧ last.address = e.address := by
  have found : (pairs.reverse.find? (·.address = e.address)).isSome :=
    List.find?_isSome.mpr ⟨e, List.mem_reverse.mpr h, by simp⟩
  obtain ⟨last, here⟩ := Option.isSome_iff_exists.mp found
  have same : last.address = e.address := by simpa using List.find?_some here
  exact ⟨last, lastOf_iff_find?.mpr (same ▸ here), same⟩

theorem mem_ofEntries_of_nodup {pairs : List Entry} (h : (pairs.map Entry.address).Nodup)
    {e : Entry} (mem : e ∈ pairs) : e ∈ (ofEntries pairs).entries := by
  obtain ⟨last, isLast, same⟩ := exists_lastOf mem
  rw [← List.inj_on_of_nodup_map h isLast.mem mem same]
  exact mem_ofEntries_iff.mpr isLast

theorem nodup_addresses (p : Program) : (p.entries.map Entry.address).Nodup :=
  List.pairwise_map.mpr (p.ascending.imp UInt32.ne_of_lt)

theorem nodup_addresses_of_perm {p : Program} {es : List Entry} (h : es.Perm p.entries) :
    (es.map Entry.address).Nodup :=
  (h.map Entry.address).nodup_iff.mpr p.nodup_addresses

/-- A program is made of its own entries in whatever order. -/
theorem ofEntries_of_perm {p : Program} {es : List Entry} (h : es.Perm p.entries) :
    ofEntries es = p := by
  refine ext_lookup fun address => Option.ext fun text => ?_
  rw [lookup_eq_some_iff, lookup_eq_some_iff, ← h.mem_iff]
  exact ⟨fun mem => (mem_ofEntries_iff.mp mem).mem,
    mem_ofEntries_of_nodup (nodup_addresses_of_perm h)⟩

/-- A program has one entry for each address that is written. -/
theorem size_ofEntries (pairs : List Entry) :
    (ofEntries pairs).size = (pairs.map Entry.address).dedup.length := by
  have same : ∀ address, address ∈ (ofEntries pairs).entries.map Entry.address ↔
      address ∈ (pairs.map Entry.address).dedup := by
    intro address
    rw [List.mem_dedup, List.mem_map, List.mem_map]
    constructor
    · rintro ⟨e, mem, here⟩
      exact ⟨e, (mem_ofEntries_iff.mp mem).mem, here⟩
    · rintro ⟨e, mem, rfl⟩
      obtain ⟨last, isLast, here⟩ := exists_lastOf mem
      exact ⟨last, mem_ofEntries_iff.mpr isLast, here⟩
  have perm := (List.perm_ext_iff_of_nodup (nodup_addresses _) (List.nodup_dedup _)).mpr same
  rw [← perm.length_eq, List.length_map, size]

theorem size_ofEntries_eq_iff {pairs : List Entry} :
    (ofEntries pairs).size = pairs.length ↔ (pairs.map Entry.address).Nodup := by
  rw [size_ofEntries, ← List.dedup_eq_self, ← List.length_map (f := Entry.address)]
  exact ⟨fun full => (List.dedup_sublist _).eq_of_length full, fun same => by rw [same]⟩

end Program

namespace Listing

/-- A line without its comment and the blanks around it. -/
def body (line : Text) : Text := Text.trim (line.upTo '#')

/-- The pair written on a line. -/
def pair? (line : Text) : Option Entry :=
  match (body line).cut? ':' with
  | none => none
  | some (front, back) =>
    match Address.read front with
    | .ok address => some { address, text := back.trim }
    | .error _ => none

/-- A line that is read adds its pair under an address that is not taken. -/
theorem readLine_eq_ok_iff {number : Nat} {p q : Program} {line : Text} :
    readLine number p line = .ok q ↔ (body line = [] ∧ q = p) ∨
      ∃ e, pair? line = some e ∧ p.lookup e.address = none ∧ q = p.insert e := by
  unfold readLine pair? body
  by_cases blank : Text.trim (line.upTo '#') = []
  · simp [blank, Text.cut?, eq_comm]
  · cases cut : Text.cut? ':' (Text.trim (line.upTo '#')) with
    | none => simp [blank, cut]
    | some sides =>
      cases read : Address.read sides.1 with
      | error flaw => simp [blank, cut, read]
      | ok address =>
        cases taken : p.lookup address with
        | none => simpa [blank, cut, read, taken] using eq_comm
        | some text => simp [blank, cut, read, taken]

/-- What is read so far is inserted, and no address of the rest is taken. -/
theorem readLines_pairs {number : Nat} {p q : Program} {lines : List Text}
    (h : readLines number p lines = .ok q) :
    q = (lines.filterMap pair?).foldl Program.insert p ∧
      ((lines.filterMap pair?).map Entry.address).Nodup ∧
      ∀ e ∈ lines.filterMap pair?, p.lookup e.address = none := by
  induction lines generalizing number p with
  | nil =>
    cases h
    simp
  | cons line rest ih =>
    rw [readLines] at h
    split at h
    · cases h
    · rename_i next step
      obtain ⟨whole, nodup, free⟩ := ih h
      rcases readLine_eq_ok_iff.mp step with ⟨blank, rfl⟩ | ⟨e, pair, untaken, rfl⟩
      · have nothing : pair? line = none := by
          rw [pair?, blank]
          rfl
        rw [List.filterMap_cons_none nothing]
        exact ⟨whole, nodup, free⟩
      · have apart : ∀ x ∈ rest.filterMap pair?, e.address ≠ x.address ∧ p.lookup x.address = none := by
          intro x mem
          have here := free x mem
          rw [Program.lookup_insert] at here
          split at here
          · cases here
          · exact ⟨‹_›, here⟩
        rw [List.filterMap_cons_some pair, List.map_cons, List.nodup_cons, List.forall_mem_cons]
        refine ⟨whole, ⟨fun mem => ?_, nodup⟩, untaken, fun x mem => (apart x mem).2⟩
        obtain ⟨x, mem, same⟩ := List.mem_map.mp mem
        exact (apart x mem).1 same.symm

theorem read_pairs {text : Text} {p : Program} (h : read text = .ok p) :
    p = Program.ofEntries ((text.pieces '\n').filterMap pair?) ∧
      (((text.pieces '\n').filterMap pair?).map Entry.address).Nodup := by
  obtain ⟨whole, nodup, -⟩ := readLines_pairs h
  exact ⟨whole, nodup⟩

end Listing

namespace ProgramFile

/-- The pairs written in a text, in their order. -/
def pairs (name text : Text) : List Entry :=
  if isJson name then
    match Json.read? text with
    | some (.object members) => members.filterMap Program.entry?
    | _ => []
  else (text.pieces '\n').filterMap Listing.pair?

theorem filterMap_of_mapM {α β : Type} {f : α → Option β} {xs : List α} {ys : List β}
    (h : xs.mapM f = some ys) : xs.filterMap f = ys := by
  induction xs generalizing ys with
  | nil =>
    cases h
    rfl
  | cons x xs ih =>
    rw [List.mapM_cons] at h
    obtain ⟨y, head, h⟩ := Option.bind_eq_some_iff.mp h
    obtain ⟨rest, tail, h⟩ := Option.bind_eq_some_iff.mp h
    cases h
    rw [List.filterMap_cons_some head, ih tail]

theorem pairs_of_ofJson? {name text : Text} (json : isJson name) {p : Program}
    (h : (Json.read? text).bind Program.ofJson? = some p) : p = Program.ofEntries (pairs name text) := by
  obtain ⟨value, read, h⟩ := Option.bind_eq_some_iff.mp h
  unfold Program.ofJson? at h
  split at h
  · obtain ⟨entries, each, rfl⟩ := Option.map_eq_some_iff.mp h
    rw [pairs, if_pos json, read]
    dsimp only
    rw [filterMap_of_mapM each]
  · cases h

/-- Either form inserts its pairs in their order, and a listing has no address twice. -/
theorem pairs_of_ofText {name text : Text} {p : Program} (h : ofText name text = .ok p) :
    p = Program.ofEntries (pairs name text) ∧
      (isJson name = false → ((pairs name text).map Entry.address).Nodup) := by
  unfold ofText at h
  split at h
  · rename_i json
    split at h
    · rename_i read
      cases h
      exact ⟨pairs_of_ofJson? json read, fun listing => by simp [json] at listing⟩
    · cases h
  · rename_i listing
    split at h
    · rename_i read
      cases h
      rw [pairs, if_neg listing]
      exact ⟨(Listing.read_pairs read).1, fun _ => (Listing.read_pairs read).2⟩
    · cases h

theorem exists_text_of_load {name : Text} {contents : Option (List UInt8)} {p : Program}
    (h : load name contents = .ok p) :
    ∃ text, contents.bind Text.ofUtf8? = some text ∧ ofText name text = .ok p := by
  unfold load at h
  split at h
  · cases h
  · split at h
    · cases h
    · exact ⟨_, ‹_›, h⟩

/-- The entries of a loaded program are the last pairs written for their addresses. None is lost
where no address is written twice, as in every listing that is accepted. -/
theorem entries_of_load {name : Text} {contents : Option (List UInt8)} {p : Program}
    (loaded : load name contents = .ok p) :
    ∃ text, contents.bind Text.ofUtf8? = some text ∧
      (∀ e, e ∈ p.entries ↔ Program.LastOf (pairs name text) e) ∧
      (p.size = (pairs name text).length ↔ ((pairs name text).map Entry.address).Nodup) ∧
      (isJson name = false → ((pairs name text).map Entry.address).Nodup ∧
        ∀ e ∈ pairs name text, e ∈ p.entries) := by
  obtain ⟨text, decoded, h⟩ := exists_text_of_load loaded
  obtain ⟨rfl, listing⟩ := pairs_of_ofText h
  exact ⟨text, decoded, fun _ => Program.mem_ofEntries_iff, Program.size_ofEntries_eq_iff,
    fun other => ⟨listing other, fun _ => Program.mem_ofEntries_of_nodup (listing other)⟩⟩

theorem load_utf8 (name text : Text) : load name (some (Text.utf8 text)) = ofText name text := by
  rw [load, Text.ofUtf8?_utf8]

theorem entries_of_load_listing :
    ∃ p, load "boot.s".toList (some (Text.utf8 "8: ld [%r9], %r1\n0x4: or %r0, 1, %r9".toList)) = .ok p ∧
      ∃ text,
        (some (Text.utf8 "8: ld [%r9], %r1\n0x4: or %r0, 1, %r9".toList)).bind Text.ofUtf8? = some text ∧
        (∀ e, e ∈ p.entries ↔ Program.LastOf (pairs "boot.s".toList text) e) ∧
        (p.size = (pairs "boot.s".toList text).length ↔
          ((pairs "boot.s".toList text).map Entry.address).Nodup) ∧
        (isJson "boot.s".toList = false → ((pairs "boot.s".toList text).map Entry.address).Nodup ∧
          ∀ e ∈ pairs "boot.s".toList text, e ∈ p.entries) := by
  have loaded : load "boot.s".toList
      (some (Text.utf8 "8: ld [%r9], %r1\n0x4: or %r0, 1, %r9".toList)) = .ok (Program.ofEntries
        [⟨4, "or %r0, 1, %r9".toList⟩, ⟨8, "ld [%r9], %r1".toList⟩]) := by
    rw [load_utf8]
    decide +kernel
  exact ⟨_, loaded, entries_of_load loaded⟩

/-- A JSON object in which one key stands twice. -/
def repeatedKey : Text :=
  "\x7b\"0\":\"add %r1, %r2, %r3\",\"0\":\"sub %r1, %r2, %r3\"\x7d".toList

/-- The first pair of a repeated key is written in a file that is accepted, and is no entry. -/
theorem pair_lost : ∃ p, load "p.json".toList (some (Text.utf8 repeatedKey)) = .ok p ∧
    ⟨0, "add %r1, %r2, %r3".toList⟩ ∈ pairs "p.json".toList repeatedKey ∧
    ⟨0, "add %r1, %r2, %r3".toList⟩ ∉ p.entries ∧
    p.size < (pairs "p.json".toList repeatedKey).length := by
  refine ⟨Program.ofEntries [⟨0, "sub %r1, %r2, %r3".toList⟩], ?_, ?_, ?_, ?_⟩
  · rw [load_utf8]
    decide +kernel
  · decide +kernel
  · decide +kernel
  · decide +kernel

end ProgramFile
end SoftCore
