import SoftCore.Proofs.Addresses
import SoftCore.Proofs.Interchange
import SoftCore.Proofs.RowLines

/-! The ways to write a program as a listing. Each entry stands on a line of its
own in any order, with its address in either base and blanks around its parts;
a comment may end any line, and lines without an entry may stand anywhere. All
these texts are read as the one program, and so is its JSON object. A text that
is trimmed, has no `#` and breaks no line can stand in a listing, and no other. -/

namespace SoftCore

open Text

/-! Addresses. -/

namespace Address

/-- The address in base ten, or in base sixteen after its mark, with zeros in front. -/
inductive Spelling (address : UInt32) : Text → Prop where
  | decimal (zeros : Nat) :
    Spelling address (List.replicate zeros '0' ++ Radix.decimal.write address.toNat)
  | hexadecimal {mark : Char} {digits : Text} (zeros : Nat) (isMark : mark = 'x' ∨ mark = 'X')
    (letters : digits.asciiLower =
      List.replicate zeros '0' ++ Radix.hexadecimal.write address.toNat) :
    Spelling address ('0' :: mark :: digits)

theorem accumulate_zeros (radix : Radix) (zeros n : Nat) :
    radix.accumulate 0 (List.replicate zeros '0' ++ radix.write n) = some n := by
  rw [Radix.accumulate_append, Radix.accumulate_replicate_zero, Option.bind_some,
    Radix.accumulate_write]

namespace Spelling

variable {address : UInt32} {t : Text}

theorem written (h : Spelling address t) : Written t false address.toNat := by
  cases h with
  | decimal zeros =>
    have filled : List.replicate zeros '0' ++ Radix.decimal.write address.toNat ≠ [] := by
      simp [Radix.write_ne_nil]
    exact .inl ⟨_, rfl, Radix.numeral_iff_accumulate.mpr ⟨filled, accumulate_zeros _ zeros _⟩⟩
  | @hexadecimal mark digits zeros isMark letters =>
    have value : Radix.hexadecimal.accumulate 0 digits = some address.toNat := by
      rw [← Radix.accumulate_asciiLower, letters, accumulate_zeros]
    have filled : digits ≠ [] := by
      rintro rfl
      simp [Radix.write_ne_nil] at letters
    exact .inr ⟨mark, digits, isMark, rfl, Radix.numeral_iff_accumulate.mpr ⟨filled, value⟩⟩

/-- Only digits and the mark stand in an address. -/
theorem not_mem (h : Spelling address t) {k : Char} (other : Radix.digitValue? k = none)
    (lower : k ≠ 'x') (upper : k ≠ 'X') : k ∉ t :=
  h.written.not_mem other lower upper nofun

theorem solid (h : Spelling address t) : Solid t := h.written.solid

theorem ne_nil (h : Spelling address t) : t ≠ [] := by
  cases h with
  | decimal => simp [Radix.write_ne_nil]
  | hexadecimal => exact List.cons_ne_nil _ _

/-- An address is read whatever blanks follow it. -/
theorem read_append (h : Spelling address t) {gap : Text} (blank : Gap gap) :
    read (t ++ gap) = .ok address := by
  rw [read_eq_ok_iff, blank.trim_append_right, h.solid.trim]
  exact ⟨false, h.written⟩

end Spelling
end Address

/-! Lines. -/

namespace Listing

/-- A text that the line of an entry can hold. -/
structure Holds (t : Text) : Prop where
  trimmed : t.trim = t
  comment : '#' ∉ t
  unbroken : '\n' ∉ t

instance (t : Text) : Decidable (Holds t) :=
  decidable_of_iff (t.trim = t ∧ '#' ∉ t ∧ '\n' ∉ t)
    ⟨fun ⟨trimmed, comment, unbroken⟩ => ⟨trimmed, comment, unbroken⟩,
      fun h => ⟨h.trimmed, h.comment, h.unbroken⟩⟩

/-- Blanks that stand on one line. -/
structure Margin (t : Text) : Prop where
  blank : Gap t
  unbroken : '\n' ∉ t

/-- What may end a line: a comment, or nothing. -/
inductive Remark : Text → Prop where
  | none : Remark []
  | comment {words : Text} (unbroken : '\n' ∉ words) : Remark ('#' :: words)

/-- A line on which an entry stands, or none. -/
inductive Line : Option Entry → Text → Prop where
  | blank {gap remark : Text} (around : Margin gap) (last : Remark remark) :
    Line none (gap ++ remark)
  | entry {e : Entry} {front address before after back remark : Text}
    (outer : Margin front ∧ Margin back) (inner : Margin before ∧ Margin after)
    (spelling : Address.Spelling e.address address) (last : Remark remark) :
    Line (some e) (front ++ (address ++ before ++ ':' :: (after ++ e.text ++ back)) ++ remark)

/-- Lines that end with a line feed or a carriage return and a line feed, up to a last one. -/
inductive Lays : List Entry → Text → Prop where
  | last {e : Option Entry} {line : Text} (h : Line e line) : Lays e.toList line
  | next {e : Option Entry} {es : List Entry} {line ending t : Text} (h : Line e line)
    (ends : ending = ['\n'] ∨ ending = ['\r', '\n']) (rest : Lays es t) :
    Lays (e.toList ++ es) (line ++ ending ++ t)

end Listing

theorem Text.trimEnd_append_cons {c : Char} (solid : isBlank c = false) (a b : Text) :
    trimEnd (a ++ c :: b) = a ++ c :: b.trimEnd := by
  have front := trimStart_append_cons solid b.reverse a.reverse
  rw [trimStart, trimStart] at front
  rw [trimEnd, List.reverse_append, List.reverse_cons, List.append_assoc, List.singleton_append,
    front]
  simp [trimEnd]

namespace Listing

theorem upTo_append_remark {body remark : Text} (absent : '#' ∉ body) (last : Remark remark) :
    upTo '#' (body ++ remark) = body := by
  have plain : ∀ c ∈ body, (c != '#') = true := by
    intro c mem
    rw [bne_iff_ne]
    rintro rfl
    exact absent mem
  rw [upTo, List.takeWhile_append_of_pos plain]
  cases last <;> simp

theorem Line.body_eq_nil {line : Text} (h : Line none line) : body line = [] := by
  cases h with
  | blank around last =>
    rw [body, upTo_append_remark (around.blank.not_mem (by decide)) last]
    exact around.blank.trim_eq_nil

/-- The entry is read from its line. -/
theorem Line.pair? {e : Entry} {line : Text} (h : Line (some e) line) (held : Holds e.text) :
    pair? line = some e := by
  cases h with
  | @entry _ front address before after back remark outer inner spelling last =>
    have hash : ∀ {gap}, Gap gap → '#' ∉ gap := fun blank => blank.not_mem (by decide)
    have absent : '#' ∉ front ++ (address ++ before ++ ':' :: (after ++ e.text ++ back)) := by
      simp [hash outer.1.blank, hash outer.2.blank, hash inner.1.blank, hash inner.2.blank,
        held.comment, spelling.not_mem (k := '#') (by decide) (by decide) (by decide)]
    have colon : ':' ∉ address ++ before := by
      simp [spelling.not_mem (k := ':') (by decide) (by decide) (by decide),
        inner.1.blank.not_mem (k := ':') (by decide)]
    have trimmed : body (front ++ (address ++ before ++ ':' :: (after ++ e.text ++ back)) ++ remark) =
        address ++ before ++ ':' :: trimEnd (after ++ e.text ++ back) := by
      rw [body, upTo_append_remark absent last, outer.1.blank.trim_append, List.append_assoc,
        trim_append_of_solid spelling.solid spelling.ne_nil, trimEnd_append_cons (by decide),
        ← List.append_assoc address]
    have text : trim (trimEnd (after ++ e.text ++ back)) = e.text := by
      rw [trim_trimEnd, outer.2.blank.trim_append_right, inner.2.blank.trim_append, held.trimmed]
    rw [Listing.pair?, trimmed, cut?_append_cons colon]
    dsimp only
    rw [spelling.read_append inner.1.blank, text]

theorem Line.break_not_mem {e : Option Entry} {line : Text} (h : Line e line)
    (held : ∀ x ∈ e, Holds x.text) : '\n' ∉ line := by
  have unbroken : ∀ {remark}, Remark remark → '\n' ∉ remark := by
    rintro _ (_ | words)
    · exact List.not_mem_nil
    · simp [words]
  cases h with
  | blank around last => simp [around.unbroken, unbroken last]
  | entry outer inner spelling last =>
    simp [outer.1.unbroken, outer.2.unbroken, inner.1.unbroken, inner.2.unbroken,
      spelling.not_mem (k := '\n') (by decide) (by decide) (by decide), unbroken last,
      (held _ rfl).unbroken]

/-- A carriage return at the end of a line is a blank or part of the comment. -/
theorem Line.concat_return {e : Option Entry} {line : Text} (h : Line e line) :
    Line e (line ++ ['\r']) := by
  have wider : ∀ {gap}, Margin gap → Margin (gap ++ ['\r']) := by
    intro gap margin
    refine ⟨gap_append.mpr ⟨margin.blank, by decide⟩, ?_⟩
    simp [margin.unbroken]
  have longer : ∀ {words : Text}, '\n' ∉ words → Remark ('#' :: (words ++ ['\r'])) := by
    intro words unbroken
    exact .comment (by simp [unbroken])
  cases h with
  | @blank gap remark around last =>
    cases last with
    | none =>
      have line := Line.blank (wider around) .none
      simpa using line
    | comment unbroken =>
      have line := Line.blank around (longer unbroken)
      simpa using line
  | @entry e front address before after back remark outer inner spelling last =>
    cases last with
    | none =>
      have line := Line.entry ⟨outer.1, wider outer.2⟩ inner spelling .none
      simpa using line
    | comment unbroken =>
      have line := Line.entry outer inner spelling (longer unbroken)
      simpa using line

/-- A line adds its entry, if it has one, under an address that is not taken. -/
theorem Line.readLine {number : Nat} {p : Program} {e : Option Entry} {line : Text}
    (h : Line e line) (held : ∀ x ∈ e, Holds x.text) (free : ∀ x ∈ e, p.lookup x.address = none) :
    readLine number p line = .ok (e.toList.foldl Program.insert p) := by
  rw [readLine_eq_ok_iff]
  cases e with
  | none => exact .inl ⟨h.body_eq_nil, rfl⟩
  | some x => exact .inr ⟨x, h.pair? (held x rfl), free x rfl, rfl⟩

/-- The lines are read one by one: what is read so far has none of the addresses to come. -/
theorem readLines_of_lays {number : Nat} {p : Program} {es : List Entry} {t : Text}
    (h : Lays es t) (held : ∀ e ∈ es, Holds e.text) (nodup : (es.map Entry.address).Nodup)
    (free : ∀ e ∈ es, p.lookup e.address = none) :
    readLines number p (t.pieces '\n') = .ok (es.foldl Program.insert p) := by
  induction h generalizing number p with
  | @last e line h =>
    rw [pieces_of_not_mem (h.break_not_mem (by simpa using held)), readLines,
      h.readLine (by simpa using held) (by simpa using free)]
    rfl
  | @next e es line ending t h ends rest ih =>
    obtain ⟨piece, written, cut⟩ : ∃ piece, Line e piece ∧ line ++ ending ++ t = piece ++ '\n' :: t := by
      rcases ends with rfl | rfl
      · exact ⟨line, h, by simp⟩
      · exact ⟨line ++ ['\r'], h.concat_return, by simp⟩
    rw [List.map_append, List.nodup_append] at nodup
    obtain ⟨here, later⟩ := List.forall_mem_append.mp held
    obtain ⟨freeHere, freeLater⟩ := List.forall_mem_append.mp free
    have stillFree : ∀ x ∈ es, (e.toList.foldl Program.insert p).lookup x.address = none := by
      intro x mem
      cases e with
      | none => exact freeLater x mem
      | some first =>
        have apart : first.address ≠ x.address :=
          nodup.2.2 first.address (by simp) x.address (List.mem_map_of_mem mem)
        show (p.insert first).lookup x.address = none
        rw [Program.lookup_insert, if_neg apart]
        exact freeLater x mem
    rw [cut, pieces_append_cons (written.break_not_mem (by simpa using here)), readLines,
      written.readLine (by simpa using here) (by simpa using freeHere), List.foldl_append]
    exact ih later nodup.2.1 stillFree

theorem read_of_lays {p : Program} {es : List Entry} {t : Text} (perm : es.Perm p.entries)
    (h : Lays es t) (held : ∀ e ∈ p.entries, Holds e.text) : read t = .ok p := by
  have same : es.foldl Program.insert Program.empty = p := Program.ofEntries_of_perm perm
  rw [read, readLines_of_lays h (fun e mem => held e (perm.mem_iff.mp mem))
    (Program.nodup_addresses_of_perm perm) fun e _ => Program.lookup_empty e.address, same]

/-- Any entries can be written. -/
theorem exists_lays (es : List Entry) : ∃ t, Lays es t := by
  have empty : Margin [] := ⟨by decide, List.not_mem_nil⟩
  induction es with
  | nil => exact ⟨_, .last (.blank empty .none)⟩
  | cons e es ih =>
    obtain ⟨t, rest⟩ := ih
    exact ⟨_, .next (.entry ⟨empty, empty⟩ ⟨empty, empty⟩ (.decimal 0) .none) (.inl rfl) rest⟩

/-- A pair is read from its line without the comment. -/
theorem pair?_upTo (line : Text) : pair? (line.upTo '#') = pair? line := by
  have same : body (line.upTo '#') = body line := by
    rw [body, upTo, upTo, List.takeWhile_idem, body, upTo]
  rw [pair?, same, pair?]

theorem trim_of_pair? {line : Text} {e : Entry} (h : pair? line = some e) : e.text.trim = e.text := by
  unfold pair? at h
  split at h
  · cases h
  · split at h
    · cases h
      exact trim_trim _
    · cases h

theorem holds_of_read {t : Text} {p : Program} (h : read t = .ok p) :
    ∀ e ∈ p.entries, Holds e.text := by
  obtain ⟨rfl, -⟩ := read_pairs h
  intro e mem
  obtain ⟨line, piece, pair⟩ := List.mem_filterMap.mp (Program.mem_ofEntries_iff.mp mem).mem
  refine ⟨trim_of_pair? pair, ?_, not_mem_of_pair? pair (not_mem_of_mem_pieces piece)⟩
  rw [← pair?_upTo] at pair
  refine not_mem_of_pair? pair fun mem => ?_
  simpa using List.mem_takeWhile_imp mem

end Listing

/-- A program is what some listing is read as if and only if its lines have no blanks around them,
no `#` and no line feed. Then it is what every listing of its entries is read as, and what the file
of its JSON object holds. -/
theorem ProgramFile.load_of_lays (p : Program) :
    ((∃ t, Listing.read t = .ok p) ↔ ∀ e ∈ p.entries, Listing.Holds e.text) ∧
    ((∀ e ∈ p.entries, Listing.Holds e.text) → ∀ es t, es.Perm p.entries → Listing.Lays es t →
      Listing.read t = .ok p ∧
      ∀ name, isJson name = false → load name (some (utf8 t)) = .ok p) ∧
    ∀ style name, isJson name → load name (some (utf8 (p.toJson.write style 0))) = .ok p := by
  refine ⟨⟨?_, ?_⟩, ?_, ?_⟩
  · rintro ⟨t, h⟩
    exact Listing.holds_of_read h
  · intro held
    obtain ⟨t, lays⟩ := Listing.exists_lays p.entries
    exact ⟨t, Listing.read_of_lays (.refl _) lays held⟩
  · intro held es t perm lays
    have whole := Listing.read_of_lays perm lays held
    refine ⟨whole, fun name listing => ?_⟩
    rw [load_utf8, ofText, if_neg (by simp [listing]), whole]
  · intro style name json
    rw [load_utf8, ofText, if_pos json, p.decode_write style]

/-- A listing with both bases, both ends of a line, comments and lines without an entry, the higher
address first. -/
def ProgramFile.mixedListing : Text :=
  "# boot\r\n\t0X00fF : ld [%r9], %r1 # tail\n\r\n007:or %r0, 1, %r9".toList

theorem ProgramFile.load_of_lays_mixed :
    ∃ p es, es.Perm p.entries ∧ es ≠ p.entries ∧ (∀ e ∈ p.entries, Listing.Holds e.text) ∧
      Listing.Lays es mixedListing ∧
      load "boot.s".toList (some (utf8 mixedListing)) = .ok p ∧
      load "boot.json".toList (some (utf8 (p.toJson.write .pretty 0))) = .ok p := by
  have empty : Listing.Margin [] := ⟨by decide, by decide⟩
  have blank : Listing.Margin [' '] := ⟨by decide, by decide⟩
  have tab : Listing.Margin ['\t'] := ⟨by decide, by decide⟩
  have boot : Listing.Line none ([] ++ '#' :: " boot".toList) :=
    .blank empty (.comment (by decide))
  have high : Listing.Line (some ⟨255, "ld [%r9], %r1".toList⟩) (['\t'] ++ ("0X00fF".toList ++ [' '] ++
      ':' :: ([' '] ++ "ld [%r9], %r1".toList ++ [' '])) ++ '#' :: " tail".toList) :=
    .entry ⟨tab, blank⟩ ⟨blank, blank⟩
      (.hexadecimal 2 (.inr rfl) (by decide)) (.comment (by decide))
  have low : Listing.Line (some ⟨7, "or %r0, 1, %r9".toList⟩) ([] ++ ("007".toList ++ [] ++
      ':' :: ([] ++ "or %r0, 1, %r9".toList ++ [])) ++ []) :=
    .entry ⟨empty, empty⟩ ⟨empty, empty⟩ (.decimal 2) .none
  have lays : Listing.Lays [⟨255, "ld [%r9], %r1".toList⟩, ⟨7, "or %r0, 1, %r9".toList⟩]
      mixedListing :=
    .next boot (.inr rfl) (.next high (.inl rfl) (.next (.blank empty .none) (.inr rfl) (.last low)))
  have held : ∀ e ∈ (Program.ofEntries [⟨7, "or %r0, 1, %r9".toList⟩,
      ⟨255, "ld [%r9], %r1".toList⟩]).entries, Listing.Holds e.text := by
    decide
  refine ⟨_, _, ?_, ?_, held, lays, ((load_of_lays _).2.1 held _ _ ?_ lays).2 _ (by decide),
    (load_of_lays _).2.2 .pretty _ (by decide)⟩
  · exact List.Perm.swap _ _ _
  · decide
  · exact List.Perm.swap _ _ _

end SoftCore
