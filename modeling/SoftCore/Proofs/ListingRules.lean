import Mathlib.Data.List.Induction
import SoftCore.Proofs.Gaps
import SoftCore.Proofs.Loading

/-! The rules of a listing. A line that is not blank without its comment gives
an address before its first colon, and no address is given twice. A text whose
lines keep the rules is the program of what they give, in whatever order they
stand; any other text is refused at the first line that breaks a rule. -/

namespace SoftCore

open Text

namespace Text

/-- A line without the carriage return before its line feed. -/
def withoutReturn (line : Text) : Text := if line.getLast? = some '\r' then line.dropLast else line

/-- The lines of a text from what stands between its line feeds. Where nothing follows the last
line feed, there is no further line. -/
def linesOf : List Text → List Text
  | [] => []
  | [last] => if last.isEmpty then [] else [last]
  | line :: next :: rest => withoutReturn line :: linesOf (next :: rest)

/-- The lines of a text, each ended by a line feed or a carriage return and a line feed. -/
def lines (t : Text) : List Text := linesOf (t.pieces '\n')

end Text

/-- The number of the line that is refused. -/
def ListingFault.line : ListingFault → Nat
  | missingColon line | badAddress line .. | repeated line _ => line

/-- The message starts with the number of the line. -/
theorem ListingFault.exists_chain (fault : ListingFault) :
    ∃ complaint causes, fault.chain = onLine fault.line complaint :: causes := by
  cases fault <;> exact ⟨_, _, rfl⟩

namespace Listing

/-! What a line gives. -/

/-- The line gives an address before its first colon, and after it the text for that address. -/
def Gives (line : Text) (e : Entry) : Prop :=
  ∃ front back, body line = front ++ ':' :: back ∧ ':' ∉ front ∧
    Address.read front = .ok e.address ∧ e.text = Text.trim back

theorem gives_iff {line : Text} {e : Entry} : Gives line e ↔ pair? line = some e := by
  obtain ⟨address, text⟩ := e
  constructor
  · rintro ⟨front, back, whole, first, read, rfl⟩
    dsimp only at read
    rw [pair?, whole, cut?_append_cons first]
    dsimp only
    rw [read]
  · intro h
    unfold pair? at h
    split at h
    · cases h
    · rename_i front back cut
      obtain ⟨whole, first⟩ := cut?_eq_some_iff.mp cut
      split at h
      · rename_i read
        cases h
        exact ⟨front, back, whole, first, read, rfl⟩
      · cases h

theorem Gives.unique {line : Text} {e f : Entry} (he : Gives line e) (hf : Gives line f) : e = f :=
  Option.some.inj ((gives_iff.mp he).symm.trans (gives_iff.mp hf))

theorem Gives.body_ne_nil {line : Text} {e : Entry} (h : Gives line e) : body line ≠ [] := by
  obtain ⟨front, back, whole, -⟩ := h
  simp [whole]

/-- What the lines give, one insertion after the other. -/
def made (lines : List Text) : Program := Program.ofEntries (lines.filterMap pair?)

theorem made_concat (before : List Text) (line : Text) :
    made (before ++ [line]) = (pair? line).toList.foldl Program.insert (made before) := by
  rw [made, made, Program.ofEntries, Program.ofEntries, List.filterMap_append, List.foldl_append]
  cases given : pair? line <;> simp [given]

theorem made_concat_of_gives {before : List Text} {line : Text} {e : Entry} (h : Gives line e) :
    made (before ++ [line]) = (made before).insert e := by
  rw [made_concat, gives_iff.mp h]
  rfl

theorem made_concat_of_blank {before : List Text} {line : Text} (h : body line = []) :
    made (before ++ [line]) = made before := by
  have nothing : pair? line = none := by
    rw [pair?, h]
    rfl
  rw [made_concat, nothing]
  rfl

theorem mem_filterMap_pair? {lines : List Text} {e : Entry} :
    e ∈ lines.filterMap pair? ↔ ∃ line ∈ lines, Gives line e := by
  simp only [List.mem_filterMap, gives_iff]

theorem taken_iff {lines : List Text} {address : UInt32} :
    ((made lines).lookup address).isSome ↔ ∃ line ∈ lines, ∃ e, Gives line e ∧ e.address = address := by
  rw [Option.isSome_iff_exists]
  constructor
  · rintro ⟨text, here⟩
    have last := Program.mem_ofEntries_iff.mp (Program.lookup_eq_some_iff.mp here)
    obtain ⟨line, mem, gives⟩ := mem_filterMap_pair?.mp last.mem
    exact ⟨line, mem, _, gives, rfl⟩
  · rintro ⟨line, mem, e, gives, rfl⟩
    obtain ⟨last, isLast, same⟩ := Program.exists_lastOf (mem_filterMap_pair?.mpr ⟨line, mem, gives⟩)
    exact ⟨last.text, Program.lookup_eq_some_iff.mpr (same ▸ Program.mem_ofEntries_iff.mpr isLast)⟩

/-! The rules, and the ways to break them. -/

/-- Each line that is not blank gives an address, and no two give the same. -/
structure Keeps (lines : List Text) : Prop where
  each : ∀ line ∈ lines, body line ≠ [] → ∃ e, Gives line e
  apart : lines.Pairwise fun line later =>
    ∀ e f, Gives line e → Gives later f → e.address ≠ f.address

theorem keeps_nil : Keeps [] := ⟨by simp, .nil⟩

/-- What a line that breaks a rule is refused for, with its number among the lines before it: it
has no colon, or no address before the colon, or an address that a line before it gives. -/
inductive Blames (before : List Text) (line : Text) : ListingFault → Prop where
  | missingColon (filled : body line ≠ []) (absent : ':' ∉ body line) :
    Blames before line (.missingColon (before.length + 1))
  | badAddress {front back : Text} {flaw : NumberFlaw} (whole : body line = front ++ ':' :: back)
    (first : ':' ∉ front) (read : Address.read front = .error flaw) :
    Blames before line (.badAddress (before.length + 1) front.trim flaw)
  | repeated {e f : Entry} {earlier : Text} (gives : Gives line e) (mem : earlier ∈ before)
    (given : Gives earlier f) (same : f.address = e.address) :
    Blames before line (.repeated (before.length + 1) e.address)

theorem Blames.line_eq {before : List Text} {line : Text} {fault : ListingFault}
    (h : Blames before line fault) : fault.line = before.length + 1 := by
  cases h <;> rfl

/-- The line gives an address that no line before it gives, unless it is blank. -/
def Fits (before : List Text) (line : Text) : Prop :=
  body line ≠ [] → ∃ e, Gives line e ∧ ∀ earlier ∈ before, ∀ f, Gives earlier f → f.address ≠ e.address

theorem fits_or_blames (before : List Text) (line : Text) :
    Fits before line ∨ ∃ fault, Blames before line fault := by
  by_cases colon : ':' ∈ body line
  · obtain ⟨front, back, whole, first⟩ := List.eq_append_cons_of_mem colon
    cases read : Address.read front with
    | error flaw => exact .inr ⟨_, .badAddress whole first read⟩
    | ok address =>
      have gives : Gives line ⟨address, Text.trim back⟩ := ⟨front, back, whole, first, read, rfl⟩
      by_cases given : ∃ earlier ∈ before, ∃ f, Gives earlier f ∧ f.address = address
      · obtain ⟨earlier, mem, f, earlierGives, same⟩ := given
        exact .inr ⟨_, .repeated gives mem earlierGives same⟩
      · refine .inl fun _ => ⟨_, gives, fun earlier mem f earlierGives same => given ?_⟩
        exact ⟨earlier, mem, f, earlierGives, same⟩
  · by_cases blank : body line = []
    · exact .inl fun filled => absurd blank filled
    · exact .inr ⟨_, .missingColon blank colon⟩

theorem keeps_concat_iff {before : List Text} {line : Text} :
    Keeps (before ++ [line]) ↔ Keeps before ∧ Fits before line := by
  constructor
  · rintro ⟨each, apart⟩
    rw [List.pairwise_append] at apart
    refine ⟨⟨fun x mem => each x (by simp [mem]), apart.1⟩, fun filled => ?_⟩
    obtain ⟨e, gives⟩ := each line (by simp) filled
    exact ⟨e, gives, fun earlier mem f given => apart.2.2 earlier mem line (by simp) f e given gives⟩
  · rintro ⟨kept, fits⟩
    constructor
    · intro x mem filled
      rcases List.mem_append.mp mem with mem | mem
      · exact kept.each x mem filled
      · obtain rfl := List.mem_singleton.mp mem
        obtain ⟨e, gives, -⟩ := fits filled
        exact ⟨e, gives⟩
    · refine List.pairwise_append.mpr ⟨kept.apart, List.pairwise_singleton _ _, ?_⟩
      intro x mem y last e f hx hy
      obtain rfl := List.mem_singleton.mp last
      obtain ⟨g, gives, fresh⟩ := fits hy.body_ne_nil
      rw [hy.unique gives]
      exact fresh x mem e hx

theorem Keeps.left {xs ys : List Text} (h : Keeps (xs ++ ys)) : Keeps xs where
  each line mem := h.each line (List.mem_append_left ys mem)
  apart := (List.pairwise_append.mp h.apart).1

/-! Reading. One line is added or refused by the rules, and so are the lines up to a first one
that breaks them. -/

theorem Blames.readLine {before : List Text} {line : Text} {fault : ListingFault}
    (h : Blames before line fault) :
    readLine (before.length + 1) (made before) line = .error fault := by
  have trimmed : Text.trim (line.upTo '#') = body line := rfl
  cases h with
  | missingColon filled absent => simp [Listing.readLine, trimmed, filled, cut?_eq_none_iff.mpr absent]
  | badAddress whole first read => simp [Listing.readLine, trimmed, whole, cut?_append_cons first, read]
  | repeated gives mem given same =>
    have taken := taken_iff.mpr ⟨_, mem, _, given, same⟩
    obtain ⟨front, back, whole, first, read, -⟩ := gives
    simp [Listing.readLine, trimmed, whole, cut?_append_cons first, read, taken]

theorem Fits.readLine {before : List Text} {line : Text} (h : Fits before line) (number : Nat) :
    readLine number (made before) line = .ok (made (before ++ [line])) := by
  rw [readLine_eq_ok_iff]
  by_cases blank : body line = []
  · exact .inl ⟨blank, made_concat_of_blank blank⟩
  · obtain ⟨e, gives, fresh⟩ := h blank
    refine .inr ⟨e, gives_iff.mp gives, ?_, made_concat_of_gives gives⟩
    rw [← Option.not_isSome_iff_eq_none, taken_iff]
    rintro ⟨earlier, mem, f, given, same⟩
    exact fresh earlier mem f given same

theorem Blames.not_fits {before : List Text} {line : Text} {fault : ListingFault}
    (h : Blames before line fault) : ¬Fits before line := by
  intro fits
  have refused := h.readLine
  rw [fits.readLine] at refused
  cases refused

/-- Lines that keep the rules are read, and what follows them is read after what they give. -/
theorem readLines_of_keeps {before : List Text} (h : Keeps before) (rest : List Text) :
    readLines 1 Program.empty (before ++ rest) = readLines (before.length + 1) (made before) rest := by
  induction before using List.reverseRecOn generalizing rest with
  | nil => rfl
  | append_singleton before line ih =>
    obtain ⟨kept, fits⟩ := keeps_concat_iff.mp h
    rw [List.append_assoc, List.singleton_append, ih kept, readLines, fits.readLine,
      List.length_append, List.length_singleton]

/-- Lines that do not keep the rules have a first one that breaks them. -/
theorem keeps_or_blames (lines : List Text) :
    Keeps lines ∨ ∃ before line after fault,
      lines = before ++ line :: after ∧ Keeps before ∧ Blames before line fault := by
  induction lines using List.reverseRecOn with
  | nil => exact .inl keeps_nil
  | append_singleton lines last ih =>
    rcases ih with kept | ⟨before, line, after, fault, rfl, kept, blames⟩
    · rcases fits_or_blames lines last with fits | ⟨fault, blames⟩
      · exact .inl (keeps_concat_iff.mpr ⟨kept, fits⟩)
      · exact .inr ⟨lines, last, [], fault, rfl, kept, blames⟩
    · exact .inr ⟨before, line, after ++ [last], fault, by simp, kept, blames⟩

/-! Line ends. -/

theorem body_withoutReturn (line : Text) : body (withoutReturn line) = body line := by
  unfold withoutReturn
  split
  · rename_i last
    obtain ⟨front, rfl⟩ := List.getLast?_eq_some_iff.mp last
    rw [List.dropLast_concat, body, body, upTo, upTo, List.takeWhile_append]
    split
    · have blank : Gap ['\r'] := by decide
      rename_i whole
      have all := (List.takeWhile_prefix (· != '#')).eq_of_length whole
      rw [all]
      exact (blank.trim_append_right front).symm
    · rfl
  · rfl

theorem readLine_congr {x y : Text} (h : body x = body y) (number : Nat) (p : Program) :
    readLine number p x = readLine number p y := by
  have same : Text.trim (x.upTo '#') = Text.trim (y.upTo '#') := h
  rw [readLine, readLine, same]

theorem readLines_linesOf (number : Nat) (p : Program) (pieces : List Text) :
    readLines number p (linesOf pieces) = readLines number p pieces := by
  induction pieces generalizing number p with
  | nil => rfl
  | cons line rest ih =>
    cases rest with
    | nil =>
      rw [linesOf]
      split
      · rename_i empty
        obtain rfl := List.isEmpty_iff.mp empty
        rfl
      · rfl
    | cons next rest =>
      rw [linesOf, readLines, readLines, readLine_congr (body_withoutReturn line)]
      split
      · rfl
      · exact ih ..

theorem read_eq_readLines (t : Text) : read t = readLines 1 Program.empty t.lines :=
  (readLines_linesOf 1 Program.empty (t.pieces '\n')).symm

/-! What the lines that keep the rules amount to. -/

namespace Keeps

variable {lines : List Text}

theorem nodup (h : Keeps lines) : ((lines.filterMap pair?).map Entry.address).Nodup := by
  rw [List.Nodup, List.pairwise_map, List.pairwise_filterMap]
  exact h.apart.imp fun apart e given f later =>
    apart e f (gives_iff.mpr given) (gives_iff.mpr later)

theorem lookup_made_iff (h : Keeps lines) {address : UInt32} {text : Text} :
    (made lines).lookup address = some text ↔ ∃ line ∈ lines, Gives line ⟨address, text⟩ := by
  rw [Program.lookup_eq_some_iff, ← mem_filterMap_pair?]
  exact ⟨fun mem => (Program.mem_ofEntries_iff.mp mem).mem, Program.mem_ofEntries_of_nodup h.nodup⟩

theorem isSome_pair? (h : Keeps lines) {line : Text} (mem : line ∈ lines) :
    (pair? line).isSome ↔ body line ≠ [] := by
  rw [Option.isSome_iff_exists]
  constructor
  · rintro ⟨e, given⟩
    exact (gives_iff.mpr given).body_ne_nil
  · intro filled
    obtain ⟨e, gives⟩ := h.each line mem filled
    exact ⟨e, gives_iff.mp gives⟩

theorem size_made (h : Keeps lines) :
    (made lines).size = (lines.filter fun line => body line ≠ []).length :=
  calc (made lines).size
    _ = (lines.filterMap pair?).length := Program.size_ofEntries_eq_iff.mpr h.nodup
    _ = lines.countP fun line => (pair? line).isSome := List.length_filterMap_eq_countP
    _ = lines.countP fun line => body line ≠ [] :=
      List.countP_congr fun line mem => by simpa using h.isSome_pair? mem
    _ = _ := List.countP_eq_length_filter

theorem perm {others : List Text} (h : Keeps lines) (order : others.Perm lines) : Keeps others where
  each line mem := h.each line (order.mem_iff.mp mem)
  apart := by
    refine (order.pairwise_iff ?_).mpr h.apart
    intro x y apart e f hx hy same
    exact apart f e hy hx same.symm

theorem made_perm {others : List Text} (h : Keeps lines) (order : others.Perm lines) :
    made others = made lines := by
  refine Program.ext_lookup fun address => Option.ext fun text => ?_
  rw [(h.perm order).lookup_made_iff, h.lookup_made_iff]
  simp only [order.mem_iff]

end Keeps

theorem read_of_keeps {t : Text} (h : Keeps t.lines) : read t = .ok (made t.lines) := by
  have whole := readLines_of_keeps h []
  rw [List.append_nil] at whole
  rw [read_eq_readLines, whole]
  rfl

theorem read_of_blames {t : Text} {before after : List Text} {line : Text} {fault : ListingFault}
    (split : t.lines = before ++ line :: after) (kept : Keeps before)
    (h : Blames before line fault) : read t = .error fault := by
  rw [read_eq_readLines, split, readLines_of_keeps kept, readLines, h.readLine]

theorem read_eq_ok_iff {t : Text} {p : Program} :
    read t = .ok p ↔ Keeps t.lines ∧ p = made t.lines := by
  constructor
  · intro h
    rcases keeps_or_blames t.lines with kept | ⟨before, line, after, fault, split, kept, blames⟩
    · rw [read_of_keeps kept] at h
      cases h
      exact ⟨kept, rfl⟩
    · rw [read_of_blames split kept blames] at h
      cases h
  · rintro ⟨kept, rfl⟩
    exact read_of_keeps kept

theorem read_eq_error_iff {t : Text} {fault : ListingFault} :
    read t = .error fault ↔ ∃ before line after,
      t.lines = before ++ line :: after ∧ Keeps before ∧ Blames before line fault := by
  constructor
  · intro h
    rcases keeps_or_blames t.lines with kept | ⟨before, line, after, found, split, kept, blames⟩
    · rw [read_of_keeps kept] at h
      cases h
    · rw [read_of_blames split kept blames] at h
      cases h
      exact ⟨before, line, after, split, kept, blames⟩
  · rintro ⟨before, line, after, split, kept, blames⟩
    exact read_of_blames split kept blames

/-- The lines down to the one that is refused are the shortest start of the text that breaks a
rule. -/
theorem Blames.shortest {lines before after : List Text} {line : Text} {fault : ListingFault}
    (split : lines = before ++ line :: after) (kept : Keeps before) (h : Blames before line fault) :
    ¬Keeps (lines.take fault.line) ∧ ∀ count < fault.line, Keeps (lines.take count) := by
  subst split
  rw [h.line_eq]
  constructor
  · have taken : (before ++ line :: after).take (before.length + 1) = before ++ [line] := by
      simp [List.take_append, List.take_of_length_le]
    rw [taken]
    exact fun keeps => h.not_fits (keeps_concat_iff.mp keeps).2
  · intro count less
    rw [List.take_append_of_le_length (by omega)]
    rw [← List.take_append_drop count before] at kept
    exact kept.left

/-- A text is read exactly when its lines keep the rules. It then has at each address what its
line gives, one entry for each line that is not blank, and the same program comes of these lines
in any order. Otherwise the first line that breaks a rule is refused, for the first rule that it
breaks, and the message starts with its number. -/
theorem read_iff_keeps (t : Text) :
    ((∃ p, read t = .ok p) ↔ Keeps t.lines) ∧
      (∀ p, read t = .ok p →
        (∀ address text, p.lookup address = some text ↔ ∃ line ∈ t.lines, Gives line ⟨address, text⟩) ∧
        p.size = (t.lines.filter fun line => body line ≠ []).length ∧
        ∀ u : Text, u.lines.Perm t.lines → read u = .ok p) ∧
      (∀ fault, read t = .error fault ↔ ∃ before line after,
        t.lines = before ++ line :: after ∧ Keeps before ∧ Blames before line fault) ∧
      ∀ fault, read t = .error fault →
        ¬Keeps (t.lines.take fault.line) ∧ (∀ count < fault.line, Keeps (t.lines.take count)) ∧
        ∃ complaint causes, fault.chain = ListingFault.onLine fault.line complaint :: causes := by
  refine ⟨?_, ?_, fun fault => read_eq_error_iff, ?_⟩
  · constructor
    · rintro ⟨p, h⟩
      exact (read_eq_ok_iff.mp h).1
    · exact fun kept => ⟨_, read_of_keeps kept⟩
  · intro p h
    obtain ⟨kept, rfl⟩ := read_eq_ok_iff.mp h
    refine ⟨fun address text => kept.lookup_made_iff, kept.size_made, fun u order => ?_⟩
    rw [read_of_keeps (kept.perm order), kept.made_perm order]
  · intro fault h
    obtain ⟨before, line, after, split, kept, blames⟩ := read_eq_error_iff.mp h
    obtain ⟨breaks, keeps⟩ := blames.shortest split kept
    exact ⟨breaks, keeps, fault.exists_chain⟩

/-- The fourth line gives the address of the second again. -/
def twiceGiven : Text :=
  "# boot\r\n0x4: or %r0, 1, %r9\r\n\r\n4: add %r7, 1, %r7 # loop\nx".toList

theorem read_iff_keeps_repeated : read twiceGiven = .error (.repeated 4 4) ∧
    ¬Keeps (twiceGiven.lines.take 4) ∧ Keeps (twiceGiven.lines.take 3) := by
  have refused : read twiceGiven = .error (.repeated 4 4) := by decide +kernel
  obtain ⟨breaks, keeps, -⟩ := (read_iff_keeps twiceGiven).2.2.2 _ refused
  exact ⟨refused, breaks, keeps 3 (by decide)⟩

end Listing
end SoftCore
