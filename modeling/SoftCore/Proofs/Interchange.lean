import SoftCore.Interchange.Config
import SoftCore.Interchange.Image
import SoftCore.Interchange.Instruction
import SoftCore.Proofs.Accepted
import SoftCore.Proofs.JsonText
import SoftCore.Proofs.Loading

/-! Data that is written as JSON is read back. A record is written as an object of
its fields under plain names, so each field is found under its name and no other.
The values of the fields are numbers within their bounds, strings, and truth
values, and these are read back as they were. -/

namespace SoftCore

namespace Json

/-- A text in which nothing has to be escaped. -/
def Plain (t : Text) : Prop := escape t = t

instance (t : Text) : Decidable (Plain t) := inferInstanceAs (Decidable (escape t = t))

theorem Plain.rawText {t : Text} (h : Plain t) : RawText t := by
  rw [← show escape t = t from h]
  exact rawText_escape t

theorem Plain.unescape? {t : Text} (h : Plain t) : unescape? t = some t := by
  have written := unescape?_escape t
  rwa [h] at written

theorem plain_ofNat (n : Nat) : Plain (Text.ofNat n) := by
  have single : ∀ c ∈ Text.ofNat n, escapeChar c = [c] := by
    intro c mem
    have digit := Text.isDigit_of_mem_ofNat mem
    have range : 48 ≤ c.toNat ∧ c.toNat ≤ 57 := Text.toNat_of_isDigit digit
    have quote : c ≠ '\"' := by
      rintro rfl
      exact absurd digit (by decide)
    have backslash : c ≠ '\\' := by
      rintro rfl
      exact absurd digit (by decide)
    simp only [escapeChar, quote, backslash, ↓reduceIte]
    repeat' rw [if_neg (by omega)]
  calc escape (Text.ofNat n)
    _ = (Text.ofNat n).flatMap fun c => [c] := List.flatMap_congr single
    _ = Text.ofNat n := List.flatMap_singleton' _

/-! Records. -/

theorem named?_of_plain {members : List (Text × Json)} (h : ∀ m ∈ members, Plain m.1) :
    named? members = some members := by
  induction members with
  | nil => rfl
  | cons m rest ih =>
    obtain ⟨here, later⟩ := List.forall_mem_cons.mp h
    obtain ⟨raw, v⟩ := m
    have head : unescape? raw = some raw := here.unescape?
    have tail := ih later
    rw [named?] at tail
    rw [named?, List.mapM_cons, tail]
    simp [head]

/-- The fields found under their names, after members under other names. -/
theorem mapM_single?_zip {names : List Text} {values : List Json} (front : List (Text × Json))
    (same : names.length = values.length) (nodup : names.Nodup)
    (apart : ∀ m ∈ front, m.1 ∉ names) :
    names.mapM (single? (front ++ names.zip values)) = some (values.map some) := by
  induction names generalizing values front with
  | nil =>
    obtain rfl := List.eq_nil_of_length_eq_zero same.symm
    rfl
  | cons n names ih =>
    cases values with
    | nil => cases same
    | cons v values =>
      obtain ⟨absent, nodup⟩ := List.nodup_cons.mp nodup
      have before : front.filter (·.1 = n) = [] := by
        rw [List.filter_eq_nil_iff]
        intro m mem here
        rw [decide_eq_true_eq] at here
        exact apart m mem (here ▸ List.mem_cons_self)
      have behind : (names.zip values).filter (·.1 = n) = [] := by
        rw [List.filter_eq_nil_iff]
        intro m mem here
        rw [decide_eq_true_eq] at here
        exact absent (here ▸ (List.of_mem_zip mem).1)
      have found : single? (front ++ (n :: names).zip (v :: values)) n = some (some v) := by
        simp [single?, before, behind]
      have rest := ih (front ++ [(n, v)]) (Nat.succ.inj same) nodup (by
        intro m mem
        rcases List.mem_append.mp mem with mem | mem
        · exact fun listed => apart m mem (List.mem_cons_of_mem n listed)
        · obtain rfl := List.mem_singleton.mp mem
          exact absent)
      rw [List.append_assoc, List.singleton_append] at rest
      rw [List.zip_cons_cons] at found ⊢
      rw [List.mapM_cons, found, rest]
      rfl

theorem record?_zip (names : List Text) (values : List Json)
    (same : names.length = values.length) (nodup : names.Nodup) (plain : ∀ n ∈ names, Plain n) :
    record? names (object (names.zip values)) = some (values.map some) := by
  have names' : named? (names.zip values) = some (names.zip values) :=
    named?_of_plain fun m mem => plain m.1 (List.of_mem_zip mem).1
  rw [record?, names']
  exact mapM_single?_zip [] same nodup (by simp)

theorem wellFormed_zip (names : List Text) {values : List Json} (plain : ∀ n ∈ names, Plain n)
    (each : ∀ v ∈ values, WellFormed v) : WellFormed (object (names.zip values)) :=
  .object (fun m mem => (plain m.1 (List.of_mem_zip mem).1).rawText)
    fun m mem => each m.2 (List.of_mem_zip mem).2

end Json

/-! Programs. -/

namespace Program

theorem wellFormed_toJson (p : Program) : Json.WellFormed p.toJson := by
  refine .object (fun m mem => ?_) fun m mem => ?_
  · obtain ⟨e, -, rfl⟩ := List.mem_map.mp mem
    exact (Json.plain_ofNat e.address.toNat).rawText
  · obtain ⟨e, -, rfl⟩ := List.mem_map.mp mem
    exact Json.wellFormed_ofText e.text

theorem entry?_member (e : Entry) : entry? (key e.address, Json.ofText e.text) = some e := by
  rw [ entry?, ofKey?_key, Json.text?_ofText]
  rfl

theorem ofJson?_toJson (p : Program) : ofJson? p.toJson = some p := by
  rw [toJson, ofJson?, mapM_map_of_leftInverse entry?_member, Option.map_some,
    ofEntries_of_perm (.refl p.entries)]

end Program

/-! Images and settings. -/

namespace Image

theorem wellFormed_toJson (image : Image) : Json.WellFormed image.toJson := by
  have bytes : ∀ v ∈ image.bytes.toList.map fun b => Json.ofNat b.toNat, Json.WellFormed v := by
    intro v mem
    obtain ⟨b, -, rfl⟩ := List.mem_map.mp mem
    exact Json.wellFormed_ofNat b.toNat
  exact Json.wellFormed_zip ["mem".toList] (by decide)
    (List.forall_mem_singleton.mpr (.array bytes))

theorem ofJson?_toJson (image : Image) : ofJson? image.toJson = some image := by
  have record : image.toJson.record? ["mem".toList] =
      some [some (.array (image.bytes.toList.map fun b => Json.ofNat b.toNat))] :=
    Json.record?_zip ["mem".toList] [_] rfl (by decide) (by decide)
  have bytes := mapM_map_of_leftInverse byte?_ofNat image.bytes.toList
  rw [ofJson?, record]
  simp [Json.elements?, bytes]

end Image

namespace Config

theorem wellFormed_toJson (c : Config) : Json.WellFormed c.toJson :=
  Json.wellFormed_zip ["image_size".toList] (by decide)
    (List.forall_mem_singleton.mpr (Json.wellFormed_ofNat c.imageSize.toNat))

theorem ofJson?_toJson (c : Config) : ofJson? c.toJson = some c := by
  have record : c.toJson.record? ["image_size".toList] =
      some [some (Json.ofNat c.imageSize.toNat)] :=
    Json.record?_zip ["image_size".toList] [_] rfl (by decide) (by decide)
  rw [ofJson?, record]
  simp [Json.nat?_ofNat c.imageSize.toNat_lt]

end Config

/-! Instructions. -/

namespace Register

theorem ofJson?_toJson (r : Register) : ofJson? r.toJson = some r := by
  rw [ofJson?, toJson, Json.nat?_ofNat r.id.toNat_lt]
  simp

end Register

namespace Instruction

theorem plain_fieldNames (f : Format) : ∀ n ∈ fieldNames f, Json.Plain n := by
  cases f <;> decide

theorem nodup_fieldNames (f : Format) : (fieldNames f).Nodup := by cases f <;> decide

theorem length_fieldNames (i : Instruction) : (fieldNames i.format).length = i.fieldValues.length := by
  cases i <;> rfl

theorem plain_name (f : Format) : Json.Plain f.name := by cases f <;> decide

theorem formatNamed?_name (f : Format) : formatNamed? f.name = some f := by cases f <;> decide

theorem wellFormed_fieldValues (i : Instruction) : ∀ v ∈ i.fieldValues, Json.WellFormed v := by
  have number := Json.wellFormed_ofNat
  cases i <;>
    simp [fieldValues, Register.toJson, number, Json.wellFormed_ofText, Json.WellFormed.boolean]

theorem wellFormed_toJson (i : Instruction) : Json.WellFormed i.toJson :=
  Json.wellFormed_zip [i.format.name] (List.forall_mem_singleton.mpr (plain_name _))
    (List.forall_mem_singleton.mpr
      (Json.wellFormed_zip (fieldNames i.format) (plain_fieldNames i.format)
        i.wellFormed_fieldValues))

theorem ofFields?_fieldValues (i : Instruction) :
    ofFields? i.format (i.fieldValues.map some) = some i := by
  cases i with
  | registerImmediate opcode rd rs flags high constant =>
    simp [format, fieldValues, ofFields?, immediateOf?, Register.ofJson?_toJson, Json.bool?,
      Json.nat?_ofNat opcode.toNat_lt, Json.nat?_ofNat constant.toNat_lt]
  | registerRegister rd rs1 rs2 flags ext cond =>
    simp [format, fieldValues, ofFields?, registerOf?, Register.ofJson?_toJson, Json.bool?,
      Json.nat?_ofNat ext.toNat_lt, Json.nat?_ofNat cond.toNat_lt]
  | registerMemory bits rd rs1 offset =>
    simp [format, fieldValues, ofFields?, memoryOf?, Register.ofJson?_toJson, Json.text?_ofText,
      AccessBits.ofText?_text, Json.nat?_ofNat offset.toNat_lt]

theorem ofJson?_toJson (i : Instruction) : ofJson? i.toJson = some i := by
  have record := Json.record?_zip (fieldNames i.format) i.fieldValues i.length_fieldNames
    (nodup_fieldNames i.format)
    (plain_fieldNames i.format)
  rw [toJson, ofJson?, (plain_name i.format).unescape?, Option.bind_eq_bind, Option.bind_some,
    formatNamed?_name, Option.bind_eq_bind, Option.bind_some, record]
  exact i.ofFields?_fieldValues

end Instruction

/-! Texts. -/

namespace Json

/-- What a decoder makes of a text is what it makes of the value written there. -/
theorem decode_write {α : Type} {v : Json} (h : WellFormed v) (style : Style)
    (decode : Json → Option α) : (read? (v.write style 0)).bind decode = decode v := by
  rw [read?_write h, Option.bind_some]

end Json

theorem Program.decode_write (p : Program) (style : Json.Style) :
    (Json.read? (p.toJson.write style 0)).bind ofJson? = some p :=
  (Json.decode_write p.wellFormed_toJson style ofJson?).trans p.ofJson?_toJson

theorem Instruction.decode_write (i : Instruction) (style : Json.Style) :
    (Json.read? (i.toJson.write style 0)).bind ofJson? = some i :=
  (Json.decode_write i.wellFormed_toJson style ofJson?).trans i.ofJson?_toJson

/-- Whatever is written on one line without blanks is read back. So a line has the word of the
instruction that is read back from the text of its own. -/
theorem Interchange.decode_compact :
    (∀ p : Program, (Json.read? p.toJson.compact).bind Program.ofJson? = some p) ∧
    (∀ image : Image, (Json.read? image.toJson.compact).bind Image.ofJson? = some image) ∧
    (∀ c : Config, (Json.read? c.toJson.compact).bind Config.ofJson? = some c) ∧
    (∀ i : Instruction, (Json.read? i.toJson.compact).bind Instruction.ofJson? = some i) ∧
    ∀ text word, Assembly.lineWord text = .ok word →
      ∃ line i reread, SourceLine.read text = .ok line ∧ Instruction.ofLine line = .ok i ∧
        (Json.read? i.toJson.compact).bind Instruction.ofJson? = some reread ∧
        reread.toWord = .ok word := by
  refine ⟨fun p => p.decode_write .compact,
    fun image => (Json.decode_write image.wellFormed_toJson .compact _).trans image.ofJson?_toJson,
    fun c => (Json.decode_write c.wellFormed_toJson .compact _).trans c.ofJson?_toJson,
    fun i => i.decode_write .compact, fun text word accepted => ?_⟩
  obtain ⟨line, i, read, lowered, packed⟩ := Assembly.lineWord_eq_ok_iff.mp accepted
  exact ⟨line, i, i, read, lowered, i.decode_write .compact, packed⟩

example : (Instruction.registerMemory ⟨true, true, false⟩ ⟨7⟩ ⟨4⟩ 8).toJson.compact =
    "\x7b\"Rm\":\x7b\"bits\":\"STORE | P\",\"rd\":7,\"rs1\":4,\"offset\":8\x7d\x7d".toList := by
  decide

end SoftCore
