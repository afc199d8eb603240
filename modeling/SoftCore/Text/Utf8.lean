import SoftCore.Text.Blank

/-! Text as bytes in UTF-8. Every text has one form in bytes; bytes that are not
the form of any text are refused, those of surrogates and overlong forms among
them. -/

namespace SoftCore.Text

def utf8 (t : Text) : List UInt8 := t.flatMap String.utf8EncodeChar

def ofUtf8? (bytes : List UInt8) : Option Text :=
  (String.fromUTF8? ⟨bytes.toArray⟩).map String.toList

theorem ofUtf8?_utf8 (t : Text) : ofUtf8? (utf8 t) = some t := by
  have h : (⟨(utf8 t).toArray⟩ : ByteArray) = (String.ofList t).toByteArray := by
    rw [String.toByteArray_ofList]
    apply ByteArray.ext
    simp [List.utf8Encode, utf8, List.data_toByteArray]
  rw [ofUtf8?, h, String.fromUTF8?, dif_pos (String.ofList t).isValidUTF8]
  exact congrArg some String.toList_ofList

end SoftCore.Text
