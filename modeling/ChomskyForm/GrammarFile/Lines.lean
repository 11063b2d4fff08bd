/-!
# The lines of a file

A line ends with a line feed, or with a carriage return and a line feed.  Text after the last of
them is a line as well.  Each line is decoded by itself, so one that is not UTF-8 does not spoil the
others.  Decoding undoes encoding (`decodeLine_encodeText`).
-/

namespace ChomskyForm.GrammarFile

def encodeText (text : List Char) : List UInt8 := text.flatMap String.utf8EncodeChar

/-- Splits bytes into lines and leaves out the line ends. -/
def splitLines : List UInt8 → List (List UInt8)
  | [] => []
  | 0x0D :: 0x0A :: rest => [] :: splitLines rest
  | 0x0A :: rest => [] :: splitLines rest
  | b :: rest =>
    match splitLines rest with
    | [] => [[b]]
    | line :: lines => (b :: line) :: lines

/-- The text of a line, if it is UTF-8. -/
def decodeLine (bytes : List UInt8) : Option (List Char) :=
  (String.fromUTF8? ⟨bytes.toArray⟩).map String.toList

theorem decodeLine_encodeText (text : List Char) : decodeLine (encodeText text) = some text := by
  have bytes : (⟨(encodeText text).toArray⟩ : ByteArray) = (String.ofList text).toByteArray := by
    rw [String.toByteArray_ofList, List.utf8Encode]
    apply ByteArray.ext
    rw [List.data_toByteArray]
    rfl
  have valid : (⟨(encodeText text).toArray⟩ : ByteArray).IsValidUTF8 :=
    bytes ▸ (String.ofList text).isValidUTF8
  have same : String.fromUTF8 ⟨(encodeText text).toArray⟩ valid = String.ofList text :=
    String.toByteArray_inj.mp bytes
  rw [decodeLine, String.fromUTF8?, dif_pos valid, same, Option.map_some, String.toList_ofList]

/-- The lines of a file, with `none` for those that are not UTF-8. -/
def linesOfBytes (bytes : List UInt8) : List (Option (List Char)) :=
  (splitLines bytes).map decodeLine

end ChomskyForm.GrammarFile
