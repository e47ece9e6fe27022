import MicroAsm.Text.Basic
/-!
Texts as UTF-8 bytes; only well-formed bytes read back as text.
-/
namespace MicroAsm

abbrev Bytes := List UInt8

namespace Text

def toUtf8 (s : Text) : Bytes := s.flatMap String.utf8EncodeChar

def ofUtf8? (bytes : Bytes) : Option Text := bytes.toByteArray.utf8Decode?.map Array.toList

@[simp] theorem ofUtf8?_toUtf8 (s : Text) : ofUtf8? (toUtf8 s) = some s := by
  change (List.utf8Encode s).utf8Decode?.map Array.toList = some s
  simp [List.utf8Decode?_utf8Encode]

end Text
end MicroAsm
