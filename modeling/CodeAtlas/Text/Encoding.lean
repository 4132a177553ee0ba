import CodeAtlas.Fault
import CodeAtlas.Text.Basic
import CodeAtlas.Text.Half

/-!
# Texts in files

Source files are read byte by byte, each byte as the character of the same number; documents are read
and files are written in UTF-8. In every text that is read, line ends become newlines.
-/

namespace CodeAtlas.Text

def ofLatin1 (bytes : ByteArray) : String :=
  String.ofList (Chars.normalizeNewlines (bytes.toList.map fun b => Char.ofNat b.toNat))

def toLatin1 (s : String) : ByteArray := ⟨(s.toList.map fun c => UInt8.ofNat c.toNat).toArray⟩

def ofUtf8 (bytes : ByteArray) : Except Fault String :=
  match String.fromUTF8? bytes with
  | some s => .ok (String.ofList (Chars.normalizeNewlines s.toList))
  | none => .error .undecodable

/-- The texts up to the first one that has no bytes, joined, and whether that were all. -/
def encodable : List String → String × Except Fault Unit
  | [] => ("", .ok ())
  | s :: rest =>
    if s.toList.any isHalf then ("", .error .unencodable)
    else
      let (text, r) := encodable rest
      (s ++ text, r)

end CodeAtlas.Text
