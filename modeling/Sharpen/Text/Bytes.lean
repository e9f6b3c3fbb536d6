import Sharpen.Text.Utf8

/-!
# Bytes of a text file

A file is read as UTF-8 when its bytes are UTF-8, and as one character per byte otherwise, so
reading never fails. A byte-order mark is no part of the text.

One character per byte is the reading that always works, and no byte is lost in it. It is taken only
if the bytes are not UTF-8 as a whole.

## Main definitions

* `Text.ofBytes` reads a file's bytes.
* `Text.ofLatin1` is one character per byte.
-/

namespace Sharpen

/-- The bytes without a UTF-8 byte-order mark. -/
def Bytes.dropMark : Bytes → Bytes
  | 0xEF :: 0xBB :: 0xBF :: r => r
  | bytes => bytes

namespace Text

/-- One character per byte. -/
def ofLatin1 (bytes : Bytes) : Text :=
  bytes.map fun b => Char.ofNat b.toNat

/-- The text of a file, with its line endings in one form. -/
def ofBytes (bytes : Bytes) : Text :=
  normalizeNewlines <|
    match ofUtf8 bytes.dropMark with
    | .ok t => t
    | .error _ => ofLatin1 bytes

end Text

end Sharpen
