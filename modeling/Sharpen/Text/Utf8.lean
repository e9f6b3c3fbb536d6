import Sharpen.Text.Basic

/-!
# UTF-8

A character is one to four bytes. Its first byte says how many follow, and in which range the first
of those lies, which rules out longer forms than needed, surrogates and what is past the last code
point.

Reading gives either all characters or the first fault, with the position and the reason. The faults
are those that a decoder reports: a byte that starts no character, a byte that goes on with none,
and an end in the middle of a character.

## Main definitions

* `Text.ofUtf8` reads bytes; `Utf8Fault` says where and why bytes are not UTF-8.
* `Text.toBytes` writes a text.
* `Bytes` is the bytes of a file.
* `Utf8Reason` says why bytes are not UTF-8.
* `Utf8Fault.message` is the message of a fault.
* `Utf8Lead` is what the first byte of a character says: its share of the code point, how many bytes
  follow, and the range of the first of those.
-/

namespace Sharpen

/-- The bytes of a file. -/
abbrev Bytes := List UInt8

/-! ### Faults -/

/-- Why bytes are not UTF-8. -/
inductive Utf8Reason where
  /-- No character starts with the byte. -/
  | badStart
  /-- A character that has been started does not go on. -/
  | badContinuation
  /-- The bytes end inside a character. -/
  | incomplete
deriving DecidableEq, Repr

/-- The wording of a reason. -/
def Utf8Reason.message : Utf8Reason → Text
  | badStart => "invalid start byte"
  | badContinuation => "invalid continuation byte"
  | incomplete => "unexpected end of data"

/-- The first bytes that are not UTF-8: where they start, and as many of them as belong to the
character that was started. -/
structure Utf8Fault where
  position : Nat
  first : UInt8
  length : Nat
  reason : Utf8Reason
deriving DecidableEq, Repr

/-- Two hexadecimal digits. -/
def hexByte (b : UInt8) : Text :=
  let digit (n : Nat) : Char := Nat.digitChar n
  [digit (b.toNat / 16), digit (b.toNat % 16)]

/-- The message of a fault. -/
def Utf8Fault.message (f : Utf8Fault) : Text :=
  let place : Text :=
    if f.length == 1 then
      ("byte 0x" : Text) ++ hexByte f.first ++ " in position " ++ Text.ofNat f.position
    else
      ("bytes in position " : Text) ++ Text.ofNat f.position ++ "-"
        ++ Text.ofNat (f.position + f.length - 1)
  ("'utf-8' codec can't decode " : Text) ++ place ++ ": " ++ f.reason.message

/-! ### Reading -/

/-- What the first byte of a character says: its share of the code point, how many bytes follow, and
the range of the first of those. -/
structure Utf8Lead where
  share : Nat
  more : Nat
  low : UInt8 := 0x80
  high : UInt8 := 0xBF
deriving DecidableEq, Repr

/-- What a byte says as the first one of a character. -/
def Utf8Lead.of? (b : UInt8) : Option Utf8Lead :=
  if b < 0x80 then some { share := b.toNat, more := 0 }
  else if b < 0xC2 then none
  else if b < 0xE0 then some { share := b.toNat - 0xC0, more := 1 }
  else if b == 0xE0 then some { share := 0, more := 2, low := 0xA0 }
  else if b == 0xED then some { share := 0xD, more := 2, high := 0x9F }
  else if b < 0xF0 then some { share := b.toNat - 0xE0, more := 2 }
  else if b == 0xF0 then some { share := 0, more := 3, low := 0x90 }
  else if b < 0xF4 then some { share := b.toNat - 0xF0, more := 3 }
  else if b == 0xF4 then some { share := 4, more := 3, high := 0x8F }
  else none

/-- The code point whose last `more` bytes follow; the first of them lies between `low` and `high`.
On failure, the reason and how many of the bytes are in order. -/
def codePoint (share : Nat) (low high : UInt8) :
    (more : Nat) → Bytes → Except (Utf8Reason × Nat) Nat
  | 0, _ => .ok share
  | _ + 1, [] => .error (.incomplete, 0)
  | more + 1, b :: r =>
    if low ≤ b && b ≤ high then
      (codePoint (share * 64 + (b.toNat - 0x80)) 0x80 0xBF more r).mapError fun e => (e.1, e.2 + 1)
    else .error (.badContinuation, 0)

/-- The character at the start of bytes that start with `b`, and how many bytes follow `b` in it. On
failure, the reason and how many bytes it is about. -/
def utf8Char (b : UInt8) (r : Bytes) : Except (Utf8Reason × Nat) (Char × Nat) :=
  match Utf8Lead.of? b with
  | none => .error (.badStart, 1)
  | some l =>
    ((codePoint l.share l.low l.high l.more r).map fun n => (Char.ofNat n, l.more)).mapError
      fun e => (e.1, e.2 + 1)

/-- The text of the bytes from `position` on, the first `skip` of which belong to the character
before. -/
def ofUtf8From : (position skip : Nat) → Bytes → Except Utf8Fault Text
  | _, _, [] => .ok []
  | position, skip + 1, _ :: r => ofUtf8From (position + 1) skip r
  | position, 0, b :: r =>
    match utf8Char b r with
    | .ok (c, more) => (ofUtf8From (position + 1) more r).map (c :: ·)
    | .error (reason, length) => .error ⟨position, b, length, reason⟩

namespace Text

/-- The text that UTF-8 stands for. -/
def ofUtf8 (bytes : Bytes) : Except Utf8Fault Text :=
  ofUtf8From 0 0 bytes

/-- The UTF-8 form of a text. -/
def toBytes (t : Text) : Bytes :=
  (String.ofList t).toUTF8.toList

end Text

end Sharpen
