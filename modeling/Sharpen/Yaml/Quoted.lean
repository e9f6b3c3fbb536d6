import Sharpen.Text.Digit
import Sharpen.Yaml.Place

/-!
# Scalars over several lines

Line breaks within a scalar are folded: one break becomes a space, and of several the first one
goes. Blanks around a break mean nothing.

In single quotes a doubled quote is the only escape; in double quotes there are escapes with a
backslash, and one at the end of a line joins the lines. A scalar without quotes ends at a colon or
a comment, and inside of brackets at their marks, too.

## Main definitions

* `foldPieces` folds the pieces of a quoted scalar.
* `singleQuoted` and `doubleQuoted` read up to the closing quote.
* `Yaml.foldedBreaks` is what stands for a break and the breaks that follow it directly.
* `Yaml.Piece` is what a quoted scalar is made of.
* `Yaml.Piece.of` is the piece that a character without escape is.
* `Yaml.Fold` says where folding stands.
* `plainScalar?` reads a scalar without quotes.
-/

namespace Sharpen.Yaml

/-- What stands for a break and the breaks that follow it directly. -/
def foldedBreaks (first : Char) (more : Text) : Text :=
  (if first != '\n' then [first] else if more.isEmpty then [' '] else []) ++ more

/-! ### Quoted scalars -/

/-- What a quoted scalar is made of. -/
inductive Piece where
  /-- A character that stays. -/
  | char (c : Char)
  /-- A blank, which goes next to a break. -/
  | blank (c : Char)
  /-- A line break. -/
  | lineBreak (c : Char)
  /-- An escaped line break, which stands for nothing. -/
  | joint
deriving DecidableEq, Repr

/-- The piece that a character without escape is. -/
def Piece.of (c : Char) : Piece :=
  if isBreak c then .lineBreak c
  else if c == ' ' || c == '\t' then .blank c
  else .char c

/-- Where folding stands. -/
inductive Fold where
  /-- Within a line, behind blanks. -/
  | inLine (blanks : Text)
  /-- Behind a break and the breaks after it. -/
  | broken (first : Char) (more : Text)
  /-- Behind an escaped break. -/
  | joined
deriving DecidableEq, Repr

/-- What is written when something that stays follows. -/
def Fold.flush : Fold → Text
  | .inLine blanks => blanks
  | .broken first more => foldedBreaks first more
  | .joined => []

/-- Folds the pieces of a quoted scalar. -/
def foldPieces : Fold → List Piece → Text
  | s, [] => s.flush
  | s, .char c :: r => s.flush ++ c :: foldPieces (.inLine []) r
  | s, .joint :: r => s.flush ++ foldPieces .joined r
  | .inLine blanks, .blank c :: r => foldPieces (.inLine (blanks ++ [c])) r
  | s, .blank _ :: r => foldPieces s r
  | .inLine _, .lineBreak c :: r => foldPieces (.broken c []) r
  | .broken first more, .lineBreak c :: r => foldPieces (.broken first (more ++ [c])) r
  | .joined, .lineBreak c :: r => c :: foldPieces .joined r

/-- Whether a break ends the document within a scalar. -/
def cutsScalar (c : Char) (rest : Text) : Bool :=
  isBreak c && isMarker rest

/-- Reads up to the closing single quote; a quote written twice stands for itself. Gives the pieces
and the number of characters read. -/
def singleQuoted : Text → Option (List Piece × Nat)
  | [] => none
  | '\'' :: '\'' :: r => (singleQuoted r).map fun (ps, n) => (.char '\'' :: ps, n + 2)
  | c :: r =>
    if c == '\'' then some ([], 1)
    else if cutsScalar c r then none
    else (singleQuoted r).map fun (ps, n) => (.of c :: ps, n + 1)

/-- The characters that an escape of one letter stands for. -/
def escapes : List (Char × Char) :=
  [('0', '\x00'), ('a', '\x07'), ('b', '\x08'), ('t', '\t'), ('\t', '\t'), ('n', '\n'),
   ('v', '\x0B'), ('f', '\x0C'), ('r', '\r'), ('e', '\x1B'), (' ', ' '), ('"', '"'),
   ('\\', '\\'), ('/', '/'), ('N', '\x85'), ('_', '\xA0'), ('L', '\u2028'), ('P', '\u2029')]

/-- The number of hexadecimal digits behind the letter of an escape. -/
def escapeWidth : Char → Option Nat
  | 'x' => some 2
  | 'u' => some 4
  | 'U' => some 8
  | _ => none

/-- The value of hexadecimal digits. -/
def hexValue (t : Text) : Nat :=
  t.foldl (fun n c => 16 * n + (if c.isDigit then c.toNat - '0'.toNat
    else c.toLower.toNat - 'a'.toNat + 10)) 0

/-- What an escape stands for, given what follows its backslash, and the number of characters that
it takes there. -/
def escape? : Text → Option (Piece × Nat)
  | [] => none
  | c :: r =>
    if isBreak c then if isMarker r then none else some (.joint, 1)
    else
      match escapeWidth c with
      | some width =>
        let ds := r.take width
        if ds.length == width && ds.all isHex then
          some (.char (Char.ofNat (hexValue ds)), width + 1)
        else none
      | none => (escapes.lookup c).map fun d => (.char d, 1)

/-- Reads up to the closing double quote; the first `skip` characters belong to an escape. Gives
the pieces and the number of characters read. -/
def doubleQuoted : (skip : Nat) → Text → Option (List Piece × Nat)
  | _, [] => none
  | skip + 1, _ :: r => (doubleQuoted skip r).map fun (ps, n) => (ps, n + 1)
  | 0, c :: r =>
    if c == '"' then some ([], 1)
    else if c == '\\' then
      (escape? r).bind fun (p, width) =>
        (doubleQuoted width r).map fun (ps, n) => (p :: ps, n + 1)
    else if cutsScalar c r then none
    else (doubleQuoted 0 r).map fun (ps, n) => (.of c :: ps, n + 1)

/-- Reads a quoted scalar, if one starts here, and gives the place behind it. -/
def quotedScalar? (p : Place) : Option (Text × Place) :=
  let pieces := match p.rest with
    | '\'' :: r => singleQuoted r
    | '"' :: r => doubleQuoted 0 r
    | _ => none
  pieces.map fun (ps, n) => (foldPieces (.inLine []) ps, p.advance (n + 1))

/-! ### Plain scalars -/

/-- The characters that structure a value in flow style. -/
def isFlowMark (c : Char) : Bool :=
  [',', '[', ']', '{', '}'].contains c

/-- The characters that no plain scalar starts with. -/
def isIndicator (c : Char) : Bool :=
  isFlowMark c || ['#', '&', '*', '!', '|', '>', '\'', '"', '%', '@', '\x60'].contains c

/-- Whether a plain scalar starts here. -/
def startsPlain (flow : Bool) : Text → Bool
  | [] => false
  | c :: r =>
    let solid := r.head?.any fun d => !isGap d
    if c == '-' then solid
    else if c == '?' || c == ':' then !flow && solid
    else !isGap c && !isIndicator c

/-- Whether a plain word ends before a character. -/
def endsPlain (flow : Bool) (c : Char) (next : Option Char) : Bool :=
  isGap c || (c == ':' && (next.all isGap || (flow && next.any isFlowMark)))
    || (flow && (isFlowMark c || c == '?'))

/-- The plain word that starts here. -/
def plainWord (flow : Bool) : Text → Text
  | [] => []
  | c :: r => if endsPlain flow c r.head? then [] else c :: plainWord flow r

/-- The spaces or breaks behind a word, folded, and the place behind them. -/
def plainGap (p : Place) : Text × Place :=
  let q := p.skipSpaces
  match q.rest with
  | [] => ([], q)
  | c :: r =>
    if isBreak c then
      let blank := r.takeWhile fun d => d == ' ' || isBreak d
      (foldedBreaks c (blank.filter isBreak), q.advance (blank.length + 1))
    else (p.rest.takeWhile (· == ' '), q)

/-- The words that go on with a plain scalar, and the place behind the last one. In block style
they stand at column `least` or further right. -/
def plainMore (flow : Bool) (least : Nat) : (fuel : Nat) → Place → Text × Place
  | 0, p => ([], p)
  | fuel + 1, p =>
    let (gap, q) := plainGap p
    let word := plainWord flow q.rest
    if gap.isEmpty || word.isEmpty || q.head? == some '#' || q.atMarker
        || (!flow && q.column < least) then ([], p)
    else
      let (more, last) := plainMore flow least fuel (q.advance word.length)
      (gap ++ word ++ more, last)

/-- Reads a plain scalar, if one starts here, and gives the place behind it. -/
def plainScalar? (flow : Bool) (least : Nat) (p : Place) : Option (Text × Place) :=
  if startsPlain flow p.rest then
    let word := plainWord flow p.rest
    let (more, last) := plainMore flow least p.rest.length (p.advance word.length)
    some (word ++ more, last)
  else none

end Sharpen.Yaml
