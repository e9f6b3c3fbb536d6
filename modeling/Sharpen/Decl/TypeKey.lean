import Sharpen.Text.Blank

/-!
# Type keys

A C++ type can be spelled in many ways. It is cut into tokens, from which it can be written again
with settled spacing, and from which a key is made that does not depend on spacing or on where
`const` stands.

Template arguments stay in one token with their brackets, since commas and markers in them do not
belong to the type itself. In a key the spacing inside of a token is settled, `const` comes first
and the markers come last, so that the ways in which a type is usually written share one key.

## Main definitions

* `typeTokens` cuts a type or a declaration into tokens; template arguments stay in one token.
* `normalizeType` writes the tokens again; `typeKey` is the key.
* `TokenState` says where the cutting into tokens stands: the depth of template brackets and whether
  it is inside an array bound.
* `typeTokensFrom` is the rest of the token that the text starts inside of, and the tokens after it.
* `isModifier` holds of the tokens that say how a type is used and do not name it.
* `isArrayBound` holds of the tokens that give an array bound.
-/

namespace Sharpen

/-! ### Tokens -/

/-- Where the cutting into tokens stands: the depth of template brackets and whether it is inside
an array bound. -/
structure TokenState where
  angles : Nat := 0
  inArray : Bool := false
deriving DecidableEq, Repr

/-- Puts a token that has just ended in front of the tokens after it. -/
def flushToken (token : Text) (tokens : List Text) : List Text :=
  if token.isEmpty then tokens else token :: tokens

/-- The rest of the token that the text starts inside of, and the tokens after it. -/
def typeTokensFrom : TokenState → Text → Text × List Text
  | _, [] => ([], [])
  | s, c :: r =>
    if c == '[' && s.angles == 0 then
      let (token, tokens) := typeTokensFrom { s with inArray := true } r
      ([], (c :: token) :: tokens)
    else if s.inArray then
      if c == ']' then
        let (token, tokens) := typeTokensFrom { s with inArray := false } r
        ([c], flushToken token tokens)
      else
        let (token, tokens) := typeTokensFrom s r
        (c :: token, tokens)
    else if c == '<' then
      let (token, tokens) := typeTokensFrom { s with angles := s.angles + 1 } r
      (c :: token, tokens)
    else if c == '>' then
      let (token, tokens) := typeTokensFrom { s with angles := s.angles - 1 } r
      (c :: token, tokens)
    else if 0 < s.angles then
      let (token, tokens) := typeTokensFrom s r
      (c :: token, tokens)
    else if isBlank c then
      let (token, tokens) := typeTokensFrom s r
      ([], flushToken token tokens)
    else if c == '*' || c == '&' then
      let (token, tokens) := typeTokensFrom s r
      ([], [c] :: flushToken token tokens)
    else
      let (token, tokens) := typeTokensFrom s r
      (c :: token, tokens)

/-- The tokens of a type or of a declaration: `*` and `&` stand alone, template arguments and
array bounds stay whole. -/
def typeTokens (t : Text) : List Text :=
  let (token, tokens) := typeTokensFrom {} t
  flushToken token tokens

/-- The tokens `*` and `&`. -/
def isMarker (token : Text) : Bool :=
  token == ['*'] || token == ['&']

/-- The tokens that say how a type is used and do not name it. -/
def isModifier (token : Text) : Bool :=
  isMarker token || token == "const"

/-- The tokens that give an array bound. -/
def isArrayBound (token : Text) : Bool :=
  token.startsWith "[" && token.endsWith "]"

/-! ### Settled spacing -/

/-- The tokens in a row after the token `prev`: a space divides two tokens unless one of them is a
marker. -/
def joinTokensAfter (prev : Text) : List Text → Text
  | [] => []
  | token :: r =>
    (if isMarker token || isMarker prev then [] else [' ']) ++ token ++ joinTokensAfter token r

/-- A type written from its tokens. -/
def joinTokens : List Text → Text
  | [] => []
  | token :: r => Text.trim (token ++ joinTokensAfter token r)

/-- A type with settled spacing. -/
def normalizeType (t : Text) : Text :=
  joinTokens (typeTokens t)

/-! ### Keys -/

/-- The characters of a template argument list that blanks may surround. -/
def isTemplateMark (c : Char) : Bool :=
  c == '<' || c == '>' || c == ','

/-- Drops the blanks next to template marks; `afterMark` says that such a mark, and perhaps blanks,
precede the text. -/
def tightenFrom : (afterMark : Bool) → Text → Text
  | _, [] => []
  | afterMark, c :: r =>
    if isBlank c then
      if afterMark then tightenFrom true r
      else if (r.dropWhile isBlank).head?.any isTemplateMark then tightenFrom false r
      else c :: tightenFrom false r
    else c :: tightenFrom (isTemplateMark c) r

/-- A token without blanks next to its template marks. -/
def tighten (token : Text) : Text :=
  tightenFrom false token

/-- The key of a type: `const` if it occurs, the tokens that name the type, and all markers in
their order. -/
def typeKey (t : Text) : Text :=
  let tokens := typeTokens t
  let const? : List Text := if tokens.contains "const" then ["const"] else []
  let named := (tokens.filter fun k => !isModifier k).map tighten
  let markers := (tokens.filter isMarker).flatten
  Text.join " " (const? ++ named ++ (if markers.isEmpty then [] else [markers]))

end Sharpen
