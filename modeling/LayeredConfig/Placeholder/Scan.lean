/-!
# Placeholders in a text

A placeholder is `${`, a key, and `}`; the key is not empty and holds none of
`$`, `{`, `}`.  So no two placeholders overlap, and of nested ones only the
innermost are placeholders yet.

* `pieces` cuts a text into placeholders and the characters between them;
* `keys` and `nestedKeys` list the placeholders, all or only those that stand
  inside an unclosed `${`;
* `openDepth` counts the `${` that a text leaves open;
* `substitute` puts a text in the place of every placeholder with a given key;
* `splitDefault` separates the path of a key from its fallback.
-/

namespace LayeredConfig.Placeholder

/-- A placeholder, or a character that belongs to none. -/
inductive Piece where
  | char (c : Char)
  | hole (key : List Char)
  deriving DecidableEq, Repr

/-- The characters that a key may hold. -/
def isKeyChar (c : Char) : Bool :=
  c != '$' && c != '{' && c != '}'

/-- A key followed by the closing brace, at the front of pieces. -/
def closeKey : List Piece → Option (List Char × List Piece)
  | .char c :: rest =>
    if c = '}' then some ([], rest)
    else if isKeyChar c then (closeKey rest).map fun (key, rest) => (c :: key, rest)
    else none
  | _ => none

/-- Puts a character in front of pieces.  A dollar sign completes a placeholder
if an opening brace and a closed key that is not empty follow it. -/
def Piece.cons (c : Char) (ps : List Piece) : List Piece :=
  match c, ps with
  | '$', .char '{' :: rest =>
    match closeKey rest with
    | some (k :: key, rest) => .hole (k :: key) :: rest
    | _ => .char '$' :: ps
  | c, ps => .char c :: ps

/-- The placeholders of a text and the characters between them. -/
def pieces (cs : List Char) : List Piece :=
  cs.foldr Piece.cons []

/-- The written form of a key's placeholder. -/
def wrapChars (key : List Char) : List Char :=
  '$' :: '{' :: key ++ ['}']

/-- The text of pieces. -/
def Piece.chars : Piece → List Char
  | char c => [c]
  | hole key => wrapChars key

/-- The keys among pieces. -/
def Piece.key? : Piece → Option (List Char)
  | char _ => none
  | hole key => some key

/-- The keys of the placeholders in a text, in order. -/
def keys (text : String) : List String :=
  (pieces text.toList).filterMap fun p => p.key?.map String.ofList

/-- Whether a text holds a placeholder. -/
def contains (text : String) : Bool :=
  (pieces text.toList).any fun p => p.key?.isSome

/-- The number of `${` left open at the end of a text, when `depth` are open at
its start.  A closing brace closes the latest one; where none is open it means
nothing. -/
def openDepth (depth : Nat) : List Char → Nat
  | '$' :: '{' :: rest => openDepth (depth + 1) rest
  | '}' :: rest => openDepth (depth - 1) rest
  | _ :: rest => openDepth depth rest
  | [] => depth

/-- The keys of the placeholders inside an unclosed `${`, where `depth` of them
are open at the front of the pieces. -/
def nestedIn (depth : Nat) : List Piece → List (List Char)
  | .hole key :: rest => if 0 < depth then key :: nestedIn depth rest else nestedIn depth rest
  | .char '$' :: .char '{' :: rest => nestedIn (depth + 1) rest
  | .char '}' :: rest => nestedIn (depth - 1) rest
  | .char _ :: rest => nestedIn depth rest
  | [] => []

/-- The keys of the placeholders that stand inside the text of another one, as
`b` does in `${a.${b}}`. -/
def nestedKeys (text : String) : List String :=
  (nestedIn 0 (pieces text.toList)).map String.ofList

/-- The written form of a key's placeholder. -/
def wrap (key : String) : String :=
  String.ofList (wrapChars key.toList)

/-- The text with `new` in the place of every placeholder with the key. -/
def substitute (key new text : String) : String :=
  String.ofList <| (pieces text.toList).flatMap fun p =>
    if p = .hole key.toList then new.toList else p.chars

/-- A key cut at its first `:-`. -/
def cutDefault : List Char → List Char × Option (List Char)
  | ':' :: '-' :: rest => ([], some rest)
  | c :: rest =>
    let (path, fallback) := cutDefault rest
    (c :: path, fallback)
  | [] => ([], none)

/-- The path of a key and the fallback after its first `:-`, if there is one. -/
def splitDefault (key : String) : String × Option String :=
  let (path, fallback) := cutDefault key.toList
  (String.ofList path, fallback.map String.ofList)

/-- The path part of a key. -/
def pathText (key : String) : String :=
  (splitDefault key).1

end LayeredConfig.Placeholder
