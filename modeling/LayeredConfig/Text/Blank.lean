/-!
# Blank characters and lines

Configuration text is cut at blank characters in three places: lines are
judged by their trimmed form, override tokens are trimmed, and a command-line
value holding several tokens is split at blanks.  "Blank" always means the
Unicode property `White_Space`, never the ASCII subset.

* `isBlank` is the property itself;
* `trim`, `trimEnd` and `words` cut at it;
* `lines` ends a line at a line feed, alone or after a carriage return.
-/

namespace LayeredConfig.Text

/-- The characters with the Unicode property `White_Space`. -/
def isBlank (c : Char) : Bool :=
  let n := c.toNat
  (9 ≤ n && n ≤ 13) || n == 0x20 || n == 0x85 || n == 0xA0 || n == 0x1680 ||
    (0x2000 ≤ n && n ≤ 0x200A) || n == 0x2028 || n == 0x2029 || n == 0x202F ||
    n == 0x205F || n == 0x3000

/-- Drops blank characters at the end. -/
def trimRight (cs : List Char) : List Char :=
  (cs.reverse.dropWhile isBlank).reverse

/-- The text without blank characters at its end. -/
def trimEnd (text : String) : String :=
  String.ofList (trimRight text.toList)

/-- The text without blank characters at either end. -/
def trim (text : String) : String :=
  String.ofList (trimRight (text.toList.dropWhile isBlank))

/-- A text is blank when no character of it is left after trimming. -/
def isBlankText (text : String) : Bool :=
  text.toList.all isBlank

/-- The maximal runs of characters that are not blank, in order. -/
def wordRuns : List Char → List (List Char)
  | [] => []
  | c :: rest =>
    if isBlank c then wordRuns rest
    else
      match rest with
      | [] => [[c]]
      | d :: _ =>
        if isBlank d then [c] :: wordRuns rest
        else
          match wordRuns rest with
          | [] => [[c]]
          | word :: words => (c :: word) :: words

/-- The words of a text: its maximal runs without a blank character. -/
def words (text : String) : List String :=
  (wordRuns text.toList).map String.ofList

/-- The lines of a text.  A line feed ends a line and so does a carriage
return directly before it; text after the last line feed is a line of its own
when there is any. -/
def lineRuns : List Char → List (List Char)
  | [] => []
  | '\n' :: rest => [] :: lineRuns rest
  | '\r' :: '\n' :: rest => [] :: lineRuns rest
  | c :: rest =>
    match lineRuns rest with
    | [] => [[c]]
    | line :: lines => (c :: line) :: lines

/-- The lines of a text without their ends. -/
def lines (text : String) : List String :=
  (lineRuns text.toList).map String.ofList

/-- Lines joined by single line feeds. -/
def unlines (lines : List String) : String :=
  "\n".intercalate lines

end LayeredConfig.Text
