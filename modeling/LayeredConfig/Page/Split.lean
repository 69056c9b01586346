import LayeredConfig.Text.Blank

/-!
# Pages of a source

A configuration source is cut into pages at the lines that equal the page
separator once blanks at their end are dropped.  Blank lines and lines whose
first character that is not blank is `#` are dropped before that.  Every
separator closes a page, if need be one without lines, and one with nothing
behind it opens no other.
-/

namespace LayeredConfig

/-- A run of content lines with its position in the source. -/
structure Page where
  index : Nat
  lines : List String
  deriving DecidableEq, Repr

/-- The text of a page. -/
def Page.text (p : Page) : String :=
  Text.unlines p.lines

/-- The mark of a comment line. -/
def commentMark : Char := '#'

/-- Whether a line is neither blank nor a comment. -/
def isContent (line : String) : Bool :=
  match (Text.trim line).toList with
  | [] => false
  | c :: _ => c != commentMark

/-- Whether a line separates two pages. -/
def separates (separator line : String) : Bool :=
  Text.trimEnd line == separator

/-- The pages of content lines, where `current` holds the lines of the page that
is open and `index` is its position. -/
def pagesFrom (separator : String) (index : Nat) (current : List String) :
    List String → List Page
  | [] => if current.isEmpty then [] else [⟨index, current⟩]
  | line :: rest =>
    if separates separator line then ⟨index, current⟩ :: pagesFrom separator (index + 1) [] rest
    else pagesFrom separator index (current ++ [line]) rest

/-- Cuts a source into its pages. -/
def splitPages (text separator : String) : List Page :=
  pagesFrom separator 0 [] ((Text.lines text).filter isContent)

end LayeredConfig
