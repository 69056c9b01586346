/-!
# Occurrences of a text in a text

* `occurs` says whether a text has another one in it;
* `replaceAll` puts a new text in the place of every occurrence of an old one,
  from left to right; the empty text occurs before every character and at the
  end.
-/

namespace LayeredConfig.Text

/-- Whether `part` stands somewhere in the characters. -/
def occursIn (part : List Char) : List Char → Bool
  | [] => part.isEmpty
  | c :: rest => part.isPrefixOf (c :: rest) || occursIn part rest

/-- Whether `part` stands somewhere in a text. -/
def occurs (part text : String) : Bool :=
  occursIn part.toList text.toList

/-- Characters with `new` for every occurrence of `old`, after passing over the
first `skip` ones, which belong to an occurrence already replaced. -/
def replaceFrom (old new : List Char) : Nat → List Char → List Char
  | _, [] => if old.isEmpty then new else []
  | skip + 1, _ :: rest => replaceFrom old new skip rest
  | 0, c :: rest =>
    if old.isEmpty then new ++ c :: replaceFrom old new 0 rest
    else if old.isPrefixOf (c :: rest) then new ++ replaceFrom old new (old.length - 1) rest
    else c :: replaceFrom old new 0 rest

/-- The text with `new` for every occurrence of `old`. -/
def replaceAll (old new text : String) : String :=
  String.ofList (replaceFrom old.toList new.toList 0 text.toList)

end LayeredConfig.Text
