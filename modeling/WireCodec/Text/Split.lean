/-!
# Text between separators

Cutting text at every occurrence of one character.  By `List.intercalate_splitOn` the pieces with
the character between them are the text again.
-/

namespace WireCodec.Text

/-- The pieces of text between the occurrences of a character; there is always one. -/
def split (separator : Char) (s : String) : List String :=
  (s.toList.splitOn separator).map String.ofList

end WireCodec.Text
