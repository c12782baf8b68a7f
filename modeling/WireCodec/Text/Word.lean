/-!
# Words

A word is what the target language reads as one identifier of plain letters: an ASCII letter or an
underscore, then letters, digits and underscores.  Names of structs and fields are words with a few
exceptions; `Name` and `Identifier` say which.
-/

namespace WireCodec.Text

def isWordStart (c : Char) : Bool :=
  c == '_' || c.isAlpha

def isWordChar (c : Char) : Bool :=
  c == '_' || c.isAlphanum

/-- A letter or underscore, then letters, digits and underscores. -/
def isWord : List Char → Bool
  | [] => false
  | c :: rest => isWordStart c && rest.all isWordChar

theorem isWordChar_of_isWordStart {c : Char} (h : isWordStart c = true) : isWordChar c = true := by
  simp only [isWordStart, isWordChar, Char.isAlphanum, Bool.or_eq_true] at h ⊢
  exact h.imp_right Or.inl

/-- Every character of a word may stand inside a word. -/
theorem isWordChar_of_mem {s : List Char} (h : isWord s = true) {c : Char} (hc : c ∈ s) :
    isWordChar c = true := by
  cases s with
  | nil => simp at hc
  | cons a r =>
    simp only [isWord, Bool.and_eq_true, List.all_eq_true] at h
    rcases List.mem_cons.mp hc with rfl | hr
    · exact isWordChar_of_isWordStart h.1
    · exact h.2 c hr

/-- A name that a schema file or the settings may use: any word but the lone underscore. -/
def isName (s : String) : Bool :=
  isWord s.toList && s != "_"

/-- The words that stand for the enclosing item and can never name a struct or a field. -/
def reservedPaths : List String :=
  ["self", "Self", "super", "crate"]

def isIdentifier (s : String) : Bool :=
  isName s && !reservedPaths.contains s

end WireCodec.Text
