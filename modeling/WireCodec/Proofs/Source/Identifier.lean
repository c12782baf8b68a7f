import WireCodec.Source.Spelling
import WireCodec.Text.Word

/-!
# Identifiers of generated code

The target language reads a word as an identifier unless it is a keyword or one of the words that
stand for the enclosing item.  In raw form a keyword may be one too; those other words may not.
-/

namespace WireCodec.Source

/-- What the target language takes for one identifier. -/
inductive LegalIdentifier : String → Prop where
  | plain {name : String} (word : Text.isName name = true) (free : name ∉ keywords)
    (noPath : name ∉ Text.reservedPaths) : LegalIdentifier name
  | raw {name : String} (word : Text.isName name = true) (noPath : name ∉ Text.reservedPaths) :
    LegalIdentifier ("r#" ++ name)

theorem isWordChar_of_isName {name : String} (h : Text.isName name = true) {c : Char}
    (hc : c ∈ name.toList) : Text.isWordChar c = true := by
  rw [Text.isName, Bool.and_eq_true] at h
  exact Text.isWordChar_of_mem h.1 hc

/-- No name has raw form. -/
theorem ne_raw {name : String} (h : Text.isName name = true) (other : String) :
    name ≠ "r#" ++ other := by
  rintro rfl
  have hmark : '#' ∈ ("r#" ++ other).toList := by simp
  exact absurd (isWordChar_of_isName h hmark) (by decide)

theorem identifier_of_mem {name : String} (h : name ∈ keywords) : identifier name = "r#" ++ name :=
  if_pos (List.contains_iff_mem.mpr h)

theorem identifier_of_not_mem {name : String} (h : name ∉ keywords) : identifier name = name :=
  if_neg fun hcontains => h (List.contains_iff_mem.mp hcontains)

/-- Names that are written alike are the same name. -/
theorem identifier_injective {a b : String} (ha : Text.isName a = true) (hb : Text.isName b = true)
    (h : identifier a = identifier b) : a = b := by
  by_cases hka : a ∈ keywords
  · by_cases hkb : b ∈ keywords
    · rw [identifier_of_mem hka, identifier_of_mem hkb] at h
      exact (String.append_right_inj _).mp h
    · rw [identifier_of_mem hka, identifier_of_not_mem hkb] at h
      exact absurd h.symm (ne_raw hb a)
  · by_cases hkb : b ∈ keywords
    · rw [identifier_of_not_mem hka, identifier_of_mem hkb] at h
      exact absurd h (ne_raw ha b)
    · rwa [identifier_of_not_mem hka, identifier_of_not_mem hkb] at h

/-- Of names themselves those are legal that are no keywords and no paths. -/
theorem legalIdentifier_iff {name : String} (h : Text.isName name = true) :
    LegalIdentifier name ↔ name ∉ keywords ∧ name ∉ Text.reservedPaths := by
  refine ⟨fun hlegal => ?_, fun ⟨hfree, hpath⟩ => .plain h hfree hpath⟩
  generalize hspelled : name = spelled at hlegal
  cases hlegal with
  | plain word free noPath =>
    subst hspelled
    exact ⟨free, noPath⟩
  | raw word noPath => exact absurd hspelled (ne_raw h _)

/-! ## Characters -/

/-- The characters of identifiers, which may be in raw form. -/
def isIdentifierChar (c : Char) : Bool := Text.isWordChar c || c == '#'

theorem isIdentifierChar_of_isName {name : String} (h : Text.isName name = true) {c : Char}
    (hc : c ∈ name.toList) : isIdentifierChar c = true := by
  rw [isIdentifierChar, isWordChar_of_isName h hc, Bool.true_or]

theorem isIdentifierChar_raw {name : String} (h : Text.isName name = true) {c : Char}
    (hc : c ∈ ("r#" ++ name).toList) : isIdentifierChar c = true := by
  rw [String.toList_append, List.mem_append] at hc
  rcases hc with hc | hc
  · have hmark : c = 'r' ∨ c = '#' := by simpa using hc
    rcases hmark with rfl | rfl <;> rfl
  · exact isIdentifierChar_of_isName h hc

/-- A name that is written as an identifier has no characters but those of identifiers. -/
theorem isIdentifierChar_identifier {name : String} (h : Text.isName name = true) {c : Char}
    (hc : c ∈ (identifier name).toList) : isIdentifierChar c = true := by
  unfold identifier at hc
  split at hc
  · exact isIdentifierChar_raw h hc
  · exact isIdentifierChar_of_isName h hc

theorem LegalIdentifier.isIdentifierChar {name : String} (h : LegalIdentifier name) {c : Char}
    (hc : c ∈ name.toList) : isIdentifierChar c = true := by
  cases h with
  | plain word free noPath => exact isIdentifierChar_of_isName word hc
  | raw word noPath => exact isIdentifierChar_raw word hc

end WireCodec.Source
