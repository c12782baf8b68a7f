/-!
# Blank characters

The characters that count as white space in declared types, length expressions and lists of names,
and the trimming built on them.  `trim_cons_of_blank` and `trim_of_clean` say what trimming keeps.
-/

namespace WireCodec.Text

/-- The Unicode characters with the property `White_Space`. -/
def isBlank (c : Char) : Bool :=
  let n := c.toNat
  (0x09 ≤ n && n ≤ 0x0D) || n == 0x20 || n == 0x85 || n == 0xA0 || n == 0x1680 ||
    (0x2000 ≤ n && n ≤ 0x200A) || n == 0x2028 || n == 0x2029 || n == 0x202F || n == 0x205F ||
    n == 0x3000

/-! ## Trimming -/

def trimEnd (s : List Char) : List Char :=
  (s.reverse.dropWhile isBlank).reverse

def trim (s : List Char) : List Char :=
  trimEnd (s.dropWhile isBlank)

def trimmed (s : String) : String :=
  String.ofList (trim s.toList)

theorem length_trim_le (s : List Char) : (trim s).length ≤ s.length := by
  have drops (l : List Char) : (l.dropWhile isBlank).length ≤ l.length :=
    (List.dropWhile_sublist isBlank).length_le
  have h₁ := drops s
  have h₂ := drops (s.dropWhile isBlank).reverse
  simp only [trim, trimEnd, List.length_reverse] at h₂ ⊢
  omega

/-- A blank in front is dropped. -/
theorem trim_cons_of_blank {c : Char} (h : isBlank c = true) (s : List Char) :
    trim (c :: s) = trim s := by
  simp [trim, h]

/-- Text with no blank at either end is left alone. -/
theorem trim_of_clean {s : List Char} (front : ∀ c ∈ s.head?, isBlank c = false)
    (back : ∀ c ∈ s.getLast?, isBlank c = false) : trim s = s := by
  have keep (l : List Char) (h : ∀ c ∈ l.head?, isBlank c = false) : l.dropWhile isBlank = l := by
    cases l with
    | nil => rfl
    | cons a r => simp [h a (by simp)]
  rw [trim, keep s front, trimEnd, keep s.reverse (by simpa using back), List.reverse_reverse]

end WireCodec.Text
