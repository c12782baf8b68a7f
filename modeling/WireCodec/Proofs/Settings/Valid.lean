import WireCodec.Proofs.Except
import WireCodec.Proofs.Source.Plain
import WireCodec.Settings.Basic

/-!
# Valid settings

What the check of the settings comes to, and that the style which valid settings choose stays within
its lines.
-/

namespace WireCodec

structure Settings.Valid (s : Settings) : Prop where
  readName : Text.isName s.readName = true
  writeName : Text.isName s.writeName = true
  distinct : s.readName ≠ s.writeName
  derives : ∀ path ∈ s.derives, isWordPath path = true
  types : ∀ name ∈ s.types, Text.isName name = true

/-- Settings pass their check exactly if they are valid. -/
theorem Settings.validate_eq_ok {s : Settings} : s.validate = .ok () ↔ s.Valid := by
  have all_of_find {p : String → Bool} {items : List String} :
      items.find? (!p ·) = none ↔ ∀ item ∈ items, p item = true := by
    simp
  -- The checks in their order; each must be passed for the next to count.
  have hchecks : s.validate = .ok () ↔ Text.isName s.readName = true ∧
      Text.isName s.writeName = true ∧ s.readName ≠ s.writeName ∧
      s.derives.find? (!isWordPath ·) = none ∧ s.types.find? (!Text.isName ·) = none := by
    unfold validate
    cases Text.isName s.readName with
    | false => exact ⟨fun h => (by cases h), fun h => (by cases h.1)⟩
    | true =>
      cases Text.isName s.writeName with
      | false => exact ⟨fun h => (by cases h), fun h => (by cases h.2.1)⟩
      | true =>
        by_cases hsame : s.readName = s.writeName
        · rw [if_pos hsame]
          exact ⟨fun h => (by cases h), fun h => absurd hsame h.2.2.1⟩
        · rw [if_neg hsame]
          cases s.derives.find? (!isWordPath ·) with
          | some path => exact ⟨fun h => (by cases h), fun h => (by cases h.2.2.2.1)⟩
          | none =>
            cases s.types.find? (!Text.isName ·) with
            | some name => exact ⟨fun h => (by cases h), fun h => (by cases h.2.2.2.2)⟩
            | none => exact ⟨fun _ => ⟨rfl, rfl, hsame, rfl, rfl⟩, fun _ => rfl⟩
  rw [hchecks, all_of_find, all_of_find]
  exact ⟨fun ⟨hr, hw, hne, hd, ht⟩ => ⟨hr, hw, hne, hd, ht⟩,
    fun h => ⟨h.readName, h.writeName, h.distinct, h.derives, h.types⟩⟩

/-- The settings that nobody has changed are valid. -/
theorem Settings.standard_valid : standard.Valid where
  readName := by decide +kernel
  writeName := by decide +kernel
  distinct := by decide +kernel
  derives := by decide +kernel
  types := fun name hname => (by cases hname)

/-- A path is made of words and colons. -/
theorem mem_isWordPath {path : String} (h : isWordPath path = true) {c : Char}
    (hc : c ∈ path.toList) : Text.isWordChar c = true ∨ c = ':' := by
  have of_word {word : List Char} (hword : Text.isWord word.reverse = true) (hm : c ∈ word) :
      Text.isWordChar c = true :=
    Text.isWordChar_of_mem hword (List.mem_reverse.mpr hm)
  have of_rest (word rest : List Char) (hpath : isWordPathFrom word rest = true)
      (hm : c ∈ word ∨ c ∈ rest) : Text.isWordChar c = true ∨ c = ':' := by
    induction word, rest using isWordPathFrom.induct with
    | case1 word =>
      rw [isWordPathFrom] at hpath
      exact .inl (of_word hpath (hm.resolve_right List.not_mem_nil))
    | case2 word rest ih =>
      rw [isWordPathFrom, Bool.and_eq_true] at hpath
      simp only [List.mem_cons] at hm
      rcases hm with hm | rfl | rfl | hm
      · exact .inl (of_word hpath.1 hm)
      · exact .inr rfl
      · exact .inr rfl
      · exact ih hpath.2 (.inr hm)
    | case3 word d rest hcolons ih =>
      rw [isWordPathFrom] at hpath
      · apply ih hpath
        rw [List.mem_cons] at hm ⊢
        rcases hm with hm | rfl | hm
        · exact .inl (.inr hm)
        · exact .inl (.inl rfl)
        · exact .inr hm
      · exact hcolons
  unfold isWordPath at h
  split at h
  · rename_i rest hpath
    rw [hpath, List.mem_cons, List.mem_cons] at hc
    rcases hc with rfl | rfl | hc
    · exact .inr rfl
    · exact .inr rfl
    · exact of_rest [] rest h (.inr hc)
  · exact of_rest [] _ h (.inr hc)

theorem plain_of_isWordPath {path : String} (h : isWordPath path = true) : Plain path := by
  intro hm
  rcases mem_isWordPath h hm with hword | hcolon
  · exact absurd hword (by decide)
  · exact absurd hcolon (by decide)

/-- The names of a codec are words, and so are those that valid settings add. -/
theorem Settings.Valid.plainNames {s : Settings} (h : s.Valid) {c : Codec}
    (hnames : ∀ name ∈ c.names, Text.isName name = true) : Source.PlainNames s.style c where
  read := plain_of_isName h.readName
  write := plain_of_isName h.writeName
  derives path hpath := plain_of_isWordPath (h.derives path hpath)
  names name hname := plain_of_isName (hnames name hname)

end WireCodec
