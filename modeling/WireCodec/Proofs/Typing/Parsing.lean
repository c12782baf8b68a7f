import WireCodec.Proofs.Length.Printing
import WireCodec.Proofs.Typing.Grammar
import WireCodec.Typing.Parser

/-!
# Reading declared types is the grammar

The reader takes brackets off the two ends of the text and cuts at the last semicolon.  Each of
these steps is told as an equation between texts, and with them the reader accepts what has a
derivation and gives its type: `parseChars_eq_ok`.  Every type whose names are words is read back
from its own text.
-/

namespace WireCodec.Typing

/-! ## Steps of the reader -/

theorem between?_eq_some {opening s inner : List Char} {closing : Char} :
    between? opening closing s = some inner ↔ s = opening ++ inner ++ [closing] := by
  unfold between?
  constructor
  · intro h
    split at h
    · rename_i hprefix
      obtain ⟨rest, rfl⟩ := List.isPrefixOf_iff_prefix.mp hprefix
      dsimp only at h
      rw [List.drop_left] at h
      split at h
      · rename_i hlast
        obtain ⟨front, rfl⟩ := List.getLast?_eq_some_iff.mp hlast
        rw [List.dropLast_concat] at h
        cases h
        rw [List.append_assoc]
      · cases h
    · cases h
  · rintro rfl
    have hprefix : opening.isPrefixOf (opening ++ inner ++ [closing]) = true := by
      rw [List.isPrefixOf_iff_prefix, List.append_assoc]
      exact List.prefix_append ..
    rw [if_pos hprefix, List.append_assoc, List.drop_left]
    simp

theorem splitLast_eq_some {c : Char} {s front behind : List Char} :
    splitLast c s = some (front, behind) ↔ s = front ++ c :: behind ∧ c ∉ behind := by
  unfold splitLast
  constructor
  · intro h
    dsimp only at h
    split at h
    · cases h
    · rename_i d rest hdrop
      cases h
      have hd : d = c := by
        have hhead := List.head?_dropWhile_not (· != c) s.reverse
        rw [hdrop] at hhead
        simpa using hhead
      have hparts := List.takeWhile_append_dropWhile (p := (· != c)) (l := s.reverse)
      rw [hdrop, hd] at hparts
      constructor
      · apply List.reverse_inj.mp
        apply hparts.symm.trans
        simp
      · intro hmem
        have hne := List.all_eq_true.mp List.all_takeWhile c (List.mem_reverse.mp hmem)
        simp at hne
  · rintro ⟨rfl, hmem⟩
    have hbehind : ∀ d ∈ behind.reverse, (d != c) = true := by
      intro d hd
      rw [bne_iff_ne]
      rintro rfl
      exact hmem (List.mem_reverse.mp hd)
    have hreverse : (front ++ c :: behind).reverse = behind.reverse ++ c :: front.reverse := by simp
    rw [hreverse, List.takeWhile_append_of_pos hbehind, List.dropWhile_append_of_pos hbehind]
    simp

/-- A length is read exactly from the texts that spell it. -/
theorem readLength_eq_some {s : List Char} {n : Nat} :
    readLength s = some n ↔ SpellsLength s n := by
  have hplus {digits : List Char} {m : Nat} : ¬Length.Numeral 10 ('+' :: digits) m := by
    intro hnumeral
    cases hnumeral.isSome_of_mem (List.mem_cons_self ..)
  unfold readLength
  split
  · rename_i digits hdigits
    rw [Text.readWord_eq_some]
    constructor
    · rintro ⟨hnumeral, hlt⟩
      exact ⟨⟨digits, hnumeral, .inr hdigits⟩, hlt⟩
    · rintro ⟨⟨other, hnumeral, hother⟩, hlt⟩
      rcases hother with rfl | hother
      · rw [hdigits] at hnumeral
        exact absurd hnumeral hplus
      · rw [hdigits] at hother
        cases hother
        exact ⟨hnumeral, hlt⟩
  · rename_i hdigits
    rw [Text.readWord_eq_some]
    constructor
    · rintro ⟨hnumeral, hlt⟩
      exact ⟨⟨_, hnumeral, .inl rfl⟩, hlt⟩
    · rintro ⟨⟨other, hnumeral, hother⟩, hlt⟩
      rcases hother with rfl | hother
      · exact ⟨hnumeral, hlt⟩
      · exact absurd hother (hdigits other)

theorem trim_around {before s after : List Char} (hs : Clean s) (hbefore : Blanks before)
    (hafter : Blanks after) : Text.trim (before ++ (s ++ after)) = s := by
  have hclean := Text.trim_of_clean hs.front hs.back
  have hafter' : Blanks after.reverse := fun c hc => hafter c (List.mem_reverse.mp hc)
  cases s with
  | nil => exact absurd rfl hs.ne_nil
  | cons c rest =>
    have hc : ¬Text.isBlank c = true := by simp [hs.front c rfl]
    rw [Text.trim, List.dropWhile_cons_of_neg hc] at hclean
    rw [Text.trim, List.dropWhile_append_of_pos hbefore, List.cons_append,
      List.dropWhile_cons_of_neg hc, Text.trimEnd, ← List.cons_append, List.reverse_append,
      List.dropWhile_append_of_pos hafter']
    exact hclean

/-! ## What the reader accepts -/

section Steps

variable {s : List Char}

/-- Text in brackets is read as an array, cut at the last semicolon. -/
theorem parseChars_array {front behind : List Char} {length : Nat}
    (h : Text.trim s = ['['] ++ (front ++ ';' :: behind) ++ [']'])
    (hlength : SpellsLength behind length) :
    parseChars s = parseChars front >>= fun elem => .ok (.array elem length) := by
  have hbetween := between?_eq_some.mpr h
  have hsplit : splitLast ';' (front ++ ';' :: behind) = some (front, behind) :=
    splitLast_eq_some.mpr ⟨rfl, hlength.semicolon_not_mem⟩
  rw [parseChars]
  split
  · rename_i inner hinner
    cases hbetween.symm.trans hinner
    split
    · rename_i hnone
      cases hsplit.symm.trans hnone
    · rename_i hsome
      cases hsplit.symm.trans hsome
      rw [readLength_eq_some.mpr hlength]
      rfl
  · rename_i hnone
    cases hbetween.symm.trans hnone

/-- Text in the brackets of a sequence is read as its element. -/
theorem parseChars_sequence {inner : List Char}
    (h : Text.trim s = ['V', 'e', 'c', '<'] ++ inner ++ ['>']) :
    parseChars s = parseChars inner >>= fun elem => .ok (.sequence elem) := by
  have hbetween := between?_eq_some.mpr h
  rw [parseChars]
  split
  · rename_i other hother
    cases h.symm.trans (between?_eq_some.mp hother)
  · split
    · rename_i other hother
      cases hbetween.symm.trans hother
      rfl
    · rename_i hnone
      cases hbetween.symm.trans hnone

theorem parseChars_name (h : Text.isWord (Text.trim s) = true) :
    parseChars s = .ok (.named (String.ofList (Text.trim s))) := by
  -- Words end neither in a bracket nor in an angle.
  have hends {opening inner : List Char} {closing : Char}
      (hinner : between? opening closing (Text.trim s) = some inner) :
      Text.isWordChar closing = true := by
    apply Text.isWordChar_of_mem h
    rw [between?_eq_some.mp hinner]
    simp
  rw [parseChars]
  split
  · rename_i hinner
    cases hends hinner
  · split
    · rename_i hinner
      cases hends hinner
    · rw [if_pos h]

end Steps

/-- What the reader makes of text from a symbol: for a body, with blanks around it. -/
def Symbol.Reads : Symbol → List Char → TypeExpr → Prop
  | type, s, e => parseChars s = .ok e
  | body, s, e => ∀ t, Text.trim t = s → parseChars t = .ok e

/-- Text with a derivation is read as its tree. -/
theorem Derivation.reads {s : Symbol} (d : Derivation s) : s.Reads d.text d.tree := by
  induction d with
  | blanks before inner after hbefore hafter ih =>
    exact ih _ (trim_around inner.clean hbefore hafter)
  | name word isWord =>
    intro t ht
    rw [parseChars_name (ht ▸ isWord), ht]
    rfl
  | array elem behind length spells ih =>
    intro t ht
    have helem : parseChars elem.text = .ok elem.tree := ih
    rw [parseChars_array ht spells, helem, ok_bind]
    rfl
  | sequence elem ih =>
    intro t ht
    have helem : parseChars elem.text = .ok elem.tree := ih
    rw [parseChars_sequence ht, helem, ok_bind]
    rfl

theorem exists_derivation_of_parseChars {s : List Char} {e : TypeExpr} (h : parseChars s = .ok e) :
    ∃ d : Derivation .type, d.text = s ∧ d.tree = e := by
  -- The blanks that were trimmed go around what the text without them derives.
  have around {s : List Char} (inner : Derivation .body) (h : Text.trim s = inner.text) :
      ∃ d : Derivation .type, d.text = s ∧ d.tree = inner.tree := by
    obtain ⟨before, after, hbefore, hafter, hs⟩ := exists_blanks_around_trim s
    refine ⟨.blanks before inner after hbefore hafter, ?_, rfl⟩
    rw [Derivation.text, ← h, ← hs]
  fun_induction parseChars s generalizing e
  case case3 inner hbetween front behind hsplit length hlength ih =>
    obtain ⟨elem, helem, h⟩ := bind_eq_ok.mp h
    cases h
    obtain ⟨d, rfl, rfl⟩ := ih helem
    apply around (.array d behind length (readLength_eq_some.mp hlength))
    have hs := between?_eq_some.mp hbetween
    rwa [(splitLast_eq_some.mp hsplit).1] at hs
  case case4 inner hbetween ih =>
    obtain ⟨elem, helem, h⟩ := bind_eq_ok.mp h
    cases h
    obtain ⟨d, rfl, rfl⟩ := ih helem
    exact around (.sequence d) (between?_eq_some.mp hbetween)
  case case5 hword =>
    cases h
    exact around (.name _ hword) rfl
  all_goals cases h

theorem parseChars_eq_ok {s : List Char} {e : TypeExpr} :
    parseChars s = .ok e ↔ ∃ d : Derivation .type, d.text = s ∧ d.tree = e := by
  refine ⟨exists_derivation_of_parseChars, ?_⟩
  rintro ⟨d, rfl, rfl⟩
  exact d.reads

end WireCodec.Typing

/-! ## Text of a type -/

namespace WireCodec.TypeExpr

/-- A type of which the names are words and the lengths can be counted. -/
def Spellable : TypeExpr → Prop
  | named name => Text.isWord name.toList = true
  | array elem length => elem.Spellable ∧ length < wordLimit
  | sequence elem => elem.Spellable

theorem toList_text_array (elem : TypeExpr) (length : Nat) :
    (array elem length).text.toList =
      ['['] ++ (elem.text.toList ++ ';' :: ' ' :: Nat.toDigits 10 length) ++ [']'] := by
  show s!"[{elem.text}; {length}]".toList = _
  simp [toString, Nat.repr_eq_ofList_toDigits]

theorem toList_text_sequence (elem : TypeExpr) :
    (sequence elem).text.toList = ['V', 'e', 'c', '<'] ++ elem.text.toList ++ ['>'] := by
  show s!"Vec<{elem.text}>".toList = _
  simp [toString]

end WireCodec.TypeExpr

namespace WireCodec.Typing

/-- Types that can be read can be written. -/
theorem Derivation.spellable {s : Symbol} (d : Derivation s) : d.tree.Spellable := by
  induction d with
  | blanks before inner after hbefore hafter ih => exact ih
  | name word isWord =>
    show Text.isWord (String.ofList word).toList = true
    rwa [String.toList_ofList]
  | array elem behind length spells ih => exact ⟨ih, spells.inRange⟩
  | sequence elem ih => exact ih

/-- The length of an array is printed behind one blank. -/
theorem spellsLength_toDigits {n : Nat} (h : n < wordLimit) :
    SpellsLength (' ' :: Nat.toDigits 10 n) n := by
  have hdigit {c : Char} (hc : c ∈ Nat.toDigits 10 n) : Text.isBlank c = false := by
    apply isBlank_of_isWordChar
    have hc := Nat.isDigit_of_mem_toDigits (by decide) (by decide) hc
    simp [Text.isWordChar, Char.isAlphanum, hc]
  have htrim : Text.trim (' ' :: Nat.toDigits 10 n) = Nat.toDigits 10 n := by
    rw [Text.trim_cons_of_blank (by decide)]
    exact Text.trim_of_clean (fun c hc => hdigit (List.mem_of_mem_head? hc))
      (fun c hc => hdigit (List.mem_of_mem_getLast? hc))
  refine ⟨⟨Nat.toDigits 10 n, Length.numeral_toDigits n, .inl ?_⟩, h⟩
  rw [htrim, List.filter_eq_self]
  intro c hc
  rw [bne_iff_ne]
  rintro rfl
  exact Nat.underscore_not_in_toDigits hc

/-- A spellable type is written as a text with a derivation. -/
theorem exists_derivation_text {e : TypeExpr} (h : e.Spellable) :
    ∃ d : Derivation .type, d.text = e.text.toList ∧ d.tree = e := by
  -- No blanks stand around what is printed.
  have bare (inner : Derivation .body) :
      ∃ d : Derivation .type, d.text = inner.text ∧ d.tree = inner.tree :=
    ⟨.blanks [] inner [] (by decide) (by decide), by simp [Derivation.text], rfl⟩
  induction e with
  | named name =>
    obtain ⟨d, htext, htree⟩ := bare (.name name.toList h)
    refine ⟨d, htext, htree.trans ?_⟩
    show TypeExpr.named (String.ofList name.toList) = .named name
    rw [String.ofList_toList]
  | array elem length ih =>
    obtain ⟨d, htext, rfl⟩ := ih h.1
    rw [TypeExpr.toList_text_array, ← htext]
    exact bare (.array d _ length (spellsLength_toDigits h.2))
  | sequence elem ih =>
    obtain ⟨d, htext, rfl⟩ := ih h
    rw [TypeExpr.toList_text_sequence, ← htext]
    exact bare (.sequence d)

end WireCodec.Typing

namespace WireCodec.TypeExpr

open Typing

/-- The reader accepts exactly the grammar.  Text is read as `e` when it has a derivation of `e`,
and it has at most one derivation.  Those types are read back from their own text whose names are
words and whose lengths can be counted. -/
theorem parse_iff_spelled (text : String) :
    (∀ e, parse text = .ok e ↔ ∃ d : Derivation .type, d.text = text.toList ∧ d.tree = e) ∧
    (∀ d d' : Derivation .type, d.text = text.toList → d'.text = text.toList → d = d') ∧
    ∀ e : TypeExpr, parse e.text = .ok e ↔ e.Spellable := by
  refine ⟨fun e => parseChars_eq_ok, fun d d' h h' => d.eq_of_text d' (h.trans h'.symm), ?_⟩
  intro e
  constructor
  · intro h
    obtain ⟨d, -, rfl⟩ := parseChars_eq_ok.mp h
    exact d.spellable
  · intro h
    exact parseChars_eq_ok.mpr (exists_derivation_text h)

theorem parse_iff_spelled_matrix :
    ∃ d : Derivation .type, d.text = "\t[ Vec<Celsius> ;+1_6 ]".toList ∧
      parse "\t[ Vec<Celsius> ;+1_6 ]" = .ok (.array (.sequence (.named "Celsius")) 16) ∧
      (∀ d' : Derivation .type, d'.text = "\t[ Vec<Celsius> ;+1_6 ]".toList → d' = d) ∧
      parse "[Vec<Celsius>; 16]" = .ok (.array (.sequence (.named "Celsius")) 16) := by
  obtain ⟨hparse, hunique, hprinted⟩ := parse_iff_spelled "\t[ Vec<Celsius> ;+1_6 ]"
  have hlength : SpellsLength "+1_6 ".toList 16 := readLength_eq_some.mp (by decide +kernel)
  let name : Derivation .type :=
    .blanks [] (.name "Celsius".toList (by decide)) [] (by decide) (by decide)
  let elem : Derivation .type :=
    .blanks [' '] (.sequence name) [' '] (by decide) (by decide)
  let d : Derivation .type :=
    .blanks ['\t'] (.array elem _ 16 hlength) [] (by decide) (by decide)
  have htext : d.text = "\t[ Vec<Celsius> ;+1_6 ]".toList := rfl
  have hprint : (array (sequence (named "Celsius")) 16).text = "[Vec<Celsius>; 16]" := by
    decide +kernel
  have hspellable : (array (sequence (named "Celsius")) 16).Spellable :=
    ⟨show Text.isWord "Celsius".toList = true from by decide, by decide⟩
  exact ⟨d, htext, (hparse _).mpr ⟨d, htext, rfl⟩,
    fun d' h => hunique d' d h htext, hprint ▸ (hprinted _).mpr hspellable⟩

end WireCodec.TypeExpr
