import WireCodec.Proofs.Length.Lexing
import WireCodec.Typing.TypeExpr

/-!
# The grammar of declared types

What text declares which type, said without a reader:

    type := blank* body blank*
    body := NAME | '[' type ';' LENGTH ']' | 'Vec<' type '>'

A derivation holds the very characters that it was made from, the blanks among them.
`Derivation.eq_of_text` says that no text has two derivations.
-/

namespace WireCodec.Typing

/-! ## Derivations -/

def Blanks (s : List Char) : Prop := ∀ c ∈ s, Text.isBlank c = true

instance (s : List Char) : Decidable (Blanks s) := List.decidableBAll _ s

/-- Text spells the length of an array: without the blanks around it and without underscores it is a
decimal numeral below the limit, perhaps with a plus sign in front. -/
structure SpellsLength (s : List Char) (n : Nat) : Prop where
  numeral : ∃ digits, Length.Numeral 10 digits n ∧
    ((Text.trim s).filter (· != '_') = digits ∨ (Text.trim s).filter (· != '_') = '+' :: digits)
  inRange : n < wordLimit

inductive Symbol where
  | type
  | body
  deriving DecidableEq, Repr

inductive Derivation : Symbol → Type where
  | blanks (before : List Char) (inner : Derivation .body) (after : List Char)
    (hbefore : Blanks before) (hafter : Blanks after) : Derivation .type
  | name (word : List Char) (isWord : Text.isWord word = true) : Derivation .body
  | array (elem : Derivation .type) (behind : List Char) (length : Nat)
    (spells : SpellsLength behind length) : Derivation .body
  | sequence (elem : Derivation .type) : Derivation .body

namespace Derivation

def text : {s : Symbol} → Derivation s → List Char
  | _, blanks before inner after _ _ => before ++ (inner.text ++ after)
  | _, name word _ => word
  | _, array elem behind _ _ => ['['] ++ (elem.text ++ ';' :: behind) ++ [']']
  | _, sequence elem => ['V', 'e', 'c', '<'] ++ elem.text ++ ['>']

def tree : {s : Symbol} → Derivation s → TypeExpr
  | _, blanks _ inner _ _ _ => inner.tree
  | _, name word _ => .named (String.ofList word)
  | _, array elem _ length _ => .array elem.tree length
  | _, sequence elem => .sequence elem.tree

end Derivation

/-! ## Blanks around a body -/

/-- Text with no blank at either end. -/
structure Clean (s : List Char) : Prop where
  ne_nil : s ≠ []
  front : ∀ c ∈ s.head?, Text.isBlank c = false
  back : ∀ c ∈ s.getLast?, Text.isBlank c = false

theorem isBlank_of_isWordChar {c : Char} (h : Text.isWordChar c = true) :
    Text.isBlank c = false := by
  apply Bool.eq_false_iff.mpr
  intro hblank
  rw [Text.isWordChar_of_isBlank hblank] at h
  cases h

theorem clean_of_isWord {s : List Char} (h : Text.isWord s = true) : Clean s where
  ne_nil := by
    rintro rfl
    cases h
  front c hc := isBlank_of_isWordChar (Text.isWordChar_of_mem h (List.mem_of_mem_head? hc))
  back c hc := isBlank_of_isWordChar (Text.isWordChar_of_mem h (List.mem_of_mem_getLast? hc))

/-- Marks on both sides keep blanks inside. -/
theorem clean_between {a b : Char} (ha : Text.isBlank a = false) (hb : Text.isBlank b = false)
    (s t : List Char) : Clean (a :: s ++ t ++ [b]) where
  ne_nil := by simp
  front c hc := by
    cases hc
    exact ha
  back c hc := by
    rw [List.getLast?_concat] at hc
    cases hc
    exact hb

/-- The body of a type has no blanks around it. -/
theorem Derivation.clean (d : Derivation .body) : Clean d.text := by
  cases d with
  | name word isWord => exact clean_of_isWord isWord
  | array elem behind length spells => exact clean_between (by decide) (by decide) [] _
  | sequence elem => exact clean_between (by decide) (by decide) ['e', 'c', '<'] _

/-- Blanks in front of text that starts with none are told apart from it. -/
theorem blanks_append_inj {before before' s s' : List Char} (hb : Blanks before)
    (hb' : Blanks before') (hs : ∀ c ∈ s.head?, Text.isBlank c = false)
    (hs' : ∀ c ∈ s'.head?, Text.isBlank c = false) (h : before ++ s = before' ++ s') :
    before = before' ∧ s = s' := by
  have keep (l : List Char) (hl : ∀ c ∈ l.head?, Text.isBlank c = false) :
      l.dropWhile Text.isBlank = l := by
    cases l with
    | nil => rfl
    | cons a r => simp [hl a rfl]
  have hrest : s = s' := by
    have hdrop := congrArg (List.dropWhile Text.isBlank) h
    rwa [List.dropWhile_append_of_pos hb, List.dropWhile_append_of_pos hb', keep s hs,
      keep s' hs'] at hdrop
  subst hrest
  exact ⟨List.append_cancel_right h, rfl⟩

/-- Text without blanks at its ends is told apart from the blanks around it. -/
theorem blanks_around_inj {before before' s s' after after' : List Char} (hs : Clean s)
    (hs' : Clean s') (hb : Blanks before) (hb' : Blanks before') (ha : Blanks after)
    (ha' : Blanks after') (h : before ++ (s ++ after) = before' ++ (s' ++ after')) :
    before = before' ∧ s = s' ∧ after = after' := by
  have front {l after : List Char} (hl : Clean l) :
      ∀ c ∈ (l ++ after).head?, Text.isBlank c = false := by
    cases l with
    | nil => exact absurd rfl hl.ne_nil
    | cons a r => exact hl.front
  obtain ⟨rfl, hrest⟩ := blanks_append_inj hb hb' (front hs) (front hs') h
  -- The blanks behind are in front on the reversed text.
  have hreversed : after.reverse ++ s.reverse = after'.reverse ++ s'.reverse := by
    simpa using congrArg List.reverse hrest
  obtain ⟨hafter, hinner⟩ := blanks_append_inj (fun c hc => ha c (List.mem_reverse.mp hc))
    (fun c hc => ha' c (List.mem_reverse.mp hc)) (by simpa using hs.back)
    (by simpa using hs'.back) hreversed
  exact ⟨rfl, List.reverse_inj.mp hinner, List.reverse_inj.mp hafter⟩

/-- Trimming takes blanks away from the two ends, and nothing else. -/
theorem exists_blanks_around_trim (s : List Char) :
    ∃ before after, Blanks before ∧ Blanks after ∧ s = before ++ (Text.trim s ++ after) := by
  have taken (l : List Char) : Blanks (l.takeWhile Text.isBlank) :=
    fun c hc => List.all_eq_true.mp List.all_takeWhile c hc
  refine ⟨s.takeWhile Text.isBlank,
    ((s.dropWhile Text.isBlank).reverse.takeWhile Text.isBlank).reverse, taken s,
    fun c hc => taken _ c (List.mem_reverse.mp hc), ?_⟩
  rw [Text.trim, Text.trimEnd, ← List.reverse_append, List.takeWhile_append_dropWhile,
    List.reverse_reverse, List.takeWhile_append_dropWhile]

/-! ## Lengths -/

theorem SpellsLength.unique {s : List Char} {m n : Nat} (h : SpellsLength s m)
    (h' : SpellsLength s n) : m = n := by
  -- No digit is a plus sign, so the digits are the same in both.
  have noPlus {digits : List Char} {n : Nat} : ¬Length.Numeral 10 ('+' :: digits) n := by
    intro hnumeral
    cases hnumeral.isSome_of_mem (List.mem_cons_self ..)
  obtain ⟨digits, hm, hdigits⟩ := h.numeral
  obtain ⟨digits', hn, hdigits'⟩ := h'.numeral
  have hsame : digits = digits' := by
    rcases hdigits with rfl | hdigits <;> rcases hdigits' with rfl | hdigits'
    · rfl
    · rw [hdigits'] at hm
      exact absurd hm noPlus
    · rw [hdigits] at hn
      exact absurd hn noPlus
    · exact (List.cons.inj (hdigits.symm.trans hdigits')).2
  subst hsame
  have hread := Text.readDigits_eq_some.mpr hm
  rw [Text.readDigits_eq_some.mpr hn] at hread
  exact (Option.some.inj hread).symm

/-- A length holds no semicolon, so the last one in front of it is the one that ends the type. -/
theorem SpellsLength.semicolon_not_mem {s : List Char} {n : Nat} (h : SpellsLength s n) :
    ';' ∉ s := by
  obtain ⟨digits, hnumeral, hdigits⟩ := h.numeral
  obtain ⟨before, after, hbefore, hafter, hs⟩ := exists_blanks_around_trim s
  intro hmem
  rw [hs, List.mem_append, List.mem_append] at hmem
  rcases hmem with hmem | hmem | hmem
  · cases hbefore _ hmem
  · have hkept : ';' ∈ (Text.trim s).filter (· != '_') := List.mem_filter.mpr ⟨hmem, by decide⟩
    rcases hdigits with hdigits | hdigits
    · rw [hdigits] at hkept
      cases hnumeral.isSome_of_mem hkept
    · rw [hdigits] at hkept
      have hdigit : ';' ∈ digits := by simpa using hkept
      cases hnumeral.isSome_of_mem hdigit
  · cases hafter _ hmem

/-! ## No text has two derivations -/

/-- Only one cut at a semicolon leaves none behind it. -/
theorem append_semicolon_inj {front front' behind behind' : List Char} (hb : ';' ∉ behind)
    (hb' : ';' ∉ behind') (h : front ++ ';' :: behind = front' ++ ';' :: behind') :
    front = front' ∧ behind = behind' := by
  induction front generalizing front' with
  | nil =>
    cases front' with
    | nil => exact ⟨rfl, (List.cons.inj h).2⟩
    | cons c rest =>
      apply absurd _ hb
      rw [(List.cons.inj h).2]
      simp
  | cons c rest ih =>
    cases front' with
    | nil =>
      apply absurd _ hb'
      rw [← (List.cons.inj h).2]
      simp
    | cons c' rest' =>
      obtain ⟨rfl, hrest⟩ := List.cons.inj h
      obtain ⟨rfl, rfl⟩ := ih hrest
      exact ⟨rfl, rfl⟩

namespace Derivation

/-- The grammar is not ambiguous: a text has one derivation. -/
theorem eq_of_text {s : Symbol} (d d' : Derivation s) (h : d.text = d'.text) : d = d' := by
  induction d with
  | blanks before inner after hbefore hafter ih =>
    cases d' with
    | blanks before' inner' after' hbefore' hafter' =>
      obtain ⟨rfl, hinner, rfl⟩ := blanks_around_inj inner.clean inner'.clean hbefore hbefore'
        hafter hafter' h
      rw [ih inner' hinner]
  | name word isWord =>
    cases d' with
    | name word' isWord' =>
      obtain rfl : word = word' := h
      rfl
    | array elem behind length spells =>
      -- A bracket is no part of a word, and neither is the angle in the next case.
      have hmem : '[' ∈ word := by
        rw [show word = _ from h]
        simp [text]
      cases Text.isWordChar_of_mem isWord hmem
    | sequence elem =>
      have hmem : '<' ∈ word := by
        rw [show word = _ from h]
        simp [text]
      cases Text.isWordChar_of_mem isWord hmem
  | array elem behind length spells ih =>
    cases d' with
    | name word isWord =>
      have hmem : '[' ∈ word := by
        rw [show word = _ from h.symm]
        simp [text]
      cases Text.isWordChar_of_mem isWord hmem
    | array elem' behind' length' spells' =>
      have hinside := List.append_cancel_left (List.append_cancel_right h)
      obtain ⟨helem, rfl⟩ :=
        append_semicolon_inj spells.semicolon_not_mem spells'.semicolon_not_mem hinside
      obtain rfl := spells.unique spells'
      rw [ih elem' helem]
    | sequence elem' => cases h
  | sequence elem ih =>
    cases d' with
    | name word isWord =>
      have hmem : '<' ∈ word := by
        rw [show word = _ from h.symm]
        simp [text]
      cases Text.isWordChar_of_mem isWord hmem
    | array elem' behind length spells => cases h
    | sequence elem' =>
      rw [ih elem' (List.append_cancel_left (List.append_cancel_right h))]

end Derivation

end WireCodec.Typing
