import Mathlib.Data.String.Basic
import WireCodec.Proofs.Length.Positions
import WireCodec.Proofs.Length.Refusals

/-!
# What is to blame

Text that is no length expression is refused for one reason, and the reason names its place: the
first comment mark, the first piece that is no token, or the token at which the reader stops.  The
place is the number of characters in front, except for comment marks, in front of which bytes are
counted.
-/

namespace WireCodec.Length

/-! ## Comment marks -/

theorem length_le_utf8Len (s : List Char) : s.length ≤ String.utf8Len s := by
  induction s with
  | nil => exact Nat.le_refl 0
  | cons c s ih =>
    have hc := c.utf8Size_pos
    rw [String.utf8Len_cons, List.length_cons]
    omega

/-- Bytes are as many as characters where every character takes one. -/
theorem utf8Len_eq_length_iff {s : List Char} :
    String.utf8Len s = s.length ↔ ∀ c ∈ s, c.utf8Size = 1 := by
  induction s with
  | nil => exact iff_of_true rfl (List.forall_mem_nil _)
  | cons c s ih =>
    have hc := c.utf8Size_pos
    have hs := length_le_utf8Len s
    rw [String.utf8Len_cons, List.length_cons, List.forall_mem_cons, ← ih]
    omega

/-- The first comment mark of text stands behind `front`. -/
structure FirstMark (s front : List Char) : Prop where
  mark : ∃ c d back, s = front ++ c :: d :: back ∧ isCommentMark c d = true
  first : ∀ other c d back, s = other ++ c :: d :: back → isCommentMark c d = true →
    front.length ≤ other.length

def NoMark (s : List Char) : Prop :=
  ∀ front c d back, s = front ++ c :: d :: back → isCommentMark c d = false

theorem noMark_cons {c d : Char} {rest : List Char} :
    NoMark (c :: d :: rest) ↔ isCommentMark c d = false ∧ NoMark (d :: rest) := by
  constructor
  · intro h
    refine ⟨h [] c d rest rfl, fun front c' d' back hs => h (c :: front) c' d' back ?_⟩
    rw [hs, List.cons_append]
  · intro ⟨hmark, hrest⟩ front c' d' back hs
    cases front with
    | nil =>
      cases hs
      exact hmark
    | cons first front => exact hrest front c' d' back (List.cons.inj hs).2

theorem noMark_of_short {s : List Char} (h : ∀ c d rest, s ≠ c :: d :: rest) : NoMark s := by
  intro front c d back hs
  cases front with
  | nil => exact absurd hs (h c d back)
  | cons first front =>
    cases front with
    | nil => exact absurd hs (h first c (d :: back))
    | cons second front => exact absurd hs (h first second (front ++ c :: d :: back))

theorem findComment_eq_none {offset : Nat} {s : List Char} :
    findComment offset s = none ↔ NoMark s := by
  induction offset, s using findComment.induct with
  | case1 offset c d rest hmark =>
    rw [findComment, if_pos hmark, noMark_cons, hmark]
    simp
  | case2 offset c d rest hmark ih =>
    rw [findComment, if_neg hmark, noMark_cons, ih]
    simp [hmark]
  | case3 offset s hshort =>
    rw [findComment]
    · exact iff_of_true rfl (noMark_of_short hshort)
    · exact hshort

/-- The first mark stays the first behind a character that opens none. -/
theorem FirstMark.cons {c d : Char} {rest front : List Char} (hmark : isCommentMark c d = false)
    (h : FirstMark (d :: rest) front) : FirstMark (c :: d :: rest) (c :: front) where
  mark := by
    obtain ⟨c', d', back, hs, hmark'⟩ := h.mark
    exact ⟨c', d', back, by rw [hs]; rfl, hmark'⟩
  first := by
    intro other c' d' back hs hmark'
    cases other with
    | nil =>
      cases hs
      rw [hmark] at hmark'
      cases hmark'
    | cons first other =>
      exact Nat.succ_le_succ (h.first other c' d' back (List.cons.inj hs).2 hmark')

theorem findComment_eq_some {offset n : Nat} {s : List Char} (h : findComment offset s = some n) :
    ∃ front, FirstMark s front ∧ n = offset + String.utf8Len front := by
  induction offset, s using findComment.induct with
  | case1 offset c d rest hmark =>
    rw [findComment, if_pos hmark] at h
    exact ⟨[], ⟨⟨c, d, rest, rfl, hmark⟩, fun _ _ _ _ _ _ => Nat.zero_le _⟩,
      (Option.some.inj h).symm⟩
  | case2 offset c d rest hmark ih =>
    rw [findComment, if_neg hmark] at h
    obtain ⟨front, hfirst, hn⟩ := ih h
    refine ⟨c :: front, hfirst.cons (Bool.eq_false_iff.mpr hmark), ?_⟩
    rw [hn, String.utf8Len_cons, Nat.add_assoc, Nat.add_comm c.utf8Size]
  | case3 offset s hshort =>
    rw [findComment] at h
    · cases h
    · exact hshort

/-- Text has one first mark. -/
theorem FirstMark.unique {s front front' : List Char} (h : FirstMark s front)
    (h' : FirstMark s front') : front = front' := by
  obtain ⟨c, d, back, hs, hmark⟩ := h.mark
  obtain ⟨c', d', back', hs', hmark'⟩ := h'.mark
  have hlength : front.length = front'.length :=
    Nat.le_antisymm (h.first front' c' d' back' hs' hmark') (h'.first front c d back hs hmark)
  exact (List.append_inj (hs.symm.trans hs') hlength).1

theorem FirstMark.not_noMark {s front : List Char} (h : FirstMark s front) : ¬NoMark s := by
  obtain ⟨c, d, back, hs, hmark⟩ := h.mark
  intro hclean
  rw [hclean front c d back hs] at hmark
  cases hmark

/-- A comment is found exactly at the first mark. -/
theorem findComment_eq_some_iff {n : Nat} {s : List Char} :
    findComment 0 s = some n ↔ ∃ front, FirstMark s front ∧ n = String.utf8Len front := by
  constructor
  · intro h
    obtain ⟨front, hfirst, hn⟩ := findComment_eq_some h
    exact ⟨front, hfirst, hn.trans (Nat.zero_add _)⟩
  · intro ⟨front, hfirst, hn⟩
    cases hfound : findComment 0 s with
    | none => exact absurd (findComment_eq_none.mp hfound) hfirst.not_noMark
    | some m =>
      obtain ⟨front', hfirst', hm⟩ := findComment_eq_some hfound
      rw [hfirst.unique hfirst'] at hn
      rw [hn, hm, Nat.zero_add]

/-! ## The one reason -/

/-- Why trimmed text is no length expression, and where.  Comment marks go before stray pieces, and
stray pieces before tokens that are out of place. -/
inductive Culprit (s : List Char) : SourceError → Prop where
  | empty (nothing : s = []) : Culprit s .empty
  | comment {front : List Char} (first : FirstMark s front) :
    Culprit s (.comment (String.utf8Len front))
  | piece {front rest : List Char} {ts : List Token} {fault : Nat → SourceError} (clean : NoMark s)
    (passed : Passed s front rest ts) (stuck : Stuck rest fault) : Culprit s (fault front.length)
  | token {ts : List Placed} {e : SourceError} (clean : NoMark s) (nonempty : s ≠ [])
    (stand : Stand s ts) (refused : Refused (String.ofList s) ts e) : Culprit s e

theorem Stuck.ne_nil {rest : List Char} {fault : Nat → SourceError} (h : Stuck rest fault) :
    rest ≠ [] := by
  cases h with
  | stray word blank symbol => exact List.cons_ne_nil _ _
  | badInteger nonempty inside maximal none => exact List.append_ne_nil_of_left_ne_nil nonempty _

/-- What the reader does with text that has no comment mark. -/
theorem parseChars_of_noMark {text : List Char} (nonempty : Text.trim text ≠ [])
    (clean : NoMark (Text.trim text)) :
    parseChars text = scan 0 none (Text.trim text) >>=
      readTokens (String.ofList (Text.trim text)) [] .none none := by
  dsimp only [parseChars]
  rw [if_neg (by simpa using nonempty), findComment_eq_none.mpr clean]
  rfl

/-- Every refusal names a culprit. -/
theorem culprit_of_parseChars {text : List Char} {e : SourceError}
    (h : parseChars text = .error e) : Culprit (Text.trim text) e := by
  by_cases nonempty : Text.trim text = []
  · rw [parseChars, nonempty] at h
    cases h
    exact .empty nonempty
  cases hfound : findComment 0 (Text.trim text) with
  | some offset =>
    dsimp only [parseChars] at h
    rw [if_neg (by simpa using nonempty), hfound] at h
    cases h
    obtain ⟨front, hfirst, rfl⟩ := findComment_eq_some_iff.mp hfound
    exact .comment hfirst
  | none =>
    have clean := findComment_eq_none.mp hfound
    rw [parseChars_of_noMark nonempty clean] at h
    rcases bind_eq_error.mp h with hscan | ⟨ts, hscan, hread⟩
    · obtain ⟨front, rest, ts, fault, hpassed, hstuck, rfl⟩ := scan_eq_error_iff.mp hscan
      exact .piece clean hpassed hstuck
    · exact .token clean nonempty (scan_eq_ok_iff.mp hscan) (readTokens_eq_error_iff.mp hread)

/-- Text with a culprit is refused because of it. -/
theorem parseChars_of_culprit {text : List Char} {e : SourceError}
    (h : Culprit (Text.trim text) e) : parseChars text = .error e := by
  cases h with
  | empty nothing =>
    rw [parseChars, nothing]
    rfl
  | @comment front first =>
    have hfound := findComment_eq_some_iff.mpr ⟨front, first, rfl⟩
    have nonempty : Text.trim text ≠ [] := by
      intro hempty
      rw [hempty] at hfound
      cases hfound
    dsimp only [parseChars]
    rw [if_neg (by simpa using nonempty), hfound]
  | @piece front rest ts fault clean passed stuck =>
    have nonempty : Text.trim text ≠ [] := by
      rw [passed.whole]
      exact List.append_ne_nil_of_right_ne_nil _ stuck.ne_nil
    rw [parseChars_of_noMark nonempty clean,
      scan_eq_error_iff.mpr ⟨front, rest, ts, fault, passed, stuck, rfl⟩]
    rfl
  | @token ts e clean nonempty stand refused =>
    rw [parseChars_of_noMark nonempty clean, scan_eq_ok_iff.mpr stand, ok_bind]
    exact readTokens_eq_error_iff.mpr refused

theorem parseChars_eq_error {text : List Char} {e : SourceError} :
    parseChars text = .error e ↔ Culprit (Text.trim text) e :=
  ⟨culprit_of_parseChars, parseChars_of_culprit⟩

/-- Only a comment mark is refused as one. -/
theorem Culprit.exists_mark {s : List Char} {e : SourceError} (h : Culprit s e) {offset : Nat}
    (he : e = .comment offset) : ∃ front, FirstMark s front ∧ offset = String.utf8Len front := by
  cases h with
  | empty nothing => cases he
  | comment first =>
    cases he
    exact ⟨_, first, rfl⟩
  | piece clean passed stuck => cases stuck <;> cases he
  | token clean nonempty stand refused => cases refused <;> cases he

end WireCodec.Length

namespace WireCodec.LengthExpr

open Length

/-- Text is refused for what is to blame and in no other case.  The number that comes with a comment
mark is the place of the first one where all characters in front take one byte; elsewhere it is
greater. -/
theorem parse_eq_error_iff (text : String) :
    (∀ e, parse text = .error e ↔ Culprit (Text.trim text.toList) e) ∧
      ∀ offset, parse text = .error (.comment offset) →
        ∃ front, FirstMark (Text.trim text.toList) front ∧ front.length ≤ offset ∧
          (offset = front.length ↔ ∀ c ∈ front, c.utf8Size = 1) := by
  refine ⟨fun e => parseChars_eq_error, fun offset h => ?_⟩
  obtain ⟨front, hfirst, rfl⟩ := (parseChars_eq_error.mp h).exists_mark rfl
  exact ⟨front, hfirst, length_le_utf8Len front, utf8Len_eq_length_iff⟩

/-- Behind a character of two bytes the number is not the place of the mark. -/
theorem comment_offset_beyond : ¬∀ text offset, parse text = .error (.comment offset) →
    ∃ front, FirstMark (Text.trim text.toList) front ∧ offset = front.length := by
  intro h
  obtain ⟨front, hfirst, hlength⟩ := h "é // n" 3 (by decide +kernel)
  have hbound : front.length ≤ 2 :=
    hfirst.first ['é', ' '] '/' '/' [' ', 'n'] (by decide +kernel) rfl
  omega

end WireCodec.LengthExpr
