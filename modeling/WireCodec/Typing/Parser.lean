import WireCodec.Text.Blank
import WireCodec.Text.Digits
import WireCodec.Text.Word
import WireCodec.Typing.Error

/-!
# Reading declared types

A type is written as a name, as an element type and a length in brackets, or as an element type
between `Vec<` and `>`, with blanks allowed around every type.  The length of an array is what
stands behind the last semicolon.
-/

namespace WireCodec.Typing

/-- What stands between an opening text and a closing character. -/
def between? (opening : List Char) (closing : Char) (s : List Char) : Option (List Char) :=
  if opening.isPrefixOf s then
    let rest := s.drop opening.length
    if rest.getLast? = some closing then some rest.dropLast else none
  else none

def splitLast (c : Char) (s : List Char) : Option (List Char × List Char) :=
  let behind := s.reverse.takeWhile (· != c)
  match s.reverse.dropWhile (· != c) with
  | [] => none
  | _ :: front => some (front.reverse, behind.reverse)

/-- The length that the text behind the semicolon spells: digits, with underscores anywhere and a
plus sign in front. -/
def readLength (s : List Char) : Option Nat :=
  match (Text.trim s).filter (· != '_') with
  | '+' :: digits => Text.readWord 10 digits
  | digits => Text.readWord 10 digits

theorem length_between? {opening : List Char} {closing : Char} {s inner : List Char}
    (h : between? opening closing s = some inner) : inner.length < s.length := by
  unfold between? at h
  split at h
  · simp only [Option.ite_none_right_eq_some, Option.some.injEq] at h
    obtain ⟨hl, rfl⟩ := h
    have hne : s.drop opening.length ≠ [] := by
      intro e
      simp [e] at hl
    have hpos := List.length_pos_iff.mpr hne
    have hle : (s.drop opening.length).length ≤ s.length := by simp
    rw [List.length_dropLast]
    omega
  · cases h

theorem length_splitLast {c : Char} {s front behind : List Char}
    (h : splitLast c s = some (front, behind)) : front.length < s.length := by
  unfold splitLast at h
  split at h
  · cases h
  · rename_i a r hd
    cases h
    have hle := (List.dropWhile_sublist (· != c) (l := s.reverse)).length_le
    simp only [hd, List.length_cons, List.length_reverse] at hle
    simp only [List.length_reverse]
    omega

def parseChars (s : List Char) : Except TypeError TypeExpr :=
  let t := Text.trim s
  match _hb : between? ['['] ']' t with
  | some inner =>
    match _hs : splitLast ';' inner with
    | none => .error (.arrayWithoutLength (String.ofList t))
    | some (front, behind) =>
      -- A fault in the length is told before one in the element type.
      match readLength behind with
      | none => .error (.badArrayLength (String.ofList t))
      | some length => do return .array (← parseChars front) length
  | none =>
    match _hv : between? ['V', 'e', 'c', '<'] '>' t with
    | some inner => do return .sequence (← parseChars inner)
    | none =>
      if Text.isWord t then .ok (.named (String.ofList t))
      else .error (.unreadable (String.ofList t))
termination_by s.length
decreasing_by
  · have h₁ : t.length ≤ s.length := Text.length_trim_le s
    have h₂ := length_between? _hb
    have h₃ := length_splitLast _hs
    omega
  · have h₁ : t.length ≤ s.length := Text.length_trim_le s
    have h₂ := length_between? _hv
    omega

end WireCodec.Typing

namespace WireCodec.TypeExpr

def parse (text : String) : Except TypeError TypeExpr :=
  Typing.parseChars text.toList

end WireCodec.TypeExpr
