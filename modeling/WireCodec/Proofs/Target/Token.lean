import WireCodec.Proofs.Length.Lexing
import WireCodec.Text.Letter

/-!
# Tokens of generated expressions

How the target language cuts an expression into tokens.  Letters that could go on belong to one
token, and so do marks that make a longer one.  Names that are joined by pairs of colons are kept
together: nothing that stands between them matters to an expression.
-/

namespace WireCodec.Target

inductive Token where
  /-- A name, a keyword, a number, or names joined by pairs of colons. -/
  | word (text : String)
  /-- A mark of one character. -/
  | mark (c : Char)
  /-- A mark of the same character twice. -/
  | double (c : Char)
  /-- The mark in front of the type of a result. -/
  | arrow
  deriving DecidableEq, Repr

/-- The characters of names and numbers, with the hash of a name in raw form. -/
def isWordChar (c : Char) : Bool := Text.continuesIdentifier c || c == '#'

/-- Puts a word, whose characters are given last first, in front of tokens. -/
def closeWord (word : List Char) (rest : List Token) : List Token :=
  if word.isEmpty then rest else .word (.ofList word.reverse) :: rest

/-- The tokens of text behind the characters of a word, which are given last first. -/
def scanFrom (word : List Char) : List Char → List Token
  | [] => closeWord word []
  | ':' :: ':' :: rest => scanFrom (':' :: ':' :: word) rest
  | '-' :: '>' :: rest => closeWord word (.arrow :: scanFrom [] rest)
  | '<' :: '<' :: rest => closeWord word (.double '<' :: scanFrom [] rest)
  | '>' :: '>' :: rest => closeWord word (.double '>' :: scanFrom [] rest)
  | '|' :: '|' :: rest => closeWord word (.double '|' :: scanFrom [] rest)
  | c :: rest =>
    if isWordChar c then scanFrom (c :: word) rest
    else closeWord word (if c = ' ' then scanFrom [] rest else .mark c :: scanFrom [] rest)

def tokens (s : List Char) : List Token := scanFrom [] s

/-- No word goes on into the text. -/
def Stops (s : List Char) : Prop := ∀ word, scanFrom word s = closeWord word (tokens s)

theorem stops_nil : Stops [] := fun _ => rfl

theorem isWordChar_of_continuesIdentifier {c : Char} (h : Text.continuesIdentifier c = true) :
    isWordChar c = true := by
  rw [isWordChar, h, Bool.true_or]

/-- The characters of words are ASCII. -/
theorem ascii_of_textWordChar {c : Char} (h : Text.isWordChar c = true) : c.toNat < 0x80 := by
  simp only [Text.isWordChar, Char.isAlphanum, Bool.or_eq_true, beq_iff_eq, Text.isAlpha_iff,
    Text.isDigit_iff] at h
  rcases h with rfl | hletter | hdigit
  · decide
  · omega
  · omega

theorem continuesIdentifier_of_textWordChar {c : Char} (h : Text.isWordChar c = true) :
    Text.continuesIdentifier c = true := by
  rw [Text.continuesIdentifier, if_pos (ascii_of_textWordChar h), h]

theorem isWordChar_of_textWordChar {c : Char} (h : Text.isWordChar c = true) :
    isWordChar c = true :=
  isWordChar_of_continuesIdentifier (continuesIdentifier_of_textWordChar h)

theorem scanFrom_wordChar {c : Char} (hc : isWordChar c = true) (word rest : List Char) :
    scanFrom word (c :: rest) = scanFrom (c :: word) rest := by
  have hne {d : Char} (hd : isWordChar d = false) : c ≠ d := by
    rintro rfl
    rw [hc] at hd
    cases hd
  rw [scanFrom, if_pos hc]
  · exact fun _ h _ => hne (by decide) h
  · exact fun _ h _ => hne (by decide) h
  · exact fun _ h _ => hne (by decide) h
  · exact fun _ h _ => hne (by decide) h
  · exact fun _ h _ => hne (by decide) h

/-- Word characters go on with the word that was begun. -/
theorem scanFrom_append {letters : List Char} (h : ∀ c ∈ letters, isWordChar c = true)
    (word rest : List Char) :
    scanFrom word (letters ++ rest) = scanFrom (letters.reverse ++ word) rest := by
  induction letters generalizing word with
  | nil => rfl
  | cons c letters ih =>
    rw [List.cons_append, scanFrom_wordChar (h c (List.mem_cons_self ..)),
      ih fun d hd => h d (List.mem_cons_of_mem c hd), List.reverse_cons, List.append_assoc,
      List.singleton_append]

structure IsWord (s : String) : Prop where
  ne_empty : s ≠ ""
  scan : ∀ rest, tokens (s.toList ++ rest) = scanFrom s.toList.reverse rest

theorem isWord_of_chars {s : String} (h : ∀ c ∈ s.toList, isWordChar c = true) (hne : s ≠ "") :
    IsWord s where
  ne_empty := hne
  scan rest := by rw [tokens, scanFrom_append h, List.append_nil]

theorem isWord_of_all {s : String} (h : s.toList.all isWordChar = true) (hne : s ≠ "") :
    IsWord s := isWord_of_chars (List.all_eq_true.mp h) hne

/-- A word in front of something that it does not go on into. -/
theorem IsWord.tokens {s : String} (h : IsWord s) {rest : List Char} (hrest : Stops rest) :
    tokens (s.toList ++ rest) = .word s :: tokens rest := by
  have hsome : s.toList.reverse.isEmpty = false := by
    rw [List.isEmpty_reverse, List.isEmpty_eq_false_iff]
    simpa using h.ne_empty
  rw [h.scan, hrest, closeWord, hsome, if_neg Bool.false_ne_true, List.reverse_reverse,
    String.ofList_toList]

/-- A mark ends the word in front of it. -/
theorem scanFrom_separator {c : Char} (hc : isWordChar c = false) (hcolon : c ≠ ':')
    (word s : List Char) : scanFrom word (c :: s) = closeWord word (tokens (c :: s)) := by
  rw [tokens, scanFrom.eq_def word, scanFrom.eq_def []]
  split
  · rfl
  · simp_all
  · rfl
  · rfl
  · rfl
  · rfl
  · simp_all [closeWord]

theorem stops_cons {c : Char} (hc : isWordChar c = false) (hcolon : c ≠ ':') (s : List Char) :
    Stops (c :: s) :=
  fun word => scanFrom_separator hc hcolon word s

/-- A mark that makes no longer one is a token. -/
theorem tokens_mark {c : Char} (hc : isWordChar c = false)
    (hsingle : c ∉ [':', '-', '<', '>', '|', ' ']) (s : List Char) :
    tokens (c :: s) = .mark c :: tokens s := by
  simp only [List.mem_cons, List.not_mem_nil, or_false, not_or] at hsingle
  rw [tokens, scanFrom, if_neg (by simp [hc]), if_neg hsingle.2.2.2.2.2]
  · rfl
  all_goals simp [hsingle]

example : tokens "(v >> 8) as u8".toList =
    [.mark '(', .word "v", .double '>', .word "8", .mark ')', .word "as", .word "u8"] := by decide

end WireCodec.Target
