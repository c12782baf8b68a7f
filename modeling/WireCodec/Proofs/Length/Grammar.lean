import WireCodec.Length.Token

/-!
# The grammar of length expressions

What text spells which tokens, and which tokens make up an expression, said without a reader.  Text
is cut at blanks, at operators and parentheses, and at the ends of runs of letters, digits and
underscores; tokens are put together by

    expr   := term (('+' | '-') term)*
    term   := factor (('*' | '/' | '%') factor)*
    factor := INTEGER | IDENT | '(' expr ')'

`Derivation.eq_of_tokens` says that no tokens have two derivations.
-/

namespace WireCodec.Length

/-! ## Tokens in text -/

/-- One or more digits of a base, with the number that they spell. -/
inductive Numeral (base : Nat) : List Char → Nat → Prop where
  | digit {c : Char} {d : Nat} (value : Text.digitIn base c = some d) : Numeral base [c] d
  | more {digits : List Char} {n d : Nat} {c : Char} (front : Numeral base digits n)
    (value : Text.digitIn base c = some d) : Numeral base (digits ++ [c]) (n * base + d)

theorem Numeral.ne_nil {base n : Nat} {digits : List Char} (h : Numeral base digits n) :
    digits ≠ [] := by
  cases h <;> simp

/-- The token that a run of letters, digits and underscores spells.  A run that starts with a digit
is a numeral in which underscores do not count, and every other run is a name. -/
inductive RunSpells : List Char → Token → Prop where
  | name {run : List Char} (word : Text.isWord run = true) :
    RunSpells run (.name (String.ofList run))
  | decimal {c : Char} {rest : List Char} {value : UInt64} (digit : c.isDigit = true)
    (numeral : Numeral 10 ((c :: rest).filter (· != '_')) value.toNat) :
    RunSpells (c :: rest) (.integer value)
  | hexadecimal {c x : Char} {rest digits : List Char} {value : UInt64} (digit : c.isDigit = true)
    (mark : x = 'x' ∨ x = 'X') (split : (c :: rest).filter (· != '_') = '0' :: x :: digits)
    (numeral : Numeral 16 digits value.toNat) : RunSpells (c :: rest) (.integer value)

/-- Text spells tokens: blanks are left out, and a run goes on as far as it can. -/
inductive Spells : List Char → List Token → Prop where
  | nil : Spells [] []
  | blank {c : Char} {s : List Char} {ts : List Token} (blank : Text.isBlank c = true)
    (rest : Spells s ts) : Spells (c :: s) ts
  | operator {s : List Char} {ts : List Token} (op : Operator) (rest : Spells s ts) :
    Spells (op.symbol :: s) (.operator op :: ts)
  | leftParen {s : List Char} {ts : List Token} (rest : Spells s ts) :
    Spells ('(' :: s) (.leftParen :: ts)
  | rightParen {s : List Char} {ts : List Token} (rest : Spells s ts) :
    Spells (')' :: s) (.rightParen :: ts)
  | run {run s : List Char} {t : Token} {ts : List Token}
    (inside : ∀ c ∈ run, Text.isWordChar c = true)
    (maximal : ∀ c ∈ s.head?, Text.isWordChar c = false) (token : RunSpells run t)
    (rest : Spells s ts) : Spells (run ++ s) (t :: ts)

/-! ## Expressions in tokens -/

/-- The symbols of the grammar.  `factors` and `terms` stand for what a repetition adds to the first
operand. -/
inductive Symbol where
  | factor
  | factors
  | term
  | terms
  | expr
  deriving DecidableEq, Repr

/-- What is read from a symbol: an expression, or, behind a first operand, the expression that it
goes on to be. -/
def Symbol.Reading : Symbol → Type
  | factors | terms => LengthExpr → LengthExpr
  | factor | term | expr => LengthExpr

/-- A derivation from a symbol. -/
inductive Derivation : Symbol → Type where
  | integer (value : UInt64) : Derivation .factor
  | name (text : String) : Derivation .factor
  | parens (inner : Derivation .expr) : Derivation .factor
  | noFactors : Derivation .factors
  | moreFactors (op : Operator) (isProduct : op.isSum = false) (operand : Derivation .factor)
    (later : Derivation .factors) : Derivation .factors
  | term (first : Derivation .factor) (later : Derivation .factors) : Derivation .term
  | noTerms : Derivation .terms
  | moreTerms (op : Operator) (isSum : op.isSum = true) (operand : Derivation .term)
    (later : Derivation .terms) : Derivation .terms
  | expr (first : Derivation .term) (later : Derivation .terms) : Derivation .expr

namespace Derivation

/-- The tokens from left to right. -/
def tokens : {s : Symbol} → Derivation s → List Token
  | _, integer value => [.integer value]
  | _, name text => [.name text]
  | _, parens inner => .leftParen :: (inner.tokens ++ [.rightParen])
  | _, noFactors | _, noTerms => []
  | _, moreFactors op _ operand later => .operator op :: (operand.tokens ++ later.tokens)
  | _, moreTerms op _ operand later => .operator op :: (operand.tokens ++ later.tokens)
  | _, term first later => first.tokens ++ later.tokens
  | _, expr first later => first.tokens ++ later.tokens

/-- The expression, in which operators of one level group to the left. -/
def tree : {s : Symbol} → Derivation s → s.Reading
  | _, integer value => .const value
  | _, name text => .field text
  | _, parens inner => inner.tree
  | _, noFactors | _, noTerms => fun left => left
  | _, moreFactors op _ operand later => fun left => later.tree (.binary op left operand.tree)
  | _, moreTerms op _ operand later => fun left => later.tree (.binary op left operand.tree)
  | _, term first later => later.tree first.tree
  | _, expr first later => later.tree first.tree

end Derivation

/-! ## No tokens have two derivations -/

/-- Tokens that cannot belong to a derivation from a symbol in front of them. -/
def Symbol.StopsAt : Symbol → List Token → Prop
  | factor, _ => True
  | factors, ts | term, ts => ∀ op, ts.head? = some (.operator op) → op.isSum = true
  | terms, ts | expr, ts => ∀ op, ts.head? ≠ some (.operator op)

namespace Derivation

/-- What follows an operand may follow the operands before it. -/
theorem stopsAt_terms (later : Derivation .terms) {ts : List Token} (h : Symbol.terms.StopsAt ts) :
    Symbol.term.StopsAt (later.tokens ++ ts) := by
  intro op hop
  cases later with
  | noTerms => exact absurd hop (h op)
  | moreTerms other isSum operand later =>
    cases hop
    exact isSum

/-- Of tokens that start with a derivation, only one derivation can be split off. -/
theorem eq_of_append {s : Symbol} (d d' : Derivation s) {ts ts' : List Token} (h : s.StopsAt ts)
    (h' : s.StopsAt ts') (heq : d.tokens ++ ts = d'.tokens ++ ts') : d = d' ∧ ts = ts' := by
  induction d generalizing ts ts' with
  | integer value =>
    cases d' with
    | integer value' =>
      cases heq
      exact ⟨rfl, rfl⟩
    | name text => cases heq
    | parens inner => cases heq
  | name text =>
    cases d' with
    | integer value => cases heq
    | name text' =>
      cases heq
      exact ⟨rfl, rfl⟩
    | parens inner => cases heq
  | parens inner ih =>
    cases d' with
    | integer value => cases heq
    | name text => cases heq
    | parens inner' =>
      have hinner : inner.tokens ++ .rightParen :: ts = inner'.tokens ++ .rightParen :: ts' := by
        simpa [tokens] using heq
      -- What follows the expression inside is the other half, and that is no operator.
      obtain ⟨rfl, hrest⟩ := ih inner' (by simp [Symbol.StopsAt]) (by simp [Symbol.StopsAt]) hinner
      cases hrest
      exact ⟨rfl, rfl⟩
  | noFactors =>
    cases d' with
    | noFactors => exact ⟨rfl, heq⟩
    | moreFactors op isProduct operand later =>
      -- The other derivation goes on where this one stops, with an operator that it cannot stop at.
      have hop := h op (by rw [show ts = _ from heq]; rfl)
      rw [isProduct] at hop
      cases hop
  | moreFactors op isProduct operand later ihoperand ihlater =>
    cases d' with
    | noFactors =>
      have hop := h' op (by rw [show ts' = _ from heq.symm]; rfl)
      rw [isProduct] at hop
      cases hop
    | moreFactors op' isProduct' operand' later' =>
      simp only [tokens, List.cons_append, List.append_assoc, List.cons.injEq,
        Token.operator.injEq] at heq
      obtain ⟨rfl, heq⟩ := heq
      obtain ⟨rfl, hrest⟩ := ihoperand operand' trivial trivial heq
      obtain ⟨rfl, rfl⟩ := ihlater later' h h' hrest
      exact ⟨rfl, rfl⟩
  | term first later ihfirst ihlater =>
    cases d' with
    | term first' later' =>
      simp only [tokens, List.append_assoc] at heq
      obtain ⟨rfl, hrest⟩ := ihfirst first' trivial trivial heq
      obtain ⟨rfl, rfl⟩ := ihlater later' h h' hrest
      exact ⟨rfl, rfl⟩
  | noTerms =>
    cases d' with
    | noTerms => exact ⟨rfl, heq⟩
    | moreTerms op isSum operand later =>
      exact absurd (by rw [show ts = _ from heq]; rfl) (h op)
  | moreTerms op isSum operand later ihoperand ihlater =>
    cases d' with
    | noTerms => exact absurd (by rw [show ts' = _ from heq.symm]; rfl) (h' op)
    | moreTerms op' isSum' operand' later' =>
      simp only [tokens, List.cons_append, List.append_assoc, List.cons.injEq,
        Token.operator.injEq] at heq
      obtain ⟨rfl, heq⟩ := heq
      obtain ⟨rfl, hrest⟩ :=
        ihoperand operand' (later.stopsAt_terms h) (later'.stopsAt_terms h') heq
      obtain ⟨rfl, rfl⟩ := ihlater later' h h' hrest
      exact ⟨rfl, rfl⟩
  | expr first later ihfirst ihlater =>
    cases d' with
    | expr first' later' =>
      simp only [tokens, List.append_assoc] at heq
      obtain ⟨rfl, hrest⟩ := ihfirst first' (later.stopsAt_terms h) (later'.stopsAt_terms h') heq
      obtain ⟨rfl, rfl⟩ := ihlater later' h h' hrest
      exact ⟨rfl, rfl⟩

/-- The grammar is not ambiguous. -/
theorem eq_of_tokens {d d' : Derivation .expr} (h : d.tokens = d'.tokens) : d = d' := by
  have hend : Symbol.expr.StopsAt [] := by simp [Symbol.StopsAt]
  exact (eq_of_append d d' hend hend (by rw [h])).1

end Derivation

end WireCodec.Length
