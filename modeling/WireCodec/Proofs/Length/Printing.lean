import WireCodec.Proofs.Length.Parsing

/-!
# Printed expressions read back

The text of an expression spells the tokens of a derivation of that very expression.  Which symbol
the derivation starts from depends on how tightly the expression holds together, and parentheses
make a factor of any expression: `spelled_text` follows the printer from operand to operand.
-/

namespace WireCodec.Length

/-! ## Spelling in pieces -/

/-- Text in front of something that no run goes on into keeps its tokens. -/
theorem Spells.append {s s' : List Char} {ts ts' : List Token} (h : Spells s ts)
    (boundary : ∀ c ∈ s'.head?, Text.isWordChar c = false) (h' : Spells s' ts') :
    Spells (s ++ s') (ts ++ ts') := by
  induction h with
  | nil => exact h'
  | blank hblank rest ih => exact .blank hblank ih
  | operator op rest ih => exact .operator op ih
  | leftParen rest ih => exact .leftParen ih
  | rightParen rest ih => exact .rightParen ih
  | @run run s token ts inside maximal htoken rest ih =>
    rw [List.append_assoc]
    refine .run inside ?_ htoken ih
    cases s with
    | nil => exact boundary
    | cons c s => exact maximal

theorem RunSpells.spells {run : List Char} {token : Token} (h : RunSpells run token)
    (inside : ∀ c ∈ run, Text.isWordChar c = true) : Spells run [token] := by
  have hrun : Spells (run ++ []) [token] := .run inside (by simp) h .nil
  rwa [List.append_nil] at hrun

theorem spells_name {name : String} (h : Text.isWord name.toList = true) :
    Spells name.toList [.name name] := by
  have hrun : RunSpells name.toList (.name (String.ofList name.toList)) := .name h
  rw [String.ofList_toList] at hrun
  exact hrun.spells fun c hc => Text.isWordChar_of_mem h hc

/-- The digits of a number are its numeral. -/
theorem numeral_toDigits (n : Nat) : Numeral 10 (Nat.toDigits 10 n) n := by
  have hdigit : ∀ d < 10, Text.digitIn 10 (Nat.digitChar d) = some d := by decide
  induction n using Nat.strongRecOn with
  | _ n ih =>
    by_cases hn : n < 10
    · rw [Nat.toDigits_of_lt_base hn]
      exact .digit (hdigit n hn)
    · -- The last digit comes off the end.
      rw [Nat.toDigits_of_base_le (by decide) (by omega)]
      have hmore := (ih (n / 10) (by omega)).more (hdigit (n % 10) (Nat.mod_lt n (by decide)))
      rwa [Nat.div_add_mod'] at hmore

theorem spells_integer (value : UInt64) :
    Spells (toString value.toNat).toList [.integer value] := by
  rw [Nat.toString_eq_ofList_toDigits, String.toList_ofList]
  have hdigits : ∀ c ∈ Nat.toDigits 10 value.toNat, c.isDigit = true := fun c hc =>
    Nat.isDigit_of_mem_toDigits (by decide) (by decide) hc
  have hkeep : (Nat.toDigits 10 value.toNat).filter (· != '_') = Nat.toDigits 10 value.toNat := by
    rw [List.filter_eq_self]
    rintro c hc
    rw [bne_iff_ne]
    rintro rfl
    exact Nat.underscore_not_in_toDigits hc
  have hnumeral := numeral_toDigits value.toNat
  refine RunSpells.spells ?_ fun c hc => ?_
  · cases hrun : Nat.toDigits 10 value.toNat with
    | nil => exact absurd hrun Nat.toDigits_ne_nil
    | cons c rest =>
      rw [hrun] at hdigits hkeep hnumeral
      exact .decimal (hdigits c (List.mem_cons_self ..)) (hkeep.symm ▸ hnumeral)
  · simp [Text.isWordChar, Char.isAlphanum, hdigits c hc]

/-! ## One more operand -/

namespace Derivation

/-- A factor at the end of a term. -/
def addFactor (op : Operator) (isProduct : op.isSum = false) (operand : Derivation .factor) :
    Derivation .factors → Derivation .factors
  | noFactors => moreFactors op isProduct operand noFactors
  | moreFactors first hfirst x later =>
    moreFactors first hfirst x (addFactor op isProduct operand later)

/-- A term at the end of an expression. -/
def addTerm (op : Operator) (isSum : op.isSum = true) (operand : Derivation .term) :
    Derivation .terms → Derivation .terms
  | noTerms => moreTerms op isSum operand noTerms
  | moreTerms first hfirst x later =>
    moreTerms first hfirst x (addTerm op isSum operand later)

variable {op : Operator}

/-- A product may be continued at its end, and so may a sum. -/
theorem tokens_addFactor (isProduct : op.isSum = false) (operand : Derivation .factor) :
    (later : Derivation .factors) → (addFactor op isProduct operand later).tokens =
      later.tokens ++ .operator op :: operand.tokens
  | noFactors => by simp [addFactor, tokens]
  | moreFactors _ _ _ later => by simp [addFactor, tokens, tokens_addFactor isProduct operand later]

theorem tree_addFactor (isProduct : op.isSum = false) (operand : Derivation .factor) :
    (later : Derivation .factors) → (left : LengthExpr) →
      (addFactor op isProduct operand later).tree left =
        .binary op (later.tree left) operand.tree
  | noFactors, _ => by rw [addFactor]; rfl
  | moreFactors _ _ _ later, _ => by rw [addFactor]; exact tree_addFactor isProduct operand later _

theorem tokens_addTerm (isSum : op.isSum = true) (operand : Derivation .term) :
    (later : Derivation .terms) → (addTerm op isSum operand later).tokens =
      later.tokens ++ .operator op :: operand.tokens
  | noTerms => by simp [addTerm, tokens]
  | moreTerms _ _ _ later => by simp [addTerm, tokens, tokens_addTerm isSum operand later]

theorem tree_addTerm (isSum : op.isSum = true) (operand : Derivation .term) :
    (later : Derivation .terms) → (left : LengthExpr) →
      (addTerm op isSum operand later).tree left = .binary op (later.tree left) operand.tree
  | noTerms, _ => by rw [addTerm]; rfl
  | moreTerms _ _ _ later, _ => by rw [addTerm]; exact tree_addTerm isSum operand later _

end Derivation

/-! ## Text of a symbol -/

/-- Text spells the tokens of a derivation with a reading. -/
def Symbol.Spelled (S : Symbol) (s : List Char) (x : S.Reading) : Prop :=
  ∃ d : Derivation S, Spells s d.tokens ∧ d.tree = x

/-- An operator between blanks, with text behind it. -/
def behind (op : Operator) (s : List Char) : List Char :=
  ' ' :: op.symbol :: ' ' :: s

/-- An operator with a space on both sides keeps two texts apart. -/
theorem Spells.operator_between {s s' : List Char} {ts ts' : List Token} (h : Spells s ts)
    (op : Operator) (h' : Spells s' ts') :
    Spells (s ++ behind op s') (ts ++ .operator op :: ts') := by
  have hblank : Text.isBlank ' ' = true := by decide
  refine h.append ?_ (.blank hblank (.operator op (.blank hblank h')))
  rintro c hc
  cases hc
  exact Text.isWordChar_of_isBlank hblank

variable {s s' : List Char} {x left right : LengthExpr} {op : Operator}

theorem spelled_term (h : Symbol.factor.Spelled s x) : Symbol.term.Spelled s x := by
  obtain ⟨d, hs, rfl⟩ := h
  exact ⟨.term d .noFactors, by simpa [Derivation.tokens] using hs, rfl⟩

theorem spelled_expr (h : Symbol.term.Spelled s x) : Symbol.expr.Spelled s x := by
  obtain ⟨d, hs, rfl⟩ := h
  exact ⟨.expr d .noTerms, by simpa [Derivation.tokens] using hs, rfl⟩

theorem spelled_parens (h : Symbol.expr.Spelled s x) :
    Symbol.factor.Spelled ('(' :: (s ++ [')'])) x := by
  obtain ⟨d, hs, rfl⟩ := h
  refine ⟨.parens d, .leftParen (hs.append ?_ (.rightParen .nil)), rfl⟩
  rintro c hc
  cases hc
  decide

/-- A product is spelled by a term, an operator and a factor. -/
theorem spelled_product (isProduct : op.isSum = false) (hleft : Symbol.term.Spelled s left)
    (hright : Symbol.factor.Spelled s' right) :
    Symbol.term.Spelled (s ++ behind op s') (.binary op left right) := by
  obtain ⟨d, hs, rfl⟩ := hleft
  obtain ⟨operand, hs', rfl⟩ := hright
  cases d with
  | term first later =>
    refine ⟨.term first (.addFactor op isProduct operand later), ?_,
      Derivation.tree_addFactor isProduct operand later _⟩
    have hboth := hs.operator_between op hs'
    rwa [Derivation.tokens, List.append_assoc,
      ← Derivation.tokens_addFactor isProduct operand later] at hboth

theorem spelled_sum (isSum : op.isSum = true) (hleft : Symbol.expr.Spelled s left)
    (hright : Symbol.term.Spelled s' right) :
    Symbol.expr.Spelled (s ++ behind op s') (.binary op left right) := by
  obtain ⟨d, hs, rfl⟩ := hleft
  obtain ⟨operand, hs', rfl⟩ := hright
  cases d with
  | expr first later =>
    refine ⟨.expr first (.addTerm op isSum operand later), ?_,
      Derivation.tree_addTerm isSum operand later _⟩
    have hboth := hs.operator_between op hs'
    rwa [Derivation.tokens, List.append_assoc,
      ← Derivation.tokens_addTerm isSum operand later] at hboth

/-! ## Text of an expression -/

/-- Text of an expression spells it, and what holds together more tightly spells a smaller
symbol. -/
structure SpelledAt (precedence : Nat) (s : List Char) (x : LengthExpr) : Prop where
  expr : Symbol.expr.Spelled s x
  term : 2 ≤ precedence → Symbol.term.Spelled s x
  factor : 3 ≤ precedence → Symbol.factor.Spelled s x

theorem SpelledAt.parenthesize {precedence bound : Nat} {needed : Bool} {text : String}
    (h : SpelledAt precedence text.toList x) (hneeded : needed = false → bound ≤ precedence) :
    SpelledAt bound (LengthExpr.parenthesize needed text).toList x := by
  cases needed with
  | true =>
    have htext : (LengthExpr.parenthesize true text).toList = '(' :: (text.toList ++ [')']) := by
      simp [LengthExpr.parenthesize]
    have hfactor := spelled_parens h.expr
    rw [htext]
    exact ⟨spelled_expr (spelled_term hfactor), fun _ => spelled_term hfactor, fun _ => hfactor⟩
  | false =>
    have hbound := hneeded rfl
    exact ⟨h.expr, fun h2 => h.term (Nat.le_trans h2 hbound),
      fun h3 => h.factor (Nat.le_trans h3 hbound)⟩

theorem toList_text_binary (op : Operator) (left right : LengthExpr) :
    (LengthExpr.binary op left right).text.toList =
      (LengthExpr.parenthesize (left.precedence < op.precedence) left.text).toList ++
        behind op
          (LengthExpr.parenthesize (right.precedence ≤ op.precedence) right.text).toList := by
  simp [LengthExpr.text, behind]

/-- The text of an expression spells it as tightly as it holds together. -/
theorem spelled_text {e : LengthExpr} (h : ∀ name ∈ e.fields, Text.isWord name.toList = true) :
    SpelledAt e.precedence e.text.toList e := by
  induction e with
  | const value =>
    have hfactor : Symbol.factor.Spelled (toString value.toNat).toList (.const value) :=
      ⟨.integer value, spells_integer value, rfl⟩
    exact ⟨spelled_expr (spelled_term hfactor), fun _ => spelled_term hfactor, fun _ => hfactor⟩
  | field name =>
    have hfactor : Symbol.factor.Spelled name.toList (.field name) :=
      ⟨.name name, spells_name (h name (List.mem_singleton_self _)), rfl⟩
    exact ⟨spelled_expr (spelled_term hfactor), fun _ => spelled_term hfactor, fun _ => hfactor⟩
  | binary op left right ihleft ihright =>
    have hleft : SpelledAt op.precedence
        (LengthExpr.parenthesize (left.precedence < op.precedence) left.text).toList left :=
      (ihleft fun name hname => h name (List.mem_append_left _ hname)).parenthesize
        (by simp only [decide_eq_false_iff_not]; omega)
    have hright : SpelledAt (op.precedence + 1)
        (LengthExpr.parenthesize (right.precedence ≤ op.precedence) right.text).toList right :=
      (ihright fun name hname => h name (List.mem_append_right _ hname)).parenthesize
        (by simp only [decide_eq_false_iff_not]; omega)
    rw [toList_text_binary]
    show SpelledAt op.precedence _ _
    -- The left operand holds together as tightly as the operator at least and the right one more
    -- tightly, which is what the grammar asks for on the two sides.
    cases hop : op.isSum with
    | true =>
      have hprecedence : op.precedence = 1 := by simp [Operator.precedence, hop]
      have hsum := spelled_sum hop hleft.expr (hright.term (by omega))
      exact ⟨hsum, by omega, by omega⟩
    | false =>
      have hprecedence : op.precedence = 2 := by simp [Operator.precedence, hop]
      have hproduct := spelled_product hop (hleft.term (by omega)) (hright.factor (by omega))
      exact ⟨spelled_expr hproduct, fun _ => hproduct, by omega⟩

/-! ## Names of what was read -/

/-- The name that a token is. -/
def Token.name? : Token → Option String
  | name text => some text
  | _ => none

/-- The names in a reading are those among the tokens, behind those of a first operand. -/
def Symbol.Named : (S : Symbol) → S.Reading → List Token → Prop
  | factors, f, ts | terms, f, ts => ∀ left : LengthExpr,
      (f left).fields = left.fields ++ ts.filterMap Token.name?
  | factor, x, ts | term, x, ts | expr, x, ts => x.fields = ts.filterMap Token.name?

/-- Every reference in a tree is a name among the tokens. -/
theorem Derivation.named {S : Symbol} (d : Derivation S) : S.Named d.tree d.tokens := by
  induction d with
  | integer value => rfl
  | name text => rfl
  | parens inner ih =>
    show inner.tree.fields = _
    rw [show inner.tree.fields = _ from ih]
    simp [tokens, Token.name?, List.filterMap_cons]
  | noFactors | noTerms => exact fun left => (List.append_nil _).symm
  | moreFactors op isProduct operand later ihoperand ihlater =>
    intro left
    have hoperand : LengthExpr.fields operand.tree = _ := ihoperand
    calc
      _ = (left.fields ++ LengthExpr.fields operand.tree) ++ _ :=
        ihlater (.binary op left operand.tree)
      _ = _ := by simp [hoperand, tokens, Token.name?, List.filterMap_cons]
  | moreTerms op isSum operand later ihoperand ihlater =>
    intro left
    have hoperand : LengthExpr.fields operand.tree = _ := ihoperand
    calc
      _ = (left.fields ++ LengthExpr.fields operand.tree) ++ _ :=
        ihlater (.binary op left operand.tree)
      _ = _ := by simp [hoperand, tokens, Token.name?, List.filterMap_cons]
  | term first later ihfirst ihlater =>
    have hfirst : LengthExpr.fields first.tree = _ := ihfirst
    calc
      _ = LengthExpr.fields first.tree ++ _ := ihlater first.tree
      _ = _ := by simp [hfirst, tokens]
  | expr first later ihfirst ihlater =>
    have hfirst : LengthExpr.fields first.tree = _ := ihfirst
    calc
      _ = LengthExpr.fields first.tree ++ _ := ihlater first.tree
      _ = _ := by simp [hfirst, tokens]

theorem Spells.isWord {s : List Char} {ts : List Token} (h : Spells s ts) {name : String}
    (hname : .name name ∈ ts) : Text.isWord name.toList = true := by
  induction h with
  | nil => cases hname
  | blank hblank rest ih => exact ih hname
  | operator op rest ih => exact ih (by simpa using hname)
  | leftParen rest ih => exact ih (by simpa using hname)
  | rightParen rest ih => exact ih (by simpa using hname)
  | run inside maximal htoken rest ih =>
    rcases List.mem_cons.mp hname with rfl | hname
    · cases htoken with
      | name word => rwa [String.toList_ofList]
    · exact ih hname

end WireCodec.Length

namespace WireCodec.LengthExpr

open Length

/-- Whatever is read has words for names, and every expression with words for names is read from its
own text. -/
theorem parse_text (e : LengthExpr) :
    (∀ source, parse source = .ok e → ∀ name ∈ e.fields, Text.isWord name.toList = true) ∧
      ((∀ name ∈ e.fields, Text.isWord name.toList = true) → parse e.text = .ok e) := by
  constructor
  · intro source h name hname
    obtain ⟨d, hspells, rfl⟩ := parseChars_eq_ok.mp h
    rw [show d.tree.fields = _ from d.named, List.mem_filterMap] at hname
    obtain ⟨token, htoken, hname⟩ := hname
    cases token <;> cases hname
    exact hspells.isWord htoken
  · intro h
    exact parseChars_eq_ok.mpr (spelled_text h).expr

theorem parse_text_difference :
    (∀ name ∈ (binary .sub (field "a") (binary .sub (field "b") (const 70))).fields,
      Text.isWord name.toList = true) ∧
    parse "a - (b - 70)" =
      .ok (binary .sub (field "a") (binary .sub (field "b") (const 70))) := by
  obtain ⟨hread, hprinted⟩ :=
    parse_text (binary .sub (field "a") (binary .sub (field "b") (const 70)))
  have htext : (binary .sub (field "a") (binary .sub (field "b") (const 70))).text =
      "a - (b - 70)" := by decide +kernel
  have hnames := hread "a-(b-0x4_6)" (by decide +kernel)
  exact ⟨hnames, htext ▸ hprinted hnames⟩

end WireCodec.LengthExpr
