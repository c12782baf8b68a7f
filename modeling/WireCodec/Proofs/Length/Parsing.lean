import Mathlib.Data.List.Chain
import WireCodec.Length.Parser
import WireCodec.Proofs.Length.Lexing

/-!
# Reading is the grammar

The reader goes through the tokens once and keeps what waits in `Pending` and `Level`.  Both
directions say what one symbol of the grammar is to it: `exists_terms_of_readTokens` takes the parts
of a derivation from what the reader accepted, and `Derivation.reads` takes the reader through the
tokens of a derivation.  Comment marks are pairs of operators, and no derivation has two operators
in a row.
-/

namespace WireCodec.Length

variable {source : String}

/-! ## What the reader accepts -/

/-- The tokens that let the reader go on where it wants an operand. -/
theorem readTokens_operand {levels : List Level} {pending : Pending} {ts : List Placed}
    {e : LengthExpr} (h : readTokens source levels pending none ts = .ok e) :
    ∃ position token rest, ts = ⟨position, token⟩ :: rest ∧
      ((∃ value, token = .integer value ∧
          readTokens source levels pending (some (.const value)) rest = .ok e) ∨
        (∃ name, token = .name name ∧
          readTokens source levels pending (some (.field name)) rest = .ok e) ∨
        (token = .leftParen ∧
          readTokens source (⟨position, pending⟩ :: levels) .none none rest = .ok e)) := by
  cases ts with
  | nil => cases h
  | cons t rest =>
    obtain ⟨position, token⟩ := t
    refine ⟨position, token, rest, rfl, ?_⟩
    cases token with
    | integer value => exact .inl ⟨value, rfl, h⟩
    | name name => exact .inr (.inl ⟨name, rfl, h⟩)
    | leftParen => exact .inr (.inr ⟨rfl, h⟩)
    | operator op => cases h
    | rightParen => cases h

/-- Tokens end the innermost expression that stands open, and the reader accepts what follows: the
end of all tokens or, inside a parenthesis, its other half. -/
def Closes (source : String) : List Level → LengthExpr → List Placed → LengthExpr → Prop
  | [], x, ts, e => ts = [] ∧ x = e
  | level :: outer, x, ts, e => ∃ position rest, ts = ⟨position, .rightParen⟩ :: rest ∧
      readTokens source outer level.pending (some x) rest = .ok e

/-- The tokens that let the reader go on behind an operand. -/
theorem readTokens_behind {levels : List Level} {pending : Pending} {x : LengthExpr}
    {ts : List Placed} {e : LengthExpr}
    (h : readTokens source levels pending (some x) ts = .ok e) :
    Closes source levels (pending.whole x) ts e ∨
      ∃ position op rest, ts = ⟨position, .operator op⟩ :: rest ∧
        readTokens source levels (pending.push x op) none rest = .ok e := by
  cases ts with
  | nil =>
    cases levels with
    | nil => exact .inl ⟨rfl, Except.ok.inj h⟩
    | cons level outer => cases h
  | cons t rest =>
    obtain ⟨position, token⟩ := t
    cases token with
    | operator op => exact .inr ⟨position, op, rest, rfl, h⟩
    | rightParen =>
      cases levels with
      | nil => cases h
      | cons level outer => exact .inl ⟨position, rest, rfl, h⟩
    | _ => cases levels <;> cases h

mutual

/-- Where an operand is wanted, the reader takes a factor. -/
theorem exists_factor_of_readTokens {levels : List Level} {pending : Pending} {ts : List Placed}
    {e : LengthExpr} (h : readTokens source levels pending none ts = .ok e) :
    ∃ (factor : Derivation .factor) (rest : List Placed), rest.length < ts.length ∧
      ts.map Placed.token = factor.tokens ++ rest.map Placed.token ∧
      readTokens source levels pending (some factor.tree) rest = .ok e := by
  obtain ⟨position, token, rest, hts, hcases⟩ := readTokens_operand h
  subst hts
  obtain ⟨value, rfl, hread⟩ | ⟨name, rfl, hread⟩ | ⟨rfl, hread⟩ := hcases
  · exact ⟨.integer value, rest, Nat.lt_succ_self _, rfl, hread⟩
  · exact ⟨.name name, rest, Nat.lt_succ_self _, rfl, hread⟩
  · obtain ⟨factor, behind, hlt, hfactor, hbehind⟩ := exists_factor_of_readTokens hread
    obtain ⟨factors, terms, close, hle, hfactors, hcloses⟩ := exists_terms_of_readTokens hbehind
    -- The expression in the parenthesis is closed by its other half, and the reader goes on there.
    obtain ⟨closing, later, rfl, hlater⟩ := hcloses
    refine ⟨.parens (.expr (.term factor factors) terms), later, ?_, ?_, hlater⟩
    · simp only [List.length_cons] at hle ⊢
      omega
    · simp [hfactor, hfactors, Derivation.tokens]
termination_by ts.length
decreasing_by all_goals simp only [hts, List.length_cons]; omega

/-- Behind an operand the reader takes what the grammar lets follow, until the expression is
closed. -/
theorem exists_terms_of_readTokens {levels : List Level} {pending : Pending} {x : LengthExpr}
    {ts : List Placed} {e : LengthExpr}
    (h : readTokens source levels pending (some x) ts = .ok e) :
    ∃ (factors : Derivation .factors) (terms : Derivation .terms) (rest : List Placed),
      rest.length ≤ ts.length ∧
      ts.map Placed.token = factors.tokens ++ (terms.tokens ++ rest.map Placed.token) ∧
      Closes source levels
        (terms.tree (complete pending.sum (factors.tree (complete pending.product x)))) rest e := by
  obtain hcloses | ⟨position, op, rest, hts, hread⟩ := readTokens_behind h
  · exact ⟨.noFactors, .noTerms, ts, Nat.le_refl _, rfl, hcloses⟩
  · subst hts
    obtain ⟨factor, behind, hlt, hfactor, hbehind⟩ := exists_factor_of_readTokens hread
    obtain ⟨factors, terms, close, hle, hfactors, hcloses⟩ := exists_terms_of_readTokens hbehind
    have hshorter : close.length ≤ rest.length + 1 := by omega
    -- A sum ends the term in hand, so what was read behind it is a term of its own; a product goes
    -- on with the term in hand.
    cases hop : op.isSum with
    | true =>
      rw [Pending.push, if_pos hop] at hcloses
      refine ⟨.noFactors, .moreTerms op hop (.term factor factors) terms, close, hshorter, ?_,
        hcloses⟩
      simp [hfactor, hfactors, Derivation.tokens]
    | false =>
      rw [Pending.push, if_neg (by simp [hop])] at hcloses
      refine ⟨.moreFactors op hop factor factors, terms, close, hshorter, ?_, hcloses⟩
      simp [hfactor, hfactors, Derivation.tokens]
termination_by ts.length
decreasing_by all_goals simp only [hts, List.length_cons]; omega

end

/-- Tokens that are read have a derivation with the tree that is read. -/
theorem exists_derivation_of_readTokens {ts : List Placed} {e : LengthExpr}
    (h : readTokens source [] .none none ts = .ok e) :
    ∃ d : Derivation .expr, d.tokens = ts.map Placed.token ∧ d.tree = e := by
  obtain ⟨factor, behind, -, hfactor, h⟩ := exists_factor_of_readTokens h
  obtain ⟨factors, terms, rest, -, hfactors, rfl, htree⟩ := exists_terms_of_readTokens h
  refine ⟨.expr (.term factor factors) terms, ?_, htree⟩
  simp [hfactor, hfactors, Derivation.tokens]

/-! ## What the reader does with a derivation -/

/-- The reader takes tokens as a symbol with a reading, whatever stands around them.  Behind an
operand it is not told whether the operand goes on, so the tokens end in a state in which the
operand and what waits for it come to the reading. -/
def Symbol.Reads (source : String) : (s : Symbol) → s.Reading → List Placed → Prop
  | factor, x, ts => ∀ levels pending rest,
      readTokens source levels pending none (ts ++ rest) =
        readTokens source levels pending (some x) rest
  | factors, f, ts => ∀ levels pending x rest, ∃ pending' x', pending'.sum = pending.sum ∧
      complete pending'.product x' = f (complete pending.product x) ∧
      readTokens source levels pending (some x) (ts ++ rest) =
        readTokens source levels pending' (some x') rest
  | term, x, ts => ∀ levels sum rest, ∃ pending' x', pending'.sum = sum ∧
      complete pending'.product x' = x ∧
      readTokens source levels ⟨sum, none⟩ none (ts ++ rest) =
        readTokens source levels pending' (some x') rest
  | terms, f, ts => ∀ levels pending x rest, ∃ pending' x',
      pending'.whole x' = f (pending.whole x) ∧
      readTokens source levels pending (some x) (ts ++ rest) =
        readTokens source levels pending' (some x') rest
  | expr, x, ts => ∀ levels rest, ∃ pending' x', pending'.whole x' = x ∧
      readTokens source levels .none none (ts ++ rest) =
        readTokens source levels pending' (some x') rest

/-- The reader takes the tokens of a derivation as its tree. -/
theorem Derivation.reads {s : Symbol} (d : Derivation s) {ts : List Placed}
    (h : ts.map Placed.token = d.tokens) : s.Reads source d.tree ts := by
  induction d generalizing ts with
  | integer value =>
    obtain ⟨⟨position, token⟩, rfl, rfl⟩ := List.map_eq_singleton_iff.mp h
    exact fun levels pending rest => rfl
  | name text =>
    obtain ⟨⟨position, token⟩, rfl, rfl⟩ := List.map_eq_singleton_iff.mp h
    exact fun levels pending rest => rfl
  | parens inner ih =>
    obtain ⟨⟨opening, token⟩, behind, hts, rfl, hbehind⟩ := List.map_eq_cons_iff.mp h
    obtain ⟨inside, close, rfl, hinside, hclose⟩ := List.map_eq_append_iff.mp hbehind
    obtain ⟨⟨closing, token⟩, rfl, rfl⟩ := List.map_eq_singleton_iff.mp hclose
    subst hts
    intro levels pending rest
    -- The expression is read inside a new level, which the closing half takes away.
    obtain ⟨pending', x', hwhole, hread⟩ := ih hinside (⟨opening, pending⟩ :: levels)
      (⟨closing, .rightParen⟩ :: rest)
    calc
      _ = readTokens source (⟨opening, pending⟩ :: levels) .none none
            (inside ++ ⟨closing, .rightParen⟩ :: rest) := by
        rw [List.cons_append, List.append_assoc]
        rfl
      _ = readTokens source levels pending (some (pending'.whole x')) rest := hread
      _ = _ := by rw [hwhole]; rfl
  | noFactors =>
    obtain rfl := List.map_eq_nil_iff.mp h
    exact fun levels pending x rest => ⟨pending, x, rfl, rfl, rfl⟩
  | moreFactors op isProduct operand later ihoperand ihlater =>
    obtain ⟨⟨position, token⟩, behind, hts, rfl, hbehind⟩ := List.map_eq_cons_iff.mp h
    obtain ⟨front, back, rfl, hfront, hback⟩ := List.map_eq_append_iff.mp hbehind
    subst hts
    intro levels pending x rest
    have hpush : pending.push x op = ⟨pending.sum, some (complete pending.product x, op)⟩ := by
      rw [Pending.push, if_neg (by simp [isProduct])]
    obtain ⟨pending', x', hsum, hproduct, hread⟩ :=
      ihlater hback levels (pending.push x op) operand.tree rest
    refine ⟨pending', x', by rw [hsum, hpush], by rw [hproduct, hpush]; rfl, ?_⟩
    rw [← hread, ← ihoperand hfront, ← List.append_assoc]
    rfl
  | term first later ihfirst ihlater =>
    obtain ⟨front, back, rfl, hfront, hback⟩ := List.map_eq_append_iff.mp h
    intro levels sum rest
    obtain ⟨pending', x', hsum, hproduct, hread⟩ :=
      ihlater hback levels ⟨sum, none⟩ first.tree rest
    exact ⟨pending', x', hsum, hproduct, by rw [List.append_assoc, ihfirst hfront, hread]⟩
  | noTerms =>
    obtain rfl := List.map_eq_nil_iff.mp h
    exact fun levels pending x rest => ⟨pending, x, rfl, rfl⟩
  | moreTerms op isSum operand later ihoperand ihlater =>
    obtain ⟨⟨position, token⟩, behind, hts, rfl, hbehind⟩ := List.map_eq_cons_iff.mp h
    obtain ⟨front, back, rfl, hfront, hback⟩ := List.map_eq_append_iff.mp hbehind
    subst hts
    intro levels pending x rest
    have hpush : pending.push x op = ⟨some (pending.whole x, op), none⟩ := by
      rw [Pending.push, if_pos isSum]
    -- Behind the operand a product may still be open, but the sum that waits is known.
    obtain ⟨between, y, hsum, hproduct, hoperand⟩ :=
      ihoperand hfront levels (some (pending.whole x, op)) (back ++ rest)
    obtain ⟨pending', x', hwhole, hread⟩ := ihlater hback levels between y rest
    have hbetween : between.whole y = .binary op (pending.whole x) operand.tree := by
      rw [Pending.whole, hsum, hproduct]
      rfl
    refine ⟨pending', x', by rw [hwhole, hbetween]; rfl, ?_⟩
    rw [← hread, ← hoperand, ← hpush, ← List.append_assoc]
    rfl
  | expr first later ihfirst ihlater =>
    obtain ⟨front, back, rfl, hfront, hback⟩ := List.map_eq_append_iff.mp h
    intro levels rest
    obtain ⟨between, y, hsum, hproduct, hfirst⟩ := ihfirst hfront levels none (back ++ rest)
    obtain ⟨pending', x', hwhole, hread⟩ := ihlater hback levels between y rest
    have hbetween : between.whole y = first.tree := by
      rw [Pending.whole, hsum, hproduct]
      rfl
    refine ⟨pending', x', by rw [hwhole, hbetween]; rfl, ?_⟩
    rw [List.append_assoc]
    exact hfirst.trans hread

/-- The reader accepts exactly what has a derivation, and gives its tree. -/
theorem readTokens_eq_ok {ts : List Placed} {e : LengthExpr} :
    readTokens source [] .none none ts = .ok e ↔
      ∃ d : Derivation .expr, d.tokens = ts.map Placed.token ∧ d.tree = e := by
  refine ⟨exists_derivation_of_readTokens, ?_⟩
  rintro ⟨d, htokens, rfl⟩
  have hreads : Symbol.expr.Reads source d.tree ts := d.reads htokens.symm
  obtain ⟨pending', x', hwhole, hread⟩ := hreads [] []
  rw [List.append_nil] at hread
  rw [hread, ← hwhole]
  rfl

/-! ## Comment marks -/

/-- An operator, and no operator behind it. -/
def Token.Apart (t u : Token) : Prop :=
  ∀ op op', t = .operator op → u ≠ .operator op'

theorem isChain_of_readTokens {levels : List Level} {pending : Pending}
    {operand : Option LengthExpr} {ts : List Placed} {e : LengthExpr}
    (h : readTokens source levels pending operand ts = .ok e) :
    (ts.map Placed.token).IsChain Token.Apart := by
  induction ts generalizing levels pending operand with
  | nil => exact .nil
  | cons t rest ih =>
    have htail : (rest.map Placed.token).IsChain Token.Apart ∧
        ∀ u ∈ (rest.map Placed.token).head?, t.token.Apart u := by
      cases operand with
      | none =>
        obtain ⟨position, token, rest, hts, hcases⟩ := readTokens_operand h
        cases hts
        obtain ⟨value, rfl, hread⟩ | ⟨name, rfl, hread⟩ | ⟨rfl, hread⟩ := hcases <;>
          exact ⟨ih hread, fun u _ op op' hop => by cases hop⟩
      | some x =>
        obtain hcloses | ⟨position, op, rest, hts, hread⟩ := readTokens_behind h
        · cases levels with
          | nil => cases hcloses.1
          | cons level outer =>
            obtain ⟨position, rest, hts, hread⟩ := hcloses
            cases hts
            exact ⟨ih hread, fun u _ op op' hop => by cases hop⟩
        · cases hts
          -- Behind an operator an operand is wanted, and no operator is one.
          refine ⟨ih hread, fun u hu op op' _ hop => ?_⟩
          obtain ⟨position, token, rest, rfl, hcases⟩ := readTokens_operand hread
          cases hu
          subst hop
          simp at hcases
    exact List.isChain_cons.mpr ⟨htail.2, htail.1⟩

theorem findComment_cons_of_ne {c : Char} (hslash : c ≠ '/') (hstar : c ≠ '*') (offset : Nat)
    (s : List Char) : findComment offset (c :: s) = findComment (offset + c.utf8Size) s := by
  cases s with
  | nil => rfl
  | cons d rest => simp [findComment, isCommentMark, hslash, hstar]

/-- Characters that no comment mark starts with are passed over. -/
theorem findComment_append {front : List Char} (h : ∀ c ∈ front, Text.isWordChar c = true)
    (s : List Char) {offset : Nat} (hs : ∀ offset, findComment offset s = none) :
    findComment offset (front ++ s) = none := by
  induction front generalizing offset with
  | nil => exact hs offset
  | cons c rest ih =>
    have hc := h c (List.mem_cons_self ..)
    rw [List.cons_append,
      findComment_cons_of_ne (by rintro rfl; cases hc) (by rintro rfl; cases hc)]
    exact ih fun d hd => h d (List.mem_cons_of_mem c hd)

/-- Where no operator stands behind another, there is no comment mark. -/
theorem findComment_of_spells {s : List Char} {ts : List Token} (h : Spells s ts)
    (hts : ts.IsChain Token.Apart) (offset : Nat) : findComment offset s = none := by
  induction h generalizing offset with
  | nil => rfl
  | @blank c s ts hblank rest ih =>
    rw [findComment_cons_of_ne (by rintro rfl; cases hblank) (by rintro rfl; cases hblank)]
    exact ih hts _
  | @operator s ts op rest ih =>
    obtain ⟨happart, hrest⟩ := List.isChain_cons.mp hts
    cases s with
    | nil => rfl
    | cons d s =>
      -- The second half of a mark would be an operator too.
      have hd : d ≠ '/' ∧ d ≠ '*' := by
        constructor
        · rintro rfl
          exact happart _ (@Spells.head_operator .div _ _ rest) op .div rfl rfl
        · rintro rfl
          exact happart _ (@Spells.head_operator .mul _ _ rest) op .mul rfl rfl
      rw [findComment, if_neg (by simp [isCommentMark, hd])]
      exact ih hrest _
  | leftParen rest ih =>
    rw [findComment_cons_of_ne (by decide) (by decide)]
    exact ih (List.isChain_cons.mp hts).2 _
  | rightParen rest ih =>
    rw [findComment_cons_of_ne (by decide) (by decide)]
    exact ih (List.isChain_cons.mp hts).2 _
  | run inside maximal token rest ih =>
    exact findComment_append inside _ (ih (List.isChain_cons.mp hts).2)

theorem findComment_of_derivation {s : List Char} {d : Derivation .expr}
    (h : Spells s d.tokens) : findComment 0 s = none := by
  obtain ⟨placed, -, hplaced⟩ := scan_of_spells h 0
  have hread : readTokens (String.ofList s) [] .none none placed = .ok d.tree :=
    readTokens_eq_ok.mpr ⟨d, hplaced.symm, rfl⟩
  exact findComment_of_spells h (hplaced ▸ isChain_of_readTokens hread) 0

/-! ## Text -/

/-- Text is read as an expression exactly when it spells the tokens of a derivation. -/
theorem parseChars_eq_ok {text : List Char} {e : LengthExpr} :
    parseChars text = .ok e ↔ ∃ d : Derivation .expr, Spells text d.tokens ∧ d.tree = e := by
  constructor
  · intro h
    dsimp only [parseChars] at h
    split at h
    · cases h
    · split at h
      · cases h
      · obtain ⟨placed, hscan, hread⟩ := bind_eq_ok.mp h
        obtain ⟨d, htokens, rfl⟩ := readTokens_eq_ok.mp hread
        refine ⟨d, ?_, rfl⟩
        rw [← spells_trim, htokens]
        exact spells_of_scan hscan
  · rintro ⟨d, hspells, rfl⟩
    have htrim := spells_trim.mpr hspells
    obtain ⟨placed, hscan, hplaced⟩ := scan_of_spells htrim 0
    -- Blank text spells no tokens, and an expression has some.
    have hnonempty : Text.trim text ≠ [] := by
      intro hempty
      rw [hempty] at hscan
      cases hscan
      have hread : readTokens "" [] .none none [] = .ok d.tree :=
        readTokens_eq_ok.mpr ⟨d, hplaced.symm, rfl⟩
      cases hread
    dsimp only [parseChars]
    rw [if_neg (by simpa using hnonempty), findComment_of_derivation htrim]
    show tokens (Text.trim text) >>= readTokens _ [] .none none = .ok d.tree
    rw [tokens, hscan, ok_bind]
    exact readTokens_eq_ok.mpr ⟨d, hplaced.symm, rfl⟩

end WireCodec.Length

namespace WireCodec.LengthExpr

open Length

/-- The reader accepts exactly the grammar.  Text is read as `e` when it spells the tokens of a
derivation with the tree `e`; it spells those of at most one derivation, and then it has no comment
mark. -/
theorem parse_iff_derivation (text : String) :
    (∀ e, parse text = .ok e ↔
      ∃ d : Derivation .expr, Spells text.toList d.tokens ∧ d.tree = e) ∧
    (∀ d d' : Derivation .expr, Spells text.toList d.tokens → Spells text.toList d'.tokens →
      d = d') ∧
    ∀ d : Derivation .expr, Spells text.toList d.tokens →
      findComment 0 (Text.trim text.toList) = none :=
  ⟨fun _ => parseChars_eq_ok, fun _ _ h h' => Derivation.eq_of_tokens (h.unique h'),
    fun _ h => findComment_of_derivation (spells_trim.mpr h)⟩

theorem parse_iff_derivation_product :
    ∃ d : Derivation .expr, Spells " 0x1_F*(count - 2)".toList d.tokens ∧
      parse " 0x1_F*(count - 2)" =
        .ok (.binary .mul (.const 31) (.binary .sub (.field "count") (.const 2))) ∧
      (∀ d' : Derivation .expr, Spells " 0x1_F*(count - 2)".toList d'.tokens → d' = d) ∧
      findComment 0 (Text.trim " 0x1_F*(count - 2)".toList) = none := by
  obtain ⟨hparse, hunique, hcomment⟩ := parse_iff_derivation " 0x1_F*(count - 2)"
  let inner : Derivation .expr :=
    .expr (.term (.name "count") .noFactors)
      (.moreTerms .sub rfl (.term (.integer 2) .noFactors) .noTerms)
  let d : Derivation .expr :=
    .expr (.term (.integer 31) (.moreFactors .mul rfl (.parens inner) .noFactors)) .noTerms
  have hscan : scan 0 none " 0x1_F*(count - 2)".toList =
      .ok [⟨1, .integer 31⟩, ⟨6, .operator .mul⟩, ⟨7, .leftParen⟩, ⟨8, .name "count"⟩,
        ⟨14, .operator .sub⟩, ⟨16, .integer 2⟩, ⟨17, .rightParen⟩] := by decide +kernel
  have hspells : Spells " 0x1_F*(count - 2)".toList d.tokens := spells_of_scan hscan
  exact ⟨d, hspells, (hparse _).mpr ⟨d, hspells, rfl⟩, fun d' h => hunique d' d h hspells,
    hcomment d hspells⟩

end WireCodec.LengthExpr
