import WireCodec.Proofs.Length.Evaluation
import WireCodec.Proofs.Target.Evaluation
import WireCodec.Proofs.Target.Reading
import WireCodec.Source.Codec

/-!
# Generated length arithmetic

The text of a length in generated code is read back as one expression: a chain of methods that give
up, inside a closure that this leaves.  Its value is that of the length.
-/

namespace WireCodec.Source

open Target

theorem isName_of_isIdentifier {name : String} (h : Text.isIdentifier name = true) :
    Text.isName name = true := by
  rw [Text.isIdentifier, Bool.and_eq_true] at h
  exact h.1

/-! ## Fields in lengths -/

/-- Where generated code finds the fields that a length counts with. -/
inductive FieldAccess where
  /-- The local variables of a decoding. -/
  | loaded
  /-- The record of an encoding. -/
  | own

namespace FieldAccess

def place : FieldAccess → String → String
  | .loaded => localName
  | .own => ownField

def word (access : FieldAccess) (field : String) : String := s!"u64::from({access.place field})"

/-- In a decoding, the counts are those of lengths over the fields that were loaded. -/
theorem decodeLines_count (field : String) (length : LengthExpr) :
    decodeLines (.count field length) =
      countLines field (checkedLength FieldAccess.loaded.word length) "InvalidData" := rfl

/-- In an encoding, they are those of lengths over the fields of the record. -/
theorem encodeLines_count (stores : Bool) (field : String) (length : LengthExpr) :
    encodeLines stores (.count field length) =
      countLines field (checkedLength FieldAccess.own.word length) "InvalidInput" := rfl

def placeExpr : FieldAccess → String → Expr
  | .loaded, field => .name (localName field)
  | .own, field => .member (.name "self") field

def wordExpr (access : FieldAccess) (field : String) : Expr :=
  .call (.name "u64::from") [access.placeExpr field]

/-- The field has the value, in one of the kinds that can count. -/
def Holds (access : FieldAccess) (env : Env) (field : String) (value : UInt64) : Prop :=
  ∃ s : Scalar, s.count? = some value ∧
    match access with
    | .loaded => env.locals (localName field) = some (.scalar s)
    | .own => ∃ fields, env.locals "self" = some (.record fields) ∧ fields field = some s

end FieldAccess

theorem operand_localName {field : String} (h : Text.isName field = true) :
    Operand (localName field) (.name (localName field)) := by
  have hlist : (localName field).toList = 'f' :: '_' :: field.toList := String.toList_append ..
  have hfree : localName field ∉ keywords := by
    have hkeywords : ∀ k ∈ keywords, k.toList.take 2 ≠ ['f', '_'] := by decide
    intro hmem
    exact hkeywords _ hmem (by rw [hlist]; rfl)
  refine operand_word (isWord_of_chars (fun c hc => ?_) fun hempty => ?_) ?_
  · rw [hlist] at hc
    rcases List.mem_cons.mp hc with rfl | hc
    · decide
    rcases List.mem_cons.mp hc with rfl | hc
    · decide
    · exact isWordChar_of_textWordChar (isWordChar_of_isName h hc)
  · rw [hempty] at hlist
    cases hlist
  · rw [operand?, hlist]
    exact if_neg hfree

theorem memberName?_identifier {field : String} (h : Text.isIdentifier field = true) :
    memberName? (identifier field) = some field := by
  have hname := isName_of_isIdentifier h
  have hpath : field ∉ Text.reservedPaths := by
    rw [Text.isIdentifier, Bool.and_eq_true, Bool.not_eq_true'] at h
    intro hmem
    rw [List.contains_iff_mem.mpr hmem] at h
    cases h.2
  by_cases hkeyword : field ∈ keywords
  · have hlist : ("r#" ++ field).toList = 'r' :: '#' :: field.toList := String.toList_append ..
    rw [identifier_of_mem hkeyword, memberName?, hlist]
    simp only [String.ofList_toList]
    rw [if_neg hpath]
  · rw [identifier_of_not_mem hkeyword, memberName?]
    split
    · next name hraw =>
      have hfield : field = "r#" ++ String.ofList name := by
        rw [← String.toList_inj, hraw]
        simp
      exact absurd hfield (ne_raw hname _)
    · rw [if_neg (not_or.mpr ⟨hkeyword, hpath⟩)]

theorem operand_ownField {field : String} (h : Text.isIdentifier field = true) :
    Operand (ownField field) (.member (.name "self") field) := by
  have hname := isName_of_isIdentifier h
  have hself : Operand "self" (.name "self") := operand_word ⟨by decide, fun _ => rfl⟩ rfl
  have hword : IsWord (identifier field) := by
    refine isWord_of_chars (fun c hc => ?_) fun hempty => ?_
    · exact isWordChar_of_isIdentifierChar (isIdentifierChar_identifier hname hc)
    · have hread := memberName?_identifier h
      rw [hempty] at hread
      have hfield : "" = field := Option.some.inj hread
      rw [← hfield] at hname
      cases hname
  have hmember := hself.member hword (memberName?_identifier h)
  rwa [← String.append_assoc] at hmember

theorem FieldAccess.operand_place (access : FieldAccess) {field : String}
    (h : Text.isIdentifier field = true) :
    Operand (access.place field) (access.placeExpr field) := by
  cases access with
  | loaded => exact operand_localName (isName_of_isIdentifier h)
  | own => exact operand_ownField h

/-! ## The chain of operations -/

/-- The expression of a length as a word. -/
def chainExpr (access : FieldAccess) : LengthExpr → Expr
  | .const value => .literal value.toNat "u64"
  | .field name => access.wordExpr name
  | .binary op left right =>
    .attempt (.call (.member (chainExpr access left) (checkedMethod op)) [chainExpr access right])

def someExpr (e : Expr) : Expr := .call (.name "::std::option::Option::Some") [e]

/-- The expression of a length as an optional word. -/
def lengthExpr (access : FieldAccess) (e : LengthExpr) : Expr :=
  match e with
  | .binary .. => .call (.closure optionalWord (someExpr (chainExpr access e))) []
  | leaf => someExpr (chainExpr access leaf)

variable {access : FieldAccess}

theorem FieldAccess.operand_wordText {field : String} (h : Text.isIdentifier field = true) :
    Operand (access.word field) (access.wordExpr field) := by
  have hfunction : Operand "u64::from" (.name "u64::from") :=
    operand_word ⟨by decide, fun _ => rfl⟩ rfl
  have hcall := hfunction.call ((access.operand_place h).binds 0)
  rwa [← String.append_assoc, ← String.append_assoc] at hcall

/-- The text of a chain of checked operations is read as that chain. -/
theorem operand_checkedChain {e : LengthExpr}
    (h : ∀ name ∈ e.fields, Text.isIdentifier name = true) :
    Operand (checkedChain access.word e) (chainExpr access e) := by
  induction e with
  | const value =>
    exact operand_literal value.toNat (by decide) (by decide)
  | field name => exact FieldAccess.operand_wordText (h name (List.mem_singleton_self name))
  | binary op left right ihl ihr =>
    have hl := ihl fun name hn => h name (List.mem_append_left _ hn)
    have hr := ihr fun name hn => h name (List.mem_append_right _ hn)
    have hmethod : IsWord (checkedMethod op) :=
      isWord_of_all (by cases op <;> decide) (by cases op <;> decide)
    have hname : memberName? (checkedMethod op) = some (checkedMethod op) := by cases op <;> rfl
    have hmember := hl.member hmethod hname
    have hattempt := (hmember.call (hr.binds 0)).attempt
    simp only [String.append_assoc] at hattempt
    simp only [checkedChain, String.append_assoc]
    exact hattempt

/-- The text of the chain, as an option. -/
theorem operand_some {s : String} {e : Expr} (h : Operand s e) :
    Operand ("::std::option::Option::Some(" ++ s ++ ")") (someExpr e) := by
  have hfunction : Operand "::std::option::Option::Some" (.name "::std::option::Option::Some") :=
    operand_word ⟨by decide, fun _ => rfl⟩ rfl
  have hcall := hfunction.call (h.binds 0)
  rwa [← String.append_assoc, ← String.append_assoc] at hcall

/-- The text of a closure that is called at once. -/
theorem operand_closure {s : String} {e : Expr} (h : Operand s e) :
    Operand ("(|| -> ::std::option::Option<u64> \x7b " ++ s ++ " \x7d)()")
      (.call (.closure optionalWord e) []) := by
  have hcall := (h.binds 0).closure.parens.callNone
  have hgroup (a b c d e : String) :
      a ++ (b ++ (s ++ c) ++ d) ++ e = a ++ b ++ s ++ (c ++ d ++ e) := by
    simp only [String.append_assoc]
  rwa [hgroup] at hcall

/-- The text of a length is read as its expression, wherever it stands. -/
theorem binds_checkedLength {e : LengthExpr}
    (h : ∀ name ∈ e.fields, Text.isIdentifier name = true) :
    Binds 0 (checkedLength access.word e) (lengthExpr access e) := by
  have hchain : Operand (checkedChain access.word e) (chainExpr access e) := operand_checkedChain h
  cases e with
  | const | field => exact (operand_some hchain).binds 0
  | binary op left right =>
    have hclosure := operand_closure (operand_some hchain)
    have hgroup (a b c d s : String) : a ++ (b ++ s ++ c) ++ d = a ++ b ++ s ++ (c ++ d) := by
      simp only [String.append_assoc]
    rw [hgroup] at hclosure
    exact hclosure.binds 0

theorem expression?_checkedLength (access : FieldAccess) {e : LengthExpr}
    (h : ∀ name ∈ e.fields, Text.isIdentifier name = true) :
    expression? (checkedLength access.word e) = some (lengthExpr access e) :=
  expression?_of_binds (binds_checkedLength h)

/-! ## Values -/

def wordScalar (value : UInt64) : Scalar := .ofBits .u64 value.toNat

theorem bits_wordScalar (value : UInt64) : (wordScalar value).bits = value.toNat :=
  Nat.mod_eq_of_lt value.toNat_lt

theorem wordScalar_eq {n : Nat} {value : UInt64} (h : value.toNat = n) :
    Scalar.ofBits .u64 n = wordScalar value := by
  rw [wordScalar, h]

/-- The methods do what the operators do. -/
theorem applyMethod_checkedMethod (op : Operator) (left right : UInt64) :
    applyMethod (checkedMethod op) (.scalar (wordScalar left)) [.scalar (wordScalar right)] =
      some (.option ((op.apply left right).toOption.map wordScalar)) := by
  have hlimit : wordLimit = 2 ^ 64 := rfl
  have hleft := left.toNat_lt
  have hzero : right = 0 ↔ right.toNat = 0 := by
    rw [← UInt64.toNat_inj]
    rfl
  rw [applyMethod, if_pos ⟨rfl, rfl⟩, bits_wordScalar, bits_wordScalar]
  cases op with
  | add =>
    simp only [checkedMethod, arithmetic?, Operator.apply, Option.map_some]
    by_cases hfits : left.toNat + right.toNat < wordLimit
    · have hsum : (left + right).toNat = left.toNat + right.toNat := by
        rw [UInt64.toNat_add]
        exact Nat.mod_eq_of_lt hfits
      simp [hfits, Except.toOption, wordScalar_eq hsum]
    · simp [hfits, Nat.le_of_not_lt hfits, Except.toOption]
  | sub =>
    simp only [checkedMethod, arithmetic?, Operator.apply, Option.map_some]
    by_cases hle : right ≤ left
    · have hnat := UInt64.le_iff_toNat_le.mp hle
      have hsub := UInt64.toNat_sub_of_le left right hle
      have hfits : left.toNat - right.toNat < wordLimit := by omega
      simp [hle, hnat, hfits, Except.toOption, wordScalar_eq hsub]
    · have hnat : ¬ right.toNat ≤ left.toNat := fun h => hle (UInt64.le_iff_toNat_le.mpr h)
      simp [hle, hnat, Except.toOption]
  | mul =>
    simp only [checkedMethod, arithmetic?, Operator.apply, Option.map_some]
    by_cases hfits : left.toNat * right.toNat < wordLimit
    · have hproduct : (left * right).toNat = left.toNat * right.toNat := by
        rw [UInt64.toNat_mul]
        exact Nat.mod_eq_of_lt hfits
      simp [hfits, Except.toOption, wordScalar_eq hproduct]
    · simp [hfits, Nat.le_of_not_lt hfits, Except.toOption]
  | div =>
    simp only [checkedMethod, arithmetic?, Operator.apply, Option.map_some, hzero]
    by_cases hdivisor : right.toNat = 0
    · simp [hdivisor, Except.toOption]
    · have hfits : left.toNat / right.toNat < wordLimit :=
        Nat.lt_of_le_of_lt (Nat.div_le_self _ _) hleft
      simp [hdivisor, hfits, Except.toOption, wordScalar_eq (UInt64.toNat_div left right)]
  | rem =>
    simp only [checkedMethod, arithmetic?, Operator.apply, Option.map_some, hzero]
    by_cases hdivisor : right.toNat = 0
    · simp [hdivisor, Except.toOption]
    · have hfits : left.toNat % right.toNat < wordLimit :=
        Nat.lt_of_le_of_lt (Nat.mod_le _ _) hleft
      simp [hdivisor, hfits, Except.toOption, wordScalar_eq (UInt64.toNat_mod left right)]

theorem FieldAccess.Holds.eval {env : Env} {field : String} {value : UInt64}
    (h : access.Holds env field value) :
    (access.wordExpr field).eval env = .ok (.scalar (wordScalar value)) := by
  obtain ⟨s, hcount, hplace⟩ := h
  have hvalue : (access.placeExpr field).eval env = .ok (.scalar s) := by
    cases access with
    | loaded => exact eval_name hplace
    | own =>
      obtain ⟨fields, hself, hfield⟩ := hplace
      refine eval_member (eval_name hself) ?_
      rw [fieldOf, hfield]
      rfl
  have hunsigned : s.kind.isUnsigned = true := by
    by_contra hno
    rw [Scalar.count?, if_neg hno] at hcount
    cases hcount
  refine eval_function hvalue ?_
  rw [show "u64::from" = ScalarKind.u64.name ++ "::from" from by decide, applyFunction_widening,
    widened, if_pos ⟨hunsigned, rfl, s.kind.size_le⟩, wordScalar_eq (Scalar.toNat_of_count? hcount)]

/-- A chain of checked operations has the value of the length, or is left where that has none. -/
theorem eval_chainExpr {env : Env} {value : String → UInt64} {e : LengthExpr}
    (h : ∀ name ∈ e.fields, access.Holds env name (value name)) :
    (chainExpr access e).eval env =
      match e.eval fun name => some (value name) with
      | .ok v => .ok (.scalar (wordScalar v))
      | .error _ => .error .leave := by
  induction e with
  | const v =>
    have hword : literalValue v.toNat "u64" = some (.scalar (wordScalar v)) := by
      rw [literalValue, if_neg (by decide)]
      exact if_pos ⟨rfl, v.toNat_lt⟩
    rw [LengthExpr.eval_const]
    exact eval_literal hword
  | field name =>
    rw [LengthExpr.eval_field]
    exact (h name (List.mem_singleton_self name)).eval
  | binary op left right ihl ihr =>
    have hl := ihl fun name hn => h name (List.mem_append_left _ hn)
    have hr := ihr fun name hn => h name (List.mem_append_right _ hn)
    rw [LengthExpr.eval_binary, chainExpr, Expr.eval, Expr.eval, hl]
    cases hleft : left.eval fun name => some (value name) with
    | error cause => rfl
    | ok l =>
      rw [evalAll, evalAll, hr]
      cases hright : right.eval fun name => some (value name) with
      | error cause => rfl
      | ok r =>
        simp only [bind, Except.bind, pure, Except.pure, applyMethod_checkedMethod]
        cases op.apply l r <;> rfl

theorem eval_someExpr {env : Env} {e : Expr} :
    (someExpr e).eval env =
      e.eval env >>= fun v => orStuck (applyFunction "::std::option::Option::Some" [v]) := by
  rw [someExpr, Expr.eval, evalAll]
  cases e.eval env <;> rfl

/-- The expression of a length stands for its value, if it has one, and for nothing if not. -/
theorem eval_lengthExpr {env : Env} {value : String → UInt64} {e : LengthExpr}
    (h : ∀ name ∈ e.fields, access.Holds env name (value name)) :
    (lengthExpr access e).eval env =
      .ok (.option ((e.eval fun name => some (value name)).toOption.map wordScalar)) := by
  have hchain := eval_chainExpr h
  cases e with
  | const v => exact eval_someExpr.trans (by rw [hchain]; rfl)
  | field name => exact eval_someExpr.trans (by rw [hchain]; rfl)
  | binary op left right =>
    rw [lengthExpr, Expr.eval, if_pos rfl, eval_someExpr, hchain]
    cases (LengthExpr.binary op left right).eval fun name => some (value name) <;> rfl

/-! ## Different lengths -/

theorem placeExpr_injective {field field' : String}
    (h : access.placeExpr field = access.placeExpr field') : field = field' := by
  cases access with
  | loaded =>
    rw [FieldAccess.placeExpr, FieldAccess.placeExpr, Expr.name.injEq] at h
    exact (String.append_right_inj _).mp h
  | own =>
    rw [FieldAccess.placeExpr, FieldAccess.placeExpr, Expr.member.injEq] at h
    exact h.2

theorem checkedMethod_injective {op op' : Operator} (h : checkedMethod op = checkedMethod op') :
    op = op' := by
  revert h
  cases op <;> cases op' <;> decide

/-- Different lengths give different chains. -/
theorem chainExpr_injective {e e' : LengthExpr} (h : chainExpr access e = chainExpr access e') :
    e = e' := by
  induction e generalizing e' with
  | const v =>
    cases e' with
    | const v' =>
      rw [chainExpr, chainExpr, Expr.literal.injEq] at h
      rw [UInt64.toNat_inj.mp h.1]
    | field | binary => cases h
  | field name =>
    cases e' with
    | field name' =>
      simp only [chainExpr, FieldAccess.wordExpr, Expr.call.injEq, List.cons.injEq, true_and,
        and_true] at h
      rw [placeExpr_injective h]
    | const | binary => cases h
  | binary op left right ihl ihr =>
    cases e' with
    | binary op' left' right' =>
      simp only [chainExpr, Expr.attempt.injEq, Expr.call.injEq, Expr.member.injEq,
        List.cons.injEq, and_true] at h
      obtain ⟨⟨hl, hop⟩, hr⟩ := h
      rw [ihl hl, ihr hr, checkedMethod_injective hop]
    | const | field => cases h

theorem lengthExpr_injective {e e' : LengthExpr} (h : lengthExpr access e = lengthExpr access e') :
    e = e' := by
  have hsome {x y : Expr} (h : someExpr x = someExpr y) : x = y := by
    simpa only [someExpr, Expr.call.injEq, List.cons.injEq, true_and, and_true] using h
  cases e with
  | const | field =>
    cases e' with
    | const | field => exact chainExpr_injective (hsome h)
    | binary => cases h
  | binary =>
    cases e' with
    | const | field => cases h
    | binary =>
      simp only [lengthExpr, Expr.call.injEq, Expr.closure.injEq, true_and, and_true] at h
      exact chainExpr_injective (hsome h)

/-! ## Texts of lengths -/

theorem wordScalar_injective {v w : UInt64} (h : wordScalar v = wordScalar w) : v = w := by
  rw [← UInt64.toNat_inj, ← bits_wordScalar v, h, bits_wordScalar]

/-- The text of a length is read as one expression.  Wherever the fields have values, it is the
value of the length, and nothing exactly where the arithmetic of the length fails.  No other length
has the same text. -/
theorem checkedLength_evaluates (access : FieldAccess) (e : LengthExpr)
    (hnames : ∀ name ∈ e.fields, Text.isIdentifier name = true) :
    (∃ x, expression? (checkedLength access.word e) = some x ∧
      ∀ (env : Env) (value : String → UInt64),
        (∀ name ∈ e.fields, access.Holds env name (value name)) →
          (∀ v, x.eval env = .ok (.option (some (wordScalar v))) ↔
            e.eval (fun name => some (value name)) = .ok v) ∧
          (x.eval env = .ok (.option none) ↔
            (∃ op l r, e.eval (fun name => some (value name)) = .error (.overflow op l r)) ∨
              e.eval (fun name => some (value name)) = .error .divisionByZero)) ∧
    ∀ other : LengthExpr, (∀ name ∈ other.fields, Text.isIdentifier name = true) →
      checkedLength access.word other = checkedLength access.word e → other = e := by
  have hread := expression?_checkedLength access hnames
  refine ⟨⟨lengthExpr access e, hread, fun env value hvalues => ?_⟩, fun other hother htext => ?_⟩
  · rw [eval_lengthExpr hvalues]
    cases hresult : e.eval fun name => some (value name) with
    | ok w =>
      constructor
      · intro v
        simp only [Except.toOption, Option.map_some, Except.ok.injEq, Value.option.injEq,
          Option.some.injEq]
        exact ⟨wordScalar_injective, congrArg wordScalar⟩
      · simp [Except.toOption]
    | error cause =>
      have hcause : (∃ op l r, cause = .overflow op l r) ∨ cause = .divisionByZero := by
        rcases LengthExpr.eval_error hresult with h | h | ⟨_, _, h⟩
        · exact .inl h
        · exact .inr h
        · cases h
      constructor
      · simp [Except.toOption]
      · simpa [Except.toOption] using hcause
  · have hread' := expression?_checkedLength access hother
    rw [htext, hread, Option.some.injEq] at hread'
    exact (lengthExpr_injective hread').symm

/-- A length of four bytes for each of `n` elements and one more. -/
def paddedLength : LengthExpr := .binary .mul (.binary .add (.field "n") (.const 1)) (.const 4)

/-- A decoding that has loaded a field `n` of one byte. -/
def loadedCount (n : UInt8) : Env where
  types _ := none
  locals name := if name = "f_n" then some (.scalar (.ofBits .u8 n.toNat)) else none

theorem checkedLength_evaluates_padded :
    (∀ name ∈ paddedLength.fields, Text.isIdentifier name = true) ∧
      ∃ x, expression? (checkedLength FieldAccess.loaded.word paddedLength) = some x ∧
        x.eval (loadedCount 5) = .ok (.option (some (wordScalar 24))) := by
  have hnames : ∀ name ∈ paddedLength.fields, Text.isIdentifier name = true := by decide
  obtain ⟨⟨x, hread, hvalue⟩, -⟩ := checkedLength_evaluates .loaded paddedLength hnames
  have hholds : ∀ name ∈ paddedLength.fields, FieldAccess.loaded.Holds (loadedCount 5) name 5 := by
    intro name hname
    cases List.mem_singleton.mp hname
    exact ⟨.ofBits .u8 5, rfl, rfl⟩
  exact ⟨hnames, x, hread, ((hvalue (loadedCount 5) (fun _ => 5) hholds).1 24).mpr rfl⟩

end WireCodec.Source
