import WireCodec.Length.Expr
import WireCodec.Proofs.Except

/-!
# Evaluation and the integers

Evaluation gives the value over the integers, unless a part of the expression has none or leaves the
range of words on the way.  Parts are worked through from left to right, an operator behind its
operands, and the first part at fault settles the error and the names that were asked for.  The
source of values may be anything that keeps a state, so it may answer a name differently each time.
-/

namespace WireCodec

/-! ## Operators on integers -/

/-- The result on integers; quotients are rounded towards zero. -/
def Operator.integer? (op : Operator) (left right : Int) : Option Int :=
  match op with
  | add => some (left + right)
  | sub => some (left - right)
  | mul => some (left * right)
  | div => if right = 0 then none else some (left.tdiv right)
  | rem => if right = 0 then none else some (left.tmod right)

/-- An operation on words gives the exact result if that is a word, and else says what is wrong. -/
theorem Operator.apply_cases (op : Operator) (x y : UInt64) :
    (∃ v, op.apply x y = .ok v ∧ op.integer? x.toNat y.toNat = some (v.toNat : Int)) ∨
    (op.apply x y = .error .divisionByZero ∧ op.integer? x.toNat y.toNat = none) ∨
    (op.apply x y = .error (.overflow op x y) ∧
      ∃ n, op.integer? x.toNat y.toNat = some n ∧ (n < 0 ∨ (wordLimit : Int) ≤ n)) := by
  cases op with
  | add =>
    -- Below the limit words wrap around nowhere, so the word is the integer.
    by_cases h : x.toNat + y.toNat < wordLimit
    · refine .inl ⟨x + y, if_pos h, ?_⟩
      rw [UInt64.toNat_add, show (x.toNat + y.toNat) % 2 ^ 64 = _ from Nat.mod_eq_of_lt h]
      rfl
    · refine .inr (.inr ⟨if_neg h, _, rfl, .inr ?_⟩)
      omega
  | sub =>
    by_cases h : y ≤ x
    · refine .inl ⟨x - y, if_pos h, ?_⟩
      rw [UInt64.toNat_sub_of_le x y h, Int.natCast_sub (UInt64.le_iff_toNat_le.mp h)]
      rfl
    · refine .inr (.inr ⟨if_neg h, _, rfl, .inl ?_⟩)
      rw [UInt64.le_iff_toNat_le] at h
      omega
  | mul =>
    by_cases h : x.toNat * y.toNat < wordLimit
    · refine .inl ⟨x * y, if_pos h, ?_⟩
      rw [UInt64.toNat_mul, show x.toNat * y.toNat % 2 ^ 64 = _ from Nat.mod_eq_of_lt h,
        Int.natCast_mul]
      rfl
    · refine .inr (.inr ⟨if_neg h, _, rfl, .inr ?_⟩)
      rw [← Int.natCast_mul]
      omega
  | div =>
    -- Quotients and remainders of words are never too large; rounding down is towards zero here.
    by_cases h : y = 0
    · subst h
      exact .inr (.inl ⟨rfl, rfl⟩)
    · have hzero : (y.toNat : Int) ≠ 0 := by
        rwa [Ne, Int.natCast_eq_zero, ← UInt64.toNat_zero, UInt64.toNat_inj]
      refine .inl ⟨x / y, if_neg h, ?_⟩
      show (if (y.toNat : Int) = 0 then none else some _) = _
      rw [if_neg hzero, UInt64.toNat_div, Int.natCast_ediv,
        Int.tdiv_eq_ediv_of_nonneg (Int.natCast_nonneg _)]
  | rem =>
    by_cases h : y = 0
    · subst h
      exact .inr (.inl ⟨rfl, rfl⟩)
    · have hzero : (y.toNat : Int) ≠ 0 := by
        rwa [Ne, Int.natCast_eq_zero, ← UInt64.toNat_zero, UInt64.toNat_inj]
      refine .inl ⟨x % y, if_neg h, ?_⟩
      show (if (y.toNat : Int) = 0 then none else some _) = _
      rw [if_neg hzero, UInt64.toNat_mod, Int.natCast_emod,
        Int.tmod_eq_emod_of_nonneg (Int.natCast_nonneg _)]

namespace LengthExpr

/-! ## Expressions with answers -/

/-- A length expression in which every reference has been answered. -/
inductive Answered where
  | const (value : UInt64)
  | reference (name : String) (answer : Option UInt64)
  | binary (op : Operator) (left right : Answered)

namespace Answered

def name? : Answered → Option String
  | reference name _ => some name
  | _ => none

/-- All parts, an operator behind those of its operands. -/
def parts : Answered → List Answered
  | binary op left right => left.parts ++ right.parts ++ [binary op left right]
  | part => [part]

def integer? : Answered → Option Int
  | const value => some value.toNat
  | reference _ answer => answer.map fun value => (value.toNat : Int)
  | binary op left right => left.integer?.bind fun l => right.integer?.bind fun r => op.integer? l r

/-- The part has a value, and that is a word. -/
def IsWord (t : Answered) : Prop := ∃ n : Int, t.integer? = some n ∧ 0 ≤ n ∧ n < wordLimit

/-- What is wrong with a part whose operands are words. -/
inductive Fault : Answered → EvalError → Prop where
  | unknown (name : String) : Fault (reference name none) (.unknownField name)
  | division {op : Operator} {left right : Answered} {x y : UInt64}
    (hleft : left.integer? = some (x.toNat : Int)) (hright : right.integer? = some (y.toNat : Int))
    (undefined : op.integer? x.toNat y.toNat = none) : Fault (binary op left right) .divisionByZero
  | overflow {op : Operator} {left right : Answered} {x y : UInt64} {n : Int}
    (hleft : left.integer? = some (x.toNat : Int)) (hright : right.integer? = some (y.toNat : Int))
    (exact : op.integer? x.toNat y.toNat = some n) (outside : n < 0 ∨ wordLimit ≤ n) :
    Fault (binary op left right) (.overflow op x y)

/-- The value on words, the operands from left to right. -/
def eval : Answered → Except EvalError UInt64
  | const value => .ok value
  | reference name none => .error (.unknownField name)
  | reference _ (some value) => .ok value
  | binary op left right => left.eval.bind fun l => right.eval.bind fun r => op.apply l r

/-- The names that are asked for until the evaluation ends. -/
def asked : Answered → List String
  | const _ => []
  | reference name _ => [name]
  | binary _ left right =>
    left.asked ++ match left.eval with
      | .ok _ => right.asked
      | .error _ => []

theorem isWord_iff {t : Answered} :
    t.IsWord ↔ ∃ v : UInt64, t.integer? = some (v.toNat : Int) := by
  have hlimit : wordLimit = UInt64.size := rfl
  constructor
  · rintro ⟨n, hn, hlow, hhigh⟩
    have hlt : n.toNat < UInt64.size := by omega
    refine ⟨UInt64.ofNat n.toNat, ?_⟩
    rw [hn, UInt64.toNat_ofNat_of_lt' hlt, Int.toNat_of_nonneg hlow]
  · rintro ⟨v, hv⟩
    have hlt : v.toNat < UInt64.size := v.toNat_lt
    exact ⟨v.toNat, hv, Int.natCast_nonneg _, by omega⟩

theorem Fault.not_isWord {t : Answered} {cause : EvalError} (h : t.Fault cause) : ¬ t.IsWord := by
  rintro ⟨n, hn, hlow, hhigh⟩
  cases h with
  | unknown name => cases hn
  | division hleft hright undefined =>
    rw [integer?, hleft, hright] at hn
    exact absurd (undefined.symm.trans hn) (by simp)
  | overflow hleft hright exact outside =>
    rw [integer?, hleft, hright] at hn
    have hsame := Option.some.inj (exact.symm.trans hn)
    omega

/-! ## Parts up to the first fault -/

/-- The parts up to one of them, all words in front of it. -/
structure Reaches (t : Answered) (before : List Answered) (part : Answered) : Prop where
  isPrefix : before ++ [part] <+: t.parts
  words : ∀ p ∈ before, p.IsWord

theorem Reaches.mem_parts {t part : Answered} {before : List Answered} (h : t.Reaches before part) :
    part ∈ t.parts :=
  h.isPrefix.subset (List.mem_append_right _ (List.mem_singleton_self _))

/-- There is only one first part that is no word. -/
theorem Reaches.unique {t part part' : Answered} {before before' : List Answered}
    (h : t.Reaches before part) (h' : t.Reaches before' part') (hpart : ¬ part.IsWord)
    (hpart' : ¬ part'.IsWord) : before = before' ∧ part = part' := by
  have hself {p : Answered} {front : List Answered} : p ∈ front ++ [p] :=
    List.mem_append_right _ (List.mem_singleton_self _)
  -- If one of them stood in front of the other, it would have to be a word.
  rcases List.prefix_or_prefix_of_prefix h.isPrefix h'.isPrefix with hle | hle
  · rcases List.prefix_concat_iff.mp hle with heq | hfront
    · exact List.append_singleton_inj.mp heq
    · exact absurd (h'.words part (hfront.subset hself)) hpart
  · rcases List.prefix_concat_iff.mp hle with heq | hfront
    · have hboth := List.append_singleton_inj.mp heq
      exact ⟨hboth.1.symm, hboth.2.symm⟩
    · exact absurd (h.words part' (hfront.subset hself)) hpart'

section Operands

variable {left right part : Answered} {before : List Answered} (op : Operator)

theorem Reaches.in_left (h : left.Reaches before part) :
    (binary op left right).Reaches before part where
  isPrefix := by
    rw [parts, List.append_assoc]
    exact h.isPrefix.trans (List.prefix_append _ _)
  words := h.words

theorem Reaches.in_right (hleft : ∀ p ∈ left.parts, p.IsWord) (h : right.Reaches before part) :
    (binary op left right).Reaches (left.parts ++ before) part where
  isPrefix := by
    rw [parts, List.append_assoc, List.append_assoc]
    exact (List.prefix_append_right_inj _).mpr (h.isPrefix.trans (List.prefix_append _ _))
  words p hp := by
    rcases List.mem_append.mp hp with hp | hp
    · exact hleft p hp
    · exact h.words p hp

theorem reaches_operator (hleft : ∀ p ∈ left.parts, p.IsWord)
    (hright : ∀ p ∈ right.parts, p.IsWord) :
    (binary op left right).Reaches (left.parts ++ right.parts) (binary op left right) where
  isPrefix := List.prefix_rfl
  words p hp := by
    rcases List.mem_append.mp hp with hp | hp
    · exact hleft p hp
    · exact hright p hp

end Operands

/-- An evaluation ends with the integer when every part is a word, and otherwise with the fault of
the first part that is none.  It asks for the references up to there. -/
theorem eval_ends (t : Answered) :
    (∃ v, t.eval = .ok v ∧ t.integer? = some (v.toNat : Int) ∧ (∀ part ∈ t.parts, part.IsWord) ∧
      t.asked = t.parts.filterMap name?) ∨
    ∃ cause before part, t.eval = .error cause ∧ t.Reaches before part ∧ part.Fault cause ∧
      t.asked = (before ++ [part]).filterMap name? := by
  induction t with
  | const value =>
    refine .inl ⟨value, rfl, rfl, fun part hpart => ?_, rfl⟩
    rw [List.mem_singleton.mp hpart]
    exact isWord_iff.mpr ⟨value, rfl⟩
  | reference name answer =>
    cases answer with
    | none =>
      exact .inr ⟨_, [], _, rfl, ⟨List.prefix_rfl, by simp⟩, .unknown name, rfl⟩
    | some value =>
      refine .inl ⟨value, rfl, rfl, fun part hpart => ?_, rfl⟩
      rw [List.mem_singleton.mp hpart]
      exact isWord_iff.mpr ⟨value, rfl⟩
  | binary op left right ihl ihr =>
    rcases ihl with
      ⟨x, hx, hleft, hwordsl, haskedl⟩ | ⟨cause, before, part, hl, hreach, hfault, hasked⟩
    · rcases ihr with
        ⟨y, hy, hright, hwordsr, haskedr⟩ | ⟨cause, before, part, hr, hreach, hfault, hasked⟩
      · have heval : (binary op left right).eval = op.apply x y := by
          rw [eval, hx, hy]
          rfl
        have hinteger : (binary op left right).integer? = op.integer? x.toNat y.toNat := by
          rw [integer?, hleft, hright]
          rfl
        have hasked : (binary op left right).asked =
            (left.parts ++ right.parts ++ [binary op left right]).filterMap name? := by
          rw [asked, hx, haskedl, haskedr, List.filterMap_append, List.filterMap_append]
          exact (List.append_nil _).symm
        have hself := reaches_operator op hwordsl hwordsr
        -- Both operands are words, so all depends on the operator.
        rcases op.apply_cases x y with ⟨v, hv, hn⟩ | ⟨hv, hn⟩ | ⟨hv, n, hn, hout⟩
        · refine .inl ⟨v, heval.trans hv, hinteger.trans hn, fun p hp => ?_, hasked⟩
          rcases List.mem_append.mp hp with hp | hp
          · exact hself.words p hp
          · rw [List.mem_singleton.mp hp]
            exact isWord_iff.mpr ⟨v, hinteger.trans hn⟩
        · exact .inr ⟨_, _, _, heval.trans hv, hself, .division hleft hright hn, hasked⟩
        · exact .inr ⟨_, _, _, heval.trans hv, hself, .overflow hleft hright hn hout, hasked⟩
      · -- The right operand is at fault, behind all parts of the left one.
        have heval : (binary op left right).eval = .error cause := by
          rw [eval, hx, hr]
          rfl
        refine .inr ⟨cause, _, part, heval, hreach.in_right op hwordsl, hfault, ?_⟩
        rw [asked, hx, haskedl, List.append_assoc, List.filterMap_append, ← hasked]
    · -- The left operand is at fault, so the right one is not even asked.
      have heval : (binary op left right).eval = .error cause := by
        rw [eval, hl]
        rfl
      refine .inr ⟨cause, before, part, heval, hreach.in_left op, hfault, ?_⟩
      rw [asked, hl, List.append_nil, hasked]

/-- Evaluation succeeds exactly if every part is a word, and gives the exact result. -/
theorem eval_eq_ok {t : Answered} {v : UInt64} :
    t.eval = .ok v ↔ (∀ part ∈ t.parts, part.IsWord) ∧ t.integer? = some (v.toNat : Int) := by
  rcases t.eval_ends with ⟨w, hw, hinteger, hwords, -⟩ | ⟨_, _, part, h, hreach, hfault, -⟩
  · rw [hw, hinteger, Except.ok.injEq, Option.some.injEq, Int.natCast_inj, UInt64.toNat_inj]
    exact ⟨fun h => ⟨hwords, h⟩, fun h => h.2⟩
  · constructor
    · intro hok
      rw [h] at hok
      cases hok
    · rintro ⟨hwords, -⟩
      exact absurd (hwords part hreach.mem_parts) hfault.not_isWord

/-- Evaluation fails at the first part that is no word, and has asked no further than that. -/
theorem eval_of_reaches {t part : Answered} {before : List Answered} (h : t.Reaches before part)
    (hpart : ¬ part.IsWord) : ∃ cause, part.Fault cause ∧ t.eval = .error cause ∧
      t.asked = (before ++ [part]).filterMap name? := by
  rcases t.eval_ends with
    ⟨v, -, -, hwords, -⟩ | ⟨cause, front, first, heval, hreach, hfault, hasked⟩
  · exact absurd (hwords part h.mem_parts) hpart
  · obtain ⟨rfl, rfl⟩ := hreach.unique h hfault.not_isWord hpart
    exact ⟨cause, hfault, heval, hasked⟩

theorem asked_of_eval {t : Answered} {v : UInt64} (h : t.eval = .ok v) :
    t.asked = t.parts.filterMap name? := by
  rcases t.eval_ends with ⟨w, -, -, -, hasked⟩ | ⟨cause, before, part, herror, -, -, -⟩
  · exact hasked
  · rw [h] at herror
    cases herror

theorem asked_prefix (t : Answered) : t.asked <+: t.parts.filterMap name? := by
  rcases t.eval_ends with ⟨v, -, -, -, hasked⟩ | ⟨cause, before, part, -, hreach, -, hasked⟩
  · exact hasked ▸ List.prefix_rfl
  · exact hasked ▸ hreach.isPrefix.filterMap name?

end Answered

/-! ## Sources of values -/

section Source

variable {σ : Type} (ask : String → StateM σ (Option UInt64))

/-- The expression with the answers that its references get, all of them asked in their order. -/
def answered : LengthExpr → StateM σ Answered
  | const value => pure (.const value)
  | field name => do return .reference name (← ask name)
  | binary op left right => do return .binary op (← left.answered) (← right.answered)

/-- The same source, with a list of the names that it was asked for. -/
def logged (name : String) : StateM (σ × List String) (Option UInt64) := fun (s, names) =>
  let (answer, s) := (ask name).run s
  (answer, s, names ++ [name])

/-- The state of the source when it has been asked for names. -/
def stateAfter (names : List String) (s : σ) : σ :=
  names.foldl (fun s name => ((ask name).run s).2) s

theorem stateAfter_append (first second : List String) (s : σ) :
    stateAfter ask (first ++ second) s = stateAfter ask second (stateAfter ask first s) :=
  List.foldl_append

theorem run_answered_binary (op : Operator) (left right : LengthExpr) (s : σ) :
    ((binary op left right).answered ask).run s =
      (.binary op ((left.answered ask).run s).1
        ((right.answered ask).run ((left.answered ask).run s).2).1,
      ((right.answered ask).run ((left.answered ask).run s).2).2) := rfl

theorem run_evalM_binary (op : Operator) (left right : LengthExpr) (s : σ) :
    ((binary op left right).evalM ask).run s =
      match (left.evalM ask).run s with
      | (.error e, t) => (.error e, t)
      | (.ok l, t) =>
        match (right.evalM ask).run t with
        | (.error e, u) => (.error e, u)
        | (.ok r, u) => (op.apply l r, u) := by
  rw [evalM, StateT.run_bind]
  rcases (left.evalM ask).run s with ⟨_ | l, t⟩
  · rfl
  · dsimp only
    show (StateT.run (right.evalM ask >>= _) t) = _
    rw [StateT.run_bind]
    rcases (right.evalM ask).run t with ⟨_ | r, u⟩ <;> rfl

theorem answered_ends (e : LengthExpr) (s : σ) :
    ((e.answered ask).run s).1.parts.filterMap Answered.name? = e.fields ∧
      ((e.answered ask).run s).2 = stateAfter ask e.fields s := by
  induction e generalizing s with
  | const value => exact ⟨rfl, rfl⟩
  | field name => exact ⟨rfl, rfl⟩
  | binary op left right ihl ihr =>
    obtain ⟨hnamesl, hafterl⟩ := ihl s
    obtain ⟨hnamesr, hafterr⟩ := ihr (stateAfter ask left.fields s)
    rw [run_answered_binary, hafterl]
    constructor
    · rw [Answered.parts, List.filterMap_append, List.filterMap_append, hnamesl, hnamesr]
      exact List.append_nil _
    · rw [hafterr, fields, stateAfter_append]

/-- Asking while evaluating is evaluating what was answered, and stopping at a fault. -/
theorem run_evalM (e : LengthExpr) (s : σ) :
    (e.evalM ask).run s =
      (((e.answered ask).run s).1.eval, stateAfter ask ((e.answered ask).run s).1.asked s) := by
  induction e generalizing s with
  | const value => rfl
  | field name =>
    show StateT.run (ask name >>= _) s =
      (Answered.eval (.reference name ((ask name).run s).1), ((ask name).run s).2)
    rw [StateT.run_bind]
    rcases (ask name).run s with ⟨_ | value, t⟩ <;> rfl
  | binary op left right ihl ihr =>
    obtain ⟨hnames, hafter⟩ := answered_ends ask left s
    rw [run_evalM_binary, ihl, run_answered_binary, hafter, Answered.eval, Answered.asked]
    cases hl : ((left.answered ask).run s).1.eval with
    | error cause =>
      rw [List.append_nil]
      rfl
    | ok l =>
      -- The left operand has asked for all of its names, and the right one starts from there.
      rw [Answered.asked_of_eval hl, hnames]
      dsimp only
      rw [ihr, stateAfter_append]
      cases ((right.answered ask).run (stateAfter ask left.fields s)).1.eval <;> rfl

/-! ## Sources that keep a list -/

theorem stateAfter_logged (names : List String) (s : σ) (log : List String) :
    stateAfter (logged ask) names (s, log) = (stateAfter ask names s, log ++ names) := by
  induction names generalizing s log with
  | nil => exact congrArg (Prod.mk s) (List.append_nil log).symm
  | cons name rest ih =>
    show stateAfter (logged ask) rest (((ask name).run s).2, log ++ [name]) = _
    rw [ih, List.append_assoc]
    rfl

theorem answered_logged (e : LengthExpr) (s : σ) (log : List String) :
    ((e.answered (logged ask)).run (s, log)).1 = ((e.answered ask).run s).1 := by
  induction e generalizing s log with
  | const value => rfl
  | field name => rfl
  | binary op left right ihl ihr =>
    rw [run_answered_binary, run_answered_binary, (answered_ends (logged ask) left (s, log)).2,
      stateAfter_logged, ihl, ihr, (answered_ends ask left s).2]

/-- The log of an evaluation holds the names that it asked for. -/
theorem run_evalM_logged (e : LengthExpr) (s : σ) :
    (e.evalM (logged ask)).run (s, []) =
      (((e.answered ask).run s).1.eval, stateAfter ask ((e.answered ask).run s).1.asked s,
        ((e.answered ask).run s).1.asked) := by
  rw [run_evalM, answered_logged, stateAfter_logged, List.nil_append]

/-! ## Sources that always answer the same -/

/-- The expression with the answers of a table. -/
def withAnswers (value? : String → Option UInt64) : LengthExpr → Answered
  | const value => .const value
  | field name => .reference name (value? name)
  | binary op left right => .binary op (left.withAnswers value?) (right.withAnswers value?)

/-- A table answers all that a reference can ask. -/
theorem eval_withAnswers (value? : String → Option UInt64) (e : LengthExpr) :
    (e.withAnswers value?).eval = e.eval value? := by
  induction e with
  | const value => rfl
  | field name =>
    rw [eval_field, withAnswers]
    cases value? name <;> rfl
  | binary op left right ihl ihr => rw [eval_binary, withAnswers, Answered.eval, ihl, ihr]

variable {ask}

theorem answered_of_steady {value? : String → Option UInt64}
    (h : ∀ name s, ((ask name).run s).1 = value? name) (e : LengthExpr) (s : σ) :
    ((e.answered ask).run s).1 = e.withAnswers value? := by
  induction e generalizing s with
  | const value => rfl
  | field name =>
    show Answered.reference name ((ask name).run s).1 = _
    rw [h, withAnswers]
  | binary op left right ihl ihr => rw [run_answered_binary, ihl, ihr, withAnswers]

theorem evalTraced_eq (value? : String → Option UInt64) (e : LengthExpr) :
    e.evalTraced value? = (e.eval value?, (e.withAnswers value?).asked) := by
  obtain ⟨ask, hask⟩ : ∃ ask : String → StateM (List String) (Option UInt64),
    ask = fun name => modifyGet fun asked => (value? name, asked ++ [name]) := ⟨_, rfl⟩
  have hsteady : ∀ name s, ((ask name).run s).1 = value? name := fun name s => by rw [hask]; rfl
  have hafter (names log : List String) : stateAfter ask names log = log ++ names := by
    induction names generalizing log with
    | nil => exact (List.append_nil log).symm
    | cons name rest ih =>
      have hnext : ((ask name).run log).2 = log ++ [name] := by rw [hask]; rfl
      rw [stateAfter, List.foldl_cons, hnext]
      exact (ih _).trans (by rw [List.append_assoc]; rfl)
  rw [evalTraced, ← hask, run_evalM, answered_of_steady hsteady, hafter, eval_withAnswers,
    List.nil_append]

end Source

/-! ## Constants -/

/-- A constant is an expression without references that can be evaluated. -/
theorem const?_eq_some {σ : Type} (ask : String → StateM σ (Option UInt64)) (e : LengthExpr) (s : σ)
    {v : UInt64} :
    e.const? = some v ↔ e.fields = [] ∧ ((e.answered ask).run s).1.eval = .ok v := by
  induction e generalizing s v with
  | const value =>
    show some value = some v ↔ [] = [] ∧ Except.ok value = .ok v
    rw [Option.some.injEq, Except.ok.injEq]
    exact ⟨fun h => ⟨rfl, h⟩, fun h => h.2⟩
  | field name =>
    constructor
    · intro h
      cases h
    · rintro ⟨h, -⟩
      cases h
  | binary op left right ihl ihr =>
    have hboth : (binary op left right).fields = [] ↔ left.fields = [] ∧ right.fields = [] :=
      List.append_eq_nil_iff
    rw [run_answered_binary, hboth]
    constructor
    · intro h
      obtain ⟨l, hl, h⟩ := Option.bind_eq_some_iff.mp h
      obtain ⟨r, hr, h⟩ := Option.bind_eq_some_iff.mp h
      obtain ⟨hleft, hevall⟩ := (ihl s).mp hl
      obtain ⟨hright, hevalr⟩ := (ihr ((left.answered ask).run s).2).mp hr
      refine ⟨⟨hleft, hright⟩, ?_⟩
      rw [Answered.eval, hevall, hevalr]
      show op.apply l r = .ok v
      cases happly : op.apply l r with
      | error cause => rw [happly] at h; cases h
      | ok w => rw [happly] at h; cases h; rfl
    · rintro ⟨⟨hleft, hright⟩, h⟩
      obtain ⟨l, hl, h⟩ := bind_eq_ok.mp h
      obtain ⟨r, hr, h⟩ := bind_eq_ok.mp h
      rw [const?, (ihl s).mpr ⟨hleft, hl⟩, (ihr _).mpr ⟨hright, hr⟩]
      show (op.apply l r).toOption = some v
      rw [h]
      rfl

/-! ## Evaluation -/

/-- Whatever the source of values does: evaluation gives a value exactly when all parts are words
over the integers, and then it is the integer.  Otherwise it ends in the fault of the first part
that is no word.  It asks for the references up to there in their order, and a constant is an
expression without any. -/
theorem evalM_exact {σ : Type} (ask : String → StateM σ (Option UInt64)) (e : LengthExpr) (s : σ) :
    ∃ t result asked after, ((e.answered ask).run s).1 = t ∧
      (e.evalM ask).run s = (result, after) ∧
      (e.evalM (logged ask)).run (s, []) = (result, after, asked) ∧
      (∀ v, result = .ok v ↔
        (∀ part ∈ t.parts, part.IsWord) ∧ t.integer? = some (v.toNat : Int)) ∧
      (∀ before part, t.Reaches before part → ¬ part.IsWord → ∃ cause, part.Fault cause ∧
        result = .error cause ∧ asked = (before ++ [part]).filterMap Answered.name?) ∧
      asked <+: e.fields ∧ (∀ v, result = .ok v → asked = e.fields) ∧
      (∀ v, e.const? = some v ↔ e.fields = [] ∧ result = .ok v) ∧
      ∀ value?, (∀ name s, ((ask name).run s).1 = value? name) →
        e.eval value? = result ∧ e.evalTraced value? = (result, asked) := by
  have hnames := (answered_ends ask e s).1
  refine ⟨_, _, _, _, rfl, run_evalM ask e s, run_evalM_logged ask e s,
    fun v => Answered.eval_eq_ok,
    fun before part hreach hpart => Answered.eval_of_reaches hreach hpart, ?_, fun v h => ?_,
    fun v => const?_eq_some ask e s, fun value? hsteady => ?_⟩
  · rw [← hnames]
    exact Answered.asked_prefix _
  · rw [Answered.asked_of_eval h, hnames]
  · rw [answered_of_steady hsteady, evalTraced_eq, eval_withAnswers]
    exact ⟨rfl, rfl⟩

-- What is added later does not make up for a difference below zero.
example : (binary .add (binary .sub (field "n") (const 5)) (const 10)).eval (fun _ => some 3) =
    .error (.overflow .sub 3 5) := by rfl

end LengthExpr

end WireCodec
