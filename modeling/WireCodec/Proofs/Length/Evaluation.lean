import WireCodec.Length.Expr

/-!
# What a length depends on

The value of a length expression is settled by the values of the fields that it names.  If all of
these have values, only the arithmetic can fail.
-/

namespace WireCodec.LengthExpr

/-- Two sources of values that agree on the fields named give the same result. -/
theorem eval_congr {e : LengthExpr} {f g : String → Option UInt64}
    (h : ∀ name ∈ e.fields, f name = g name) : e.eval f = e.eval g := by
  induction e with
  | const value => rw [eval_const, eval_const]
  | field name => rw [eval_field, eval_field, h name (List.mem_singleton_self name)]
  | binary op left right ihl ihr =>
    have hl := ihl fun name hn => h name (List.mem_append_left _ hn)
    have hr := ihr fun name hn => h name (List.mem_append_right _ hn)
    rw [eval_binary, eval_binary, hl, hr]

theorem apply_error {op : Operator} {left right : UInt64} {cause : EvalError}
    (h : op.apply left right = .error cause) :
    (∃ op l r, cause = .overflow op l r) ∨ cause = .divisionByZero := by
  cases op with
  | add | sub | mul =>
    unfold Operator.apply at h
    dsimp only at h
    split at h
    · cases h
    · exact .inl ⟨_, _, _, (Except.error.inj h).symm⟩
  | div | rem =>
    unfold Operator.apply at h
    dsimp only at h
    split at h
    · exact .inr (Except.error.inj h).symm
    · cases h

/-- An expression fails in its arithmetic, or it names a field that has no value. -/
theorem eval_error {e : LengthExpr} {f : String → Option UInt64} {cause : EvalError}
    (h : e.eval f = .error cause) :
    (∃ op l r, cause = .overflow op l r) ∨ cause = .divisionByZero ∨
      ∃ name ∈ e.fields, f name = none := by
  induction e with
  | const value => cases h
  | field name =>
    rw [eval_field] at h
    cases hname : f name with
    | none => exact .inr (.inr ⟨name, List.mem_singleton_self name, hname⟩)
    | some value => rw [hname] at h; cases h
  | binary op left right ihl ihr =>
    rw [eval_binary] at h
    cases hl : left.eval f with
    | error c =>
      rw [hl] at h
      cases h
      exact (ihl hl).imp_right (Or.imp_right fun ⟨name, hn, hnone⟩ =>
        ⟨name, List.mem_append_left _ hn, hnone⟩)
    | ok l =>
      cases hr : right.eval f with
      | error c =>
        rw [hl, hr] at h
        cases h
        exact (ihr hr).imp_right (Or.imp_right fun ⟨name, hn, hnone⟩ =>
          ⟨name, List.mem_append_right _ hn, hnone⟩)
      | ok r =>
        rw [hl, hr] at h
        exact (apply_error h).imp_right .inl

end WireCodec.LengthExpr
