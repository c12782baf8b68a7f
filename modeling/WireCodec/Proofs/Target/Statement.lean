import WireCodec.Proofs.Target.Evaluation
import WireCodec.Proofs.Target.Reading

/-!
# Statements of generated code

A statement binds a variable of a given type, or is an expression that appends to a buffer.
-/

namespace WireCodec.Target

inductive Statement where
  | bind (name type : String) (value : Expr)
  | effect (e : Expr)

/-- The expression in front of the semicolon that ends a statement. -/
def statementValue? (ts : List Token) : Option Expr := do
  match (← ts.foldlM step ⟨[], .want⟩).hand with
  | .statement e => some e
  | _ => none

def statement? (s : String) : Option Statement :=
  match tokens s.toList with
  | .word "let" :: .word name :: .mark ':' :: .word type :: .mark '=' :: value =>
    (statementValue? value).map (.bind name type)
  | effect => (statementValue? effect).map .effect

def Env.set (env : Env) (name : String) (value : Value) : Env :=
  { env with locals := fun other => if other = name then some value else env.locals other }

/-- The bytes that a method appends to a buffer. -/
def appended (method : String) (value : Value) : Option (List UInt8) :=
  match method with
  | "push" => (byte? value).map ([·])
  | "extend_from_slice" =>
    match value with
    | .bytes bytes => some bytes
    | _ => none
  | _ => none

def Statement.run (env : Env) : Statement → Except Stop Env
  | .bind name type value => do
    match env.kind? type, ← value.eval env with
    | some kind, .scalar s =>
      if s.kind = kind then .ok (env.set name (.scalar s)) else .error .stuck
    | _, _ => .error .stuck
  | .effect (.call (.member (.name buffer) method) [argument]) => do
    let value ← argument.eval env
    match env.locals buffer, appended method value with
    | some (.bytes bytes), some more => .ok (env.set buffer (.bytes (bytes ++ more)))
    | _, _ => .error .stuck
  | .effect _ => .error .stuck

theorem Env.locals_set (env : Env) (name : String) (value : Value) :
    (env.set name value).locals name = some value := if_pos rfl

theorem Env.locals_set_of_ne (env : Env) {name other : String} (h : other ≠ name) (value : Value) :
    (env.set name value).locals other = env.locals other := if_neg h

/-- The value of a statement is all that stands in front of the semicolon. -/
theorem Binds.statementValue {s : String} {e : Expr} (h : Binds 0 s e) :
    statementValue? (tokens (s ++ ";").toList) = some e := by
  have hclose : Spells ";" [.mark ';'] := spells_mark rfl (by decide) (by decide)
  have hleads : Leads (s ++ ";") ⟨[], .want⟩ ⟨[], .statement e⟩ :=
    h.close [] trivial hclose (separates_of_head (c := ';') rfl (by decide) (by decide))
      (by decide) rfl
  have hread := hleads [] stops_nil
  rw [List.append_nil, State.read, State.read] at hread
  rw [statementValue?, hread]
  rfl

/-- A line that starts with `let` binds its value to the name. -/
theorem statement?_bind {name type before value : String} {e : Expr} (h : Binds 0 value e)
    (hbefore : Spells before
      [.word "let", .word name, .mark ':', .word type, .mark '=']) :
    statement? (before ++ (value ++ ";")) = some (.bind name type e) := by
  rw [statement?, String.toList_append, hbefore]
  exact congrArg (Option.map (Statement.bind name type)) h.statementValue

/-- Any other expression with a semicolon is carried out for its effect. -/
theorem statement?_effect {s : String} {e : Expr} (h : Binds 0 s e) :
    statement? (s ++ ";") = some (.effect e) := by
  have hvalue := h.statementValue
  unfold statement?
  split
  · next name type value htokens =>
    -- No expression starts with the keyword of a binding.
    have hkeyword (ts : List Token) : statementValue? (.word "let" :: ts) = none := rfl
    rw [htokens, hkeyword] at hvalue
    cases hvalue
  · rw [hvalue]
    rfl

/-! ## Execution -/

variable {env : Env}

/-- Binding a name lets it stand for the scalar, if that is of the type. -/
theorem run_bind {name type : String} {e : Expr} {s : Scalar} (hkind : env.kind? type = some s.kind)
    (he : e.eval env = .ok (.scalar s)) :
    (Statement.bind name type e).run env = .ok (env.set name (.scalar s)) := by
  rw [Statement.run, he]
  simp only [hkind]
  exact if_pos rfl

/-- Appending to a buffer puts the bytes at its end. -/
theorem run_append {buffer method : String} {e : Expr} {v : Value} {bytes more : List UInt8}
    (hbuffer : env.locals buffer = some (.bytes bytes)) (he : e.eval env = .ok v)
    (hmore : appended method v = some more) :
    (Statement.effect (.call (.member (.name buffer) method) [e])).run env =
      .ok (env.set buffer (.bytes (bytes ++ more))) := by
  rw [Statement.run, he]
  simp only [hbuffer, bind, Except.bind, hmore]

end WireCodec.Target
