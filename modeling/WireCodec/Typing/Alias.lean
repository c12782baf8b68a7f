import WireCodec.NameTable
import WireCodec.Scalar.Basic
import WireCodec.Typing.Error

/-!
# Aliases

An alias gives a kind, or another alias, a further name.  Resolving a name follows the aliases until
they reach a kind.  A table of `n` names that is followed for more than `n` steps has been left
nowhere and entered some alias twice, so that many steps decide the question.
-/

namespace WireCodec

/-- The names that a schema gives to kinds and to other names. -/
abbrev AliasTable := NameTable String

namespace AliasTable

/-- Follows aliases for a number of steps, from a name that the search for `name` has reached. -/
def follow (aliases : AliasTable) (name : String) : Nat → String → Except TypeError ScalarType
  | 0, _ => .error (.aliasCycle name)
  | steps + 1, current =>
    match aliases.get? current with
    | none => .error (if current = name then .unknown name else .leadsNowhere name current)
    | some next =>
      match ScalarKind.lookup next with
      | .ok (some kind) => .ok ⟨some name, kind⟩
      | .ok none => aliases.follow name steps next
      | .error cause => .error (.leadsToPrimitive name cause)

def resolve (aliases : AliasTable) (name : String) : Except TypeError ScalarType :=
  match ScalarKind.lookup name with
  | .ok (some kind) => .ok ⟨none, kind⟩
  | .ok none => aliases.follow name (aliases.size + 1) name
  | .error cause => .error (.primitive cause)

/-- A kind's own name stands for the kind, whatever the aliases say. -/
@[simp] theorem resolve_name (aliases : AliasTable) (kind : ScalarKind) :
    aliases.resolve kind.name = .ok ⟨none, kind⟩ := by
  simp [resolve]

end AliasTable

end WireCodec
