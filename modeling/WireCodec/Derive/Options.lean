import WireCodec.Derive.Error
import WireCodec.Derive.Lexer
import WireCodec.Derive.Parser

/-!
# Options of an item

The attribute `wire` holds options: a name, an equals sign and a text, with commas between them.  Of
an option that is given more than once, the last text counts.
-/

namespace WireCodec.Derive

open TokenReader

abbrev Options := List (String × String)

/-- The name of an option, or the fault in it; the name is missing if it is no single plain word. -/
def optionName (tokens : List Token) : Except DeriveError (Option String × List Token) :=
  -- Two colons may stand in front of a path.
  let behindRoot := (behindMarks [':', ':'] tokens).getD tokens
  let fromRoot := behindRoot.length ≠ tokens.length
  match behindRoot with
  | [] => .error (.noOptionName none)
  | .word name raw :: rest => colons (if fromRoot || raw then none else some name) rest
  | rest => .error (.noOptionName (some (if literalAt rest then "literal" else "token")))
where
  /-- Goes on with a name behind its first word. -/
  colons (name : Option String) : List Token → Except DeriveError (Option String × List Token)
    | .mark ':' true :: .mark ':' _ :: .word _ _ :: rest => colons none rest
    | .mark ':' true :: .mark ':' _ :: [] => .error (.noWordBehindColons true)
    | .mark ':' true :: .mark ':' _ :: _ => .error (.noWordBehindColons false)
    | rest => .ok (name, rest)

def optionText : List Token → Except DeriveError (String × List Token)
  | .mark '=' _ :: .literal (.text value) :: rest => .ok (value, rest)
  | .mark '=' _ :: rest => .error (.noText rest.isEmpty)
  | _ => .error .noEquals

/-- Reads at most so many options, and checks each with its text. -/
def readOptions (check : Option String → Except DeriveError String)
    (checkText : String → Except DeriveError Unit) :
    Nat → List Token → Except DeriveError Options
  | 0, _ => .ok []
  | _, [] => .ok []
  | n + 1, tokens => do
    let (name, rest) ← optionName tokens
    let name ← check name
    let (value, rest) ← optionText rest
    checkText value
    match rest with
    | [] => return [(name, value)]
    -- A comma may end the list.
    | .mark ',' _ :: rest => return (name, value) :: (← readOptions check checkText n rest)
    | _ => throw .noComma

def optionsOf (check : Option String → Except DeriveError String)
    (checkText : String → Except DeriveError Unit) (attributes : List Attribute) :
    Except DeriveError Options := do
  let wire := attributes.filter (·.name == some "wire")
  let lists ← wire.mapM fun a =>
    match a.content with
    | .nothing => .error .noArguments
    | .value => .error .valueForArguments
    | .arguments tokens => readOptions check checkText tokens.length tokens
  return lists.flatten

/-- The text of an option; the last one counts. -/
def lastText? (options : Options) (name : String) : Option String :=
  options.reverse.lookup name

/-- The name that a text spells, as it is written in code.  Blanks and comments may stand around
it. -/
def spelledName? (s : String) : Option String :=
  match tokens? s with
  | some [.word name raw] =>
    if isFree name raw then some (if raw then "r#" ++ name else name) else none
  | _ => none

def structOptions (attributes : List Attribute) : Except DeriveError Options :=
  let check (name : Option String) : Except DeriveError String :=
    match name with
    | some "read_fn" => .ok "read_fn"
    | some "write_fn" => .ok "write_fn"
    | _ => .error .unknownStructOption
  let checkText (value : String) : Except DeriveError Unit :=
    if (spelledName? value).isSome then .ok () else .error .badFunctionName
  optionsOf check checkText attributes

def fieldOptions (attributes : List Attribute) : Except DeriveError Options :=
  let check (name : Option String) : Except DeriveError String :=
    match name with
    | some "len" => .ok "len"
    | some "repr" => .ok "repr"
    | _ => .error .unknownFieldOption
  optionsOf check (fun _ => .ok ()) attributes

end WireCodec.Derive
