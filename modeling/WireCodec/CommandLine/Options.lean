/-!
# Options

Reading a list of words as options: `--name value`, `--name=value`, `-n value`, `-nvalue` and
`-n=value`.  A value that is a word of its own may not look like an option.
-/

namespace WireCodec.CommandLine

structure OptionSpec where
  name : String
  letter : Option Char
  takesValue : Bool
  repeats : Bool
  allowsEmpty : Bool
  deriving DecidableEq, Repr

abbrev Given := String × String

def looksLikeOption (word : String) : Bool := word.startsWith "-" && word ≠ "-"

def cutAtEquals (word : List Char) : List Char × Option (List Char) :=
  match word.dropWhile (· ≠ '=') with
  | [] => (word, none)
  | _ :: value => (word.takeWhile (· ≠ '='), some value)

/-- The option that a word starts, and the value in the same word. -/
def optionOf? (specs : List OptionSpec) (word : String) : Option (OptionSpec × Option String) :=
  match word.toList with
  | '-' :: '-' :: body => do
    let (name, value) := cutAtEquals body
    let spec ← specs.find? (·.name = String.ofList name)
    return (spec, value.map String.ofList)
  | '-' :: letter :: body => do
    let spec ← specs.find? (·.letter = some letter)
    let value := match body with
      | [] => none
      | '=' :: rest => some rest
      | rest => some rest
    return (spec, value.map String.ofList)
  | _ => none

/-- Reads options up to the first word that belongs to none.  The answer holds the options that were
given, in order, and that word with the ones behind it. -/
def readOptions (specs : List OptionSpec) : List String → Option (List Given × List String)
  | [] => some ([], [])
  -- Two dashes end the options; nothing may stand behind them.
  | ["--"] => some ([], [])
  | word :: rest =>
    if !looksLikeOption word then some ([], word :: rest)
    else
      match optionOf? specs word with
      | none => none
      | some (spec, some value) =>
        if spec.takesValue then
          (readOptions specs rest).map fun (given, others) => ((spec.name, value) :: given, others)
        else none
      | some (spec, none) =>
        if !spec.takesValue then
          (readOptions specs rest).map fun (given, others) => ((spec.name, "") :: given, others)
        else
          match rest with
          | [] => none
          | value :: rest =>
            -- A value that is missing shows by the option that follows.
            if looksLikeOption value then none
            else
              (readOptions specs rest).map fun (given, others) =>
                ((spec.name, value) :: given, others)

def valuesOf (name : String) (given : List Given) : List String :=
  (given.filter (·.1 = name)).map Prod.snd

/-- True when an option was given as often, and with such values, as it may. -/
def OptionSpec.accepts (spec : OptionSpec) (given : List Given) : Bool :=
  let values := valuesOf spec.name given
  (spec.repeats || values.length ≤ 1) &&
    (!spec.takesValue || spec.allowsEmpty || values.all (· ≠ ""))

def readAccepted (specs : List OptionSpec) (words : List String) :
    Option (List Given × List String) := do
  let (given, others) ← readOptions specs words
  if specs.all (·.accepts given) then some (given, others) else none

end WireCodec.CommandLine
