import WireCodec.Schema.Error

/-!
# Faults of an item
-/

namespace WireCodec

inductive DeriveError where
  | unitStruct
  | tupleStruct
  | noStruct
  | generic
  | noArguments
  | valueForArguments
  /-- The name of an option is missing; what stands there is told, if anything. -/
  | noOptionName (found : Option String)
  /-- The name of an option goes on with colons, but not with a word. -/
  | noWordBehindColons (atEnd : Bool)
  | unknownStructOption
  | unknownFieldOption
  | noEquals
  | noText (atEnd : Bool)
  | noComma
  | badFunctionName
  | vecWithoutElement
  | unsupportedType
  | longPath
  | badArrayLength
  | arrayLengthTooLarge
  | reprOfKind (name : String)
  | otherRepr (name earlier : String)
  | noRepr (name : String)
  /-- A type that is declared in raw form cannot be written in the code. -/
  | unreadableCode (reason : String)
  | schema (cause : SchemaError)
  deriving DecidableEq, Repr

namespace DeriveError

def behindEnd (atEnd : Bool) (message : String) : String :=
  if atEnd then "unexpected end of input, " ++ message else message

def message : DeriveError → String
  | unitStruct => "Unit structs are not supported; use `struct Name \x7b\x7d`"
  | tupleStruct => "Only named fields are supported"
  | noStruct => "Only structs are supported"
  | generic => "Generic structs are not supported"
  | noArguments => "expected attribute arguments in parentheses: #[wire(...)]"
  | valueForArguments => "expected parentheses: #[wire(...)]"
  | noOptionName none => "unexpected end of input, expected nested attribute"
  | noOptionName (some found) => s!"unexpected {found} in nested attribute, expected ident"
  | noWordBehindColons atEnd => behindEnd atEnd "expected ident"
  | unknownStructOption => "expected `read_fn` or `write_fn`"
  | unknownFieldOption => "expected `len` or `repr`"
  | noEquals => "expected `=`"
  | noText atEnd => behindEnd atEnd "expected string literal"
  | noComma => "expected `,`"
  | badFunctionName => "not a valid function name"
  | vecWithoutElement => "Vec needs an element type"
  | unsupportedType =>
    "Unsupported type. Supported types: scalars, [T; N], Vec<T>, scalar aliases."
  | longPath => "Refer to named types by a single identifier (bring the alias into scope)"
  | badArrayLength => "Array length must be an integer literal"
  | arrayLengthTooLarge => "number too large to fit in target type"
  | reprOfKind name =>
    s!"`repr` only applies to named types, `{name}` is already a primitive"
  | otherRepr name earlier =>
    s!"`{name}` was declared with repr = \"{earlier}\" on an earlier field"
  | noRepr name =>
    s!"`{name}` is not a primitive; add #[wire(repr = \"...\")] naming its underlying type"
  | unreadableCode reason => s!"generated code does not parse: {reason}"
  | schema (.field _ _ cause) => cause.message
  | schema cause => cause.message

end DeriveError

end WireCodec
