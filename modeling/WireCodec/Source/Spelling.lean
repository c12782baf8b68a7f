import WireCodec.Procedure.Codec

/-!
# Names and expressions in generated code

How generated code spells names, checked arithmetic, and the way between scalars and bytes.
-/

namespace WireCodec.Source

/-! ## Names -/

/-- The words that generated code can only use as names in raw form. -/
def keywords : List String :=
  ["as", "break", "const", "continue", "else", "enum", "extern", "false", "fn", "for", "if",
    "impl", "in", "let", "loop", "match", "mod", "move", "mut", "pub", "ref", "return", "static",
    "struct", "trait", "true", "type", "unsafe", "use", "where", "while", "async", "await", "dyn",
    "abstract", "become", "box", "do", "final", "macro", "override", "priv", "typeof", "unsized",
    "virtual", "yield", "try", "gen"]

/-- A name, in raw form when it is a keyword. -/
def identifier (name : String) : String :=
  if keywords.contains name then "r#" ++ name else name

def localName (field : String) : String := "f_" ++ field

def ownField (field : String) : String := "self." ++ identifier field

/-! ## Lengths -/

/-- The method that does an operator's arithmetic and refuses to wrap. -/
def checkedMethod : Operator → String
  | .add => "checked_add"
  | .sub => "checked_sub"
  | .mul => "checked_mul"
  | .div => "checked_div"
  | .rem => "checked_rem"

/-- The value of a length, given up at the first operation without a result. -/
def checkedChain (field : String → String) : LengthExpr → String
  | .const value => s!"{value.toNat}u64"
  | .field name => field name
  | .binary op left right =>
    checkedChain field left ++ "." ++ checkedMethod op ++ "(" ++ checkedChain field right ++ ")?"

def checkedLength (field : String → String) (e : LengthExpr) : String :=
  match e with
  | .binary .. =>
    "(|| -> ::std::option::Option<u64> \x7b ::std::option::Option::Some(" ++
      checkedChain field e ++ ") \x7d)()"
  | leaf => "::std::option::Option::Some(" ++ checkedChain field leaf ++ ")"

/-! ## Bytes to scalars -/

/-- The byte of a scalar that is `index` places above the lowest, in its unsigned kind. -/
def shiftedByte (unsigned : ScalarKind) (byteAt : Nat → String) (index : Nat) : String :=
  let byte := s!"{unsigned.name}::from(buf[{byteAt index}])"
  if index = 0 then byte else s!"{byte} << {8 * index}"

def patternOfBytes (kind : ScalarKind) (byteAt : Nat → String) : String :=
  if kind.size = 1 then s!"buf[{byteAt 0}]"
  else
    String.intercalate " | " ((List.range kind.size).map (shiftedByte kind.unsigned byteAt))

/-- The scalar that bytes spell; `byteAt` is the place of each byte in the buffer. -/
def scalarOfBytes (type : ScalarType) (byteAt : Nat → String) : String :=
  let pattern := patternOfBytes type.kind byteAt
  if !type.kind.isInteger then
    let float := s!"{type.kind.name}::from_bits({pattern})"
    match type.aliasName with
    | some name => s!"{float} as {name}"
    | none => float
  -- The pattern has the unsigned kind already; all else needs a cast.
  else if type.name = type.kind.unsigned.name then pattern
  else if type.kind.size = 1 then s!"{pattern} as {type.name}"
  else s!"({pattern}) as {type.name}"

def elementPlace (offset size : Nat) : String :=
  let scaled := if size = 1 then "i" else s!"i * {size}"
  if offset = 0 then scaled else s!"{offset} + {scaled}"

def behindPlace (index : Nat) : String :=
  if index = 0 then "p" else s!"p + {index}"

/-! ## Scalars to bytes -/

def patternOfScalar (type : ScalarType) (value : String) : String :=
  if !type.kind.isInteger then s!"{value}.to_bits()"
  else if type.aliasName.isNone && type.kind.isUnsigned then value
  else s!"{value} as {type.kind.unsigned.name}"

def byteOfPattern (index : Nat) : String :=
  if index = 0 then "v as u8" else s!"(v >> {8 * index}) as u8"

def appendPattern (kind : ScalarKind) : String :=
  if kind.size = 1 then "buf.push(v);"
  else
    let bytes := String.intercalate ", " ((List.range kind.size).map byteOfPattern)
    s!"buf.extend_from_slice(&[{bytes}]);"

end WireCodec.Source
