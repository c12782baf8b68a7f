import WireCodec.Derive.Options
import WireCodec.Source.Codec

/-!
# Codecs of items

From an item to the codec of the struct that it defines.  A type that is no kind must say in an
option what it stands for, the first time that it is used; the struct is then compiled like one of a
schema.
-/

namespace WireCodec.Derive

/-! ## Types -/

/-- True of the name of a type that may stand for a kind: neither a kind nor a primitive without a
wire form. -/
def mayStandForKind (name : String) : Bool :=
  match ScalarKind.lookup name with
  | .ok none => true
  | _ => false

def WrittenType.toTypeExpr : WrittenType → Except DeriveError TypeExpr
  | .name steps word raw =>
    if word = "Vec" ∧ !raw then .error .vecWithoutElement
    else if 1 < steps ∧ !ScalarKind.isKindName word then .error .longPath
    else .ok (.named word)
  | .applied word raw first =>
    if word = "Vec" ∧ !raw then
      match first with
      | some elem => do return .sequence (← elem.toTypeExpr)
      | none => .error .vecWithoutElement
    else .error .unsupportedType
  | .array _ .expression => .error .badArrayLength
  | .array elem (.number n) =>
    if n < wordLimit then do return .array (← elem.toTypeExpr) n
    else .error .arrayLengthTooLarge
  | .inParens inner => inner.toTypeExpr
  | .bound | .other => .error .unsupportedType

/-! ## Fields -/

def noteRepr (known : AliasTable) (leaf : String) : Option String → Except DeriveError AliasTable
  | some repr =>
    if ScalarKind.isKindName leaf then .error (.reprOfKind leaf)
    else
      match known.get? leaf with
      | some earlier => if earlier = repr then .ok known else .error (.otherRepr leaf earlier)
      | none => .ok (known.set leaf repr)
  | none =>
    if mayStandForKind leaf ∧ (known.get? leaf).isNone then .error (.noRepr leaf) else .ok known

def declareField (known : AliasTable) (field : ItemField) :
    Except DeriveError (AliasTable × FieldDecl) := do
  let options ← fieldOptions field.attributes
  let type ← field.type.toTypeExpr
  let known ← noteRepr known type.leaf (lastText? options "repr")
  return (known, ⟨field.name, type, lastText? options "len"⟩)

def declareFields (known : AliasTable) :
    List ItemField → Except DeriveError (AliasTable × List FieldDecl)
  | [] => .ok (known, [])
  | field :: rest => do
    let (known, decl) ← declareField known field
    let (known, decls) ← declareFields known rest
    return (known, decl :: decls)

/-! ## Items -/

def plainFields (item : Item) : Except DeriveError (List ItemField) :=
  match item.body with
  | .unit => .error .unitStruct
  | .tuple => .error .tupleStruct
  | .noStruct => .error .noStruct
  | .named fields => if item.isGeneric then .error .generic else .ok fields

def declare (item : Item) : Except DeriveError (Source.Style × AliasTable × StructDecl) := do
  let fields ← plainFields item
  let options ← structOptions item.attributes
  let style := { Source.Style.standard with
    readName := (lastText? options "read_fn").getD Source.Style.standard.readName
    writeName := (lastText? options "write_fn").getD Source.Style.standard.writeName }
  let (aliases, decls) ← declareFields .empty fields
  return (style, aliases, ⟨item.name, decls⟩)

/-- True of a text that still spells a name in the middle of code.  A byte order mark has no place
there, and a comment that goes to the end of the line hides what stands behind the name. -/
def isReadableInCode (s : String) : Bool := (tokens? ("(" ++ s ++ ")")).isSome

/-- What is wrong with the code for an element whose type is a keyword, if it cannot be read. -/
def unreadable? (name : String) : Option String :=
  if !reservedWords.contains name || neverRaw.contains name then none
  else if name = "fn" then some "expected parentheses"
  else if name = "unsafe" ∨ name = "extern" then some "expected `fn`"
  else if name = "for" then some "expected `<`"
  else if name = "dyn" ∨ name = "impl" then some "expected identifier"
  else some ("expected one of: `for`, parentheses, `fn`, `unsafe`, `extern`, identifier, `::`, " ++
    "`<`, `dyn`, square brackets, `*`, `&`, `!`, `impl`, `_`, lifetime")

def unreadableCode? (style : Source.Style) (type : StructType) : Option String :=
  if isReadableInCode style.readName && isReadableInCode style.writeName then
    (type.fields.filterMap (·.type.element.aliasName)).findSome? unreadable?
  else some "cannot parse string into token stream"

def codec (item : Item) : Except DeriveError (Source.Style × Codec) := do
  let (style, aliases, decl) ← declare item
  let type ← (StructType.bind aliases decl).mapError .schema
  -- The code is read once more; only names that are keywords or not alone can stop that.
  match unreadableCode? style type with
  | some reason => throw (.unreadableCode reason)
  | none =>
    let spelled (name : String) : String := (spelledName? name).getD name
    return ({ style with readName := spelled style.readName, writeName := spelled style.writeName },
      type.compile)

/-- The block of a codec without anything that separates tokens.  A comment that documents something
becomes the attribute that it stands for. -/
def tokenText (style : Source.Style) (c : Codec) : String :=
  let dense (s : List Char) : List Char := s.filter (!Text.isBlank ·)
  let line (s : List Char) : String :=
    match dense s with
    | '/' :: '/' :: '/' :: rest => "#[doc=\"" ++ String.ofList rest ++ "\"]"
    | rest => .ofList rest
  String.join (((Source.implText style c).toList.splitOn '\n').map line)

def Item.parse (s : String) : Option Item := tokens? s >>= Item.ofTokens?

end WireCodec.Derive
