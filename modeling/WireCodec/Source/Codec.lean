import WireCodec.Source.Lines
import WireCodec.Source.Spelling

/-!
# Codecs as source text

The definition of a struct and the block with its two procedures, step by step as they are listed in
its codec.  Generated code uses full paths, and its local names carry a mark in front that keeps
them apart from each other and from `buf`, `r` and `w`.
-/

namespace WireCodec.Source

structure Style where
  readName : String
  writeName : String
  derives : List String
  deriving DecidableEq, Repr

def Style.standard : Style := ⟨"read_from", "write_to", ["Debug", "Clone", "PartialEq"]⟩

def allowedLints : String :=
  "dead_code, clippy::unnecessary_cast, clippy::useless_conversion, " ++
    "clippy::redundant_closure_call"

/-! ## Definitions -/

def structLines (style : Style) (c : Codec) : List Mark :=
  (if style.derives.isEmpty then []
    else [.line ("#[derive(" ++ String.intercalate ", " style.derives ++ ")]")]) ++
  block ("pub struct " ++ identifier c.name ++ " \x7b")
    (c.fields.map fun f => .line s!"pub {identifier f.name}: {f.type.spelling},")
    "\x7d"

def structText (style : Style) (c : Codec) : String :=
  layout (structLines style c)

def aliasText (name : String) (kind : ScalarKind) : String :=
  s!"#[allow(dead_code)]\npub type {identifier name} = {kind.name};\n"

/-! ## Decoding -/

def newError (kind message : String) : String :=
  s!"::std::io::Error::new(::std::io::ErrorKind::{kind}, {message})"

/-- The lines that bind the count of a field, given its value as an optional word. -/
def countLines (field value errorKind : String) : List Mark :=
  let message := s!"\"length of '{field}' is out of range\""
  [.line s!"let len_{field}: usize = {value}", .deeper,
    .line ".and_then(|v| <usize as ::core::convert::TryFrom<u64>>::try_from(v).ok())",
    .line s!".ok_or_else(|| {newError errorKind message})?;", .shallower]

/-- The lines that fill the scratch buffer with the counted bytes of a field. -/
def countedReadLines (field : String) (unit : Nat) : List Mark :=
  let bytes := s!"nbytes_{field}"
  let message := s!"\"byte length of '{field}' overflows usize\""
  let error := newError "InvalidData" message
  .line s!"let {bytes} = len_{field}.checked_mul({unit}).ok_or_else(|| {error})?;" ::
    block "\x7b"
      (.line "let mut filled = 0usize;" ::
        block (s!"while filled < {bytes} " ++ "\x7b")
          (.line s!"let end = {bytes}.min(filled.saturating_add({chunkSize}));" ::
            block "if buf.len() < end \x7b" [.line "buf.resize(end, 0);"] "\x7d" ++
            [.line "::std::io::Read::read_exact(r, &mut buf[filled..end])?;",
              .line "filled = end;"])
          "\x7d")
      "\x7d"

def decodeLines : DecodeStep → List Mark
  | .scratch bytes =>
    [.line s!"let mut buf: ::std::vec::Vec<u8> = ::std::vec![0u8; {bytes}];"]
  | .count field length =>
    countLines field (checkedLength (fun name => s!"u64::from({localName name})") length)
      "InvalidData"
  | .read (.fixed bytes) => [.line s!"::std::io::Read::read_exact(r, &mut buf[..{bytes}])?;"]
  | .read (.counted field unit) => countedReadLines field unit
  | .newArray field length elem =>
    -- Nothing is loaded into an array without elements, so it need not change.
    let binding := if length = 0 then "let" else "let mut"
    [.line (s!"{binding} {localName field}: [{elem.name}; {length}] = " ++
      s!"[::core::default::Default::default(); {length}];")]
  | .newSequence field elem =>
    [.line (s!"let mut {localName field}: ::std::vec::Vec<{elem.name}> = " ++
      s!"::std::vec![::core::default::Default::default(); len_{field}];")]
  | .load (.field field) type offset =>
    let value := scalarOfBytes type fun index => toString (offset + index)
    [.line s!"let {localName field}: {type.name} = {value};"]
  | .load (.elements field) type offset =>
    block (s!"for (i, v) in {localName field}.iter_mut().enumerate() " ++ "\x7b")
      [.line s!"let p = {elementPlace offset type.size};",
        .line s!"*v = {scalarOfBytes type behindPlace};"]
      "\x7d"

def resultLine (fields : List Field) : Mark :=
  let inits := fields.map fun f => s!"{identifier f.name}: {localName f.name}"
  if inits.isEmpty then .line "::std::result::Result::Ok(Self \x7b\x7d)"
  else
    .line ("::std::result::Result::Ok(Self \x7b " ++ String.intercalate ", " inits ++ " \x7d)")

def decodeProcedure (style : Style) (c : Codec) : List Mark :=
  let reader := if c.decode.any DecodeStep.isRead then "r" else "_r"
  .line s!"/// Decode a `{c.name}` from a reader." ::
    block (s!"pub fn {style.readName}<R: ::std::io::Read + ?Sized>({reader}: &mut R) -> " ++
        "::std::io::Result<Self> \x7b")
      (c.decode.flatMap decodeLines ++ [resultLine c.fields])
      "\x7d"

/-! ## Encoding -/

/-- The lines of one step of an encoding; `stores` tells whether any step appends. -/
def encodeLines (stores : Bool) : EncodeStep → List Mark
  | .count field length =>
    countLines field (checkedLength (fun name => s!"u64::from({ownField name})") length)
      "InvalidInput"
  | .checkCount field =>
    let access := ownField field
    let message := s!"::std::format!(\"'{field}' holds \x7b\x7d elements, " ++
      "its length expression requires \x7b\x7d\", " ++ s!"{access}.len(), len_{field})"
    let error := newError "InvalidInput" message
    block (s!"if {access}.len() != len_{field} " ++ "\x7b")
      [.line s!"return ::std::result::Result::Err({error});"]
      "\x7d"
  | .reserve fixed counted =>
    let binding := if stores then "let mut buf" else "let buf"
    let capacity := s!"{fixed}usize" ++ String.join (counted.map fun (field, unit) =>
      s!".saturating_add(len_{field}.saturating_mul({unit}))")
    [.line (s!"{binding}: ::std::vec::Vec<u8> = " ++
      s!"::std::vec::Vec::with_capacity({capacity});")]
  | .store (.field field) type =>
    block "\x7b"
      [.line s!"let v: {type.kind.unsigned.name} = {patternOfScalar type (ownField field)};",
        .line (appendPattern type.kind)]
      "\x7d"
  | .store (.elements field) type =>
    let element := if type.kind.isInteger then "*e" else "e"
    block (s!"for e in {ownField field}.iter() " ++ "\x7b")
      [.line s!"let v: {type.kind.unsigned.name} = {patternOfScalar type element};",
        .line (appendPattern type.kind)]
      "\x7d"
  | .write =>
    [.line "::std::io::Write::write_all(w, &buf)?;",
      .line "::std::result::Result::Ok(buf.len())"]

def encodeProcedure (style : Style) (c : Codec) : List Mark :=
  let stores := c.encode.any EncodeStep.isStore
  .line "/// Encode into `w`; returns the number of bytes written." ::
    block (s!"pub fn {style.writeName}<W: ::std::io::Write + ?Sized>(&self, w: &mut W) -> " ++
        "::std::io::Result<usize> \x7b")
      (c.encode.flatMap (encodeLines stores))
      "\x7d"

/-! ## Blocks -/

def implLines (style : Style) (c : Codec) : List Mark :=
  .line ("#[allow(" ++ allowedLints ++ ")]") ::
    block ("impl " ++ identifier c.name ++ " \x7b")
      ([.line "/// Bytes occupied by the fixed-size fields.",
          .line s!"pub const WIRE_FIXED_SIZE: usize = {c.fixedSize};", .blank] ++
        decodeProcedure style c ++ [.blank] ++ encodeProcedure style c)
      "\x7d"

def implText (style : Style) (c : Codec) : String :=
  layout (implLines style c)

/-- The block with both procedures, behind the definition of the struct if it is wanted. -/
def codecText (style : Style) (withStruct : Bool) (c : Codec) : String :=
  if withStruct then structText style c ++ "\n" ++ implText style c else implText style c

end WireCodec.Source
