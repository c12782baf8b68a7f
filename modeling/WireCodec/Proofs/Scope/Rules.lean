import WireCodec.Procedure.Codec

/-!
# Steps that stay in scope

A step may use what the steps in front of it have made and nothing else: counts that were taken,
scalars that were loaded, collections that were made.  `Codec.WellScoped` says this of the two step
lists of a codec.
-/

namespace WireCodec

/-- Steps of which each is allowed behind all the steps in front of it. -/
def Scoped {Step : Type} (allowed : List Step → Step → Prop) : List Step → List Step → Prop
  | _, [] => True
  | before, step :: rest => allowed before step ∧ Scoped allowed (before ++ [step]) rest

/-- Steps that are allowed, and steps that are allowed behind them, are so together. -/
theorem Scoped.append {Step : Type} {allowed : List Step → Step → Prop} {before a b : List Step}
    (ha : Scoped allowed before a) (hb : Scoped allowed (before ++ a) b) :
    Scoped allowed before (a ++ b) := by
  induction a generalizing before with
  | nil => simpa using hb
  | cons step rest ih =>
    obtain ⟨hstep, hrest⟩ := ha
    exact ⟨hstep, ih hrest (by simpa using hb)⟩

/-! ## Rules of a decoding -/

namespace DecodeStep

def counted? : DecodeStep → Option String
  | count field _ => some field
  | _ => none

/-- The field to which the step gives its value, with the kind of a scalar; a collection that is
made has none. -/
def bound? : DecodeStep → Option (String × Option ScalarKind)
  | newArray field _ _ | newSequence field _ => some (field, none)
  | load (.field field) type _ => some (field, some type.kind)
  | _ => none

def filled? : DecodeStep → Option String
  | load (.elements field) _ _ => some field
  | _ => none

/-- The steps in front have counted the field, and only once. -/
def CountedOnce (before : List DecodeStep) (field : String) : Prop :=
  (before.filterMap counted?).count field = 1

/-- The steps in front have not given the field a value. -/
def Unbound (before : List DecodeStep) (field : String) : Prop :=
  field ∉ (before.filterMap bound?).map Prod.fst

/-- What a step asks of the steps in front of it. -/
def AllowedBehind (before : List DecodeStep) : DecodeStep → Prop
  | scratch _ => before = []
  | count _ length => ∀ name ∈ length.fields, ∃ type offset,
      load (.field name) type offset ∈ before ∧ type.kind.isUnsigned = true
  | read (.fixed _) => True
  | read (.counted field _) => CountedOnce before field
  | newArray field _ _ => Unbound before field
  | newSequence field _ => CountedOnce before field ∧ Unbound before field
  | load (.field field) _ _ => Unbound before field
  | load (.elements field) _ _ => (before.filterMap bound?).count (field, none) = 1

end DecodeStep

/-! ## Rules of an encoding -/

namespace EncodeStep

def counted? : EncodeStep → Option String
  | count field _ => some field
  | _ => none

def countsUsed : EncodeStep → List String
  | checkCount field => [field]
  | reserve _ counted => counted.map Prod.fst
  | _ => []

/-- What a step asks of the steps in front of it. -/
def AllowedBehind (before : List EncodeStep) (step : EncodeStep) : Prop :=
  ∀ field ∈ step.countsUsed, (before.filterMap counted?).count field = 1

end EncodeStep

/-! ## Codecs -/

/-- How a field is given its value: a scalar with its kind, a collection without one. -/
def Field.binding (field : Field) : String × Option ScalarKind :=
  match field.type with
  | .scalar type => (field.name, some type.kind)
  | _ => (field.name, none)

/-- A collection that may have elements. -/
def Field.filling? (field : Field) : Option String :=
  if field.type.isCollection && field.type.size? ≠ some 0 then some field.name else none

/-- Both step lists of a codec use what they have made. -/
structure Codec.WellScoped (c : Codec) : Prop where
  decode : Scoped DecodeStep.AllowedBehind [] c.decode
  /-- There is a scratch buffer exactly when something is read. -/
  scratch : (∃ bytes, .scratch bytes ∈ c.decode) ↔ ∃ size, .read size ∈ c.decode
  /-- Every field is given a value once, in the order of the fields. -/
  bound : c.decode.filterMap DecodeStep.bound? = c.fields.map Field.binding
  filled : c.decode.filterMap DecodeStep.filled? = c.fields.filterMap Field.filling?
  distinct : (c.fields.map Field.name).Nodup
  encode : Scoped EncodeStep.AllowedBehind [] c.encode
  write : ∃ front, c.encode = front ++ [.write] ∧ .write ∉ front

end WireCodec
