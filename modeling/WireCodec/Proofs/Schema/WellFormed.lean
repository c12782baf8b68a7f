import WireCodec.Proofs.Schema.Order

/-!
# Well-formed declarations

What a declared struct must be for a struct type to come of it, said of the declaration alone: its
names are identifiers, its types lead to scalars, and its lengths ask for unsigned integers in front
of them.  `FieldDecl.Fits` says it of one field behind others.  `bindFields_ends` follows the fields
to their end or to the first that does not fit.
-/

namespace WireCodec

/-! ## Names -/

/-- A name of letters, digits and underscores that does not start with a digit and is not one of the
words that can name no item. -/
structure Identifier (s : String) : Prop where
  spelled : ∃ first rest, s.toList = first :: rest ∧ (first = '_' ∨ first.isAlpha = true) ∧
    ∀ c ∈ rest, c = '_' ∨ c.isAlphanum = true
  free : s ∉ ["_", "self", "Self", "super", "crate"]

theorem isWord_iff {s : List Char} :
    Text.isWord s = true ↔ ∃ first rest, s = first :: rest ∧
      (first = '_' ∨ first.isAlpha = true) ∧ ∀ c ∈ rest, c = '_' ∨ c.isAlphanum = true := by
  cases s with
  | nil => simp [Text.isWord]
  | cons c rest =>
    simp only [Text.isWord, Text.isWordStart, Text.isWordChar, Bool.and_eq_true, Bool.or_eq_true,
      beq_iff_eq, List.all_eq_true]
    constructor
    · exact fun h => ⟨c, rest, rfl, h⟩
    · rintro ⟨first, later, hsplit, h⟩
      cases hsplit
      exact h

theorem isIdentifier_iff {s : String} : Text.isIdentifier s = true ↔ Identifier s := by
  have hword := isWord_iff (s := s.toList)
  have hfree : (s != "_" && !Text.reservedPaths.contains s) = true ↔
      s ∉ ["_", "self", "Self", "super", "crate"] := by
    simp [Text.reservedPaths]
  rw [Text.isIdentifier, Text.isName, Bool.and_assoc, Bool.and_eq_true, hword, hfree]
  exact ⟨fun ⟨hspelled, hfree⟩ => ⟨hspelled, hfree⟩, fun h => ⟨h.spelled, h.free⟩⟩

/-! ## Types -/

/-- The number of collections around the name at the core of a type. -/
def TypeExpr.depth : TypeExpr → Nat
  | named _ => 0
  | array elem _ => elem.depth + 1
  | sequence elem => elem.depth + 1

namespace WireType

/-- What a declared type with an optional length means, case by case. -/
inductive Classified (aliases : AliasTable) : TypeExpr → Option String → WireType → Prop where
  | scalar {name : String} {type : ScalarType} (leaf : aliases.resolve name = .ok type) :
    Classified aliases (.named name) none (.scalar type)
  | array {name : String} {type : ScalarType} {length : Nat}
    (leaf : aliases.resolve name = .ok type) (fits : type.size * length < wordLimit) :
    Classified aliases (.array (.named name) length) none (.array type length fits)
  | sequence {name source : String} {type : ScalarType} {count : LengthExpr}
    (leaf : aliases.resolve name = .ok type) (counts : LengthExpr.parse source = .ok count) :
    Classified aliases (.sequence (.named name)) (some source) (.sequence type count)

/-- A declared type is classified exactly as what it means. -/
theorem classify_eq_ok {aliases : AliasTable} {type : TypeExpr} {length : Option String}
    {wire : WireType} :
    classify aliases type length = .ok wire ↔ Classified aliases type length wire := by
  constructor
  · intro h
    unfold classify at h
    split at h
    · cases h
    · rename_i hlength
      cases type with
      | named name =>
        obtain ⟨type, hleaf, h⟩ := bind_eq_ok.mp h
        cases h
        cases length with
        | none => exact .scalar hleaf
        | some source => exact absurd rfl hlength
      | array elem count =>
        obtain ⟨type, hleaf, h⟩ := bind_eq_ok.mp h
        unfold ofArray at h
        split at h
        · cases h
          cases length with
          | none =>
            cases elem with
            | named name => exact .array hleaf _
            | array elem count => cases hleaf
            | sequence elem => cases hleaf
          | some source => exact absurd rfl hlength
        · cases h
      | sequence elem =>
        obtain ⟨type, hleaf, h⟩ := bind_eq_ok.mp h
        cases length with
        | none => cases h
        | some source =>
          dsimp only at h
          split at h
          · rename_i count hcount
            cases h
            cases elem with
            | named name => exact .sequence hleaf hcount
            | array elem count => cases hleaf
            | sequence elem => cases hleaf
          · cases h
  · intro h
    cases h with
    | scalar leaf => simp only [classify, leaf]; rfl
    | array leaf fits => simp [classify, classifyElement, leaf, ofArray, fits, ok_bind]
    | sequence leaf counts =>
      simp [classify, classifyElement, leaf, counts, ok_bind, TypeExpr.isSequence]

theorem named_of_depth {elem : TypeExpr} (h : elem.depth = 0) : elem = .named elem.leaf := by
  cases elem with
  | named name => rfl
  | array elem length => cases h
  | sequence elem => cases h

/-- The declarations that have a meaning. -/
theorem exists_classified {aliases : AliasTable} {type : TypeExpr} {length : Option String}
    (flat : type.depth ≤ 1) {scalar : ScalarType} (leaf : aliases.resolve type.leaf = .ok scalar)
    (countable : ∀ elem count, type = .array elem count → scalar.size * count < wordLimit)
    (measured : length.isSome = true ↔ ∃ elem, type = .sequence elem)
    (counts : ∀ source, length = some source → ∃ count, LengthExpr.parse source = .ok count) :
    ∃ wire, Classified aliases type length wire := by
  have hflat {elem : TypeExpr} (h : elem.depth + 1 ≤ 1) : elem = .named elem.leaf :=
    named_of_depth (by omega)
  cases type with
  | named name =>
    have hlength : length = none := by simpa using measured
    rw [hlength]
    exact ⟨_, .scalar leaf⟩
  | array elem count =>
    have hlength : length = none := by simpa using measured
    rw [hlength, hflat flat]
    exact ⟨_, .array leaf (countable elem count rfl)⟩
  | sequence elem =>
    obtain ⟨source, hsource⟩ := Option.isSome_iff_exists.mp (measured.mpr ⟨elem, rfl⟩)
    obtain ⟨count, hcount⟩ := counts source hsource
    rw [hsource, hflat flat]
    exact ⟨_, .sequence leaf hcount⟩

/-- What a type that means something is like: flat, with a core that leads to a kind. -/
theorem of_classified {aliases : AliasTable} {type : TypeExpr} {length : Option String}
    {wire : WireType} (h : Classified aliases type length wire) :
    type.depth ≤ 1 ∧ (∃ scalar, aliases.resolve type.leaf = .ok scalar) ∧
      (∀ elem count scalar, type = .array elem count → aliases.resolve elem.leaf = .ok scalar →
        scalar.size * count < wordLimit) ∧
      (length.isSome = true ↔ ∃ elem, type = .sequence elem) ∧
      ∀ source, length = some source → ∃ count, LengthExpr.parse source = .ok count := by
  cases h with
  | scalar leaf => exact ⟨Nat.zero_le _, ⟨_, leaf⟩, by simp, by simp, by simp⟩
  | array leaf fits =>
    refine ⟨Nat.le_refl _, ⟨_, leaf⟩, fun elem count scalar htype hscalar => ?_, by simp, by simp⟩
    cases htype
    rw [TypeExpr.leaf, leaf] at hscalar
    cases hscalar
    exact fits
  | sequence leaf counts =>
    refine ⟨Nat.le_refl _, ⟨_, leaf⟩, by simp, by simp, fun source hsource => ?_⟩
    cases hsource
    exact ⟨_, counts⟩

/-- The names that a length asks for are those of its expression. -/
theorem mem_references {aliases : AliasTable} {type : TypeExpr} {length : Option String}
    {wire : WireType} (h : Classified aliases type length wire) {name : String} :
    name ∈ StructType.references wire ↔ ∃ source count, length = some source ∧
      LengthExpr.parse source = .ok count ∧ name ∈ count.fields := by
  cases h with
  | scalar leaf => simp [StructType.references]
  | array leaf fits => simp [StructType.references]
  | sequence leaf counts => simp [StructType.references, counts]

theorem isCounter_of_classified {aliases : AliasTable} {type : TypeExpr} {length : Option String}
    {wire : WireType} (h : Classified aliases type length wire) :
    wire.countsElements = true ↔ ∃ leaf scalar, type = .named leaf ∧
      aliases.resolve leaf = .ok scalar ∧ scalar.kind.isUnsigned = true := by
  cases h with
  | @scalar name scalar leaf =>
    constructor
    · exact fun h => ⟨name, scalar, rfl, leaf, h⟩
    · rintro ⟨_, other, hname, hleaf, h⟩
      cases hname
      rw [leaf] at hleaf
      cases hleaf
      exact h
  | array leaf fits => simp [countsElements]
  | sequence leaf counts => simp [countsElements]

end WireType

/-! ## Declarations -/

/-- A field may stand behind the ones in front of it. -/
structure FieldDecl.Fits (aliases : AliasTable) (earlier : List FieldDecl) (decl : FieldDecl) :
    Prop where
  identifier : Identifier decl.name
  fresh : ∀ g ∈ earlier, g.name ≠ decl.name
  /-- There is at most one level of collection. -/
  flat : decl.type.depth ≤ 1
  /-- The name at the core of the type leads to a kind. -/
  resolves : ∃ type, aliases.resolve decl.type.leaf = .ok type
  /-- The bytes of an array can be counted in a word. -/
  countable : ∀ elem length type, decl.type = .array elem length →
    aliases.resolve elem.leaf = .ok type → type.size * length < wordLimit
  /-- Sequences and nothing else have a length expression. -/
  measured : decl.length.isSome = true ↔ ∃ elem, decl.type = .sequence elem
  /-- The length can be read, and it asks for unsigned integers in front. -/
  counted : ∀ source, decl.length = some source → ∃ count, LengthExpr.parse source = .ok count ∧
    ∀ name ∈ count.fields, ∃ g ∈ earlier, g.name = name ∧ ∃ leaf type, g.type = .named leaf ∧
      aliases.resolve leaf = .ok type ∧ type.kind.isUnsigned = true

/-- Fields each of which fits behind all that stand in front of it. -/
def AllFit (aliases : AliasTable) (earlier decls : List FieldDecl) : Prop :=
  ∀ front field back, decls = front ++ field :: back → field.Fits aliases (earlier ++ front)

/-- A struct with an identifier for a name and fields that fit. -/
structure StructDecl.WellFormed (aliases : AliasTable) (decl : StructDecl) : Prop where
  identifier : Identifier decl.name
  fields : AllFit aliases [] decl.fields

theorem allFit_nil (aliases : AliasTable) (earlier : List FieldDecl) :
    AllFit aliases earlier [] := by
  intro front field back h
  simp at h

theorem allFit_cons {aliases : AliasTable} {earlier rest : List FieldDecl} {decl : FieldDecl} :
    AllFit aliases earlier (decl :: rest) ↔
      decl.Fits aliases earlier ∧ AllFit aliases (earlier ++ [decl]) rest := by
  constructor
  · refine fun h => ⟨by simpa using h [] decl rest rfl, fun front field back hrest => ?_⟩
    have := h (decl :: front) field back (by rw [hrest, List.cons_append])
    simpa using this
  · rintro ⟨hdecl, hrest⟩ front field back h
    cases front with
    | nil =>
      cases h
      simpa using hdecl
    | cons first front =>
      cases h
      simpa using hrest front field back rfl

/-! ## Fields that were checked -/

namespace StructType

/-- The fields are what the declarations mean, in the same order and without a name twice. -/
structure BoundTo (aliases : AliasTable) (decls : List FieldDecl) (fields : List Field) : Prop where
  names : fields.map Field.name = decls.map FieldDecl.name
  distinct : (fields.map Field.name).Nodup
  /-- A name belongs to an unsigned integer on both sides or on neither. -/
  counters : ∀ name, (∃ f ∈ fields, f.name = name ∧ f.type.countsElements = true) ↔
    ∃ d ∈ decls, d.name = name ∧ ∃ leaf type, d.type = .named leaf ∧
      aliases.resolve leaf = .ok type ∧ type.kind.isUnsigned = true

theorem boundTo_nil (aliases : AliasTable) : BoundTo aliases [] [] where
  names := rfl
  distinct := List.nodup_nil
  counters := by simp

/-- A reference passes its check exactly if it is to an unsigned integer in front. -/
theorem checkReference_eq_ok {earlier : List Field} (hdistinct : (earlier.map Field.name).Nodup)
    {name : String} :
    checkReference earlier name = .ok () ↔
      ∃ f ∈ earlier, f.name = name ∧ f.type.countsElements = true := by
  refine ⟨mem_of_checkReference, ?_⟩
  rintro ⟨f, hf, rfl, hcounts⟩
  have hfind : Field.find? f.name earlier = some f := Field.find?_of_mem hdistinct hf
  rw [checkReference, hfind]
  exact if_pos hcounts

/-- A field binds exactly if it fits behind those in front of it. -/
theorem bindField_eq_ok {aliases : AliasTable} {earlier : List Field} {decl : FieldDecl}
    {field : Field} :
    bindField aliases earlier decl = .ok field ↔
      Identifier decl.name ∧ decl.name ∉ earlier.map Field.name ∧
        ∃ type, WireType.Classified aliases decl.type decl.length type ∧
          (∀ name ∈ references type, checkReference earlier name = .ok ()) ∧
          field = ⟨decl.name, type⟩ := by
  have hfresh : (earlier.any (·.name = decl.name)) = true ↔ decl.name ∈ earlier.map Field.name := by
    simp
  -- The checks in their order: the name, whether it is new, the type, and the names in the length.
  rw [bindField_eq, ← isIdentifier_iff]
  by_cases hidentifier : Text.isIdentifier decl.name = true
  · rw [if_pos hidentifier, and_iff_right hidentifier]
    by_cases hname : decl.name ∈ earlier.map Field.name
    · rw [if_pos (hfresh.mpr hname)]
      exact ⟨fun h => (by cases h), fun h => absurd hname h.1⟩
    · rw [if_neg (fun h => hname (hfresh.mp h)), and_iff_right hname]
      constructor
      · intro h
        obtain ⟨type, htype, h⟩ := bind_eq_ok.mp h
        obtain ⟨⟨⟩, hrefs, h⟩ := bind_eq_ok.mp h
        exact ⟨type, WireType.classify_eq_ok.mp htype, forM_eq_ok hrefs, (Except.ok.inj h).symm⟩
      · rintro ⟨type, htype, hrefs, rfl⟩
        rw [WireType.classify_eq_ok.mpr htype, ok_bind, forM_eq_ok_iff.mpr hrefs]
        rfl
  · rw [if_neg hidentifier]
    exact ⟨fun h => (by cases h), fun h => absurd h.1 hidentifier⟩

namespace BoundTo

variable {aliases : AliasTable} {decls : List FieldDecl} {fields : List Field}

/-- A field that was checked is bound to its declaration. -/
theorem snoc (h : BoundTo aliases decls fields) {decl : FieldDecl} {field : Field}
    (hfield : bindField aliases fields decl = .ok field) :
    BoundTo aliases (decls ++ [decl]) (fields ++ [field]) := by
  obtain ⟨-, hfresh, type, htype, -, rfl⟩ := bindField_eq_ok.mp hfield
  refine ⟨by simp [h.names], ?_, fun name => ?_⟩
  · rw [List.map_append, List.nodup_append]
    refine ⟨h.distinct, by simp, fun a ha b hb => ?_⟩
    rw [List.map_singleton, List.mem_singleton] at hb
    rintro rfl
    rw [hb] at ha
    exact hfresh ha
  · simp only [List.mem_append, List.mem_singleton, or_and_right, exists_or, h.counters name,
      exists_eq_left, WireType.isCounter_of_classified htype]

/-- What the checks of a field ask for is that it fits behind the declarations in front. -/
theorem fits_iff (h : BoundTo aliases decls fields) (decl : FieldDecl) :
    (∃ field, bindField aliases fields decl = .ok field) ↔ decl.Fits aliases decls := by
  have hfresh : decl.name ∉ fields.map Field.name ↔ ∀ g ∈ decls, g.name ≠ decl.name := by
    rw [h.names]
    simp
  -- The checks look at the fields in front, and `h` says what these are in the declarations.
  have hcounter (name : String) : checkReference fields name = .ok () ↔
      ∃ g ∈ decls, g.name = name ∧ ∃ leaf type, g.type = .named leaf ∧
        aliases.resolve leaf = .ok type ∧ type.kind.isUnsigned = true :=
    (checkReference_eq_ok h.distinct).trans (h.counters name)
  constructor
  · rintro ⟨field, hfield⟩
    obtain ⟨hidentifier, hnew, wire, htype, hcounted, -⟩ := bindField_eq_ok.mp hfield
    obtain ⟨flat, resolves, countable, measured, counts⟩ := WireType.of_classified htype
    refine ⟨hidentifier, hfresh.mp hnew, flat, resolves, countable, measured,
      fun source hsource => ?_⟩
    obtain ⟨count, hcount⟩ := counts source hsource
    refine ⟨count, hcount, fun name hname => (hcounter name).mp (hcounted name ?_)⟩
    exact (WireType.mem_references htype).mpr ⟨source, count, hsource, hcount, hname⟩
  · intro hfits
    obtain ⟨scalar, leaf⟩ := hfits.resolves
    have countable : ∀ elem count, decl.type = .array elem count →
        scalar.size * count < wordLimit := by
      intro elem count htype
      rw [htype] at leaf
      exact hfits.countable elem count scalar htype leaf
    have counts : ∀ source, decl.length = some source →
        ∃ count, LengthExpr.parse source = .ok count := fun source hsource => by
      obtain ⟨count, hcount, -⟩ := hfits.counted source hsource
      exact ⟨count, hcount⟩
    obtain ⟨wire, htype⟩ :=
      WireType.exists_classified hfits.flat leaf countable hfits.measured counts
    refine ⟨⟨decl.name, wire⟩, bindField_eq_ok.mpr
      ⟨hfits.identifier, hfresh.mpr hfits.fresh, wire, htype, fun name hname => ?_, rfl⟩⟩
    obtain ⟨source, count, hsource, hcount, hname⟩ := (WireType.mem_references htype).mp hname
    obtain ⟨count', hcount', hcounted⟩ := hfits.counted source hsource
    rw [hcount] at hcount'
    cases hcount'
    exact (hcounter name).mpr (hcounted name hname)

end BoundTo

/-! ## Structs -/

/-- The checks go through all fields if all of them fit.  Otherwise they end at the first that does
not, whatever stands behind it. -/
theorem bindFields_ends {aliases : AliasTable} {before : List FieldDecl} {earlier : List Field}
    (h : BoundTo aliases before earlier) (struct : String) (decls : List FieldDecl) :
    (AllFit aliases before decls ∧ ∃ fields,
      bindFields aliases struct earlier decls = .ok (earlier ++ fields) ∧
        fields.map Field.name = decls.map FieldDecl.name) ∨
    ∃ front field back cause, decls = front ++ field :: back ∧ AllFit aliases before front ∧
      ¬field.Fits aliases (before ++ front) ∧ ∀ later,
        bindFields aliases struct earlier (front ++ field :: later) =
          .error (.field struct field.name cause) := by
  -- A field that was checked joins the ones in front, on both sides of `h`.
  induction decls generalizing before earlier with
  | nil => exact .inl ⟨allFit_nil aliases before, [], by rw [bindFields, List.append_nil], rfl⟩
  | cons decl rest ih =>
    cases hfield : bindField aliases earlier decl with
    | error cause =>
      refine .inr ⟨[], decl, rest, cause, rfl, allFit_nil aliases before, fun hfits => ?_,
        fun later => by rw [List.nil_append, bindFields, hfield]⟩
      rw [List.append_nil, ← h.fits_iff decl, hfield] at hfits
      obtain ⟨_, hok⟩ := hfits
      cases hok
    | ok field =>
      have hfits := (h.fits_iff decl).mp ⟨field, hfield⟩
      have hname : field.name = decl.name := by
        obtain ⟨-, -, _, -, -, rfl⟩ := bindField_eq_ok.mp hfield
        rfl
      rcases ih (h.snoc hfield) with
        ⟨hrest, fields, hok, hnames⟩ | ⟨front, g, back, cause, rfl, hfront, hg, herror⟩
      · refine .inl ⟨allFit_cons.mpr ⟨hfits, hrest⟩, field :: fields, ?_, ?_⟩
        · rw [bindFields, hfield]
          simpa using hok
        · rw [List.map_cons, List.map_cons, hname, hnames]
      · refine .inr ⟨decl :: front, g, back, cause, rfl, allFit_cons.mpr ⟨hfits, hfront⟩,
          by simpa using hg, fun later => ?_⟩
        rw [List.cons_append, bindFields, hfield]
        exact herror later

theorem bind_eq (aliases : AliasTable) (decl : StructDecl) :
    bind aliases decl =
      if Text.isIdentifier decl.name then
        bindFields aliases decl.name [] decl.fields >>= fun fields => .ok ⟨decl.name, fields⟩
      else .error (.badStructName decl.name) := rfl

theorem name_of_bind {aliases : AliasTable} {decl : StructDecl} {s : StructType}
    (h : bind aliases decl = .ok s) : s.name = decl.name := by
  rw [bind_eq] at h
  split at h
  · obtain ⟨fields, -, h⟩ := bind_eq_ok.mp h
    cases h
    rfl
  · cases h

/-- A struct binds if it is well formed, and else tells the first field that does not fit. -/
theorem bind_ends (aliases : AliasTable) (decl : StructDecl) :
    (¬Identifier decl.name ∧ bind aliases decl = .error (.badStructName decl.name)) ∨
    (decl.WellFormed aliases ∧ ∃ s, bind aliases decl = .ok s ∧ s.name = decl.name ∧
      s.fields.map Field.name = decl.fields.map FieldDecl.name) ∨
    ∃ front field back cause, decl.fields = front ++ field :: back ∧ AllFit aliases [] front ∧
      ¬field.Fits aliases front ∧ ∀ later, bind aliases ⟨decl.name, front ++ field :: later⟩ =
        .error (.field decl.name field.name cause) := by
  by_cases hname : Text.isIdentifier decl.name = true
  · have hbind (fields : List FieldDecl) : bind aliases ⟨decl.name, fields⟩ =
        bindFields aliases decl.name [] fields >>= fun all => .ok ⟨decl.name, all⟩ := by
      rw [bind_eq, if_pos hname]
    rcases bindFields_ends (boundTo_nil aliases) decl.name decl.fields with
      ⟨hfit, fields, hok, hnames⟩ | ⟨front, field, back, cause, hsplit, hfront, hfield, herror⟩
    · have hs : bind aliases decl = .ok ⟨decl.name, fields⟩ := by
        rw [hbind decl.fields, hok, ok_bind, List.nil_append]
      exact .inr (.inl ⟨⟨isIdentifier_iff.mp hname, hfit⟩, _, hs, rfl, hnames⟩)
    · refine .inr (.inr ⟨front, field, back, cause, hsplit, hfront, hfield, fun later => ?_⟩)
      rw [hbind, herror, error_bind]
  · exact .inl ⟨fun h => hname (isIdentifier_iff.mpr h), by rw [bind_eq, if_neg hname]⟩

/-- The declarations of which a struct type comes are the well-formed ones.  It keeps their names in
order, and a refusal tells the first field that does not fit, whatever stands behind that. -/
theorem bind_iff_wellFormed (aliases : AliasTable) (decl : StructDecl) :
    ((∃ s, bind aliases decl = .ok s) ↔ decl.WellFormed aliases) ∧
    (∀ s, bind aliases decl = .ok s →
      s.name = decl.name ∧ s.fields.map Field.name = decl.fields.map FieldDecl.name) ∧
    ∀ error, bind aliases decl = .error error →
      (¬Identifier decl.name ∧ error = .badStructName decl.name) ∨
      ∃ front field back cause, decl.fields = front ++ field :: back ∧
        AllFit aliases [] front ∧ ¬field.Fits aliases front ∧
        error = .field decl.name field.name cause ∧
        ∀ later, bind aliases ⟨decl.name, front ++ field :: later⟩ = .error error := by
  rcases bind_ends aliases decl with
    ⟨hnot, hs⟩ | ⟨hwell, s, hs, hnames⟩ | ⟨front, field, back, cause, hsplit, hfront, hfield, herror⟩
  · rw [hs]
    refine ⟨⟨fun ⟨_, h⟩ => (by cases h), fun hwell => absurd hwell.identifier hnot⟩,
      fun _ h => (by cases h), fun error h => ?_⟩
    exact .inl ⟨hnot, (Except.error.inj h).symm⟩
  · rw [hs]
    refine ⟨⟨fun _ => hwell, fun _ => ⟨s, rfl⟩⟩, fun t h => ?_, fun _ h => (by cases h)⟩
    cases h
    exact hnames
  · have hs : bind aliases decl = .error (.field decl.name field.name cause) := by
      rw [← herror back, ← hsplit]
    rw [hs]
    refine ⟨⟨fun ⟨_, h⟩ => (by cases h), fun hwell => ?_⟩, fun _ h => (by cases h),
      fun error h => ?_⟩
    · exact absurd (hwell.fields front field back hsplit) hfield
    · cases h
      exact .inr ⟨front, field, back, cause, hsplit, hfront, hfield, rfl, herror⟩

/-- The packet with samples that are counted by a float. -/
def telemetryMiscounted : StructDecl where
  name := "Telemetry"
  fields :=
    telemetryDecl.fields.take 2 ++ ⟨"samples", .sequence (.named "i16"), some "2 * scale"⟩ ::
      telemetryDecl.fields.drop 3

theorem bind_iff_wellFormed_telemetry :
    telemetryDecl.WellFormed telemetryAliases ∧
    telemetry.fields.map Field.name = telemetryDecl.fields.map FieldDecl.name ∧
    ¬telemetryMiscounted.WellFormed telemetryAliases ∧
    ∃ front field back, telemetryMiscounted.fields = front ++ field :: back ∧
      field.name = "samples" ∧ AllFit telemetryAliases [] front ∧
      ¬field.Fits telemetryAliases front ∧
      ∀ later, bind telemetryAliases ⟨"Telemetry", front ++ field :: later⟩ =
        .error (.field "Telemetry" "samples" (.lengthNotUnsigned "scale" "f32")) := by
  obtain ⟨hiff, hnames, -⟩ := bind_iff_wellFormed telemetryAliases telemetryDecl
  obtain ⟨hiff', -, herror⟩ := bind_iff_wellFormed telemetryAliases telemetryMiscounted
  have hbad : bind telemetryAliases telemetryMiscounted =
      .error (.field "Telemetry" "samples" (.lengthNotUnsigned "scale" "f32")) := by rfl
  refine ⟨hiff.mp ⟨_, bind_telemetry⟩, (hnames _ bind_telemetry).2, fun hwell => ?_, ?_⟩
  · obtain ⟨s, hs⟩ := hiff'.mpr hwell
    rw [hbad] at hs
    cases hs
  · rcases herror _ hbad with
      ⟨-, h⟩ | ⟨front, field, back, cause, hsplit, hfront, hfield, h, hlater⟩
    · cases h
    · exact ⟨front, field, back, hsplit, (SchemaError.field.inj h).2.1.symm, hfront, hfield, hlater⟩

end StructType

end WireCodec
