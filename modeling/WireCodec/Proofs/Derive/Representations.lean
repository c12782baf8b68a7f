import Mathlib.Data.List.Induction
import WireCodec.Derive.Codec
import WireCodec.Proofs.Aliases.Reached

/-!
# What the types of fields stand for

A type that is no kind is told to stand for one where the first field uses it.  The fields are gone
through in order and the table grows with them, but whether it can be finished is settled by the
fields as a whole.
-/

namespace WireCodec.Derive

open Source

/-! ## Declared fields -/

/-- A declared field, and what its type is told to stand for, if anything. -/
structure DeclaredField where
  decl : FieldDecl
  repr : Option String
  deriving DecidableEq

abbrev DeclaredField.leaf (d : DeclaredField) : String := d.decl.type.leaf

/-- A field has options that are well formed and a type that can be declared, and declares `d`. -/
structure ItemField.Declares (field : ItemField) (d : DeclaredField) : Prop where
  name : d.decl.name = field.name
  type : field.type.toTypeExpr = .ok d.decl.type
  options : ∃ options, fieldOptions field.attributes = .ok options ∧
    d.decl.length = lastText? options "len" ∧ d.repr = lastText? options "repr"

/-- An item is a struct with named fields and without parameters, which declares fields and, by
options that are well formed, the names of its procedures. -/
structure Item.Declares (item : Item) (style : Style) (declared : List DeclaredField) : Prop where
  fields : ∃ fields, item.body = .named fields ∧ List.Forall₂ ItemField.Declares fields declared
  plain : item.isGeneric = false
  names : ∃ options, structOptions item.attributes = .ok options ∧
    style = { Style.standard with
      readName := (lastText? options "read_fn").getD Style.standard.readName
      writeName := (lastText? options "write_fn").getD Style.standard.writeName }

/-- What the types are told to stand for. -/
def reprTable (declared : List DeclaredField) : AliasTable :=
  .ofList (declared.filterMap fun d => d.repr.map (d.leaf, ·))

/-- No kind is told to stand for anything, a type for which it has to be told is told what it stands
for where it is first used, and no type is told to stand for two things. -/
structure Consistent (mustTell : String → Prop) (declared : List DeclaredField) : Prop where
  kinds : ∀ d ∈ declared, ScalarKind.isKindName d.leaf = true → d.repr = none
  first : ∀ name d, mustTell name → declared.find? (·.leaf = name) = some d → d.repr.isSome = true
  same : ∀ d ∈ declared, ∀ e ∈ declared, d.leaf = e.leaf → d.repr.isSome = true →
    e.repr.isSome = true → d.repr = e.repr

/-! ## One field -/

variable {mustTell : String → Prop} {front : List DeclaredField} {d : DeclaredField}

/-- A field goes with those in front of it. -/
structure FitsBehind (mustTell : String → Prop) (front : List DeclaredField) (d : DeclaredField) :
    Prop where
  kind : ScalarKind.isKindName d.leaf = true → d.repr = none
  first : mustTell d.leaf → (∀ e ∈ front, e.leaf ≠ d.leaf) → d.repr.isSome = true
  same : ∀ e ∈ front, e.leaf = d.leaf → e.repr.isSome = true → d.repr.isSome = true →
    e.repr = d.repr

theorem consistent_nil (mustTell : String → Prop) : Consistent mustTell [] where
  kinds := by simp
  first := by simp
  same := by simp

/-- A name is first used in front, or else by the last field. -/
theorem find?_snoc {name : String} {e : DeclaredField} :
    (front ++ [d]).find? (·.leaf = name) = some e ↔
      front.find? (·.leaf = name) = some e ∨
        (∀ g ∈ front, g.leaf ≠ name) ∧ d.leaf = name ∧ d = e := by
  rw [List.find?_append]
  cases hfound : front.find? (·.leaf = name) with
  | some first =>
    have hleaf : first.leaf = name := by simpa using List.find?_some hfound
    have hused : ¬∀ g ∈ front, g.leaf ≠ name := fun hunused =>
      hunused first (List.mem_of_find?_eq_some hfound) hleaf
    simp [hused]
  | none =>
    have hunused : ∀ g ∈ front, g.leaf ≠ name := by simpa using List.find?_eq_none.mp hfound
    simp only [Option.none_or, List.find?_singleton, reduceCtorEq, false_or, and_iff_right hunused]
    by_cases hleaf : d.leaf = name <;> simp [hleaf]

/-- Declarations are consistent exactly if each goes with those in front of it. -/
theorem consistent_snoc :
    Consistent mustTell (front ++ [d]) ↔
      Consistent mustTell front ∧ FitsBehind mustTell front d := by
  have hlast : d ∈ front ++ [d] := List.mem_append_right _ (List.mem_singleton_self d)
  have hfront {e : DeclaredField} (he : e ∈ front) : e ∈ front ++ [d] := List.mem_append_left _ he
  have hcases {e : DeclaredField} (he : e ∈ front ++ [d]) : e ∈ front ∨ e = d := by simpa using he
  constructor
  · intro h
    exact
      ⟨{ kinds := fun e he => h.kinds e (hfront he)
         first := fun name e hmust he => h.first name e hmust (find?_snoc.mpr (.inl he))
         same := fun e he g hg => h.same e (hfront he) g (hfront hg) },
       { kind := h.kinds d hlast
         first := fun hmust hunused =>
          h.first d.leaf d hmust (find?_snoc.mpr (.inr ⟨hunused, rfl, rfl⟩))
         same := fun e he => h.same e (hfront he) d hlast }⟩
  · rintro ⟨h, hfits⟩
    refine ⟨fun e he => ?_, fun name e hmust he => ?_, fun e he g hg hleaf hrepr hrepr' => ?_⟩
    · rcases hcases he with he | rfl
      · exact h.kinds e he
      · exact hfits.kind
    · rcases find?_snoc.mp he with he | ⟨hunused, rfl, rfl⟩
      · exact h.first name e hmust he
      · exact hfits.first hmust hunused
    · rcases hcases he with hin | rfl <;> rcases hcases hg with hin' | rfl
      · exact h.same e hin g hin' hleaf hrepr hrepr'
      · exact hfits.same e hin hleaf hrepr hrepr'
      · exact (hfits.same g hin' hleaf.symm hrepr' hrepr).symm
      · rfl

theorem reprTable_snoc (front : List DeclaredField) (d : DeclaredField) :
    reprTable (front ++ [d]) =
      match d.repr with
      | some repr => (reprTable front).set d.leaf repr
      | none => reprTable front := by
  rw [reprTable, List.filterMap_append, NameTable.ofList, List.foldl_append]
  cases hrepr : d.repr with
  | none => simp [reprTable, NameTable.ofList, hrepr]
  | some repr => simp [reprTable, NameTable.ofList, hrepr]

/-- What is found in the table was told. -/
theorem of_get?_reprTable {declared : List DeclaredField} {name repr : String}
    (h : (reprTable declared).get? name = some repr) :
    ∃ d ∈ declared, d.leaf = name ∧ d.repr = some repr := by
  refine @NameTable.get?_foldl_set String
    (fun name repr => ∃ d ∈ declared, d.leaf = name ∧ d.repr = some repr) _ .empty
    (fun _ _ hempty => by cases hempty) ?_ name repr h
  rintro ⟨leaf, told⟩ he
  obtain ⟨d, hd, htold⟩ := List.mem_filterMap.mp he
  obtain ⟨repr, hrepr, heq⟩ := Option.map_eq_some_iff.mp htold
  cases heq
  exact ⟨d, hd, rfl, hrepr⟩

/-- The table has what was told, if no type was told to stand for two things. -/
theorem get?_reprTable {declared : List DeclaredField} (h : Consistent mustTell declared)
    {name repr : String} : (reprTable declared).get? name = some repr ↔
      ∃ d ∈ declared, d.leaf = name ∧ d.repr = some repr := by
  refine ⟨of_get?_reprTable, ?_⟩
  rintro ⟨d, hd, rfl, hrepr⟩
  have hmem : d.leaf ∈ (reprTable declared).names := by
    refine NameTable.mem_names_foldl_set.mpr (.inr ?_)
    refine List.mem_map.mpr ⟨(d.leaf, repr), List.mem_filterMap.mpr ⟨d, hd, ?_⟩, rfl⟩
    rw [hrepr]
    rfl
  obtain ⟨found, hfound⟩ := Option.isSome_iff_exists.mp ((NameTable.isSome_get? _ _).mpr hmem)
  obtain ⟨e, he, hleaf, hrepr'⟩ := of_get?_reprTable hfound
  have hsame := h.same e he d hd hleaf (Option.isSome_of_eq_some hrepr')
    (Option.isSome_of_eq_some hrepr)
  rw [hrepr', hrepr] at hsame
  rw [hfound, hsame]

/-- What is told of a type must be news, or what was told before. -/
theorem fitsBehind_of_told (h : Consistent mustTell front) {repr : String}
    (hrepr : d.repr = some repr) : FitsBehind mustTell front d ↔
      ScalarKind.isKindName d.leaf = false ∧
        ∀ earlier, (reprTable front).get? d.leaf = some earlier → earlier = repr := by
  have hgiven : d.repr.isSome = true := Option.isSome_of_eq_some hrepr
  constructor
  · intro hfits
    refine ⟨Bool.eq_false_iff.mpr fun hkind => ?_, fun earlier hearlier => ?_⟩
    · rw [hfits.kind hkind] at hrepr
      cases hrepr
    · obtain ⟨e, he, hleaf, htold⟩ := of_get?_reprTable hearlier
      have hsame := hfits.same e he hleaf (Option.isSome_of_eq_some htold) hgiven
      rw [htold, hrepr] at hsame
      exact Option.some.inj hsame
  · rintro ⟨hkind, hagrees⟩
    refine ⟨fun h => ?_, fun _ _ => hgiven, fun e he hleaf htold _ => ?_⟩
    · rw [hkind] at h
      cases h
    · obtain ⟨told, htold⟩ := Option.isSome_iff_exists.mp htold
      rw [htold, hrepr, hagrees told ((get?_reprTable h).mpr ⟨e, he, hleaf, htold⟩)]

/-- Where nothing is told of a type, it has been told before, if it has to be. -/
theorem fitsBehind_of_untold (h : Consistent mustTell front) (hrepr : d.repr = none) :
    FitsBehind mustTell front d ↔
      (mustTell d.leaf → ((reprTable front).get? d.leaf).isSome = true) := by
  constructor
  · intro hfits hmust
    cases hfound : front.find? (·.leaf = d.leaf) with
    | none =>
      have hunused : ∀ e ∈ front, e.leaf ≠ d.leaf := by
        simpa using List.find?_eq_none.mp hfound
      have hgiven := hfits.first hmust hunused
      rw [hrepr] at hgiven
      cases hgiven
    | some e =>
      -- The first use is in front, and tells it.
      obtain ⟨told, htold⟩ := Option.isSome_iff_exists.mp (h.first d.leaf e hmust hfound)
      have hleaf : e.leaf = d.leaf := by simpa using List.find?_some hfound
      rw [(get?_reprTable h).mpr ⟨e, List.mem_of_find?_eq_some hfound, hleaf, htold⟩]
      rfl
  · intro hknown
    refine ⟨fun _ => hrepr, fun hmust hunused => ?_, fun e _ _ _ hgiven => ?_⟩
    · obtain ⟨told, htold⟩ := Option.isSome_iff_exists.mp (hknown hmust)
      obtain ⟨e, he, hleaf, -⟩ := of_get?_reprTable htold
      exact absurd hleaf (hunused e he)
    · rw [hrepr] at hgiven
      cases hgiven

/-- What is insisted on field by field: that it is told of a name that is neither a kind nor a
primitive without a wire form. -/
abbrev LoopInsists (name : String) : Prop := mayStandForKind name = true

/-- Noting what is told succeeds exactly for a field that goes with those in front of it, and gives
the table of all fields so far. -/
theorem noteRepr_eq_ok (h : Consistent LoopInsists front) {known : AliasTable} :
    noteRepr (reprTable front) d.leaf d.repr = .ok known ↔
      FitsBehind LoopInsists front d ∧ known = reprTable (front ++ [d]) := by
  rw [reprTable_snoc]
  cases hrepr : d.repr with
  | some repr =>
    rw [fitsBehind_of_told h hrepr]
    dsimp only [noteRepr]
    by_cases hkind : ScalarKind.isKindName d.leaf = true
    · simp [hkind]
    · rw [if_neg hkind]
      cases hearlier : (reprTable front).get? d.leaf with
      | none => simp [hkind, eq_comm]
      | some earlier =>
        by_cases hsame : earlier = repr
        · -- The table has it already, and setting it once more changes nothing.
          subst hsame
          simp [hkind, NameTable.set_get? hearlier, eq_comm]
        · simp [hsame]
  | none =>
    rw [fitsBehind_of_untold h hrepr]
    dsimp only [noteRepr]
    cases (reprTable front).get? d.leaf with
    | none => by_cases hmust : mayStandForKind d.leaf = true <;> simp [hmust, eq_comm]
    | some told =>
      simp only [Option.isNone_some, Bool.false_eq_true, and_false, if_false, Option.isSome_some,
        implies_true, true_and, Except.ok.injEq]
      exact eq_comm

/-! ## All fields -/

theorem declareField_eq {field : ItemField} (h : field.Declares d) (known : AliasTable) :
    declareField known field =
      (noteRepr known d.leaf d.repr).map fun known => (known, d.decl) := by
  obtain ⟨options, hoptions, hlength, hrepr⟩ := h.options
  rw [declareField, hoptions, ok_bind, h.type, ok_bind, ← hrepr, ← hlength, ← h.name]
  cases noteRepr known d.leaf d.repr <;> rfl

theorem consistent_front {back : List DeclaredField} (h : Consistent mustTell (front ++ back)) :
    Consistent mustTell front := by
  induction back using List.reverseRecOn with
  | nil => rwa [List.append_nil] at h
  | append_singleton back d ih =>
    rw [← List.append_assoc] at h
    exact ih (consistent_snoc.mp h).1

/-- Going through fields behind others succeeds exactly when they are all consistent. -/
theorem declareFields_eq_ok {fields : List ItemField} {declared : List DeclaredField}
    (h : List.Forall₂ ItemField.Declares fields declared) (hfront : Consistent LoopInsists front)
    {known : AliasTable} {decls : List FieldDecl} :
    declareFields (reprTable front) fields = .ok (known, decls) ↔
      Consistent LoopInsists (front ++ declared) ∧ known = reprTable (front ++ declared) ∧
        decls = declared.map (·.decl) := by
  -- What was noted so far is the table of the fields in front.
  induction h generalizing front decls with
  | nil =>
    rw [declareFields, List.append_nil, and_iff_right hfront, Except.ok.injEq, Prod.mk.injEq]
    exact and_congr eq_comm eq_comm
  | @cons field d rest declared hfield _ ih =>
    have hsplit : front ++ d :: declared = (front ++ [d]) ++ declared := by simp
    rw [declareFields, declareField_eq hfield, hsplit]
    constructor
    · intro hrun
      obtain ⟨⟨next, decl⟩, hfirst, hrun⟩ := bind_eq_ok.mp hrun
      obtain ⟨⟨last, more⟩, hmore, hresult⟩ := bind_eq_ok.mp hrun
      cases hnote : noteRepr (reprTable front) d.leaf d.repr with
      | error e =>
        -- Nothing is declared behind a field that does not go with those in front.
        rw [hnote] at hfirst
        cases hfirst
      | ok noted =>
        obtain ⟨hfits, rfl⟩ := (noteRepr_eq_ok hfront).mp hnote
        rw [hnote] at hfirst
        cases hfirst
        cases hresult
        obtain ⟨hall, hknown, rfl⟩ := (ih (consistent_snoc.mpr ⟨hfront, hfits⟩)).mp hmore
        exact ⟨hall, hknown, rfl⟩
    · rintro ⟨hall, rfl, rfl⟩
      have hsnoc := consistent_front hall
      have hnote := (noteRepr_eq_ok hfront).mpr ⟨(consistent_snoc.mp hsnoc).2, rfl⟩
      rw [hnote]
      show (declareFields (reprTable (front ++ [d])) rest >>= _) = _
      rw [(ih hsnoc).mpr ⟨hall, rfl, rfl⟩]
      rfl

/-! ## The codec of an item -/

/-- A name has to be told about that is no kind. -/
abbrev IsNoKind (name : String) : Prop := ScalarKind.isKindName name = false

/-- Only a primitive without a wire form has to be told about and is not insisted on, and no struct
that has one is compiled. -/
theorem consistent_iff_of_bind {declared : List DeclaredField} {aliases : AliasTable}
    {name : String} {type : StructType}
    (h : StructType.bind aliases ⟨name, declared.map (·.decl)⟩ = .ok type) :
    Consistent LoopInsists declared ↔ Consistent IsNoKind declared := by
  -- The name at the core of every field was resolved, so it is no primitive without a wire form.
  have hsame (d : DeclaredField) (hd : d ∈ declared) : LoopInsists d.leaf ↔ IsNoKind d.leaf := by
    obtain ⟨field, -, hkeeps⟩ := exists_right_of_mem (StructType.keeps_of_bind h).2
      (List.mem_map_of_mem hd)
    have helement := hkeeps.element
    unfold AliasTable.resolve at helement
    unfold LoopInsists IsNoKind mayStandForKind ScalarKind.isKindName
    split at helement
    · rename_i kind hlookup
      simp [hlookup]
    · rename_i hlookup
      simp [hlookup]
    · cases helement
  have hfirst (insists insists' : String → Prop)
      (hsame : ∀ d ∈ declared, insists' d.leaf → insists d.leaf)
      (hconsistent : Consistent insists declared) : Consistent insists' declared := by
    refine ⟨hconsistent.kinds, fun name d hmust hfound => ?_, hconsistent.same⟩
    have hleaf : d.leaf = name := by simpa using List.find?_some hfound
    subst hleaf
    exact hconsistent.first d.leaf d (hsame d (List.mem_of_find?_eq_some hfound) hmust) hfound
  exact ⟨hfirst _ _ fun d hd => (hsame d hd).mpr, hfirst _ _ fun d hd => (hsame d hd).mp⟩

/-- Declaring an item succeeds exactly if its fields are consistent. -/
theorem declare_eq_ok {item : Item} {style : Style} {declared : List DeclaredField}
    (h : item.Declares style declared) {given : Style} {known : AliasTable} {decl : StructDecl} :
    declare item = .ok (given, known, decl) ↔ Consistent LoopInsists declared ∧
      given = style ∧ known = reprTable declared ∧ decl = ⟨item.name, declared.map (·.decl)⟩ := by
  obtain ⟨fields, hbody, hfields⟩ := h.fields
  obtain ⟨options, hoptions, hstyle⟩ := h.names
  have hplain : plainFields item = .ok fields := by
    rw [plainFields, hbody, h.plain]
    rfl
  have hdeclare (known : AliasTable) (decls : List FieldDecl) :=
    @declareFields_eq_ok [] fields declared hfields (consistent_nil _) known decls
  rw [declare, hplain, ok_bind, hoptions, ok_bind, ← hstyle]
  constructor
  · intro hrun
    obtain ⟨⟨last, decls⟩, hmore, hresult⟩ := bind_eq_ok.mp hrun
    cases hresult
    obtain ⟨hall, hknown, rfl⟩ := (hdeclare _ _).mp hmore
    exact ⟨hall, rfl, hknown, rfl⟩
  · rintro ⟨hall, rfl, rfl, rfl⟩
    show (declareFields (reprTable []) fields >>= _) = _
    rw [(hdeclare _ _).mpr ⟨hall, rfl, rfl⟩]
    rfl

/-- The style of the code of an item: the names as they are written in code. -/
def spelledStyle (style : Style) : Style :=
  { style with
    readName := (spelledName? style.readName).getD style.readName
    writeName := (spelledName? style.writeName).getD style.writeName }

/-- An item has a codec exactly if its fields are consistent and its struct binds. -/
theorem codec_eq_ok {item : Item} {style : Style} {declared : List DeclaredField}
    (h : item.Declares style declared) {result : Style × Codec} :
    codec item = .ok result ↔ Consistent IsNoKind declared ∧ ∃ type,
      StructType.bind (reprTable declared) ⟨item.name, declared.map (·.decl)⟩ = .ok type ∧
      unreadableCode? style type = none ∧ result = (spelledStyle style, type.compile) := by
  constructor
  · intro hrun
    obtain ⟨⟨given, known, decl⟩, hdeclare, hrun⟩ := bind_eq_ok.mp hrun
    obtain ⟨hconsistent, rfl, rfl, rfl⟩ := (declare_eq_ok h).mp hdeclare
    obtain ⟨type, hbind, hrun⟩ := bind_eq_ok.mp hrun
    rw [mapError_eq_ok] at hbind
    refine ⟨(consistent_iff_of_bind hbind).mp hconsistent, type, hbind, ?_⟩
    cases hread : unreadableCode? given type with
    | some reason =>
      rw [hread] at hrun
      cases hrun
    | none =>
      rw [hread] at hrun
      cases hrun
      exact ⟨rfl, rfl⟩
  · rintro ⟨hconsistent, type, hbind, hread, rfl⟩
    have hdeclare := (declare_eq_ok h).mpr
      ⟨(consistent_iff_of_bind hbind).mpr hconsistent, rfl, rfl, rfl⟩
    rw [codec, hdeclare, ok_bind]
    dsimp only
    rw [mapError_eq_ok.mpr hbind, ok_bind, hread]
    rfl

/-- An item expands exactly when its fields are consistent, the struct is compiled with what they
are told to stand for, and the code can be read once more; it expands to the tokens of the code of
that struct, with the given names or those that are usual. -/
theorem expands_iff_consistent {item : Item} {style : Style} {declared : List DeclaredField}
    (h : item.Declares style declared) (text : String) :
    (codec item).map (fun result => tokenText result.1 result.2) = .ok text ↔
      Consistent IsNoKind declared ∧ ∃ type,
        StructType.bind (reprTable declared) ⟨item.name, declared.map (·.decl)⟩ = .ok type ∧
        unreadableCode? style type = none ∧
        text = tokenText (spelledStyle style) type.compile := by
  have hcodec (result : Style × Codec) := @codec_eq_ok item style declared h result
  constructor
  · intro hrun
    cases hresult : codec item with
    | error e =>
      rw [hresult] at hrun
      cases hrun
    | ok result =>
      rw [hresult] at hrun
      cases hrun
      obtain ⟨hconsistent, type, hbind, hread, rfl⟩ := (hcodec result).mp hresult
      exact ⟨hconsistent, type, hbind, hread, rfl⟩
  · rintro ⟨hconsistent, type, hbind, hread, rfl⟩
    rw [(hcodec _).mpr ⟨hconsistent, type, hbind, hread, rfl⟩]
    rfl

/-- An item with a type that is used twice. -/
def recordItem : Item where
  attributes := [⟨some "wire", .arguments
    [.word "read_fn" false, .mark '=' false, .literal (.text "get")]⟩]
  name := "Record"
  isGeneric := false
  body := .named
    [⟨[⟨some "wire", .arguments [.word "repr" false, .mark '=' false, .literal (.text "u16")]⟩],
      "kind", .name 1 "Kind" false⟩,
     ⟨[], "former", .array (.name 1 "Kind" false) (.number 2)⟩,
     ⟨[], "level", .name 1 "u8" false⟩]

def recordFields : List DeclaredField :=
  [⟨⟨"kind", .named "Kind", none⟩, some "u16"⟩,
   ⟨⟨"former", .array (.named "Kind") 2, none⟩, none⟩,
   ⟨⟨"level", .named "u8", none⟩, none⟩]

def recordStyle : Style := { Style.standard with readName := "get" }

theorem expands_iff_consistent_record :
    recordItem.Declares recordStyle recordFields ∧ Consistent IsNoKind recordFields ∧ ∃ type,
      StructType.bind (reprTable recordFields) ⟨"Record", recordFields.map (·.decl)⟩ = .ok type ∧
      (codec recordItem).map (fun result => tokenText result.1 result.2) =
        .ok (tokenText recordStyle type.compile) := by
  have hdeclares : recordItem.Declares recordStyle recordFields := by
    refine ⟨⟨_, rfl, ?_⟩, rfl, [("read_fn", "get")], by decide +kernel, by decide⟩
    refine .cons ⟨rfl, by decide, [("repr", "u16")], by decide +kernel, by decide⟩ ?_
    refine .cons ⟨rfl, by decide, [], by decide +kernel, by decide⟩ ?_
    exact .cons ⟨rfl, by decide, [], by decide +kernel, by decide⟩ .nil
  have hconsistent : Consistent IsNoKind recordFields := by
    have hkind : Consistent IsNoKind (recordFields.take 1) :=
      consistent_snoc.mpr ⟨consistent_nil _, by decide, by decide, by decide⟩
    have hformer : Consistent IsNoKind (recordFields.take 1 ++ [recordFields[1]]) :=
      consistent_snoc.mpr ⟨hkind, by decide, by decide, by decide⟩
    exact (@consistent_snoc _ _ recordFields[2]).mpr ⟨hformer, by decide, by decide, by decide⟩
  have hspelled : spelledStyle recordStyle = recordStyle := by decide +kernel
  refine ⟨hdeclares, hconsistent, _, rfl, ?_⟩
  rw [← hspelled]
  exact (expands_iff_consistent hdeclares _).mpr ⟨hconsistent, _, rfl, by decide +kernel, rfl⟩

end WireCodec.Derive
