import WireCodec.Derive.Codec
import WireCodec.Proofs.Batch.Delivery
import WireCodec.Proofs.Derive.Words
import WireCodec.Proofs.Settings.Valid

/-!
# Chosen names

The names of the two procedures come from settings or from the options of an item.  Settings let
keywords pass; options let equal names pass.
-/

namespace WireCodec

namespace Derive

open Source

/-! ## Names from options -/

section Options

variable {check : Option String → Except DeriveError String}
  {checkText : String → Except DeriveError Unit}

/-- Every option that is read has passed the check of its text. -/
theorem checked_of_readOptions {n : Nat} {tokens : List Token} {options : Options}
    (h : readOptions check checkText n tokens = .ok options) :
    ∀ option ∈ options, checkText option.2 = .ok () := by
  induction n generalizing tokens options with
  | zero =>
    cases h
    simp
  | succ n ih =>
    cases tokens with
    | nil =>
      cases h
      simp
    | cons token tokens =>
      rw [readOptions] at h
      · obtain ⟨⟨found, behindName⟩, -, h⟩ := bind_eq_ok.mp h
        obtain ⟨name, -, h⟩ := bind_eq_ok.mp h
        obtain ⟨⟨value, rest⟩, -, h⟩ := bind_eq_ok.mp h
        obtain ⟨⟨⟩, hvalue, h⟩ := bind_eq_ok.mp h
        split at h
        · cases h
          simpa using hvalue
        · obtain ⟨more, hmore, h⟩ := bind_eq_ok.mp h
          cases h
          exact List.forall_mem_cons.mpr ⟨hvalue, ih hmore⟩
        · cases h
      · simp

theorem checked_of_optionsOf {attributes : List Attribute} {options : Options}
    (h : optionsOf check checkText attributes = .ok options) :
    ∀ option ∈ options, checkText option.2 = .ok () := by
  obtain ⟨lists, hlists, h⟩ := bind_eq_ok.mp h
  cases h
  intro option hoption
  obtain ⟨list, hlist, hoption⟩ := List.mem_flatten.mp hoption
  obtain ⟨a, -, ha⟩ := exists_left_of_mem (mapM_eq_ok_iff.mp hlists) hlist
  split at ha
  · cases ha
  · cases ha
  · exact checked_of_readOptions ha option hoption

end Options

/-- Every option of a struct spells a name. -/
theorem spelled_of_structOptions {attributes : List Attribute} {options : Options}
    (h : structOptions attributes = .ok options) :
    ∀ option ∈ options, (spelledName? option.2).isSome = true := by
  intro option hoption
  have hchecked := checked_of_optionsOf h option hoption
  split at hchecked
  · assumption
  · cases hchecked

theorem mem_of_lastText? {options : Options} {name text : String}
    (h : lastText? options name = some text) : (name, text) ∈ options := by
  obtain ⟨front, back, hsplit, -⟩ := List.lookup_eq_some_iff.mp h
  rw [← List.mem_reverse, hsplit]
  simp

/-- What is given for a name spells one, and so does what is taken if nothing is given. -/
theorem spelled_given {attributes : List Attribute} {options : Options}
    (h : structOptions attributes = .ok options) {standard : String}
    (hstandard : (spelledName? standard).isSome = true) (name : String) :
    (spelledName? ((lastText? options name).getD standard)).isSome = true := by
  cases hgiven : lastText? options name with
  | none => exact hstandard
  | some text =>
    rw [Option.getD_some]
    exact spelled_of_structOptions h (name, text) (mem_of_lastText? hgiven)

/-- A name that can be written in code is legal, unless it is a word reserved later. -/
theorem legalMember_spelled {s : String} (h : (spelledName? s).isSome = true) :
    LegalMember ((spelledName? s).getD s) ∨ (spelledName? s).getD s = "gen" := by
  obtain ⟨name, hname⟩ := Option.isSome_iff_exists.mp h
  rw [hname]
  exact legalMember_of_spelledName? hname

/-- The names of a codec that was derived may be those of members, but for one keyword. -/
theorem legalMember_of_codec {item : Item} {style : Style} {c : Codec}
    (h : codec item = .ok (style, c)) :
    (LegalMember style.readName ∨ style.readName = "gen") ∧
      (LegalMember style.writeName ∨ style.writeName = "gen") := by
  -- The options are checked on the way to the codec, and the names are the ones they give.
  obtain ⟨⟨declared, aliases, decl⟩, hdeclare, hcodec⟩ := bind_eq_ok.mp h
  obtain ⟨fields, -, hfields⟩ := bind_eq_ok.mp hdeclare
  obtain ⟨options, hoptions, hstyle⟩ := bind_eq_ok.mp hfields
  obtain ⟨⟨known, decls⟩, -, hdeclared⟩ := bind_eq_ok.mp hstyle
  cases hdeclared
  obtain ⟨type, -, hresult⟩ := bind_eq_ok.mp hcodec
  split at hresult
  · cases hresult
  · cases hresult
    exact ⟨legalMember_spelled (spelled_given hoptions (by decide +kernel) "read_fn"),
      legalMember_spelled (spelled_given hoptions (by decide +kernel) "write_fn")⟩

end Derive

open Source

theorem isWordChar_of_name {name : String} (h : Text.isName name = true) :
    ∀ c ∈ name.toList, Target.isWordChar c = true := fun _ hc =>
  Target.isWordChar_of_textWordChar (isWordChar_of_isName h hc)

/-- Legal names are one word for a reader of code. -/
theorem isWordChar_of_legal {name : String} (h : LegalMember name ∨ name = "gen") :
    ∀ c ∈ name.toList, Target.isWordChar c = true := by
  rcases h with h | rfl
  · exact fun _ => h.isWordChar
  · exact List.all_eq_true.mp (by decide)

theorem legalMember_iff_ne_gen {name : String} (h : LegalMember name ∨ name = "gen") :
    LegalMember name ↔ name ≠ "gen" := by
  refine ⟨?_, h.resolve_right⟩
  rintro hlegal rfl
  exact ((legalMember_iff_of_isName (by decide)).mp hlegal).1 (by decide)

/-- Valid settings choose two different words, which may be keywords or the name of the constant. -/
theorem Settings.Valid.usable_ownMembers {s : Settings} (h : s.Valid) :
    Usable (ownMembers s.style) ↔
      (s.readName ∉ keywords ∧ s.readName ∉ Text.reservedPaths) ∧
        (s.writeName ∉ keywords ∧ s.writeName ∉ Text.reservedPaths) ∧
        s.readName ≠ "WIRE_FIXED_SIZE" ∧ s.writeName ≠ "WIRE_FIXED_SIZE" := by
  have hread : bareName s.readName = s.readName :=
    bareName_of_word (isIdentifierWord_of_isName h.readName)
  have hwrite : bareName s.writeName = s.writeName :=
    bareName_of_word (isIdentifierWord_of_isName h.writeName)
  rw [Source.usable_ownMembers, Settings.style, hread, hwrite,
    legalMember_iff_of_isName h.readName, legalMember_iff_of_isName h.writeName]
  simp only [ne_eq, h.distinct, not_false_eq_true, true_and]

/-- The block that is generated declares the constant and the two procedures.  Under valid settings
the three names are legal and differ exactly when neither procedure is called by a keyword, by a
word that stands for the enclosing item, or like the constant.  With the options of an item they are
legal and differ exactly when the two procedures are called differently, apart from raw form, and
neither is called like the constant or by the one keyword that options let pass. -/
theorem usable_names_iff (settings : Settings) (item : Derive.Item) :
    (settings.validate = .ok () →
      (∀ c, DeclaresOwn settings.style c) ∧
      (Usable (ownMembers settings.style) ↔
        (settings.readName ∉ keywords ∧ settings.readName ∉ Text.reservedPaths) ∧
          (settings.writeName ∉ keywords ∧ settings.writeName ∉ Text.reservedPaths) ∧
          settings.readName ≠ "WIRE_FIXED_SIZE" ∧ settings.writeName ≠ "WIRE_FIXED_SIZE")) ∧
    ∀ style c, Derive.codec item = .ok (style, c) →
      DeclaresOwn style c ∧
      (Usable (ownMembers style) ↔ style.readName ≠ "gen" ∧ style.writeName ≠ "gen" ∧
        bareName style.readName ≠ bareName style.writeName ∧
        bareName style.readName ≠ "WIRE_FIXED_SIZE" ∧
        bareName style.writeName ≠ "WIRE_FIXED_SIZE") := by
  constructor
  · intro hvalidate
    have hvalid := Settings.validate_eq_ok.mp hvalidate
    exact ⟨fun c => declaresOwn (isWordChar_of_name hvalid.readName)
      (isWordChar_of_name hvalid.writeName), hvalid.usable_ownMembers⟩
  · intro style c hcodec
    obtain ⟨hread, hwrite⟩ := Derive.legalMember_of_codec hcodec
    refine ⟨declaresOwn (isWordChar_of_legal hread) (isWordChar_of_legal hwrite), ?_⟩
    rw [Source.usable_ownMembers, legalMember_iff_ne_gen hread, legalMember_iff_ne_gen hwrite]

/-- An item without fields, and with both options. -/
def packetItem (readName writeName : String) : Derive.Item where
  attributes := [⟨some "wire", .arguments
    [.word "read_fn" false, .mark '=' false, .literal (.text readName), .mark ',' false,
      .word "write_fn" false, .mark '=' false, .literal (.text writeName)]⟩]
  name := "Packet"
  isGeneric := false
  body := .named []

def packetCodec : Codec := (StructType.mk "Packet" []).compile

theorem usable_names_iff_packet :
    Settings.standard.validate = .ok () ∧ Usable (ownMembers Settings.standard.style) ∧
      Derive.codec (packetItem "get" "r#move") =
        .ok (⟨"get", "r#move", Style.standard.derives⟩, packetCodec) ∧
      Usable ["WIRE_FIXED_SIZE", "get", "r#move"] := by
  have hvalid : Settings.standard.validate = .ok () := by decide
  have hcodec : Derive.codec (packetItem "get" "r#move") =
      .ok (⟨"get", "r#move", Style.standard.derives⟩, packetCodec) := by decide +kernel
  obtain ⟨hsettings, hitem⟩ := usable_names_iff Settings.standard (packetItem "get" "r#move")
  exact ⟨hvalid, (hsettings hvalid).2.mpr (by decide), hcodec,
    (hitem _ _ hcodec).2.mpr (by decide)⟩

/-- Settings where the decoding procedures are called by a keyword. -/
def keywordSettings : Settings := { Settings.standard with readName := "self" }

/-- A keyword passes the check of settings, and equal names pass the options. -/
theorem unusable_names_packet :
    keywordSettings.validate = .ok () ∧
      (ownMembers keywordSettings.style).Sublist
        (declaredMembers (implText keywordSettings.style packetCodec)) ∧
      ¬Usable (ownMembers keywordSettings.style) ∧
    Derive.codec (packetItem "copy" "copy") =
        .ok (⟨"copy", "copy", Style.standard.derives⟩, packetCodec) ∧
      ¬Usable ["WIRE_FIXED_SIZE", "copy", "copy"] := by
  have hkeyword : Text.isName "self" = true := by decide
  have hword : Text.isName "write_to" = true := by decide
  refine ⟨by decide, ?_, fun h => ?_, by decide +kernel, fun h => ?_⟩
  · exact ownMembers_sublist (isWordChar_of_name hkeyword) (isWordChar_of_name hword)
  · have hlegal : LegalMember "self" := h.1 "self" (by decide)
    exact ((legalMember_iff_of_isName hkeyword).mp hlegal).2 (by decide)
  · exact absurd h.2 (by decide)

end WireCodec
