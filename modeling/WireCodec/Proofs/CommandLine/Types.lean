import WireCodec.CommandLine.Run
import WireCodec.Proofs.Generator.Agreement
import WireCodec.Proofs.Settings.Valid

/-!
# Naming the wanted structs

Names between commas are read in two ways.  A selection collects them into a set; a command line
keeps them as a list that goes into the settings, is checked there, and is made a selection last.
Both ways lead to the same selection, over any settings, but only the check refuses a name.
-/

namespace WireCodec

/-! ## Two readers of a list -/

namespace Selection

/-- The tidy names are the trimmed pieces in which something is left. -/
theorem mem_tidy {pieces : List String} {name : String} :
    name ∈ tidy pieces ↔ ∃ piece ∈ pieces, Text.trimmed piece ≠ "" ∧ Text.trimmed piece = name := by
  rw [tidy, List.mem_filter, List.mem_map, decide_eq_true_eq]
  constructor
  · intro ⟨⟨piece, hpiece, hname⟩, hne⟩
    exact ⟨piece, hpiece, hname ▸ hne, hname⟩
  · intro ⟨piece, hpiece, hne, hname⟩
    exact ⟨⟨piece, hpiece, hname⟩, hname ▸ hne⟩

/-- It makes no difference whether names are made a set before or after the choice. -/
theorem ofNames_eq (names : List String) : ofNames names =
    if (NameSet.ofList names).isEmpty || (NameSet.ofList names).contains "all" then .all
    else .only (.ofList names) := by
  have hempty : (NameSet.ofList names).isEmpty = names.isEmpty := by
    apply Bool.eq_iff_iff.mpr
    rw [NameSet.isEmpty, List.isEmpty_iff, List.isEmpty_iff, List.eq_nil_iff_forall_not_mem,
      List.eq_nil_iff_forall_not_mem]
    apply forall_congr'
    intro name
    rw [NameSet.mem_ofList]
  have hall : (NameSet.ofList names).contains "all" = names.contains "all" := by
    apply Bool.eq_iff_iff.mpr
    rw [NameSet.contains, List.contains_iff_mem, List.contains_iff_mem, NameSet.mem_ofList]
  rw [ofNames, hempty, hall]

/-- A list that was cut at its commas selects what the list selects. -/
theorem ofNames_tidy_split (list : String) :
    ofNames (tidy (Text.split ',' list)) = ofText list := by
  rw [ofNames_eq]
  rfl

end Selection

/-! ## Settings with names of their own -/

namespace Settings

/-- Settings that come from a text are valid. -/
theorem valid_of_parse {text : String} {s : Settings} (h : parse text = .ok s) : s.Valid := by
  unfold parse at h
  cases hread : Toml.read text >>= ofDocument? with
  | none =>
    rw [hread] at h
    cases h
  | some found =>
    rw [hread] at h
    dsimp only at h
    cases hcheck : found.validate with
    | error cause =>
      rw [hcheck] at h
      cases h
    | ok passed =>
      rw [hcheck] at h
      cases h
      exact validate_eq_ok.mp hcheck

/-- Where the rest is valid, only the names of structs are left to be checked. -/
theorem Valid.validate_types {s : Settings} (h : s.Valid) (types : List String) :
    { s with types := types }.validate =
      match types.find? (!Text.isName ·) with
      | some name => .error (.badTypeName name)
      | none => .ok () := by
  have hderives : s.derives.find? (!isWordPath ·) = none := by
    rw [List.find?_eq_none]
    intro path hpath
    rw [h.derives path hpath]
    exact Bool.false_ne_true
  unfold validate
  dsimp only
  rw [h.readName, h.writeName, if_neg h.distinct, hderives]
  cases types.find? (!Text.isName ·) <;> rfl

end Settings

namespace CommandLine

/-- Settings that a command starts from are valid, whatever is in the files. -/
theorem baseSettings_valid {tree : FileTree} {config : Option String} {base : Settings}
    (h : (tree.run (baseSettings config)).1 = .ok base) : base.Valid := by
  cases config with
  | none =>
    have hbase : Settings.standard = base := Except.ok.inj h
    exact hbase ▸ Settings.standard_valid
  | some path =>
    have hload : (tree.run (Settings.load path)).1 = .ok base := mapError_eq_ok.mp h
    have hread : tree.run (FileAccess.readText path) = (tree.readText path, tree) := rfl
    rw [Settings.load, Generator.run_bind, hread] at hload
    cases htext : tree.readText path with
    | error cause =>
      rw [htext] at hload
      cases hload
    | ok text =>
      rw [htext] at hload
      exact Settings.valid_of_parse hload

/-- The settings of a command are those it starts from, with other names in them. -/
theorem run_loadSettings (choice : SchemaChoice) (tree : FileTree) :
    (tree.run (loadSettings choice)).1 =
      ((tree.run (baseSettings choice.config)).1 >>= (withTypes · choice.types)) := rfl

/-- A piece of a list that would be a name, but is none. -/
def Misnamed (piece : String) : Prop :=
  Text.trimmed piece ≠ "" ∧ Text.isName (Text.trimmed piece) = false

/-- The error about a name in a list. -/
def misnamedMessages (name : String) : List String :=
  ["Invalid --types", (SettingsFault.badTypeName name).message]

theorem exists_misnamed_iff {pieces : List String} :
    (∃ piece ∈ pieces, Misnamed piece) ↔
      ∃ name, (Selection.tidy pieces).find? (!Text.isName ·) = some name := by
  rw [← Option.isSome_iff_exists, List.find?_isSome]
  constructor
  · intro ⟨piece, hpiece, hne, hname⟩
    refine ⟨Text.trimmed piece, Selection.mem_tidy.mpr ⟨piece, hpiece, hne, rfl⟩, ?_⟩
    rw [hname]
    rfl
  · intro ⟨name, hmem, hname⟩
    obtain ⟨piece, hpiece, hne, rfl⟩ := Selection.mem_tidy.mp hmem
    exact ⟨piece, hpiece, hne, Bool.not_eq_true' _ |>.mp hname⟩

/-- Valid settings take a list of names. -/
theorem withTypes_of_named {base : Settings} (h : base.Valid) {pieces : List String}
    (hnames : (Selection.tidy pieces).find? (!Text.isName ·) = none) :
    withTypes base (some pieces) = .ok { base with types := Selection.tidy pieces } := by
  have hvalid := h.validate_types (Selection.tidy pieces)
  rw [hnames] at hvalid
  dsimp only [withTypes]
  rw [hvalid]

/-- Settings with a misnamed type are refused, and the first such name is told. -/
theorem withTypes_of_misnamed {base : Settings} (h : base.Valid) {pieces : List String}
    {name : String} (hbad : (Selection.tidy pieces).find? (!Text.isName ·) = some name) :
    withTypes base (some pieces) = .error (misnamedMessages name) := by
  have hfault := h.validate_types (Selection.tidy pieces)
  rw [hbad] at hfault
  dsimp only [withTypes]
  rw [hfault]
  rfl

/-- One list of names is cut at its commas. -/
theorem types_of_schemaChoice {given : List Given} {list : String} {choice : SchemaChoice}
    (hlist : valuesOf "types" given = [list]) (hchoice : schemaChoice given = some choice) :
    choice.types = some (Text.split ',' list) := by
  unfold schemaChoice at hchoice
  cases hschema : valueOf? "schema" given with
  | none =>
    rw [hschema] at hchoice
    cases hchoice
  | some schema =>
    rw [hschema] at hchoice
    cases hchoice
    show typesOf given = _
    rw [typesOf, hlist]
    exact congrArg some (List.append_nil _)

/-- One list of names on a command line selects what the list alone selects, whatever the settings
select and leaving them otherwise as they are.  It is refused exactly when one of its pieces would
be a name but is none, also beside `all`; settings that cannot be used are refused with any list. -/
theorem loadSettings_types {given : List Given} {list : String} {choice : SchemaChoice}
    (hlist : valuesOf "types" given = [list]) (hchoice : schemaChoice given = some choice)
    (tree : FileTree) :
    let start := (tree.run (baseSettings choice.config)).1
    let loaded := (tree.run (loadSettings choice)).1
    (∀ settings, loaded = .ok settings → settings.selection = .ofText list ∧
      ∃ base, start = .ok base ∧ settings = { base with types := settings.types }) ∧
    (∀ base, start = .ok base → ((∃ messages, loaded = .error messages) ↔
      ∃ piece ∈ Text.split ',' list, Misnamed piece)) ∧
    (∀ base messages, start = .ok base → loaded = .error messages →
      ∃ piece ∈ Text.split ',' list, Misnamed piece ∧
        messages = misnamedMessages (Text.trimmed piece)) ∧
    ∀ messages, start = .error messages → loaded = .error messages := by
  intro start loaded
  have hloaded : loaded = start >>= (withTypes · (some (Text.split ',' list))) := by
    rw [← types_of_schemaChoice hlist hchoice]
    exact run_loadSettings choice tree
  have hvalid (base : Settings) (h : start = .ok base) : base.Valid := baseSettings_valid h
  clear_value start loaded
  subst hloaded
  cases start with
  | error messages =>
    refine ⟨fun settings h => (by cases h), fun base h => (by cases h),
      fun base messages' h => (by cases h), fun messages' h => ?_⟩
    cases h
    rfl
  | ok base =>
    rw [ok_bind]
    cases hbad : (Selection.tidy (Text.split ',' list)).find? (!Text.isName ·) with
    | some name =>
      rw [withTypes_of_misnamed (hvalid base rfl) hbad]
      have hname := exists_misnamed_iff.mpr ⟨name, hbad⟩
      refine ⟨fun settings h => (by cases h), fun _ _ => ⟨fun _ => hname, fun _ => ⟨_, rfl⟩⟩,
        fun _ messages _ h => ?_, fun messages h => (by cases h)⟩
      cases h
      obtain ⟨piece, hpiece, hne, rfl⟩ := Selection.mem_tidy.mp (List.mem_of_find?_eq_some hbad)
      have hnone := List.find?_some (p := (!Text.isName ·)) hbad
      exact ⟨piece, hpiece, ⟨hne, Bool.not_eq_true' _ |>.mp hnone⟩, rfl⟩
    | none =>
      rw [withTypes_of_named (hvalid base rfl) hbad]
      refine ⟨fun settings h => ?_, fun _ _ => ?_, fun _ messages _ h => (by cases h),
        fun messages h => (by cases h)⟩
      · cases h
        exact ⟨Selection.ofNames_tidy_split list, base, rfl, rfl⟩
      · constructor
        · intro ⟨messages, h⟩
          cases h
        · intro h
          obtain ⟨name, hname⟩ := exists_misnamed_iff.mp h
          rw [hbad] at hname
          cases hname

/-- A list with `all` in it replaces the names in a file of settings, unless it holds a number. -/
theorem loadSettings_types_all :
    let tree := FileTree.empty.addFile "set.toml" "types = [\"Header\"]"
    let choice (types : List String) : SchemaChoice := ⟨"s.toml", some "set.toml", some types⟩
    (∃ settings,
      (tree.run (loadSettings (choice [" Packet", "", "all ", " Packet"]))).1 = .ok settings ∧
      settings.selection = .ofText " Packet,,all , Packet") ∧
    ∃ messages, (tree.run (loadSettings (choice ["all", "9"]))).1 = .error messages := by
  intro tree choice
  have hstart : (tree.run (baseSettings (some "set.toml"))).1 =
      .ok { Settings.standard with types := ["Header"] } := by
    decide +kernel
  have hok : (tree.run (loadSettings (choice [" Packet", "", "all ", " Packet"]))).1 =
      .ok { Settings.standard with types := ["Packet", "all", "Packet"] } := by
    decide +kernel
  obtain ⟨hselects, -⟩ := loadSettings_types
    (show valuesOf "types" [("schema", "s.toml"), ("config", "set.toml"),
      ("types", " Packet,,all , Packet")] = [" Packet,,all , Packet"] by decide +kernel)
    (show schemaChoice _ = some (choice [" Packet", "", "all ", " Packet"]) by decide +kernel) tree
  obtain ⟨-, hrefused, -⟩ := loadSettings_types
    (show valuesOf "types" [("schema", "s.toml"), ("config", "set.toml"), ("types", "all,9")] =
      ["all,9"] by decide +kernel)
    (show schemaChoice _ = some (choice ["all", "9"]) by decide +kernel) tree
  exact ⟨⟨_, hok, (hselects _ hok).1⟩,
    (hrefused _ hstart).mpr ⟨"9", by decide +kernel, by decide +kernel, by decide +kernel⟩⟩

end CommandLine

end WireCodec
