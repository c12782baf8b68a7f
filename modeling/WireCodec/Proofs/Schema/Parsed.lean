import WireCodec.Proofs.Schema.Admission
import WireCodec.Proofs.Source.Lines
import WireCodec.Schema.Load

/-!
# Schemas that were read

What the checks of a schema file promise of the schema: its aliases have names of letters, digits and
underscores, and no two of its structs have the same name.  Targets of aliases and types of fields
are left to the ones who use them.
-/

namespace WireCodec

/-- The names of a schema are in order. -/
structure Schema.Checked (schema : Schema) : Prop where
  aliases : ∀ name ∈ schema.aliases.names, Text.isName name = true
  distinct : schema.names.Nodup

/-- A schema that was read from a file has plain alias names and no struct twice. -/
theorem Schema.checked_of_parse {format : FileFormat} {text : String} {schema : Schema}
    (h : Schema.parse format text = .ok schema) : schema.Checked := by
  unfold Schema.parse at h
  split at h
  · cases h
  · rename_i file _
    cases hschema : file.toSchema with
    | error fault =>
      rw [hschema] at h
      cases h
    | ok read =>
      rw [hschema] at h
      cases h
      obtain ⟨hplain, haliases, hdistinct, -⟩ := SchemaFile.toSchema_eq_ok.mp hschema
      refine ⟨fun name hname => ?_, hdistinct⟩
      -- The names of the table are those of the entries that were checked.
      rw [← NameTable.isSome_get?, haliases, SchemaFile.get?_trimmedAliases, Option.isSome_map,
        NameTable.isSome_get?] at hname
      obtain ⟨e, he, rfl⟩ := List.mem_map.mp hname
      exact isName_iff.mpr (hplain e he).1

/-- A schema with one alias and one struct, which has one field declared by the alias. -/
def Schema.small (name target owner field : String) : Schema where
  aliases := .ofList [(name, target)]
  structs := [⟨owner, [⟨field, .named name, none⟩]⟩]

def Schema.smallText (name target owner field : String) : String :=
  unlines ["[aliases]", s!"{name} = \"{target}\"", "[[structs]]", s!"name = \"{owner}\"",
    "[[structs.fields]]", s!"name = \"{field}\"", s!"type = \"{name}\""]

theorem parse_smallText_count :
    Schema.parse .toml (Schema.smallText "Count" "u16" "Packet" "total") =
      .ok (Schema.small "Count" "u16" "Packet" "total") := by
  decide +kernel

end WireCodec
