import WireCodec.NameSet
import WireCodec.Source.Codec

/-!
# Generated files

A generated file collects a section for each codec that it is given.  In front of the sections it
defines the aliases that occur in them, in the order of their names, unless the definitions are left
to the one who includes the file.
-/

namespace WireCodec.Source

structure File where
  style : Style
  /-- True when structs and aliases are to be defined. -/
  withStructs : Bool
  aliases : NameTable ScalarKind
  sections : List String

namespace File

def start (style : Style) (withStructs : Bool) : File := ⟨style, withStructs, .empty, []⟩

/-- The alias of a field, and what it stands for. -/
def aliasOf (field : Field) : Option (String × ScalarKind) :=
  let element := field.type.element
  element.aliasName.map (·, element.kind)

def sectionOf (f : File) (c : Codec) : String :=
  (if f.withStructs then "#[allow(dead_code)]\n" else "") ++ codecText f.style f.withStructs c

def add (f : File) (c : Codec) : File :=
  { f with
    aliases :=
      if f.withStructs then
        (c.fields.filterMap aliasOf).foldl (fun t (name, kind) => t.set name kind) f.aliases
      else f.aliases
    sections := f.sections ++ [f.sectionOf c] }

def aliasesInOrder (f : File) : List (String × ScalarKind) :=
  (NameSet.ofList f.aliases.names).toList.filterMap fun name =>
    (f.aliases.get? name).map (name, ·)

/-- The remark in front; it says which file the code was made from. -/
def header (f : File) (source : String) : String :=
  s!"// Code generated by structwire-gen; DO NOT EDIT.\n// Source: {source}\n" ++
    (if f.withStructs then ""
      else "//\n// Impl blocks only: include!() this file where the structs are defined.\n")

def text (f : File) (source : String) : String :=
  f.header source ++
    String.join (f.aliasesInOrder.map fun (name, kind) => "\n" ++ aliasText name kind) ++
    String.join (f.sections.map ("\n" ++ ·))

end File

end WireCodec.Source
