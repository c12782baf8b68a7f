import WireCodec.Procedure.Codec

/-!
# Reports

What was compiled in one go, with the size of each struct.
-/

namespace WireCodec

structure ReportEntry where
  name : String
  fixedSize : Nat
  /-- True when every record takes that many bytes. -/
  isFixed : Bool
  deriving DecidableEq, Repr

abbrev Report := List ReportEntry

def Codec.reportEntry (c : Codec) : ReportEntry := ⟨c.name, c.fixedSize, c.isFixedSize⟩

def padEnd (width : Nat) (text : String) : String :=
  text ++ String.ofList (List.replicate (width - text.length) ' ')

def padStart (width : Nat) (text : String) : String :=
  String.ofList (List.replicate (width - text.length) ' ') ++ text

/-- A line of a report: the name in 24 columns, the size in 6, both longer where they must be. -/
def ReportEntry.text (e : ReportEntry) : String :=
  s!"  [OK] {padEnd 24 e.name} {padStart 6 (toString e.fixedSize)} bytes " ++
    (if e.isFixed then "(fixed)" else "(variable)")

def Report.text (report : Report) : String :=
  String.join (report.map (·.text ++ "\n")) ++ s!"  {report.length} struct(s) generated"

end WireCodec
