import Classlet.Codec.Decoder
import Classlet.Compilation
import Classlet.Json.Parser

/-!
# Options and reports as JSON
-/

namespace Classlet.Codec

/-- The depth to which arrays and objects may be nested in a text. -/
def textLevels : Nat := 127

/-- Reads a value from a text. -/
def Decoder.ofText {α : Type} (d : Decoder α) (text : String) : Option α := do
  d ⟨textLevels, true⟩ (← Json.parse text)

/-! ### Reports -/

/-- The stages by their names. -/
def stages : List (String × Stage) :=
  [("Syntactic", .syntactic), ("Semantic", .semantic), ("Optimization", .optimization)]

/-- The severities by their names. -/
def severities : List (String × Severity) := [("Error", .error), ("Log", .log)]

/-- Reads a stage by its name. -/
def stage : Decoder Stage := oneOf stages

/-- Reads a severity by its name. -/
def severity : Decoder Severity := oneOf severities

/-- A report is read without its cause. -/
def report : Decoder Report :=
  record ["stage", "line", "column", "message", "severity"] fun r fields => do
    match fields with
    | [s, line, column, message, sev] =>
      return ⟨← required stage r s,
        ⟨← required int32 r line, ← required int32 r column⟩,
        ← required string r message, none, ← required severity r sev⟩
    | _ => none

/-- Writes a report without its cause. -/
def encodeReport (r : Report) : Json :=
  .obj [("stage", nameOf stages r.stage), ("line", .int r.position.line),
    ("column", .int r.position.column), ("message", .str r.message),
    ("severity", nameOf severities r.severity)]

/-! ### Options -/

/-- Reads a register mode. -/
def registerMode : Decoder Registers.Mode := variant fun r name content =>
  if name = "disabled" then noContent .disabled content
  else if name = "minimize" then noContent .minimize content
  else if name = "limit" then (required word64 r content).map .limit
  else none

/-- Writes a register mode. -/
def encodeRegisterMode : Registers.Mode → Json
  | .disabled => .str "disabled"
  | .minimize => .str "minimize"
  | .limit available => tagged "limit" (.nat available)

/-- The policies by their names. -/
def policies : List (String × ExternalPolicy) :=
  [("assume_compatible", .assumeCompatible), ("strict", .strict)]

/-- Reads a policy by its name. -/
def policy : Decoder ExternalPolicy := oneOf policies

/-- Options are read with defaults for what is left out. -/
def options : Decoder Options := fun r j => do
  let r ← r.enter
  let defaults : Options := {}
  match ← partialFields ["optimize", "registers", "external_types", "parallel_allocation"] j with
  | [optimize, registers, externalTypes, parallelAllocation] =>
    return ⟨← withDefault defaults.optimize boolean r optimize,
      ← withDefault defaults.registers registerMode r registers,
      ← withDefault defaults.externalTypes policy r externalTypes,
      ← withDefault defaults.parallelAllocation boolean r parallelAllocation⟩
  | _ => none

/-- Writes options. -/
def encodeOptions (o : Options) : Json :=
  .obj [("optimize", .bool o.optimize), ("registers", encodeRegisterMode o.registers),
    ("external_types", nameOf policies o.externalTypes),
    ("parallel_allocation", .bool o.parallelAllocation)]

end Classlet.Codec
