import Classlet.Codec.Decoder
import Classlet.Symbols.Table

/-!
# Symbol tables as JSON
-/

namespace Classlet.Codec

/-- Reads a static type. -/
def ty : Decoder Ty := record ["name", "is_array"] fun r fields => do
  match fields with
  | [name, isArray] => return ⟨← required string r name, ← required boolean r isArray⟩
  | _ => none

/-- Writes a static type. -/
def encodeTy (t : Ty) : Json := .obj [("name", .str t.name), ("is_array", .bool t.isArray)]

/-- Reads a symbol. -/
def symbol : Decoder Symbol := record ["name", "ty", "is_varargs"] fun r fields => do
  match fields with
  | [name, t, isVarargs] =>
    return ⟨← required string r name, ← required ty r t,
      ← required boolean r isVarargs⟩
  | _ => none

/-- Writes a symbol. -/
def encodeSymbol (s : Symbol) : Json :=
  .obj [("name", .str s.name), ("ty", encodeTy s.ty), ("is_varargs", .bool s.isVarargs)]

/-- Reads a signature. -/
def signature : Decoder Signature :=
  record ["name", "return_type", "params", "locals", "is_public", "is_static"]
    fun r fields => do
      match fields with
      | [name, returnType, params, locals, isPublic, isStatic] =>
        return ⟨← required string r name, ← required ty r returnType,
          ← required (list symbol) r params, ← required (list symbol) r locals,
          ← required boolean r isPublic, ← required boolean r isStatic⟩
      | _ => none

/-- Writes a signature. -/
def encodeSignature (s : Signature) : Json :=
  .obj [("name", .str s.name), ("return_type", encodeTy s.returnType),
    ("params", .ofList encodeSymbol s.params), ("locals", .ofList encodeSymbol s.locals),
    ("is_public", .bool s.isPublic), ("is_static", .bool s.isStatic)]

/-- Reads a symbol table. -/
def symbolTable : Decoder SymbolTable :=
  record ["imports", "class_name", "superclass", "fields", "methods", "signatures"]
    fun r fields => do
      match fields with
      | [imports, className, superclass, symbols, methods, signatures] =>
        return ⟨← required (list string) r imports, ← required string r className,
          ← optional string r superclass, ← required (list symbol) r symbols,
          ← required (list string) r methods,
          ← required (list signature) r signatures⟩
      | _ => none

/-- Writes a symbol table. -/
def encodeSymbolTable (t : SymbolTable) : Json :=
  .obj [("imports", .strings t.imports), ("class_name", .str t.className),
    ("superclass", .ofOption .str t.superclass), ("fields", .ofList encodeSymbol t.fields),
    ("methods", .strings t.methods), ("signatures", .ofList encodeSignature t.signatures)]

end Classlet.Codec
